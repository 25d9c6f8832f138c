import Mugglec.Machinery.Steps

/-!
# Event/EvloopExit — stopping an event loop (`event/event_loop.c`, `event/event_signal.c`)

Any thread may call `muggle_evloop_exit`.  The loop's own thread stores `EXIT` to `to_exit`; another
one stores `WAKE` and then writes the wake signal, and the loop turns `WAKE` into `EXIT` when it
handles a wakeup.
-/

namespace Mugglec

open Function

inductive Backend
  | select | poll | epoll
deriving DecidableEq, Repr

inductive ExitCause (T : Type*)
  | direct (t : T)
  | promoted (t : T) (k : ℕ)
deriving DecidableEq, Repr

inductive ExitStatus (T : Type*)
  | none
  | wake (t : T) (k : ℕ)
  | exit (cause : ExitCause T)
deriving DecidableEq, Repr

def ExitStatus.IsExit {T : Type*} : ExitStatus T → Prop
  | .exit _ => True
  | _ => False

instance {T : Type*} (status : ExitStatus T) : Decidable status.IsExit :=
  match status with
  | .exit _ => isTrue trivial
  | .none | .wake _ _ => isFalse not_false

inductive CallerPc
  | idle
  | compare
  | storeWake
  | signal
  | storeExit
  | wakeup
deriving DecidableEq, Repr

inductive LoopPc (T : Type*)
  | created
  | wait
  | dispatch (wake started : Bool)
  | clear
  | cbWake
  | load
  | promote (t : T) (k : ℕ)
  | timer
  | test
  | left (cause : ExitCause T)
deriving DecidableEq, Repr

def LoopPc.UserCode {T : Type*} : LoopPc T → Prop
  | .created | .dispatch _ _ | .cbWake | .timer | .left _ => True
  | _ => False

instance {T : Type*} (pc : LoopPc T) : Decidable pc.UserCode :=
  match pc with
  | .created | .dispatch _ _ | .cbWake | .timer | .left _ => isTrue trivial
  | .wait | .clear | .load | .promote _ _ | .test => isFalse not_false

structure EvloopConfig (T : Type*) where
  creator : T
  runner : T
  backend : Backend
  timeout : ℤ

structure EvloopState (T : Type*) where
  tid : T
  toExit : ExitStatus T
  signal : ℕ
  loop : LoopPc T
  callers : T → CallerPc
  completed : ℕ
  stored : T → ℕ
  signalled : T → ℕ

inductive EvloopStep (T : Type*)
  | exit (t : T)
  | wakeup (t : T)
  | caller (t : T)
  | run
  | ready (wake : Bool)
  | context
  | handleWakeup
  | finish
  | loop
deriving DecidableEq, Repr

namespace EvloopState

variable {T : Type*} [DecidableEq T] (cfg : EvloopConfig T) (s : EvloopState T)

def start : EvloopState T where
  tid := cfg.creator
  toExit := .none
  signal := 0
  loop := .created
  callers := fun _ => .idle
  completed := 0
  stored := fun _ => 0
  signalled := fun _ => 0

def goto (t : T) (pc : CallerPc) : EvloopState T :=
  { s with callers := update s.callers t pc }

def CanCall (t : T) : Prop := s.callers t = .idle ∧ (t = cfg.runner → s.loop.UserCode)

instance (t : T) : Decidable (CanCall cfg s t) :=
  inferInstanceAs (Decidable (_ ∧ _))

def callerStep (t : T) : Option (EvloopState T) :=
  match s.callers t with
  | .idle => none
  | .compare => some (s.goto t (if s.tid = t then .storeExit else .storeWake))
  | .storeWake =>
    some { s.goto t .signal with
      toExit := .wake t (s.stored t + 1)
      stored := update s.stored t (s.stored t + 1) }
  | .signal =>
    some { s.goto t .idle with
      signal := s.signal + 1
      signalled := update s.signalled t (s.signalled t + 1)
      completed := s.completed + 1 }
  | .storeExit =>
    some { s.goto t .idle with toExit := .exit (.direct t), completed := s.completed + 1 }
  | .wakeup => some { s.goto t .idle with signal := s.signal + 1 }

def afterWakeup : LoopPc T :=
  match cfg.backend with
  | .poll => .timer
  | .select | .epoll => .dispatch false true

def loopStep : Option (EvloopState T) :=
  match s.loop with
  | .created | .wait | .dispatch _ _ | .left _ => none
  | .clear => some { s with signal := 0, loop := .cbWake }
  | .cbWake => some { s with loop := .load }
  | .load =>
    match s.toExit with
    | .wake t k => some { s with loop := .promote t k }
    | _ => some { s with loop := afterWakeup cfg }
  | .promote t k => some { s with toExit := .exit (.promoted t k), loop := afterWakeup cfg }
  | .timer => some { s with loop := .test }
  | .test =>
    match s.toExit with
    | .exit cause => some { s with loop := .left cause }
    | _ => some { s with loop := .wait }

def next (a : EvloopStep T) : Option (EvloopState T) :=
  match a with
  | .exit t => if CanCall cfg s t then some (s.goto t .compare) else none
  | .wakeup t => if CanCall cfg s t then some (s.goto t .wakeup) else none
  | .caller t => s.callerStep t
  | .run =>
    match s.loop, s.callers cfg.runner with
    | .created, .idle => some { s with tid := cfg.runner, loop := .wait }
    | _, _ => none
  | .ready wake =>
    match s.loop with
    | .wait =>
      if wake = true → 0 < s.signal then some { s with loop := .dispatch wake false } else none
    | _ => none
  | .context =>
    match s.loop, s.callers cfg.runner with
    | .dispatch wake _, .idle => some { s with loop := .dispatch wake true }
    | _, _ => none
  | .handleWakeup =>
    match s.loop, s.callers cfg.runner with
    | .dispatch true started, .idle =>
      if cfg.backend = .select → started = false then some { s with loop := .clear } else none
    | _, _ => none
  | .finish =>
    match s.loop, s.callers cfg.runner with
    | .dispatch wake _, .idle =>
      -- `poll` stops once it has counted down the reported descriptors, before the signal or not
      if wake = true → cfg.backend = .poll then some { s with loop := .timer } else none
    | _, _ => none
  | .loop =>
    match s.callers cfg.runner with
    | .idle => s.loopStep cfg
    | _ => none

end EvloopState

end Mugglec
