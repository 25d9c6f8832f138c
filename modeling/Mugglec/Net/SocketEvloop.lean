import Mugglec.Machinery.Steps
import Mugglec.Event.EvloopExit

/-!
# Net/SocketEvloop — who holds a socket context (`net/socket_evloop_handle.c`)

A context starts with one reference, which the handle takes over when the context is handed to
`muggle_socket_evloop_add_ctx` or made for an accepted connection.  The handle keeps it in one of
two places until one of its callbacks drops the reference.
-/

namespace Mugglec

open Function

structure CtxRefs where
  refs : ℕ → ℕ
  closes : List ℕ
  frees : List ℕ
  drops : List ℕ
  held : ℕ → ℕ

namespace CtxRefs

variable (r : CtxRefs) (c : ℕ)

def release : CtxRefs :=
  match r.refs c with
  | 0 => r
  | 1 =>
    { r with refs := update r.refs c 0, closes := c :: r.closes, frees := c :: r.frees }
  | n + 2 => { r with refs := update r.refs c (n + 1) }

def releaseCtx : CtxRefs := { r.release c with drops := c :: r.drops }

def retain : CtxRefs :=
  { r with
    refs := update r.refs c (r.refs c + 1)
    held := update r.held c (r.held c + 1) }

def giveUp : CtxRefs := { r.release c with held := update r.held c (r.held c - 1) }

def init : CtxRefs := { r with refs := update r.refs c 1 }

def discard : CtxRefs :=
  { r with
    refs := update r.refs c 0
    closes := c :: r.closes
    frees := c :: r.frees
    drops := c :: r.drops }

end CtxRefs

structure AddOutcome where
  setNonblock : Bool
  append : Bool
  epollCtl : Bool
deriving DecidableEq, Repr

inductive AcceptOutcome
  | wouldBlock
  | failed
  | noContext
  | accepted (o : AddOutcome)
deriving DecidableEq, Repr

inductive RunPhase
  | looping
  | clearing (rest : List ℕ)
  | exiting
  | returned
deriving DecidableEq, Repr

/-- The implementation of the loop, and `hints_max_fd`. -/
structure SocketEvloopConfig where
  backend : Backend
  hintsMaxFd : ℤ

def SocketEvloopConfig.capacity (cfg : SocketEvloopConfig) : ℤ :=
  (if cfg.hintsMaxFd < 1 then 8 else cfg.hintsMaxFd) + 1

structure SocketEvloopState extends CtxRefs where
  queue : List ℕ
  ctxList : List ℕ
  nfd : ℤ
  listens : ℕ → Bool
  closed : ℕ → Bool
  phase : RunPhase
  count : ℕ
  lost : List ℕ

inductive SocketEvloopStep
  | addCtx (listens enqueued : Bool)
  | register (listens : Bool) (o : AddOutcome)
  | wake (o : ℕ → AddOutcome)
  | accept (c : ℕ) (os : List AcceptOutcome)
  | flag (c : ℕ)
  | close (c : ℕ)
  | leave
  | clear
  | exit
  | retain (c : ℕ)
  | giveUp (c : ℕ)

namespace SocketEvloopState

variable (cfg : SocketEvloopConfig) (s : SocketEvloopState)

def start : SocketEvloopState where
  refs := fun _ => 0
  closes := []
  frees := []
  drops := []
  held := fun _ => 0
  queue := []
  ctxList := []
  nfd := 1
  listens := fun _ => false
  closed := fun _ => false
  phase := .looping
  count := 0
  lost := []

def create (listens : Bool) : SocketEvloopState :=
  { s with
    toCtxRefs := s.toCtxRefs.init s.count
    listens := update s.listens s.count listens
    count := s.count + 1 }

def FnAddCtx (o : AddOutcome) : Prop :=
  match cfg.backend with
  | .select => True
  | .poll => s.nfd ≠ cfg.capacity
  | .epoll => o.epollCtl = true

instance (o : AddOutcome) : Decidable (FnAddCtx cfg s o) := by
  unfold FnAddCtx
  exact match cfg.backend with
  | .select => isTrue trivial
  | .poll => inferInstanceAs (Decidable (_ ≠ _))
  | .epoll => inferInstanceAs (Decidable (_ = _))

def evloopAddCtx (o : AddOutcome) (c : ℕ) : Option SocketEvloopState :=
  if o.setNonblock = true ∧ o.append = true ∧ FnAddCtx cfg s o then
    some { s with ctxList := s.ctxList ++ [c], nfd := s.nfd + 1 }
  else none

def addCtx (listens enqueued : Bool) : SocketEvloopState :=
  if enqueued then { s.create listens with queue := s.queue ++ [s.count] }
  else { s.create listens with lost := s.count :: s.lost }

def wakeLoop (o : ℕ → AddOutcome) : List ℕ → SocketEvloopState → SocketEvloopState
  | [], s => s
  | c :: rest, s =>
    match s.evloopAddCtx cfg (o c) c with
    | some s' => wakeLoop o rest { s' with queue := rest }
    | none => wakeLoop o rest { s with queue := rest, lost := c :: s.lost }

def onWake (o : ℕ → AddOutcome) : SocketEvloopState := wakeLoop cfg o s.queue s

def acceptLoop (c : ℕ) : List AcceptOutcome → SocketEvloopState → SocketEvloopState
  | [], s | .wouldBlock :: _, s => s
  | .failed :: _, s => { s with closed := update s.closed c true }
  | .noContext :: _, s => s
  | .accepted o :: os, s =>
    match (s.create false).evloopAddCtx cfg o s.count with
    | some s' => acceptLoop c os s'
    | none => { s.create false with toCtxRefs := (s.create false).discard s.count }

def onClose (c : ℕ) : SocketEvloopState :=
  { s with
    toCtxRefs := s.toCtxRefs.releaseCtx c
    ctxList := s.ctxList.erase c
    nfd := s.nfd - 1 }

def exitLoop : List ℕ → SocketEvloopState → SocketEvloopState
  | [], s => s
  | c :: rest, s => exitLoop rest { s with toCtxRefs := s.toCtxRefs.releaseCtx c, queue := rest }

def onExit : SocketEvloopState := exitLoop s.queue s

def next (a : SocketEvloopStep) : Option SocketEvloopState :=
  match a with
  | .addCtx listens enqueued =>
    if s.phase ≠ .returned then some (s.addCtx listens enqueued) else none
  | .register listens o =>
    if s.phase = .looping then (s.create listens).evloopAddCtx cfg o s.count else none
  | .wake o => if s.phase = .looping then some (s.onWake cfg o) else none
  | .accept c os =>
    if s.phase = .looping ∧ c ∈ s.ctxList ∧ s.listens c = true then some (acceptLoop cfg c os s)
    else none
  | .flag c =>
    if c < s.count then some { s with closed := update s.closed c true } else none
  | .close c =>
    if s.phase = .looping ∧ c ∈ s.ctxList ∧ s.closed c = true then some (s.onClose c) else none
  | .leave =>
    if s.phase = .looping then some { s with phase := .clearing s.ctxList } else none
  | .clear =>
    match s.phase with
    | .clearing (c :: rest) =>
      some { s with toCtxRefs := s.toCtxRefs.releaseCtx c, phase := .clearing rest }
    | .clearing [] => some { s with phase := .exiting }
    | _ => none
  | .exit => if s.phase = .exiting then some { s.onExit with phase := .returned } else none
  | .retain c => if s.refs c ≠ 0 then some { s with toCtxRefs := s.toCtxRefs.retain c } else none
  | .giveUp c => if s.held c ≠ 0 then some { s with toCtxRefs := s.toCtxRefs.giveUp c } else none

end SocketEvloopState

end Mugglec
