import Mugglec.Event.EvloopExit

/-!
# Net/SocketEvloopAdd — handing a context to a loop from another thread

`muggle_socket_evloop_add_ctx` puts the context into a queue under a mutex and then writes the wake
signal; the loop clears the signal and only then empties the queue, under the same mutex.
-/

namespace Mugglec

open Function

/-- Where a thread is in `muggle_socket_evloop_add_ctx`. -/
inductive AdderPc (C : Type*)
  | idle
  | lock (ctx : C)
  | enqueue (ctx : C)
  | unlock
  | wakeup
deriving DecidableEq, Repr

instance {C : Type*} (pc : AdderPc C) : Decidable (pc = .idle) :=
  match pc with
  | .idle => isTrue rfl
  | .lock _ | .enqueue _ | .unlock | .wakeup => isFalse nofun

inductive QueueCb
  | onWake | onExit
deriving DecidableEq, Repr

inductive DrainPc
  | idle
  | lock (cb : QueueCb)
  | test (cb : QueueCb)
  | front (cb : QueueCb)
  | dequeue (cb : QueueCb)
  | unlock (cb : QueueCb)
  | user
deriving DecidableEq, Repr

def DrainPc.UserCode : DrainPc → Prop
  | .idle | .front _ | .user => True
  | _ => False

instance (pc : DrainPc) : Decidable pc.UserCode :=
  match pc with
  | .idle | .front _ | .user => isTrue trivial
  | .lock _ | .test _ | .dequeue _ | .unlock _ => isFalse not_false

structure CtxQueueState (T C : Type*) extends EvloopState T where
  queue : List C
  mtx : Option T
  adders : T → AdderPc C
  drain : DrainPc
  enqueued : List C
  taken : List (QueueCb × C)

inductive CtxQueueStep (T C : Type*)
  | evloop (a : EvloopStep T)
  | add (t : T) (ctx : C)
  | adder (t : T) (node : Bool)
  | drain
deriving DecidableEq, Repr

namespace CtxQueueState

variable {T C : Type*} [DecidableEq T] (cfg : EvloopConfig T) (s : CtxQueueState T C)

def start : CtxQueueState T C where
  toEvloopState := EvloopState.start cfg
  queue := []
  mtx := none
  adders := fun _ => .idle
  drain := .idle
  enqueued := []
  taken := []

def entry (pc : LoopPc T) : DrainPc :=
  match pc with
  | .cbWake => .lock .onWake
  | .left _ => .lock .onExit
  | _ => .idle

def CanCall (t : T) : Prop :=
  s.toEvloopState.CanCall cfg t ∧ s.adders t = .idle ∧ (t = cfg.runner → s.drain.UserCode)

instance (t : T) : Decidable (CanCall cfg s t) :=
  inferInstanceAs (Decidable (_ ∧ _ ∧ _))

def goto (t : T) (pc : AdderPc C) : CtxQueueState T C :=
  { s with adders := update s.adders t pc }

def adderStep (t : T) (node : Bool) : Option (CtxQueueState T C) :=
  match s.adders t with
  | .idle => none
  | .lock ctx => if s.mtx = none then some { s.goto t (.enqueue ctx) with mtx := some t } else none
  | .enqueue ctx =>
    if node then
      some { s.goto t .unlock with queue := s.queue ++ [ctx], enqueued := s.enqueued ++ [ctx] }
    else some (s.goto t .unlock)
  | .unlock => some { s.goto t .wakeup with mtx := none }
  | .wakeup => some { s.goto t .idle with signal := s.signal + 1 }

def drainStep : Option (CtxQueueState T C) :=
  match s.drain with
  | .idle | .user => none
  | .lock cb =>
    if s.mtx = none then some { s with drain := .test cb, mtx := some cfg.runner } else none
  | .test cb => some { s with drain := if s.queue.length > 0 then .front cb else .unlock cb }
  | .front cb => some { s with drain := .dequeue cb }
  | .dequeue cb =>
    match s.queue with
    | [] => some { s with drain := .test cb }
    | ctx :: rest =>
      some { s with drain := .test cb, queue := rest, taken := s.taken ++ [(cb, ctx)] }
  | .unlock _ => some { s with drain := .user, mtx := none }

def next (a : CtxQueueStep T C) : Option (CtxQueueState T C) :=
  match a with
  | .evloop (.exit t) =>
    if CanCall cfg s t then
      (s.toEvloopState.next cfg (.exit t)).map fun b => { s with toEvloopState := b }
    else none
  | .evloop (.wakeup t) =>
    if CanCall cfg s t then
      (s.toEvloopState.next cfg (.wakeup t)).map fun b => { s with toEvloopState := b }
    else none
  | .evloop (.caller t) => (s.callerStep t).map fun b => { s with toEvloopState := b }
  | .evloop a =>
    -- the loop goes on when its thread has returned from the handle's callback
    if s.adders cfg.runner = .idle ∧ (s.drain = .idle ∨ s.drain = .user) then
      (s.toEvloopState.next cfg a).map fun b =>
        { s with toEvloopState := b, drain := entry b.loop }
    else none
  | .add t ctx => if CanCall cfg s t then some (s.goto t (.lock ctx)) else none
  | .adder t node => s.adderStep t node
  | .drain =>
    if s.adders cfg.runner = .idle ∧ s.callers cfg.runner = .idle then s.drainStep cfg else none

end CtxQueueState

def AdderPc.Signalling {C : Type*} : AdderPc C → Prop
  | .unlock | .wakeup => True
  | _ => False

def AdderPc.Critical {C : Type*} : AdderPc C → Prop
  | .enqueue _ | .unlock => True
  | _ => False

def DrainPc.Draining : DrainPc → Prop
  | .lock .onWake | .test .onWake | .front .onWake | .dequeue .onWake => True
  | _ => False

def DrainPc.Critical : DrainPc → Prop
  | .test _ | .front _ | .dequeue _ | .unlock _ => True
  | _ => False

namespace EvloopState

variable {T : Type*} {cfg : EvloopConfig T} {s s' : EvloopState T}

theorem loopStep_frame (hnext : s.loopStep cfg = some s') :
    s'.loop = .cbWake ∨ s'.signal = s.signal := by
  rw [loopStep] at hnext
  cases hpc : s.loop <;> simp only [hpc, reduceCtorEq, Option.some.injEq] at hnext
  case clear =>
    subst hnext
    exact .inl rfl
  case load =>
    cases hexit : s.toExit <;> simp only [hexit, Option.some.injEq] at hnext <;> subst hnext <;>
      exact .inr rfl
  case test =>
    cases hexit : s.toExit <;> simp only [hexit, Option.some.injEq] at hnext <;> subst hnext <;>
      exact .inr rfl
  all_goals
    subst hnext
    exact .inr rfl

variable [DecidableEq T]

theorem callerStep_frame {t : T} (hnext : s.callerStep t = some s') :
    s'.loop = s.loop ∧ s.signal ≤ s'.signal := by
  rw [callerStep] at hnext
  cases hpc : s.callers t <;> simp only [hpc, reduceCtorEq, Option.some.injEq] at hnext <;>
    subst hnext
  case signal => exact ⟨rfl, Nat.le_succ _⟩
  case wakeup => exact ⟨rfl, Nat.le_succ _⟩
  all_goals exact ⟨rfl, le_refl _⟩

theorem signal_frame {a : EvloopStep T} (hnext : s.next cfg a = some s') :
    s'.loop = .cbWake ∨ s.signal ≤ s'.signal := by
  cases a with
  | caller t => exact .inr (callerStep_frame hnext).2
  | loop =>
    rw [next] at hnext
    cases hidle : s.callers cfg.runner <;> simp only [hidle, reduceCtorEq] at hnext
    exact (loopStep_frame hnext).imp_right Eq.ge
  | exit t | wakeup t =>
    simp only [next, Option.ite_none_right_eq_some, Option.some.injEq] at hnext
    obtain ⟨-, rfl⟩ := hnext
    exact .inr (le_refl _)
  | run | context =>
    rw [next] at hnext
    split at hnext
    · cases hnext
      exact .inr (le_refl _)
    · cases hnext
  | ready | handleWakeup | finish =>
    rw [next] at hnext
    split at hnext
    · split_ifs at hnext
      cases hnext
      exact .inr (le_refl _)
    · cases hnext

end EvloopState

namespace CtxQueueState

variable {T C : Type*} {cfg : EvloopConfig T} {s s' : CtxQueueState T C}

def Attended (signal : ℕ) (drain : DrainPc) (adders : T → AdderPc C) : Prop :=
  0 < signal ∨ drain.Draining ∨ ∃ t, (adders t).Signalling

structure QueueInv (cfg : EvloopConfig T) (s : CtxQueueState T C) : Prop where
  attended : s.queue ≠ [] → Attended s.signal s.drain s.adders
  draining : s.drain.Draining → s.loop = .cbWake
  inCallback : s.drain ≠ .idle → s.loop.UserCode
  inCall : s.adders cfg.runner ≠ .idle → s.loop.UserCode
  adder : ∀ t, (s.adders t).Critical → s.mtx = some t ∧ ¬ s.drain.Critical
  drain : s.drain.Critical → s.mtx = some cfg.runner
  accounted : s.taken.map Prod.snd ++ s.queue = s.enqueued

theorem queueInv_start (cfg : EvloopConfig T) : QueueInv cfg (start cfg : CtxQueueState T C) where
  attended := fun h => absurd rfl h
  draining := False.elim
  inCallback := fun h => absurd rfl h
  inCall := fun h => absurd rfl h
  adder := fun _ => False.elim
  drain := False.elim
  accounted := rfl

theorem QueueInv.called (h : QueueInv cfg s) {b : EvloopState T} (hloop : b.loop = s.loop)
    (hsignal : s.signal ≤ b.signal) : QueueInv cfg { s with toEvloopState := b } where
  attended := fun hne => (h.attended hne).imp_left fun hpos => lt_of_lt_of_le hpos hsignal
  draining := fun hd => hloop.trans (h.draining hd)
  inCallback := fun hd => hloop ▸ h.inCallback hd
  inCall := fun hc => hloop ▸ h.inCall hc
  adder := h.adder
  drain := h.drain
  accounted := h.accounted

theorem userCode_of_entry {pc : LoopPc T} (h : entry pc ≠ .idle) : pc.UserCode := by
  cases pc <;> trivial

theorem not_critical_entry (pc : LoopPc T) : ¬ (entry pc).Critical := by
  cases pc <;> exact id

theorem cbWake_of_entry {pc : LoopPc T} (h : (entry pc).Draining) : pc = .cbWake := by
  cases pc <;> first | rfl | exact h.elim

theorem QueueInv.push (h : QueueInv cfg s) {t : T} (ht : (s.adders t).Signalling) (ctx : C) :
    QueueInv cfg { s with queue := s.queue ++ [ctx], enqueued := s.enqueued ++ [ctx] } where
  attended := fun _ => .inr (.inr ⟨t, ht⟩)
  draining := h.draining
  inCallback := h.inCallback
  inCall := h.inCall
  adder := h.adder
  drain := h.drain
  accounted := by rw [← h.accounted, List.append_assoc]

theorem QueueInv.setDrain (h : QueueInv cfg s) {pc : DrainPc} {mtx : Option T}
    (hin : s.drain ≠ .idle) (hkeep : s.queue ≠ [] → s.drain.Draining → pc.Draining)
    (hdraining : pc.Draining → s.drain.Draining)
    (hadder : ∀ t, (s.adders t).Critical → mtx = some t ∧ ¬ pc.Critical)
    (hdrain : pc.Critical → mtx = some cfg.runner) :
    QueueInv cfg { s with drain := pc, mtx := mtx } where
  attended := fun hne => (h.attended hne).imp_right (Or.imp_left (hkeep hne))
  draining := fun hd => h.draining (hdraining hd)
  inCallback := fun _ => h.inCallback hin
  inCall := h.inCall
  adder := hadder
  drain := hdrain
  accounted := h.accounted

theorem QueueInv.pop (h : QueueInv cfg s) {ctx : C} {rest : List C} (hqueue : s.queue = ctx :: rest)
    (cb : QueueCb) :
    QueueInv cfg { s with queue := rest, taken := s.taken ++ [(cb, ctx)] } where
  attended := fun _ => h.attended (by simp [hqueue])
  draining := h.draining
  inCallback := h.inCallback
  inCall := h.inCall
  adder := h.adder
  drain := h.drain
  accounted := by
    have haccounted := h.accounted
    rw [hqueue] at haccounted
    rw [List.map_append, List.append_assoc]
    exact haccounted

theorem QueueInv.setDrainPart (h : QueueInv cfg s) {pc : DrainPc} {mtx : Option T}
    (hin : s.drain ≠ .idle) (hiff : s.drain.Draining ↔ pc.Draining)
    (hadder : ∀ t, (s.adders t).Critical → mtx = some t ∧ ¬ pc.Critical)
    (hdrain : mtx = some cfg.runner) : QueueInv cfg { s with drain := pc, mtx := mtx } :=
  h.setDrain hin (fun _ => hiff.mp) hiff.mpr hadder fun _ => hdrain

theorem QueueInv.drainStep (h : QueueInv cfg s) (hnext : s.drainStep cfg = some s') :
    QueueInv cfg s' := by
  -- while the loop's thread holds the mutex no adder does
  have halone : ∀ {mtx : Option T} {pc : DrainPc}, s.drain.Critical → ∀ t, (s.adders t).Critical →
      mtx = some t ∧ ¬ pc.Critical := fun hd t ht => absurd hd (h.adder t ht).2
  have hpart := @QueueInv.setDrainPart _ _ cfg s h
  have hmtx := h.drain
  rw [CtxQueueState.drainStep] at hnext
  generalize hpc : s.drain = pc at hnext halone hmtx
  cases pc with
  | idle | user => cases hnext
  | lock cb =>
    dsimp only at hnext
    split_ifs at hnext with hfree
    cases hnext
    refine hpart (by simp [hpc]) (by rw [hpc]; cases cb <;> rfl) (fun t ht => ?_) rfl
    exact absurd (hfree.symm.trans (h.adder t ht).1) (by simp)
  | test cb =>
    cases hnext
    split_ifs with hsize
    · exact hpart (by simp [hpc]) (by rw [hpc]; cases cb <;> rfl) (halone trivial) (hmtx trivial)
    · refine h.setDrain (by simp [hpc]) ?_ False.elim (halone trivial) fun _ => hmtx trivial
      exact fun hne => absurd (List.length_pos_iff.mpr hne) hsize
  | front cb =>
    cases hnext
    exact hpart (by simp [hpc]) (by rw [hpc]; cases cb <;> rfl) (halone trivial) (hmtx trivial)
  | dequeue cb =>
    dsimp only at hnext
    have hmoved : QueueInv cfg { s with drain := .test cb } :=
      hpart (by simp [hpc]) (by rw [hpc]; cases cb <;> rfl) (halone trivial) (hmtx trivial)
    cases hqueue : s.queue with
    | nil =>
      simp only [hqueue] at hnext
      cases hnext
      rw [← hqueue]
      exact hmoved
    | cons ctx rest =>
      simp only [hqueue] at hnext
      cases hnext
      exact hmoved.pop hqueue cb
  | unlock cb =>
    cases hnext
    refine h.setDrain (by simp [hpc]) ?_ False.elim (halone trivial) False.elim
    rw [hpc]
    exact fun _ => id

variable [DecidableEq T]

theorem QueueInv.looped (h : QueueInv cfg s) {a : EvloopStep T} {b : EvloopState T}
    (hidle : s.adders cfg.runner = .idle) (hdrain : s.drain = .idle ∨ s.drain = .user)
    (hnext : s.toEvloopState.next cfg a = some b) :
    QueueInv cfg { s with toEvloopState := b, drain := entry b.loop } where
  attended := by
    intro hne
    have hnot : ¬ s.drain.Draining := by
      rcases hdrain with heq | heq <;> rw [heq] <;> exact id
    rcases EvloopState.signal_frame hnext with hwake | hsignal
    · refine .inr (.inl ?_)
      simp only [hwake]
      trivial
    · rcases h.attended hne with hpos | hd | hadder
      · exact .inl (lt_of_lt_of_le hpos hsignal)
      · exact absurd hd hnot
      · exact .inr (.inr hadder)
  draining := cbWake_of_entry
  inCallback := userCode_of_entry
  inCall := fun hc => absurd hidle hc
  adder := fun t ht => ⟨(h.adder t ht).1, not_critical_entry b.loop⟩
  drain := fun hd => absurd hd (not_critical_entry b.loop)
  accounted := h.accounted

theorem QueueInv.goto (h : QueueInv cfg s) {t : T} {pc : AdderPc C} {mtx : Option T} {signal : ℕ}
    (hsignal : s.signal ≤ signal)
    (hleft : (s.adders t).Signalling → pc.Signalling ∨ 0 < signal)
    (hcall : t = cfg.runner → s.loop.UserCode)
    (hcrit : pc.Critical → mtx = some t ∧ ¬ s.drain.Critical)
    (hothers : ∀ u ≠ t, (s.adders u).Critical → mtx = some u)
    (hdrain : s.drain.Critical → mtx = some cfg.runner) :
    QueueInv cfg { s.goto t pc with mtx := mtx, signal := signal } where
  attended := by
    intro hne
    rcases h.attended hne with hpos | hd | ⟨u, hu⟩
    · exact .inl (lt_of_lt_of_le hpos hsignal)
    · exact .inr (.inl hd)
    · rcases eq_or_ne u t with rfl | hut
      · rcases hleft hu with hsig | hpos
        · exact .inr (.inr ⟨u, by simpa only [CtxQueueState.goto, update_self] using hsig⟩)
        · exact .inl hpos
      · refine .inr (.inr ⟨u, ?_⟩)
        simpa only [CtxQueueState.goto, update_of_ne hut] using hu
  draining := h.draining
  inCallback := h.inCallback
  inCall := by
    intro hne
    rcases eq_or_ne cfg.runner t with heq | hother
    · exact hcall heq.symm
    · exact h.inCall fun hidle => hne ((update_of_ne hother _ _).trans hidle)
  adder := (forall_update_iff s.adders fun t pc =>
    pc.Critical → mtx = some t ∧ ¬ s.drain.Critical).mpr
      ⟨hcrit, fun u hu hc => ⟨hothers u hu hc, (h.adder u hc).2⟩⟩
  drain := hdrain
  accounted := h.accounted

theorem QueueInv.adderStep (h : QueueInv cfg s) {t : T} {node : Bool}
    (hnext : s.adderStep t node = some s') : QueueInv cfg s' := by
  have hcall : s.adders t ≠ .idle → t = cfg.runner → s.loop.UserCode := by
    rintro hne rfl
    exact h.inCall hne
  have hadder := h.adder t
  rw [CtxQueueState.adderStep] at hnext
  cases hpc : s.adders t <;> simp only [hpc, reduceCtorEq, Option.some.injEq] at hnext <;>
    rw [hpc] at hcall hadder
  case lock ctx =>
    split_ifs at hnext with hfree
    cases hnext
    have hnot : ∀ {u}, s.mtx ≠ some u := fun heq => absurd (hfree.symm.trans heq) (by simp)
    exact h.goto (le_refl _) (by rw [hpc]; exact False.elim) (hcall (by simp))
      (fun _ => ⟨rfl, fun hd => hnot (h.drain hd)⟩) (fun u _ hu => absurd (h.adder u hu).1 hnot)
      (fun hd => absurd (h.drain hd) hnot)
  case enqueue ctx =>
    have hmoved : QueueInv cfg (s.goto t .unlock) :=
      h.goto (le_refl _) (fun _ => .inl trivial) (hcall (by simp)) (fun _ => hadder trivial)
        (fun u _ hu => (h.adder u hu).1) h.drain
    split_ifs at hnext <;> cases hnext
    · refine hmoved.push (t := t) ?_ ctx
      simp only [CtxQueueState.goto, update_self]
      trivial
    · exact hmoved
  case unlock =>
    subst hnext
    obtain ⟨hmtx, hdrain⟩ := hadder trivial
    refine h.goto (le_refl _) (fun _ => .inl trivial) (hcall (by simp)) False.elim
      (fun u hu hc => ?_) (fun hd => absurd hd hdrain)
    exact absurd (Option.some.inj ((h.adder u hc).1.symm.trans hmtx)) hu
  case wakeup =>
    subst hnext
    exact h.goto (Nat.le_succ _) (fun _ => .inr (Nat.succ_pos _)) (hcall (by simp)) False.elim
      (fun u _ hu => (h.adder u hu).1) h.drain

theorem QueueInv.next (h : QueueInv cfg s) {a : CtxQueueStep T C} (hnext : s.next cfg a = some s') :
    QueueInv cfg s' := by
  have hloop : ∀ {a}, (if s.adders cfg.runner = .idle ∧ (s.drain = .idle ∨ s.drain = .user) then
      (s.toEvloopState.next cfg a).map fun b =>
        { s with toEvloopState := b, drain := entry b.loop }
      else none) = some s' → QueueInv cfg s' := by
    intro a hnext
    simp only [Option.ite_none_right_eq_some, Option.map_eq_some_iff] at hnext
    obtain ⟨⟨hidle, hdrain⟩, b, hb, rfl⟩ := hnext
    exact h.looped hidle hdrain hb
  cases a with
  | evloop a =>
    cases a with
    | exit t | wakeup t =>
      simp only [CtxQueueState.next, Option.ite_none_right_eq_some, Option.map_eq_some_iff,
        EvloopState.next, Option.some.injEq] at hnext
      obtain ⟨-, b, ⟨-, rfl⟩, rfl⟩ := hnext
      exact h.called rfl (le_refl _)
    | caller t =>
      obtain ⟨b, hb, rfl⟩ := Option.map_eq_some_iff.mp hnext
      obtain ⟨hsame, hsignal⟩ := EvloopState.callerStep_frame hb
      exact h.called hsame hsignal
    | _ => exact hloop hnext
  | add t ctx =>
    rw [CtxQueueState.next] at hnext
    split_ifs at hnext with hcan
    cases hnext
    obtain ⟨⟨-, huser⟩, hidle, -⟩ := hcan
    exact h.goto (le_refl _) (by rw [hidle]; exact False.elim) huser False.elim
      (fun u _ hu => (h.adder u hu).1) h.drain
  | adder t node => exact h.adderStep hnext
  | drain =>
    rw [CtxQueueState.next] at hnext
    split_ifs at hnext
    exact h.drainStep hnext

/-- No context waits in the queue of a loop that sleeps. -/
structure NeverStranded (cfg : EvloopConfig T) (s : CtxQueueState T C) : Prop where
  attended : s.queue ≠ [] →
    0 < s.signal ∨ (s.loop = .cbWake ∧ s.drain.Draining) ∨ ∃ t, (s.adders t).Signalling
  wakes : s.loop = .wait → s.queue ≠ [] →
    (0 < s.signal ∧ (s.next cfg (.evloop (.ready true))).isSome) ∨ ∃ t, (s.adders t).Signalling
  accounted : s.taken.map Prod.snd ++ s.queue = s.enqueued
  exclusive : (∀ t u, (s.adders t).Critical → (s.adders u).Critical → t = u) ∧
    (s.drain.Critical → ∀ t, ¬ (s.adders t).Critical)

/-- **No asynchronously added context is stranded**, whatever the interleaving. -/
theorem neverStranded_of_reach
    (hs : Steps.Reach (fun s => s.next cfg) Steps.anyStep (start cfg) s) : NeverStranded cfg s := by
  have hinv : QueueInv cfg s :=
    hs.invariant (queueInv_start cfg) fun _ _ _ h _ hnext => h.next hnext
  refine ⟨fun hne => ?_, fun hwait hne => ?_, hinv.accounted, fun t u ht hu => ?_,
    fun hd t ht => ?_⟩
  · rcases hinv.attended hne with hpos | hd | hadder
    · exact .inl hpos
    · exact .inr (.inl ⟨hinv.draining hd, hd⟩)
    · exact .inr (.inr hadder)
  · rcases hinv.attended hne with hpos | hd | hadder
    · -- the loop's own thread is in no call and in no callback of the handle while it waits
      have hidle : s.adders cfg.runner = .idle := by
        by_contra hcall
        exact (hwait ▸ hinv.inCall hcall :)
      have hdrain : s.drain = .idle := by
        by_contra hcb
        exact (hwait ▸ hinv.inCallback hcb :)
      refine .inl ⟨hpos, ?_⟩
      simp only [CtxQueueState.next, EvloopState.next, hwait, hidle, hdrain]
      simp [hpos]
    · exact absurd (hwait.symm.trans (hinv.draining hd)) (by simp)
    · exact .inr hadder
  · exact Option.some.inj ((hinv.adder t ht).1.symm.trans (hinv.adder u hu).1)
  · exact (hinv.adder t ht).2 hd

def addConfig : EvloopConfig Bool := ⟨false, true, .poll, -1⟩

def addAfterDrain : List (CtxQueueStep Bool ℕ) :=
  [.evloop .run, .add false 7, .adder false true, .adder false true, .adder false true,
   .adder false true, .evloop (.ready true), .evloop .handleWakeup, .evloop .loop,
   .drain, .drain, .drain, .drain, .add false 8, .drain, .drain,
   .adder false true, .adder false true, .adder false true,
   .evloop .loop, .evloop .loop, .evloop .loop, .evloop .loop]

theorem neverStranded_addAfterDrain : ∃ s : CtxQueueState Bool ℕ,
    (s.loop, s.signal, s.queue, s.taken, s.adders false) =
      (.wait, 0, [8], [(.onWake, 7)], .wakeup) ∧ NeverStranded addConfig s := by
  exact Steps.exists_of_exec (start addConfig) addAfterDrain (by rfl) fun _ hs _ =>
    neverStranded_of_reach hs

end CtxQueueState

end Mugglec
