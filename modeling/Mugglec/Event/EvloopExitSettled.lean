import Mugglec.Event.EvloopExit

/-!
# Event/EvloopExitSettled — the loop leaves once its requester has signalled

A requester between its store of `WAKE` and its signal write still uses the loop.
-/

namespace Mugglec

open Function

namespace EvloopState

variable {T : Type*} (cfg : EvloopConfig T)

def CauseOk (s : EvloopState T) : ExitCause T → Prop
  | .direct t => t = cfg.runner
  | .promoted t k => k ≤ s.signalled t

def Settled (s : EvloopState T) : Prop := ∀ cause, s.loop = .left cause → CauseOk cfg s cause

def Undisturbed (s : EvloopState T) : EvloopStep T → Prop
  | .loop => s.loop = .load → ∀ t, s.callers t ≠ .signal
  | .caller t => s.callers t = .compare → t ≠ cfg.runner → s.tid ≠ t
  | _ => True

structure SettledInv (s : EvloopState T) : Prop where
  count : ∀ t, s.stored t = s.signalled t + if s.callers t = .signal then 1 else 0
  storeExit : ∀ t, s.callers t = .storeExit → t = cfg.runner
  wake : ∀ t k, s.toExit = .wake t k → k ≤ s.stored t
  exit : ∀ cause, s.toExit = .exit cause → CauseOk cfg s cause
  promote : ∀ t k, s.loop = .promote t k → k ≤ s.signalled t
  left : Settled cfg s

variable {cfg} {s s' : EvloopState T}

variable (cfg) in
theorem settledInv_start : SettledInv cfg (start cfg) := by
  refine ⟨fun t => by simp [start], ?_, ?_, ?_, ?_, ?_⟩ <;> simp [start, Settled]

theorem SettledInv.setLoop (h : SettledInv cfg s) {pc : LoopPc T} {t : T} {n : ℕ}
    {status : ExitStatus T} (hstatus : status = s.toExit ∨ ∃ c, status = .exit c ∧ CauseOk cfg s c)
    (hpromote : ∀ t k, pc = .promote t k → k ≤ s.signalled t)
    (hleft : ∀ c, pc = .left c → CauseOk cfg s c) :
    SettledInv cfg { s with loop := pc, tid := t, signal := n, toExit := status } where
  count := h.count
  storeExit := h.storeExit
  wake := by
    rcases hstatus with rfl | ⟨c, rfl, -⟩
    · exact h.wake
    · exact fun t k heq => absurd heq (by simp)
  exit := by
    rcases hstatus with rfl | ⟨c, rfl, hc⟩
    · exact h.exit
    · rintro _ ⟨rfl⟩
      exact hc
  promote := hpromote
  left := hleft

theorem SettledInv.loopStep (h : SettledInv cfg s) (hok : Undisturbed cfg s .loop)
    (hnext : s.loopStep cfg = some s') : SettledInv cfg s' := by
  have hafter : ∀ c, afterWakeup cfg ≠ .left c := fun c => by
    rw [afterWakeup]
    split <;> simp
  have hafter' : ∀ t k, afterWakeup cfg ≠ .promote t k := fun t k => by
    rw [afterWakeup]
    split <;> simp
  rw [EvloopState.loopStep] at hnext
  generalize hpc : s.loop = pc at hnext
  cases pc with
  | created | wait | dispatch | left => cases hnext
  | clear | cbWake | timer =>
    cases hnext
    exact h.setLoop (Or.inl rfl) (by simp) (by simp)
  | load =>
    dsimp only at hnext
    split at hnext
    · next t k hwake =>
      cases hnext
      refine h.setLoop (Or.inl rfl) ?_ (by simp)
      rintro _ _ ⟨rfl, rfl⟩
      -- whoever stored this `WAKE` has signalled
      have hcount := h.count t
      rw [if_neg (hok hpc t), add_zero] at hcount
      exact hcount ▸ h.wake t k hwake
    · cases hnext
      exact h.setLoop (Or.inl rfl) (fun t k heq => absurd heq (hafter' t k))
        fun c heq => absurd heq (hafter c)
  | promote t k =>
    cases hnext
    exact h.setLoop (Or.inr ⟨_, rfl, h.promote t k hpc⟩) (fun t k heq => absurd heq (hafter' t k))
      fun c heq => absurd heq (hafter c)
  | test =>
    dsimp only at hnext
    split at hnext
    · next cause hexit =>
      cases hnext
      refine h.setLoop (Or.inl rfl) (by simp) ?_
      rintro _ ⟨rfl⟩
      exact h.exit cause hexit
    · cases hnext
      exact h.setLoop (Or.inl rfl) (by simp) (by simp)

theorem CauseOk.signalled {cause : ExitCause T} (h : CauseOk cfg s cause) {u : EvloopState T}
    (hu : ∀ t, s.signalled t ≤ u.signalled t) : CauseOk cfg u cause := by
  cases cause with
  | direct t => exact h
  | promoted t k => exact le_trans h (hu t)

section Callers

variable [DecidableEq T] {t : T}

theorem SettledInv.setCaller (h : SettledInv cfg s) {pc : CallerPc} {n c : ℕ}
    {status : ExitStatus T} (hpc : pc ≠ .signal) (hold : s.callers t ≠ .signal)
    (hstore : pc = .storeExit → t = cfg.runner)
    (hstatus : status = s.toExit ∨ (status = .exit (.direct t) ∧ t = cfg.runner)) :
    SettledInv cfg { s.goto t pc with signal := n, completed := c, toExit := status } where
  count := by
    refine (forall_update_iff s.callers fun t pc =>
      s.stored t = s.signalled t + if pc = .signal then 1 else 0).mpr ⟨?_, fun t' _ => h.count t'⟩
    rw [h.count t, if_neg hpc, if_neg hold]
  storeExit := (forall_update_iff s.callers fun t pc =>
    pc = .storeExit → t = cfg.runner).mpr ⟨hstore, fun t' _ => h.storeExit t'⟩
  wake := by
    rcases hstatus with rfl | ⟨rfl, -⟩
    · exact h.wake
    · exact fun t k heq => absurd heq (by simp)
  exit := by
    rcases hstatus with rfl | ⟨rfl, ht⟩
    · exact h.exit
    · rintro _ ⟨rfl⟩
      exact ht
  promote := h.promote
  left := h.left

theorem SettledInv.storeWake (h : SettledInv cfg s) (hpc : s.callers t = .storeWake) :
    SettledInv cfg { s.goto t .signal with
      toExit := .wake t (s.stored t + 1)
      stored := update s.stored t (s.stored t + 1) } where
  count := by
    intro t'
    rcases eq_or_ne t' t with rfl | hne
    · have hcount := h.count t'
      rw [hpc] at hcount
      simp [goto, hcount]
    · simp [goto, hne, h.count t']
  storeExit := (forall_update_iff s.callers fun t pc =>
    pc = .storeExit → t = cfg.runner).mpr ⟨by simp, fun t' _ => h.storeExit t'⟩
  wake := by
    rintro _ _ ⟨rfl, rfl⟩
    simp
  exit := fun c heq => absurd heq (by simp)
  promote := h.promote
  left := h.left

theorem SettledInv.signal (h : SettledInv cfg s) (hpc : s.callers t = .signal) :
    SettledInv cfg { s.goto t .idle with
      signal := s.signal + 1
      signalled := update s.signalled t (s.signalled t + 1)
      completed := s.completed + 1 } := by
  have hmono : ∀ t', s.signalled t' ≤ update s.signalled t (s.signalled t + 1) t' := by
    intro t'
    rcases eq_or_ne t' t with rfl | hne
    · rw [update_self]
      exact Nat.le_succ _
    · rw [update_of_ne hne]
  refine ⟨?_, ?_, h.wake, ?_, ?_, ?_⟩
  · intro t'
    rcases eq_or_ne t' t with rfl | hne
    · have hcount := h.count t'
      rw [hpc] at hcount
      simp [goto, hcount]
    · simp [goto, hne, h.count t']
  · exact (forall_update_iff s.callers fun t pc => pc = .storeExit → t = cfg.runner).mpr
      ⟨by simp, fun t' _ => h.storeExit t'⟩
  · exact fun c hc => (h.exit c hc).signalled hmono
  · exact fun t' k hk => (h.promote t' k hk).trans (hmono t')
  · exact fun c hc => (h.left c hc).signalled hmono

theorem SettledInv.callerStep (h : SettledInv cfg s) (hok : Undisturbed cfg s (.caller t))
    (hnext : s.callerStep t = some s') : SettledInv cfg s' := by
  rw [EvloopState.callerStep] at hnext
  generalize hpc : s.callers t = pc at hnext
  cases pc with
  | idle => cases hnext
  | compare =>
    cases hnext
    refine h.setCaller ?_ (by simp [hpc]) ?_ (Or.inl rfl)
    · split <;> simp
    · intro hstore
      split_ifs at hstore with heq
      by_contra hne
      exact hok hpc hne heq
  | storeWake =>
    cases hnext
    exact h.storeWake hpc
  | signal =>
    cases hnext
    exact h.signal hpc
  | storeExit =>
    cases hnext
    exact h.setCaller (by simp) (by simp [hpc]) (by simp) (Or.inr ⟨rfl, h.storeExit t hpc⟩)
  | wakeup =>
    cases hnext
    exact h.setCaller (by simp) (by simp [hpc]) (by simp) (Or.inl rfl)

end Callers

theorem SettledInv.step [DecidableEq T] (h : SettledInv cfg s) {a : EvloopStep T}
    (hok : Undisturbed cfg s a) (hnext : s.next cfg a = some s') : SettledInv cfg s' := by
  cases a with
  | exit t | wakeup t =>
    simp only [next, Option.ite_none_right_eq_some, Option.some.injEq] at hnext
    obtain ⟨⟨hidle, -⟩, rfl⟩ := hnext
    exact h.setCaller (by simp) (by simp [hidle]) (by simp) (Or.inl rfl)
  | caller t => exact h.callerStep hok hnext
  | run | context =>
    simp only [next] at hnext
    split at hnext
    · cases hnext
      exact h.setLoop (Or.inl rfl) (by simp) (by simp)
    · simp at hnext
  | ready wake | handleWakeup | finish =>
    simp only [next] at hnext
    split at hnext
    · split_ifs at hnext
      cases hnext
      exact h.setLoop (Or.inl rfl) (by simp) (by simp)
    · simp at hnext
  | loop =>
    simp only [next] at hnext
    split at hnext
    · exact h.loopStep hok hnext
    · simp at hnext

/-- **The loop leaves for settled requests only**, in an undisturbed interleaving. -/
theorem settled_of_undisturbed [DecidableEq T]
    (hs : Steps.Reach (fun s => s.next cfg) (Undisturbed cfg) (start cfg) s) : Settled cfg s :=
  (hs.invariant (settledInv_start cfg) fun _ _ _ h hok hnext => h.step hok hnext).left

def epollConfig : EvloopConfig (Option Bool) := ⟨none, none, .epoll, -1⟩

def wakeupPass (steps : ℕ) : List (EvloopStep (Option Bool)) :=
  [EvloopStep.ready true, EvloopStep.handleWakeup] ++ List.replicate steps EvloopStep.loop

def requestedExit : List (EvloopStep (Option Bool)) :=
  EvloopStep.run :: EvloopStep.exit (some true) ::
    List.replicate 3 (EvloopStep.caller (some true)) ++ wakeupPass 4 ++
    [EvloopStep.finish, EvloopStep.loop, EvloopStep.loop]

def promotedEarly : List (EvloopStep (Option Bool)) :=
  [EvloopStep.run, EvloopStep.wakeup (some false), EvloopStep.caller (some false),
    EvloopStep.exit (some true), EvloopStep.caller (some true), EvloopStep.caller (some true)] ++
    wakeupPass 4 ++ [EvloopStep.finish, EvloopStep.loop, EvloopStep.loop]

instance [DecidableEq T] [Fintype T] (s : EvloopState T) (a : EvloopStep T) :
    Decidable (Undisturbed cfg s a) :=
  match a with
  | .loop | .caller _ => inferInstanceAs (Decidable (_ → _))
  | .exit _ | .wakeup _ | .run | .ready _ | .context | .handleWakeup | .finish => isTrue trivial

theorem settled_requestedExit : ∃ s : EvloopState (Option Bool),
    s.loop = .left (.promoted (some true) 1) ∧ Settled epollConfig s := by
  exact Steps.exists_of_execWhen (start epollConfig) requestedExit (by decide)
    fun _ hs _ => settled_of_undisturbed hs

theorem not_settled_promotedEarly : ∃ s : EvloopState (Option Bool),
    Steps.Reach (fun s => s.next epollConfig) Steps.anyStep (start epollConfig) s ∧
      ¬ Settled epollConfig s := by
  obtain ⟨s, hs, hloop, hsignalled⟩ : ∃ s,
      Steps.exec (fun s => s.next epollConfig) (start epollConfig) promotedEarly = some s ∧
      s.loop = .left (.promoted (some true) 1) ∧ s.signalled (some true) = 0 := by
    decide
  refine ⟨s, Steps.Reach.of_exec promotedEarly hs, fun h => ?_⟩
  have hle : 1 ≤ s.signalled (some true) := h _ hloop
  omega

end EvloopState

end Mugglec
