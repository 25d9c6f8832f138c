import Mugglec.Event.EvloopExit

/-!
# Event/EvloopExitHeard — no exit request is lost, where none is made in the wrong branch

A completed exit call leaves `to_exit` at `WAKE` or `EXIT` for good, and behind it either the signal
or the loop on its way from clearing the signal to promoting the status.
-/

namespace Mugglec

open Function

def LoopPc.Promoting {T : Type*} : LoopPc T → Prop
  | .cbWake | .load | .promote _ _ => True
  | _ => False

def LoopPc.InPass {T : Type*} : LoopPc T → Prop
  | .created | .wait => False
  | _ => True

theorem LoopPc.UserCode.inPass {T : Type*} {pc : LoopPc T} (h : pc.UserCode) (hne : pc ≠ .created) :
    pc.InPass := by
  cases pc <;> first | exact trivial | exact absurd rfl hne | exact h.elim

namespace EvloopState

variable {T : Type*} (cfg : EvloopConfig T)

def Heard (s : EvloopState T) : Prop :=
  s.loop = .wait → 0 < s.completed → 0 < s.signal ∨ (0 ≤ cfg.timeout ∧ s.toExit.IsExit)

def Orderly (s : EvloopState T) : EvloopStep T → Prop
  | .caller t =>
    (s.callers t = .compare → s.tid = t → s.loop ≠ .created) ∧
      (s.callers t = .storeWake → ¬ s.toExit.IsExit)
  | _ => True

structure HeardInv (s : EvloopState T) : Prop where
  tid : s.loop ≠ .created → s.tid = cfg.runner
  busy : s.callers cfg.runner ≠ .idle → s.loop.UserCode
  storeExit : ∀ t, s.callers t = .storeExit → t = cfg.runner ∧ s.loop.InPass
  exit : s.toExit.IsExit → s.loop.InPass
  asked : ∀ t, s.callers t = .signal → s.toExit ≠ .none
  request : 0 < s.completed → s.toExit.IsExit ∨
    (s.toExit ≠ .none ∧ (0 < s.signal ∨ s.loop.Promoting))

variable {cfg} {s s' : EvloopState T}

theorem HeardInv.heard (h : HeardInv cfg s) : Heard cfg s := by
  intro hwait hdone
  rcases h.request hdone with hexit | ⟨-, hsignal | hprom⟩
  · exact absurd (h.exit hexit) (by rw [hwait]; exact not_false)
  · exact Or.inl hsignal
  · rw [hwait] at hprom
    exact hprom.elim

theorem HeardInv.setLoop (h : HeardInv cfg s) {pc : LoopPc T} {t : T} {n : ℕ}
    {status : ExitStatus T} (hidle : s.callers cfg.runner = .idle) (htid : t = cfg.runner)
    (hasked : s.toExit ≠ .none → status ≠ .none) (hexit : status.IsExit → pc.InPass)
    (hreq : 0 < s.completed → status.IsExit ∨ (0 < n ∨ pc.Promoting)) :
    HeardInv cfg { s with loop := pc, tid := t, signal := n, toExit := status } where
  tid := fun _ => htid
  busy := fun hne => absurd hidle hne
  storeExit := by
    intro t ht
    obtain ⟨rfl, -⟩ := h.storeExit t ht
    exact absurd (hidle.symm.trans ht) (by simp)
  exit := hexit
  asked := fun t ht => hasked (h.asked t ht)
  request := by
    intro hdone
    refine (hreq hdone).imp_right fun hr => ⟨hasked ?_, hr⟩
    rcases h.request hdone with he | ⟨hne, -⟩
    · rintro heq
      exact (heq ▸ he).elim
    · exact hne

theorem inPass_afterWakeup : (afterWakeup cfg).InPass := by
  rw [afterWakeup]
  split <;> trivial

theorem HeardInv.reached (h : HeardInv cfg s) (hprom : ¬ s.loop.Promoting) (pc : LoopPc T)
    (hdone : 0 < s.completed) : s.toExit.IsExit ∨ (0 < s.signal ∨ pc.Promoting) := by
  rcases h.request hdone with hexit | ⟨-, hsignal | hp⟩
  · exact Or.inl hexit
  · exact Or.inr (Or.inl hsignal)
  · exact absurd hp hprom

theorem HeardInv.loopStep (h : HeardInv cfg s) (hidle : s.callers cfg.runner = .idle)
    (hnext : s.loopStep cfg = some s') : HeardInv cfg s' := by
  have htid := h.tid
  have hreached := h.reached
  rw [EvloopState.loopStep] at hnext
  generalize hpc : s.loop = pc at hnext htid hreached
  cases pc with
  | created | wait | dispatch | left => cases hnext
  | clear =>
    cases hnext
    -- what the signal stood for is carried by the loop's place from here on
    exact h.setLoop hidle (htid (by simp)) id (fun _ => trivial) fun _ => Or.inr (Or.inr trivial)
  | cbWake =>
    cases hnext
    exact h.setLoop hidle (htid (by simp)) id (fun _ => trivial) fun _ => Or.inr (Or.inr trivial)
  | load =>
    dsimp only at hnext
    split at hnext
    · cases hnext
      exact h.setLoop hidle (htid (by simp)) id (fun _ => trivial) fun _ => Or.inr (Or.inr trivial)
    · next hnot =>
      cases hnext
      refine h.setLoop hidle (htid (by simp)) id (fun _ => inPass_afterWakeup) fun hdone => ?_
      rcases h.request hdone with hexit | ⟨hne, -⟩
      · exact Or.inl hexit
      · cases hst : s.toExit with
        | none => exact absurd hst hne
        | wake t k => exact absurd hst (hnot t k)
        | exit cause => exact Or.inl trivial
  | promote t k =>
    cases hnext
    exact h.setLoop hidle (htid (by simp)) (fun _ => by simp) (fun _ => inPass_afterWakeup)
      fun _ => Or.inl trivial
  | timer =>
    cases hnext
    exact h.setLoop hidle (htid (by simp)) id (fun _ => trivial) (hreached not_false _)
  | test =>
    dsimp only at hnext
    split at hnext
    · cases hnext
      exact h.setLoop hidle (htid (by simp)) id (fun _ => trivial) (hreached not_false _)
    · next hnot =>
      cases hnext
      refine h.setLoop hidle (htid (by simp)) id (fun hexit => ?_) (hreached not_false _)
      cases hst : s.toExit with
      | exit cause => exact absurd hst (hnot cause)
      | none | wake => exact (hst ▸ hexit).elim

theorem HeardInv.setCounts (h : HeardInv cfg s) (f g : T → ℕ) :
    HeardInv cfg { s with stored := f, signalled := g } :=
  ⟨h.tid, h.busy, h.storeExit, h.exit, h.asked, h.request⟩

section Callers

variable [DecidableEq T] {t : T}

theorem HeardInv.setCaller (h : HeardInv cfg s) {pc : CallerPc} {n c : ℕ} {status : ExitStatus T}
    (hbusy : t = cfg.runner → pc ≠ .idle → s.loop.UserCode)
    (hstore : pc = .storeExit → t = cfg.runner ∧ s.loop.InPass)
    (hexit : status.IsExit → s.loop.InPass)
    (hasked : s.toExit ≠ .none ∨ pc = .signal → status ≠ .none)
    (hreq : 0 < c → status.IsExit ∨ (status ≠ .none ∧ (0 < n ∨ s.loop.Promoting))) :
    HeardInv cfg { s.goto t pc with signal := n, completed := c, toExit := status } where
  tid := h.tid
  busy := by
    intro hne
    rcases eq_or_ne cfg.runner t with heq | hother
    · refine hbusy heq.symm fun hidle => hne ?_
      rw [heq]
      exact (update_self t pc s.callers).trans hidle
    · exact h.busy fun hidle => hne ((update_of_ne hother _ _).trans hidle)
  storeExit := (forall_update_iff s.callers fun t pc =>
    pc = .storeExit → t = cfg.runner ∧ s.loop.InPass).mpr ⟨hstore, fun t' _ => h.storeExit t'⟩
  exit := hexit
  asked := (forall_update_iff s.callers fun _ pc => pc = .signal → status ≠ .none).mpr
    ⟨fun hpc => hasked (Or.inr hpc), fun t' _ hpc => hasked (Or.inl (h.asked t' hpc))⟩
  request := hreq

theorem HeardInv.callerStep (h : HeardInv cfg s) (hok : Orderly s (.caller t))
    (hnext : s.callerStep t = some s') : HeardInv cfg s' := by
  have hbusy : s.callers t ≠ .idle →
      ∀ pc, t = cfg.runner → pc ≠ CallerPc.idle → s.loop.UserCode := by
    rintro hne pc rfl -
    exact h.busy hne
  obtain ⟨hcompare, hstore⟩ := hok
  rw [EvloopState.callerStep] at hnext
  generalize hpc : s.callers t = pc at hnext hbusy
  cases pc with
  | idle => cases hnext
  | compare =>
    cases hnext
    refine h.setCaller (hbusy (by simp) _) ?_ h.exit ?_ h.request
    · intro hstore
      split_ifs at hstore with heq
      have hrunning := hcompare hpc heq
      have ht : t = cfg.runner := heq.symm.trans (h.tid hrunning)
      exact ⟨ht, (hbusy (by simp) .compare ht (by simp)).inPass hrunning⟩
    · rintro (hne | hsig)
      · exact hne
      · split_ifs at hsig
  | storeWake =>
    cases hnext
    have hset : HeardInv cfg { s.goto t .signal with
        signal := s.signal, completed := s.completed, toExit := .wake t (s.stored t + 1) } := by
      refine h.setCaller (hbusy (by simp) _) (by simp) False.elim (fun _ => by simp) fun hdone => ?_
      rcases h.request hdone with hexit | ⟨-, hr⟩
      · exact absurd hexit (hstore hpc)
      · exact Or.inr ⟨by simp, hr⟩
    exact hset.setCounts _ _
  | signal =>
    cases hnext
    have hasked := h.asked t hpc
    have hset : HeardInv cfg { s.goto t .idle with
        signal := s.signal + 1, completed := s.completed + 1, toExit := s.toExit } :=
      h.setCaller (hbusy (by simp) _) (by simp) h.exit (fun _ => hasked)
        fun _ => Or.inr ⟨hasked, Or.inl (Nat.succ_pos _)⟩
    exact hset.setCounts _ _
  | storeExit =>
    cases hnext
    exact h.setCaller (hbusy (by simp) _) (by simp) (fun _ => (h.storeExit t hpc).2)
      (fun _ => by simp) fun _ => Or.inl trivial
  | wakeup =>
    cases hnext
    refine h.setCaller (hbusy (by simp) _) (by simp) h.exit (fun hor => hor.elim id (by simp))
      fun hdone => ?_
    exact (h.request hdone).imp_right fun ⟨hne, _⟩ => ⟨hne, Or.inl (Nat.succ_pos _)⟩

end Callers

theorem HeardInv.step [DecidableEq T] (h : HeardInv cfg s) {a : EvloopStep T} (hok : Orderly s a)
    (hnext : s.next cfg a = some s') : HeardInv cfg s' := by
  cases a with
  | exit t | wakeup t =>
    simp only [next, Option.ite_none_right_eq_some, Option.some.injEq] at hnext
    obtain ⟨⟨-, huser⟩, rfl⟩ := hnext
    exact h.setCaller (fun ht _ => huser ht) (by simp) h.exit (fun hor => hor.elim id (by simp))
      h.request
  | caller t => exact h.callerStep hok hnext
  | run =>
    simp only [next] at hnext
    split at hnext
    · next hpc hidle =>
      cases hnext
      refine h.setLoop hidle rfl id (fun hexit => ?_) (h.reached (by rw [hpc]; exact not_false) _)
      exact (hpc ▸ h.exit hexit : LoopPc.InPass .created).elim
    · simp at hnext
  | ready wake =>
    simp only [next] at hnext
    split at hnext
    · next hpc =>
      split_ifs at hnext
      cases hnext
      have hidle : s.callers cfg.runner = .idle := by
        by_contra hne
        exact (hpc ▸ h.busy hne :)
      exact h.setLoop hidle (h.tid (by simp [hpc])) id (fun _ => trivial)
        (h.reached (by rw [hpc]; exact not_false) _)
    · simp at hnext
  | context =>
    simp only [next] at hnext
    split at hnext
    · next hpc hidle =>
      cases hnext
      exact h.setLoop hidle (h.tid (by simp [hpc])) id (fun _ => trivial)
        (h.reached (by rw [hpc]; exact not_false) _)
    · simp at hnext
  | handleWakeup | finish =>
    simp only [next] at hnext
    split at hnext
    · next hpc hidle =>
      split_ifs at hnext
      cases hnext
      exact h.setLoop hidle (h.tid (by simp [hpc])) id (fun _ => trivial)
        (h.reached (by rw [hpc]; exact not_false) _)
    · simp at hnext
  | loop =>
    simp only [next] at hnext
    split at hnext
    · next hidle => exact h.loopStep hidle hnext
    · simp at hnext

variable (cfg) in
theorem heardInv_start : HeardInv cfg (start cfg) := by
  refine ⟨fun h => absurd rfl h, fun h => absurd rfl h, ?_, False.elim, ?_, fun h => ?_⟩
  · exact fun t ht => absurd ht (by simp [start])
  · exact fun t ht => absurd ht (by simp [start])
  · exact absurd h (lt_irrefl 0)

/-- **No exit request is lost** in an orderly interleaving. -/
theorem heard_of_orderly [DecidableEq T]
    (hs : Steps.Reach (fun s => s.next cfg) Orderly (start cfg) s) : Heard cfg s :=
  (hs.invariant (heardInv_start cfg) fun _ _ _ h hok hnext => h.step hok hnext).heard

def pollConfig : EvloopConfig Bool := ⟨false, true, .poll, -1⟩

def exitWhileRunning : List (EvloopStep Bool) :=
  .run :: .exit false :: List.replicate 3 (.caller false)

def exitBeforeRun : List (EvloopStep Bool) :=
  EvloopStep.exit false :: List.replicate 2 (.caller false) ++ [EvloopStep.run]

instance [DecidableEq T] (s : EvloopState T) (a : EvloopStep T) : Decidable (Orderly s a) :=
  match a with
  | .caller _ => inferInstanceAs (Decidable (_ ∧ _))
  | .exit _ | .wakeup _ | .run | .ready _ | .context | .handleWakeup | .finish | .loop =>
    isTrue trivial

theorem heard_exitWhileRunning : ∃ s : EvloopState Bool,
    (s.loop, s.completed, s.signal) = (.wait, 1, 1) ∧ Heard pollConfig s := by
  exact Steps.exists_of_execWhen (start pollConfig) exitWhileRunning (by decide)
    fun _ hs _ => heard_of_orderly hs

theorem not_heard_exitBeforeRun : ∃ s : EvloopState Bool,
    Steps.Reach (fun s => s.next pollConfig) Steps.anyStep (start pollConfig) s ∧
      ¬ Heard pollConfig s := by
  obtain ⟨s, hs, hloop, hdone, hsignal⟩ : ∃ s,
      Steps.exec (fun s => s.next pollConfig) (start pollConfig) exitBeforeRun = some s ∧
      s.loop = .wait ∧ s.completed = 1 ∧ s.signal = 0 := by
    decide
  refine ⟨s, Steps.Reach.of_exec exitBeforeRun hs, fun h => ?_⟩
  rcases h hloop (hdone ▸ one_pos) with hpos | ⟨htime, -⟩
  · exact absurd hpos (by rw [hsignal]; exact lt_irrefl 0)
  · exact absurd htime (by decide)

end EvloopState

end Mugglec
