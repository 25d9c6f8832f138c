import Mugglec.Machinery.Steps
import Mugglec.Sync.RefCnt

/-!
# Sync/RefCntLifetime — the last reference goes once

Zero is a value no call changes, so a counter at zero stays there; it is reached from one by a
release, once.  The thread that was told so is the only one that cleans up (`Cleaning`).
-/

namespace Mugglec

open Function CasLoop Steps

theorem refCntInit_eq {initVal v : ℤ} (h : refCntInit initVal = (0, some v)) :
    1 ≤ initVal ∧ initVal = v := by
  rw [refCntInit] at h
  split_ifs at h with hle
  · exact nomatch (Prod.mk.inj h).2
  · exact ⟨by omega, Option.some.inj (Prod.mk.inj h).2⟩

theorem RefCall.desired_zero (c : RefCall) : c.desired 0 = none := by cases c <;> rfl

theorem RefCall.desired_eq_some {c : RefCall} {v d : ℤ} (h : c.desired v = some d) :
    v ≠ 0 ∧ d = if c = .retain then v + 1 else v - 1 := by
  have hv : v ≠ 0 := by
    rintro rfl
    exact Option.some_ne_none d (h.symm.trans c.desired_zero)
  cases c <;> simp_all [RefCall.desired]

structure Tally (v : ℤ) (returns : List (Return RefCall ℤ)) (cell : ℤ) : Prop where
  nonneg : 0 ≤ cell
  count : cell = v + returns.countP isRetained - returns.countP isReleased
  zeros : returns.countP isZeroRelease = if cell = 0 then 1 else 0

theorem tally_of_replay {v : ℤ} (hv : 1 ≤ v) {returns : List (Return RefCall ℤ)} {cell : ℤ}
    (h : Replay RefCall.desired v returns cell) : Tally v returns cell := by
  induction h with
  | start => exact ⟨by omega, by simp, by rw [if_neg (by omega), List.countP_nil]⟩
  | @stored rs w d c _ hd ih =>
    obtain ⟨hnonneg, hcount, hzeros⟩ := ih
    obtain ⟨hw, hdw⟩ := RefCall.desired_eq_some hd
    rw [if_neg hw] at hzeros
    by_cases hc : c = .retain
    · rw [if_pos hc] at hdw
      have h1 : isRetained (c, some d) = true := decide_eq_true ⟨hc, by simp [returnValue]; omega⟩
      have h2 : isReleased (c, some d) = false := decide_eq_false fun h => h.1 hc
      have h3 : isZeroRelease (c, some d) = false := decide_eq_false fun h => h.1 hc
      exact ⟨by omega, by rw [List.countP_cons, List.countP_cons, h1, h2]; simp; omega,
        by rw [List.countP_cons, h3, hzeros, if_neg (by omega : d ≠ 0)]; rfl⟩
    · rw [if_neg hc] at hdw
      have h1 : isRetained (c, some d) = false := decide_eq_false fun h => hc h.1
      have h2 : isReleased (c, some d) = true := decide_eq_true ⟨hc, by simp [returnValue]; omega⟩
      have h3 : isZeroRelease (c, some d) = decide (d = 0) := by
        simp [isZeroRelease, hc, returnValue]
      exact ⟨by omega, by rw [List.countP_cons, List.countP_cons, h1, h2]; simp; omega,
        by rw [List.countP_cons, h3, hzeros]; simp⟩
  | @failed rs w c _ _ ih =>
    -- a call that returns `-1` is in no tally
    obtain ⟨hnonneg, hcount, hzeros⟩ := ih
    have h1 : isRetained (c, none) = false := decide_eq_false fun h => h.2 rfl
    have h2 : isReleased (c, none) = false := decide_eq_false fun h => h.2 rfl
    have h3 : isZeroRelease (c, none) = false :=
      decide_eq_false fun h => absurd h.2 (neg_ne_zero.mpr one_ne_zero)
    exact ⟨hnonneg, by rw [List.countP_cons, List.countP_cons, h1, h2]; simpa using hcount,
      by rw [List.countP_cons, h3, hzeros]; rfl⟩

namespace RefCtx

variable {τ : Type*} {hasCbRelease : Bool} {s s' : RefCtx τ} {v : ℤ}
  {r : Option (Return RefCall ℤ)} {act : RefAct} {t : τ} {counter : State τ RefCall ℤ}

def Cleaning (s : RefCtx τ) : Prop :=
  ((∀ t, s.todo t = []) ∧ s.closes = 0 ∧ s.frees = 0) ∨
    ∃ t₀, s.counter.cell = 0 ∧ (∀ t, t ≠ t₀ → s.todo t = []) ∧
      s.closes + (s.todo t₀).count .close = 1 ∧ s.frees + (s.todo t₀).count .cbFree = 1

structure Inv (v : ℤ) (s : RefCtx τ) : Prop where
  pos : 1 ≤ v
  counter : CasLoop.Inv RefCall.desired v s.counter
  cleaning : Cleaning s
  apart : ∀ t, s.todo t ≠ [] → s.counter.pc t = .idle
  fits : ∀ t c w d, s.counter.pc t = .cas c w d → 0 ≤ d ∧ d ≤ INT_MAX

theorem inv_start (hv : 1 ≤ v) : Inv v (start v : RefCtx τ) :=
  ⟨hv, CasLoop.inv_start v, .inl ⟨fun _ => rfl, rfl, rfl⟩, fun _ _ => rfl,
    fun _ _ _ _ h => nomatch (h : Pc.idle = _)⟩

theorem Cleaning.of_cell_eq (h : Cleaning s) (hcell : counter.cell = s.counter.cell) :
    Cleaning { s with counter := counter } := by
  rcases h with h | ⟨t₀, h0, h⟩
  · exact .inl h
  · exact .inr ⟨t₀, hcell.trans h0, h⟩

theorem Cleaning.of_todo (h : Cleaning s) (ht : s.todo t ≠ []) :
    s.counter.cell = 0 ∧ (∀ t', t' ≠ t → s.todo t' = []) ∧
      s.closes + (s.todo t).count .close = 1 ∧ s.frees + (s.todo t).count .cbFree = 1 := by
  rcases h with ⟨hall, -⟩ | ⟨t₀, h0, hother, hcounts⟩
  · exact absurd (hall t) ht
  · have htt : t = t₀ := by
      by_contra hne
      exact ht (hother t hne)
    subst htt
    exact ⟨h0, hother, hcounts⟩

theorem Cleaning.le_one (h : Cleaning s) : s.closes ≤ 1 ∧ s.frees ≤ 1 := by
  rcases h with ⟨-, hcloses, hfrees⟩ | ⟨t₀, -, -, hcloses, hfrees⟩ <;> omega

variable [DecidableEq τ]

theorem afterReturn_of_ne (s : RefCtx τ) (t : τ) (counter : State τ RefCall ℤ)
    (hr : r ≠ some (.releaseCtx, some 0)) :
    s.afterReturn hasCbRelease t counter r = { s with counter := counter } := by
  match r, hr with
  | none, _ => rfl
  | some (.retain, _), _ => rfl
  | some (.release, _), _ => rfl
  | some (.releaseCtx, none), _ => rfl
  | some (.releaseCtx, some d), hr =>
    exact if_neg fun h0 => hr (by rw [show d = 0 from h0])

theorem afterReturn_counter (s : RefCtx τ) (t : τ) (counter : State τ RefCall ℤ)
    (r : Option (Return RefCall ℤ)) :
    (s.afterReturn hasCbRelease t counter r).counter = counter := by
  by_cases hr : r = some (.releaseCtx, some 0)
  · rw [hr]
    rfl
  · rw [afterReturn_of_ne s t counter hr]

theorem next_cases (hnext : s.next hasCbRelease (t, act) = some s') :
    (∃ c counter, s.todo t = [] ∧ s.counter.call t c = some counter ∧
      s' = { s with counter := counter }) ∨
    (∃ counter r, s.counter.step RefCall.desired t = some (counter, r) ∧
      s' = s.afterReturn hasCbRelease t counter r) ∨
    ∃ c rest, s.todo t = c :: rest ∧ s' = { s with
      todo := update s.todo t rest
      closes := s.closes + if c = .close then 1 else 0
      frees := s.frees + if c = .cbFree then 1 else 0 } := by
  rw [RefCtx.next] at hnext
  cases htodo : s.todo t with
  | nil =>
    simp only [htodo] at hnext
    cases act with
    | call c =>
      obtain ⟨counter, hcall, rfl⟩ := Option.map_eq_some_iff.mp hnext
      exact .inl ⟨c, counter, rfl, hcall, rfl⟩
    | step =>
      obtain ⟨⟨counter, r⟩, hstep, rfl⟩ := Option.map_eq_some_iff.mp hnext
      exact .inr (.inl ⟨counter, r, hstep, rfl⟩)
  | cons c rest =>
    cases act with
    | call _ => simp only [htodo, reduceCtorEq] at hnext
    | step =>
      cases c <;> simp only [htodo] at hnext <;> cases hnext <;>
        exact .inr (.inr ⟨_, rest, rfl, rfl⟩)

theorem pc_of_ne {t' : τ} (hne : t' ≠ t) (hnext : s.next hasCbRelease (t, act) = some s') :
    s'.counter.pc t' = s.counter.pc t' := by
  rcases next_cases hnext with
    ⟨c, counter, -, hcall, rfl⟩ | ⟨counter, r, hstep, rfl⟩ | ⟨c, rest, -, rfl⟩
  · obtain ⟨-, rfl⟩ := call_eq_some hcall
    exact update_of_ne hne ..
  · obtain ⟨p, hpc, -⟩ := step_pc hstep
    rw [afterReturn_counter, hpc, update_of_ne hne]
  · rfl

theorem count_cleanups : (cleanups hasCbRelease).count .close = 1 ∧
    (cleanups hasCbRelease).count .cbFree = 1 := by
  cases hasCbRelease <;> decide

theorem Inv.cleaning_afterReturn (h : Inv v s)
    (hstep : s.counter.step RefCall.desired t = some (counter, r)) :
    Cleaning (s.afterReturn hasCbRelease t counter r) := by
  obtain ⟨-, hcases⟩ := h.counter.step hstep
  rcases hcases with ⟨rfl, hcell, -⟩ | ⟨c, rfl, -, hcell, -⟩ | ⟨c, d, rfl, hd, hcell, -⟩
  · exact h.cleaning.of_cell_eq hcell
  · rw [afterReturn_of_ne _ _ _ (by simp)]
    exact h.cleaning.of_cell_eq hcell
  · -- a value was stored, so the counter was not at zero and no clean-up has begun
    have hne : s.counter.cell ≠ 0 := (RefCall.desired_eq_some hd).1
    have hclean : (∀ t, s.todo t = []) ∧ s.closes = 0 ∧ s.frees = 0 :=
      h.cleaning.resolve_right fun ⟨_, h0, _⟩ => hne h0
    by_cases hlast : some (c, some d) = some (RefCall.releaseCtx, some 0)
    · obtain ⟨rfl, hd0⟩ := Prod.mk.inj (Option.some.inj hlast)
      cases hd0
      refine .inr ⟨t, hcell, fun t' ht' => ?_, ?_, ?_⟩
      · exact (update_of_ne ht' ..).trans (hclean.1 t')
      · simp [RefCtx.afterReturn, returnValue, hclean.2.1, count_cleanups.1]
      · simp [RefCtx.afterReturn, returnValue, hclean.2.2, count_cleanups.2]
    · rw [afterReturn_of_ne _ _ _ hlast]
      exact .inl hclean

theorem Cleaning.pop (h : Cleaning s) {c : Cleanup} {rest : List Cleanup}
    (ht : s.todo t = c :: rest) :
    Cleaning { s with
      todo := update s.todo t rest
      closes := s.closes + if c = .close then 1 else 0
      frees := s.frees + if c = .cbFree then 1 else 0 } := by
  obtain ⟨h0, hother, hcloses, hfrees⟩ :=
    h.of_todo (t := t) (by rw [ht]; exact List.cons_ne_nil _ _)
  rw [ht, List.count_cons] at hcloses hfrees
  simp only [beq_iff_eq] at hcloses hfrees
  refine .inr ⟨t, h0, fun t' ht' => (update_of_ne ht' ..).trans (hother t' ht'), ?_, ?_⟩
  · simp only [update_self]
    omega
  · simp only [update_self]
    omega

theorem Inv.afterReturn (h : Inv v s) (hbelow : s.counter.cell < INT_MAX)
    (hstep : s.counter.step RefCall.desired t = some (counter, r)) :
    Inv v (s.afterReturn hasCbRelease t counter r) := by
  obtain ⟨p, hpc, hidle, hcas⟩ := step_pc hstep
  refine ⟨h.pos, ?_, h.cleaning_afterReturn hstep, fun t' ht' => ?_, fun t' c w d hp => ?_⟩
  · rw [afterReturn_counter]
    exact (h.counter.step hstep).1
  · rw [afterReturn_counter, hpc]
    by_cases hlast : r = some (RefCall.releaseCtx, some 0)
    · subst hlast
      by_cases htt : t' = t
      · rw [htt, update_self, hidle (Option.some_ne_none _)]
      · rw [update_of_ne htt]
        refine h.apart t' ?_
        simpa [RefCtx.afterReturn, returnValue, update_of_ne htt] using ht'
    · rw [afterReturn_of_ne _ _ _ hlast] at ht'
      have hother := h.apart t' ht'
      by_cases htt : t' = t
      · -- the thread was in a call, so it had nothing left to do
        subst htt
        rw [State.step, hother] at hstep
        cases hstep
      · rwa [update_of_ne htt]
  · rw [afterReturn_counter, hpc] at hp
    by_cases htt : t' = t
    · rw [htt, update_self] at hp
      obtain ⟨rfl, hd⟩ := hcas c w d hp
      have hnonneg := (tally_of_replay h.pos h.counter.replay).nonneg
      obtain ⟨hne, hdw⟩ := RefCall.desired_eq_some hd
      split_ifs at hdw <;> omega
    · rw [update_of_ne htt] at hp
      exact h.fits t' c w d hp

theorem Inv.next (h : Inv v s) (hbelow : s.counter.cell < INT_MAX)
    (hnext : s.next hasCbRelease (t, act) = some s') : Inv v s' := by
  rcases next_cases hnext with
    ⟨c, counter, htodo, hcall, rfl⟩ | ⟨counter, r, hstep, rfl⟩ | ⟨c, rest, htodo, rfl⟩
  · obtain ⟨-, hcounter⟩ := call_eq_some hcall
    refine ⟨h.pos, h.counter.call hcall, h.cleaning.of_cell_eq (by rw [hcounter]), fun t' ht' => ?_,
      fun t' c' w d hp => ?_⟩
    · have htt : t' ≠ t := fun htt => ht' (htt ▸ htodo)
      rw [hcounter]
      exact (update_of_ne htt ..).trans (h.apart t' ht')
    · rw [hcounter] at hp
      by_cases htt : t' = t
      · subst htt
        exact nomatch (update_self ..).symm.trans hp
      · exact h.fits t' c' w d ((update_of_ne htt ..).symm.trans hp)
  · exact h.afterReturn hbelow hstep
  · refine ⟨h.pos, h.counter, h.cleaning.pop htodo, fun t' ht' => h.apart t' ?_, h.fits⟩
    by_cases htt : t' = t
    · rw [htt, htodo]
      exact List.cons_ne_nil _ _
    · exact fun hnil => ht' ((update_of_ne htt ..).trans hnil)

theorem inv_of_reach (hv : 1 ≤ v) (hs : Reach (next hasCbRelease) Below (start v) s) : Inv v s :=
  hs.invariant (inv_start hv) fun _ _ _ h hbelow hnext => h.next hbelow hnext

theorem Inv.next_of_zero (h : Inv v s) (h0 : s.counter.cell = 0)
    (hnext : s.next hasCbRelease (t, act) = some s') :
    s'.counter.cell = 0 ∧ ∃ later, s'.counter.returns = later ++ s.counter.returns ∧
      ∀ r ∈ later, returnValue r = -1 := by
  rcases next_cases hnext with
    ⟨c, counter, -, hcall, rfl⟩ | ⟨counter, r, hstep, rfl⟩ | ⟨c, rest, -, rfl⟩
  · obtain ⟨-, rfl⟩ := call_eq_some hcall
    exact ⟨h0, [], rfl, nofun⟩
  · rw [afterReturn_counter]
    obtain ⟨-, ⟨-, hcell, hret⟩ | ⟨c, -, -, hcell, hret⟩ | ⟨c, d, -, hd, -⟩⟩ := h.counter.step hstep
    · exact ⟨hcell.trans h0, [], hret, nofun⟩
    · exact ⟨hcell.trans h0, [(c, none)], hret, List.forall_mem_singleton.mpr rfl⟩
    · exact absurd h0 (RefCall.desired_eq_some hd).1
  · exact ⟨h0, [], rfl, nofun⟩

theorem Inv.reach_of_zero (h : Inv v s) (h0 : s.counter.cell = 0)
    (hs : Reach (RefCtx.next hasCbRelease) Below s s') :
    s'.counter.cell = 0 ∧ ∃ later, s'.counter.returns = later ++ s.counter.returns ∧
      ∀ r ∈ later, returnValue r = -1 := by
  suffices hrun : Inv v s' ∧ s'.counter.cell = 0 ∧
      ∃ later, s'.counter.returns = later ++ s.counter.returns ∧
        ∀ r ∈ later, returnValue r = -1 from hrun.2
  induction hs with
  | start => exact ⟨h, h0, [], rfl, nofun⟩
  | step _ hbelow hnext ih =>
    obtain ⟨hinv, hcell, later, hlater, hvalues⟩ := ih
    obtain ⟨hcell', more, hmore, hvalues'⟩ := hinv.next_of_zero hcell hnext
    refine ⟨hinv.next hbelow hnext, hcell', more ++ later, ?_, ?_⟩
    · rw [hmore, hlater, List.append_assoc]
    · exact List.forall_mem_append.mpr ⟨hvalues', hvalues⟩

theorem Inv.left_lt_of_zero (h : Inv v s) (h0 : s.counter.cell = 0) (ht : s.counter.pc t ≠ .idle) :
    ∃ s', s.next hasCbRelease (t, .step) = some s' ∧
      (s'.counter.pc t).left < (s.counter.pc t).left := by
  have htodo : s.todo t = [] := by
    by_contra hne
    exact ht (h.apart t hne)
  obtain ⟨counter, r, hstep, hleft⟩ :=
    h.counter.left_lt_of_final (fun c => h0.symm ▸ c.desired_zero) ht
  refine ⟨s.afterReturn hasCbRelease t counter r, ?_, ?_⟩
  · simp only [RefCtx.next, htodo, hstep, Option.map_some]
  · rwa [afterReturn_counter]

/-- **The lifetime of a counter**, in every interleaving: retains minus releases, at most one
release to zero, and zero is final. -/
theorem refCnt_lifetime {initVal v : ℤ} (hinit : refCntInit initVal = (0, some v))
    (hs : Reach (next hasCbRelease) Below (start v : RefCtx τ) s) :
    s.counter.cell = initVal + s.retained - s.released ∧
      s.zeroReleases = (if s.counter.cell = 0 then 1 else 0) ∧
      (s.counter.cell = 0 →
        (∀ s', Reach (next hasCbRelease) Below s s' → s'.counter.cell = 0 ∧
          ∃ later, s'.counter.returns = later ++ s.counter.returns ∧
            ∀ r ∈ later, returnValue r = -1) ∧
        (∀ t, s.counter.pc t ≠ .idle → ∃ s', s.next hasCbRelease (t, .step) = some s' ∧
          (s'.counter.pc t).left < (s.counter.pc t).left) ∧
        ∀ t t' act s', t' ≠ t → s.next hasCbRelease (t, act) = some s' →
          s'.counter.pc t' = s.counter.pc t') ∧
      s.closes ≤ 1 ∧ s.frees ≤ 1 ∧
      ∀ t c w d, s.counter.pc t = .cas c w d → 0 ≤ d ∧ d ≤ INT_MAX := by
  obtain ⟨hpos, rfl⟩ := refCntInit_eq hinit
  have hinv := inv_of_reach hpos hs
  have htally := tally_of_replay hpos hinv.counter.replay
  exact ⟨htally.count, htally.zeros, fun h0 => ⟨fun _ => hinv.reach_of_zero h0,
    fun _ => hinv.left_lt_of_zero h0, fun _ _ _ _ => pc_of_ne⟩, hinv.cleaning.le_one.1,
    hinv.cleaning.le_one.2, hinv.fits⟩

def lastOfTwo : List (Bool × RefAct) :=
  [(false, .call .releaseCtx), (true, .call .releaseCtx), (false, .step), (true, .step),
    (false, .step), (true, .step), (true, .step), (true, .step), (true, .step), (true, .step)]

theorem lifetime_lastOfTwo :
    ∃ s : RefCtx Bool, execWhen (next false) (fun s a => decide (s.Below a)) (start 2) lastOfTwo =
        some s ∧
      s.counter.cell = 0 ∧ s.zeroReleases = 1 ∧ s.closes = 1 ∧ s.frees = 1 ∧
      ∀ s', Reach (next false) Below s s' → s'.counter.cell = 0 := by
  have hrun : ∃ s : RefCtx Bool,
      execWhen (next false) (fun s a => decide (s.Below a)) (start 2) lastOfTwo = some s ∧
        s.counter.cell = 0 ∧ s.zeroReleases = 1 ∧ s.closes = 1 ∧ s.frees = 1 :=
    ⟨_, rfl, rfl, rfl, rfl, rfl⟩
  obtain ⟨s, hexec, h0, hcounts⟩ := hrun
  have hinit : refCntInit 2 = (0, some 2) := rfl
  have hlife := refCnt_lifetime hinit
    (Reach.of_decide hexec)
  exact ⟨s, hexec, h0, hcounts.1, hcounts.2.1, hcounts.2.2,
    fun s' hs' => ((hlife.2.2.1 h0).1 s' hs').1⟩

end RefCtx

end Mugglec
