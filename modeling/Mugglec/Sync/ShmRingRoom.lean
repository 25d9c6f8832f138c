import Mugglec.Sync.ShmRingDelivery

/-!
# Sync/ShmRingRoom — the room in a drained ring

When the reader has moved past every record, the cursors are in one of two positions.
-/

namespace Mugglec

open Steps ShmRing

namespace ShmState

variable {s s' : ShmState} {mark : Option ℕ} {nBytes : ℕ} {a : ShmStep}

def Roomy (s : ShmState) (a : ShmStep) : Prop :=
  s.Guarded a ∧
    match a, s.writer with
    | .writer, .loadRead _ nCacheline =>
      nCacheline < 2 ^ 31 ∨ s.writeCursor < s.readCursor ∨ s.nCacheline ≤ 2 * s.writeCursor
    | _, _ => True

instance (s : ShmState) (a : ShmStep) : Decidable (s.Roomy a) :=
  @instDecidableAnd _ _ inferInstance <|
    match a, s.writer with
    | .writer, .loadRead _ _ => inferInstanceAs (Decidable (_ ∨ _ ∨ _))
    | .writer, .idle | .writer, .markBytes .. | .writer, .markLines .. | .writer, .wrap ..
    | .writer, .hdrBytes .. | .writer, .hdrLines .. | .writer, .granted .. => isTrue trivial
    | .allocBytes _, _ | .allocCachelines _ _, _ | .fill _ _, _ | .wMove, _ | .rFetch, _
    | .rMove, _ | .reader, _ => isTrue trivial

def TurnsHigh (q : ShmRing) : ShmWriterPc → Prop
  | .markBytes _ _ _ | .markLines _ _ _ | .wrap _ _ _ => q.nCacheline ≤ 2 * q.writeCursor
  | _ => True

structure High (s : ShmState) (mark : Option ℕ) : Prop where
  mark : ∀ m ∈ mark, s.nCacheline ≤ 2 * m
  turns : TurnsHigh s.toShmRing s.writer

theorem turnsHigh_retest (s : ShmState) (nBytes nCacheline : ℕ) :
    TurnsHigh (s.retest nBytes nCacheline).toShmRing (s.retest nBytes nCacheline).writer := by
  simp only [retest]
  split <;> trivial

theorem Inv.turnsHigh_updateCachedRemain (h : Inv s mark) {nCacheline : ℕ}
    (hroom : nCacheline < 2 ^ 31 ∨ s.writeCursor < s.readCursor ∨
      s.nCacheline ≤ 2 * s.writeCursor) :
    TurnsHigh (s.updateCachedRemain nBytes nCacheline).toShmRing
      (s.updateCachedRemain nBytes nCacheline).writer := by
  rw [h.updateCachedRemain_eq]
  split_ifs with hlt hfit hneed
  · exact turnsHigh_retest _ _ _
  · exact turnsHigh_retest _ _ _
  · rcases hroom with hsmall | hahead | hhigh
    · rw [i32_of_lt hsmall] at hneed
      simp only [TurnsHigh]
      omega
    · exact absurd hahead hlt
    · exact hhigh
  · exact turnsHigh_retest _ _ _

theorem Inv.high_writerStep (h : Inv s mark) (hhigh : High s mark) (hok : s.Roomy .writer)
    (hnext : s.next .writer = some s') : High s' (s.markAfter .writer mark) := by
  have hlines := (logs_next hnext).1
  have hturns := hhigh.turns
  have hroom := hok.2
  simp only [next, ShmState.writerStep] at hnext
  simp only [markAfter]
  generalize hpc : s.writer = pc at hnext hroom hturns
  cases pc with
  | idle | granted => cases hnext
  | loadRead nBytes nCacheline =>
    cases hnext
    exact ⟨by rw [hlines]; exact hhigh.mark, h.turnsHigh_updateCachedRemain hroom⟩
  | wrap nBytes nCacheline leftRemain =>
    cases hnext
    refine ⟨fun m hm => ?_, turnsHigh_retest _ _ _⟩
    cases hm
    exact hturns
  | markBytes | markLines | hdrBytes | hdrLines =>
    cases hnext
    exact ⟨hhigh.mark, hturns⟩

theorem Inv.high_step (h : Inv s mark) (hhigh : High s mark) (hok : s.Roomy a)
    (hnext : s.next a = some s') : High s' (s.markAfter a mark) := by
  have hlines := (logs_next hnext).1
  have hmark : ∀ m ∈ mark, s'.nCacheline ≤ 2 * m := hlines ▸ hhigh.mark
  cases a with
  | allocBytes | allocCachelines =>
    refine ⟨hmark, ?_⟩
    rw [wAllocCachelines_eq hnext]
    dsimp only
    split_ifs <;> trivial
  | writer => exact h.high_writerStep hhigh hok hnext
  | fill off byte =>
    obtain ⟨_, _, -, -, rfl⟩ := fill_eq hnext
    exact ⟨hmark, hhigh.turns⟩
  | wMove =>
    obtain ⟨_, _, -, rfl⟩ := wMove_eq hnext
    exact ⟨hmark, trivial⟩
  | rFetch =>
    refine ⟨hmark, ?_⟩
    rw [rFetch_eq hnext]
    exact hhigh.turns
  | rMove =>
    obtain ⟨_, -, rfl⟩ := rMove_eq hnext
    exact ⟨hmark, hhigh.turns⟩
  | reader =>
    obtain ⟨hwriter, hcursor, -⟩ := writer_of_readerStep hnext
    refine ⟨fun m hm => ?_, ?_⟩
    · simp only [markAfter] at hm
      split at hm
      · cases hm
      · exact hmark m hm
    · have hturns := hhigh.turns
      rw [hwriter]
      cases hpc : s.writer with
      | markBytes | markLines | wrap =>
        rw [hpc] at hturns
        simp only [TurnsHigh, hlines, hcursor] at hturns ⊢
        exact hturns
      | _ => trivial

theorem high_of_reach {K : ℕ} (hK : K ≤ 31) {data : ℤ → UInt8}
    (hs : Reach next Roomy (start (2 ^ K) data) s) :
    (∃ mark, Inv s mark ∧ High s mark) ∧ s.nCacheline = 2 ^ K := by
  have hsize : 2 ^ K ≤ 2 ^ 31 := Nat.pow_le_pow_right (by omega) hK
  refine hs.invariant (P := fun s => (∃ mark, Inv s mark ∧ High s mark) ∧ s.nCacheline = 2 ^ K)
    ⟨⟨none, inv_start (Nat.two_pow_pos K) hsize data, nofun, trivial⟩, rfl⟩ ?_
  rintro s a s' ⟨⟨mark, h, hhigh⟩, hlines⟩ hok hnext
  exact ⟨⟨_, h.step hok.1 hnext, h.high_step hhigh hok hnext⟩, (logs_next hnext).1.trans hlines⟩

theorem Inv.cursors_of_drained (h : Inv s mark) (hnil : s.unread = []) :
    (mark = none ∧ s.readCursor = s.writeCursor) ∨
      (mark = some s.readCursor ∧ s.writeCursor = 0) := by
  have hlayout := h.layout
  rw [hnil] at hlayout
  cases mark with
  | none => exact .inl ⟨rfl, hlayout.1⟩
  | some m =>
    obtain ⟨-, -, -, old, new, hrecs, hold, hnew⟩ := hlayout
    obtain ⟨rfl, rfl⟩ := List.append_eq_nil_iff.mp hrecs.symm
    exact .inr ⟨congrArg some (Eq.symm hold), Eq.symm hnew⟩

def Promised (nBytes k : ℕ) : ShmWriterPc → Prop
  | .idle => False
  | .loadRead a b | .hdrBytes a b | .hdrLines a b | .granted a b => a = nBytes ∧ b = k
  | .markBytes a b left | .markLines a b left | .wrap a b left =>
    a = nBytes ∧ b = k ∧ (k : ℤ) ≤ left

theorem promised_retest {k : ℕ} (hk : k ≤ s.cachedRemain) :
    Promised nBytes k (s.retest nBytes k).writer := by
  simp only [retest, if_neg (not_lt.mpr hk)]
  exact ⟨rfl, rfl⟩

theorem Inv.promised_updateCachedRemain (h : Inv s mark) (hhigh : High s mark)
    (hnil : s.unread = []) {k : ℕ} (hk : 2 * (k + 1) ≤ s.nCacheline) :
    Promised nBytes k (s.updateCachedRemain nBytes k).writer := by
  have hsize := h.size
  rw [h.updateCachedRemain_eq]
  rcases h.cursors_of_drained hnil with ⟨-, hrw⟩ | ⟨hmark, hw⟩
  · rw [if_neg (by omega)]
    split_ifs with hfit hneed
    · exact promised_retest hfit
    · exact ⟨rfl, rfl, by omega⟩
    · rw [i32_of_lt (by omega)] at hneed
      omega
  · have hupper := hhigh.mark _ hmark
    rw [if_pos (by omega)]
    exact promised_retest (by dsimp only; omega)

structure Promising (nBytes k : ℕ) (s : ShmState) : Prop where
  inv : ∃ mark, Inv s mark ∧ High s mark
  drained : s.unread = []
  room : 2 * (k + 1) ≤ s.nCacheline
  promised : Promised nBytes k s.writer

theorem Promising.roomy {k : ℕ} (h : Promising nBytes k s) (ha : DuringCall a) : s.Roomy a := by
  obtain ⟨⟨mark, hinv, -⟩, -, hroom, hpromised⟩ := h
  have hsize := hinv.size
  rcases ha with rfl | rfl | rfl | rfl
  · cases hpc : s.writer with
    | loadRead a b =>
      rw [hpc] at hpromised
      obtain ⟨rfl, rfl⟩ := hpromised
      have hsmall : b < 2 ^ 31 := by omega
      simp only [Roomy, Guarded, hpc]
      exact ⟨.inl hsmall, .inl hsmall⟩
    | idle | markBytes | markLines | wrap | hdrBytes | hdrLines | granted =>
      simp only [Roomy, Guarded, hpc]
      exact ⟨trivial, trivial⟩
  · exact ⟨trivial, trivial⟩
  · exact ⟨trivial, trivial⟩
  · exact ⟨trivial, trivial⟩

theorem Promising.promised_writerStep {k : ℕ} (h : Promising nBytes k s)
    (hnext : s.next .writer = some s') : Promised nBytes k s'.writer := by
  obtain ⟨⟨mark, hinv, hhigh⟩, hnil, hroom, hpromised⟩ := h
  have hok := hinv.writer
  simp only [next, writerStep] at hnext
  generalize hpc : s.writer = pc at hnext hpromised hok
  cases pc with
  | idle | granted => cases hnext
  | loadRead a b =>
    simp only [Option.some.injEq] at hnext
    obtain ⟨rfl, rfl⟩ := hpromised
    subst hnext
    exact hinv.promised_updateCachedRemain hhigh hnil hroom
  | wrap a b left =>
    simp only [Option.some.injEq] at hnext
    obtain ⟨rfl, rfl, hleft⟩ := hpromised
    subst hnext
    refine promised_retest ?_
    dsimp only
    rw [hinv.leftRemain_emod hok.2.1]
    omega
  | markBytes | markLines | hdrBytes | hdrLines =>
    cases hnext
    exact hpromised

theorem Promising.step {k : ℕ} (h : Promising nBytes k s) (ha : DuringCall a)
    (hnext : s.next a = some s') : Promising nBytes k s' := by
  have hroomy := h.roomy ha
  obtain ⟨mark, hinv, hhigh⟩ := h.inv
  have hinv' := hinv.step hroomy.1 hnext
  refine ⟨⟨_, hinv', hinv.high_step hhigh hroomy hnext⟩, ?_, (logs_next hnext).1 ▸ h.room, ?_⟩
  · exact unread_next hnext ha.quiet.2 h.drained
  · by_cases hw : a = .writer
    · subst hw
      exact h.promised_writerStep hnext
    · rw [writer_of_duringCall ha hw hnext]
      exact h.promised

/-- **A drained ring has room for any request below half of it**, as long as the steps are roomy. -/
theorem granted_of_drained {K : ℕ} (hK : K ≤ 31) {data : ℤ → UInt8}
    (hs : Reach next Roomy (start (2 ^ K) data) s) (hidle : s.writer.callLeft = 0)
    (hdrained : s.unread = []) {nBytes k : ℕ} (hBytes : nBytes < 2 ^ 32) (hk1 : 1 ≤ k)
    (hk : k ≤ 2 ^ K / 2 - 1) :
    ∃ s₁, s.next (.allocCachelines nBytes k) = some s₁ ∧
      ∀ s₂, Reach next (fun _ => DuringCall) s₁ s₂ →
        (s₂.writer.callLeft ≠ 0 →
          ∃ s₃, s₂.next .writer = some s₃ ∧ s₃.writer.callLeft < s₂.writer.callLeft) ∧
        (s₂.writer.callLeft = 0 → s₂.writer = .granted nBytes k) := by
  obtain ⟨⟨mark, h, hhigh⟩, hlines⟩ := high_of_reach hK hs
  obtain ⟨s₁, hcall⟩ := exists_wAllocCachelines hidle nBytes k
  refine ⟨s₁, hcall, fun s₂ hs₂ => ⟨exists_writerStep, fun hdone => ?_⟩⟩
  have hsized : s.Guarded (.allocCachelines nBytes k) := by
    have := h.size
    exact ⟨hBytes, by omega⟩
  have hstart : Promising nBytes k s₁ := by
    refine ⟨⟨_, h.step hsized hcall, h.high_step hhigh ⟨hsized, trivial⟩ hcall⟩, ?_, ?_, ?_⟩
    · exact unread_next hcall nofun hdrained
    · rw [(logs_next hcall).1]
      omega
    · rw [wAllocCachelines_eq hcall]
      dsimp only
      split_ifs <;> exact ⟨rfl, rfl⟩
  have hpromised := (hs₂.invariant hstart fun _ _ _ h => h.step).promised
  generalize hpc : s₂.writer = pc at hpromised hdone
  cases pc with
  | granted a b =>
    rw [hpromised.1, hpromised.2]
  | idle =>
    exact hpromised.elim
  | loadRead | markBytes | markLines | wrap | hdrBytes | hdrLines =>
    exact absurd hdone (Nat.succ_ne_zero _)

def givenUp : List ShmStep := roundLap ++ [ShmStep.allocCachelines 1 3, .writer, .writer, .writer]

theorem granted_givenUp : ∃ s : ShmState, (s.writer, s.writeCursor) = (.granted 1 3, 3) ∧
    ∃ s₁, s.next (.allocCachelines 1 3) = some s₁ ∧
      ∀ s₂, Reach next (fun _ => DuringCall) s₁ s₂ →
        (s₂.writer.callLeft ≠ 0 →
          ∃ s₃, s₂.next .writer = some s₃ ∧ s₃.writer.callLeft < s₂.writer.callLeft) ∧
        (s₂.writer.callLeft = 0 → s₂.writer = .granted 1 3) := by
  obtain ⟨s, hs, hplace, hidle, hunread⟩ : ∃ s, execWhen next (fun s a => decide (s.Roomy a))
      (start (2 ^ 3) fun _ => 0) givenUp = some s ∧ (s.writer, s.writeCursor) = (.granted 1 3, 3) ∧
      s.writer.callLeft = 0 ∧ s.unread = [] := by
    decide
  exact ⟨s, hplace, granted_of_drained (by decide) (Reach.of_decide hs) hidle hunread (by decide)
    (by decide) (by decide)⟩

def hugeRequest : List ShmStep :=
  [.allocCachelines 1 2, .writer, .writer, .wMove, .rFetch, .reader, .reader, .rMove, .reader,
    .allocCachelines 1 (2 ^ 31), .writer, .writer, .writer, .writer]

/-- **The ring is drained, and three lines are refused.** -/
theorem refused_after_hugeRequest : ∃ s s₁ : ShmState,
    exec next (start (2 ^ 3) fun _ => 0) hugeRequest = some s ∧
      s.unread = [] ∧ s.writer = .idle ∧
      exec next s [.allocCachelines 1 3, .writer] = some s₁ ∧ s₁.writer = .idle := by
  obtain ⟨s, hs, hunread, hidle, s₁, hrest⟩ : ∃ s,
      exec next (start (2 ^ 3) fun _ => 0) hugeRequest = some s ∧ s.unread = [] ∧
      s.writer = .idle ∧
      ∃ s₁, exec next s [.allocCachelines 1 3, .writer] = some s₁ ∧ s₁.writer = .idle := by
    decide
  exact ⟨s, s₁, hs, hunread, hidle, hrest⟩

end ShmState

end Mugglec
