import Mugglec.Memory.BytesBufferCalls

/-!
# Memory/BytesBufferMark — a reader that stops on the mark

`read` goes back to the start when it comes to the truncation mark; `reader_move` does not.
-/

open Window

namespace Mugglec

namespace BytesBuffer

variable {b : BytesBuffer}

/-- Where there are bytes there are some in front of the reader. -/
def Flowing (b : BytesBuffer) : Prop := 0 < b.readable → 0 < b.contiguousReadable

instance (b : BytesBuffer) : Decidable b.Flowing := inferInstanceAs (Decidable (_ → _))

def Stuck (b : BytesBuffer) : Prop := 0 < b.w ∧ b.w < b.r ∧ b.r = b.t

theorem flowing_iff (h : b.Cursors) : b.Flowing ↔ ¬ b.Stuck := by
  have ⟨hc, hr, hw, hwc, htc, hrw, hwr⟩ := h
  rw [Flowing, Stuck, readable, contiguousReadable, jumpReadable]
  split <;> omega

def StrandsWrite (b : BytesBuffer) (n : ℤ) : Prop := b.w = 0 ∧ b.r = b.t ∧ 0 < n ∧ n < b.r

theorem stuck_advanceWriter (h : b.Cursors) (hb : ¬ b.Stuck) {n : ℕ}
    (hn : (n : ℤ) ≤ b.contiguousWritable) : (b.advanceWriter n).Stuck ↔ b.StrandsWrite n := by
  have ⟨hc, hr, hw, hwc, htc, hrw, hwr⟩ := h
  obtain ⟨hlin, hwrap⟩ := le_contiguousWritable hn
  simp only [Stuck, StrandsWrite, advanceWriter] at hb ⊢
  rcases le_or_gt b.r b.w with hle | hlt
  · have := hlin hle
    have := hrw hle
    split_ifs <;> omega
  · have := hwrap hlt
    have := hwr hlt
    rw [if_neg (by omega), if_neg (by omega)]
    omega

theorem not_stuck_jump (h : b.Valid) {n : ℕ} (hn : (n : ℤ) < b.r) :
    ¬ Stuck { b with t := b.w, w := n } := by
  rintro ⟨-, -, hrt⟩
  have := (h.empty hrt).1
  simp only at hrt
  omega

theorem not_strandsWrite_of_le (hle : b.r ≤ b.w) (n : ℤ) : ¬ b.StrandsWrite n := by
  rintro ⟨hw, -, hn, hlt⟩
  omega

theorem stuck_write (h : b.Valid) (hb : ¬ b.Stuck) (src : List UInt8) :
    (b.write src).2.Stuck ↔ b.StrandsWrite src.length := by
  have ⟨hc, hr, hw, hwc, htc, hrw, hwr⟩ := h.toCursors
  have hcw := contiguousWritable_nonneg h.toCursors
  rw [write]
  by_cases hfit : b.contiguousWritable ≥ src.length
  · simp only [if_pos hfit]
    exact stuck_advanceWriter (h.store _).toCursors hb hfit
  · by_cases hfull : b.contiguousWritable + b.jumpWritable < src.length
    · simp only [if_neg hfit, if_pos hfull]
      refine iff_of_false hb ?_
      rintro ⟨hw0, hrt, hn, hlt⟩
      rw [contiguousWritable, if_neg (by omega)] at hfit
      omega
    · obtain ⟨hle, hlt⟩ : b.r ≤ b.w ∧ b.jumpWritable < b.r :=
        le_jumpWritable (n := b.jumpWritable) (by omega) (le_refl _)
      by_cases hjump : b.jumpWritable ≥ src.length
      · simp only [if_neg hfit, if_neg hfull, if_pos hjump]
        exact iff_of_false (not_stuck_jump h (by omega)) (not_strandsWrite_of_le hle _)
      · simp only [if_neg hfit, if_neg hfull, if_neg hjump]
        refine iff_of_false ?_ (not_strandsWrite_of_le hle _)
        rintro ⟨-, -, hrt⟩
        simp only at hrt
        omega

theorem stuck_writerMove (h : b.Valid) (hb : ¬ b.Stuck) (n : ℕ) :
    (b.writerMove n).2.Stuck ↔ b.StrandsWrite n := by
  have hcw := contiguousWritable_nonneg h.toCursors
  rw [writerMove]
  by_cases hfit : b.contiguousWritable ≥ n
  · rw [if_pos hfit]
    exact stuck_advanceWriter h.toCursors hb hfit
  · rw [if_neg hfit]
    by_cases hjump : b.jumpWritable ≥ n
    · rw [if_pos hjump]
      obtain ⟨hle, hlt⟩ := le_jumpWritable (by omega) hjump
      exact iff_of_false (not_stuck_jump h hlt) (not_strandsWrite_of_le hle _)
    · rw [if_neg hjump]
      refine iff_of_false hb ?_
      rintro ⟨hw0, hrt, hn, hlt⟩
      rw [contiguousWritable, if_neg (by omega)] at hfit
      omega

theorem stuck_produce (h : b.Valid) (hb : ¬ b.Stuck) {n n' : ℕ} {p : ℤ} {fill : List UInt8}
    (hp : b.writerFc n = some p) (hn : n' ≤ n) :
    (writerMoveN { b with buffer := store b.buffer p fill } p n').Stuck ↔ b.StrandsWrite n' := by
  have hcw := contiguousWritable_nonneg h.toCursors
  rw [writerFc] at hp
  by_cases hfit : b.contiguousWritable ≥ n
  · rw [if_pos hfit] at hp
    cases hp
    rw [writerMoveN_of_contiguous (h.store (store b.buffer b.w fill)) hn hfit]
    exact stuck_advanceWriter (h.store _).toCursors hb (le_trans (by exact_mod_cast hn) hfit)
  · rw [if_neg hfit] at hp
    split_ifs at hp with hjump
    cases hp
    obtain ⟨hle, hlt⟩ := le_jumpWritable (by omega) hjump
    have hw0 : b.w > 0 := by have := h.r_nonneg; omega
    simp only [writerMoveN, if_pos hw0]
    have hn' : (n' : ℤ) < b.r := by omega
    exact iff_of_false (not_stuck_jump (h.store (store b.buffer 0 fill)) hn')
      (not_strandsWrite_of_le hle _)

def StrandsReader (b : BytesBuffer) (n : ℤ) : Prop := 0 < b.w ∧ b.w < b.r ∧ b.r + n = b.t

theorem stuck_refresh (b : BytesBuffer) : b.refresh.Stuck ↔ b.Stuck := by
  rw [refresh]
  split
  · next heq =>
    refine iff_of_false (fun hs => lt_irrefl _ hs.1) fun hs => ?_
    exact hs.2.1.ne heq
  · rfl

theorem stuck_readerMove (h : b.Cursors) (hb : ¬ b.Stuck) (n : ℕ) :
    (b.readerMove n).2.Stuck ↔ b.StrandsReader n := by
  have ⟨hc, hr, hw, hwc, htc, hrw, hwr⟩ := h
  rw [readerMove]
  by_cases hfit : b.contiguousReadable ≥ n
  · obtain ⟨hlin, hwrap⟩ := le_contiguousReadable hfit
    simp only [if_pos hfit, stuck_refresh]
    simp only [Stuck, StrandsReader] at hb ⊢
    rcases le_or_gt b.r b.w with hle | hlt
    · have := hlin hle
      omega
    · omega
  · rw [if_neg hfit]
    refine iff_of_false hb ?_
    rintro ⟨hw0, hlt, hrt⟩
    rw [contiguousReadable, if_neg (not_le.mpr hlt)] at hfit
    omega

theorem not_stuck_read (h : b.Cursors) {n : ℕ} {bytes : List UInt8} {b' : BytesBuffer}
    (hread : b.read n = some (bytes, b')) : ¬ b'.Stuck := by
  have ⟨hc, hr, hw, hwc, htc, hrw, hwr⟩ := h
  rw [read] at hread
  by_cases hfit : b.contiguousReadable ≥ n
  · simp only [if_pos hfit, Option.some.injEq, Prod.mk.injEq] at hread
    obtain ⟨-, rfl⟩ := hread
    rw [stuck_refresh]
    rintro ⟨hw0, hlt, hrt⟩
    simp only at hlt hrt
    split_ifs at hlt hrt <;> omega
  · by_cases hshort : b.contiguousReadable + b.jumpReadable < n
    · simp [if_neg hfit, if_pos hshort] at hread
    · simp only [if_neg hfit, if_neg hshort, Option.some.injEq, Prod.mk.injEq] at hread
      obtain ⟨-, rfl⟩ := hread
      rw [stuck_refresh]
      rintro ⟨hw0, hlt, hrt⟩
      have hjr : b.jumpReadable ≤ b.w := by
        rw [jumpReadable]
        split <;> omega
      simp only at hlt
      omega

theorem writerFc_isSome_iff (hw : b.w = 0) (hr : 0 < b.r) {n : ℕ} :
    (b.writerFc n).isSome = true ↔ (n : ℤ) < b.r := by
  have hn : ¬ b.w ≥ b.r := by omega
  rw [writerFc, contiguousWritable, jumpWritable, if_neg hn, if_neg hn]
  split_ifs <;> simp <;> omega

def Strands (b : BytesBuffer) : BytesCall → Prop
  | .readerMove n => b.StrandsReader n
  | .write src => b.StrandsWrite src.length
  | .produce n n' _ _ _ => n < b.r ∧ b.StrandsWrite n'
  | .writerMove n => b.StrandsWrite n
  | _ => False

theorem stuck_call (h : b.Valid) (hb : ¬ b.Stuck) (c : BytesCall) :
    (b.call c).2.Stuck ↔ b.Strands c := by
  cases c with
  | write src => exact stuck_write h hb src
  | read n =>
    rw [call]
    cases hres : b.read n with
    | none => exact iff_of_false hb not_false
    | some res => exact iff_of_false (not_stuck_read h.toCursors hres) not_false
  | fetch n => exact iff_of_false hb not_false
  | writerFc n fill hfill =>
    rw [call]
    cases hres : b.writerFc n with
    | none => exact iff_of_false hb not_false
    | some p => exact iff_of_false hb not_false
  | produce n n' fill hfill hn =>
    have hsome (hs : b.StrandsWrite n') : (b.writerFc n).isSome = true ↔ (n : ℤ) < b.r :=
      writerFc_isSome_iff hs.1 (by have := hs.2; omega)
    rw [call]
    cases hres : b.writerFc n with
    | none =>
      rw [hres] at hsome
      exact iff_of_false hb fun hs => absurd ((hsome hs.2).mpr hs.1) (by decide)
    | some p =>
      rw [hres] at hsome
      refine (stuck_produce h hb hres hn).trans ⟨fun hs => ⟨(hsome hs).mp rfl, hs⟩, And.right⟩
  | writerMove n => exact stuck_writerMove h hb n
  | readerFc n => exact iff_of_false hb not_false
  | readerMove n => exact stuck_readerMove h.toCursors hb n
  | clear => exact iff_of_false (fun hs => lt_irrefl _ hs.1) not_false

def Unstuck (b : BytesBuffer) : Prop := b.Valid ∧ ¬ b.Stuck

/-- **Bytes are in front of the reader throughout a run exactly when no call strands them.** -/
theorem flowing_iff_no_strands (capacity : ℤ) (hcap : 1 ≤ capacity) (block : ℤ → UInt8)
    (calls : List BytesCall) :
    (∀ pre, pre <+: calls → (runCalls capacity block pre).Flowing) ↔
      ∀ pre c, pre ++ [c] <+: calls → ¬ (runCalls capacity block pre).Strands c := by
  have hstart : Unstuck (init capacity block) :=
    ⟨valid_init hcap block, fun hs => lt_irrefl _ hs.1⟩
  have hstep : ∀ b c, Unstuck b → ¬ b.Strands c → Unstuck (b.call c).2 := fun b c h hc =>
    ⟨h.1.call c, fun hs => hc ((stuck_call h.1 h.2 c).mp hs)⟩
  have hgood : ∀ b, Unstuck b → b.Flowing := fun b h => (flowing_iff h.1.toCursors).mpr h.2
  have hbad : ∀ b c, Unstuck b → ¬ ¬ b.Strands c → ¬ (b.call c).2.Flowing := by
    intro b c h hc
    rw [flowing_iff (h.1.call c).toCursors, not_not]
    exact (stuck_call h.1 h.2 c).mpr (not_not.mp hc)
  exact Steps.forall_prefix_iff hstart hstep hgood hbad calls

def readerOnMark : List BytesCall :=
  [.write [1, 2, 3, 4], .readerMove 3, .write [5, 6], .readerMove 1]

theorem flowing_iff_on_readerOnMark :
    (1 : ℤ) ≤ 5 ∧
      ((∀ pre, pre <+: readerOnMark → (runCalls 5 (fun _ => 0) pre).Flowing) ↔
        ∀ pre c, pre ++ [c] <+: readerOnMark → ¬ (runCalls 5 (fun _ => 0) pre).Strands c) :=
  ⟨by decide, flowing_iff_no_strands 5 (by decide) _ _⟩

theorem not_flowing_readerOnMark :
    (runCalls 5 (fun _ => 0) readerOnMark).readable = 2 ∧
      (runCalls 5 (fun _ => 0) readerOnMark).contiguousReadable = 0 ∧
      ¬ (runCalls 5 (fun _ => 0) readerOnMark).Flowing := by
  decide

end BytesBuffer

end Mugglec
