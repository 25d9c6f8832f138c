import Mugglec.Machinery.Steps
import Mugglec.Memory.BytesBuffer

/-!
# Memory/BytesBufferFifo — the byte buffer is a queue of bytes, up to one read

`content b` is the bytes the buffer holds, oldest first.  The write side appends to it and the read
side takes from its front. One read breaks this.  After the writer has jumped and the reader has
followed it to the start, the truncation mark `t` is still where the last lap ended; if the writer
comes to stand exactly on it and a `read` drains the buffer, the test `r == t` sends the reader back
to `0` while the writer stays at `t`, and every byte below `t` is readable again (`DrainsAtMark`).
-/

open Window

namespace Mugglec

namespace BytesBuffer

structure Cursors (b : BytesBuffer) : Prop where
  cap : 1 ≤ b.c
  r_nonneg : 0 ≤ b.r
  w_nonneg : 0 ≤ b.w
  w_lt : b.w < b.c
  t_le : b.t ≤ b.c
  linear : b.r ≤ b.w → b.w ≤ b.t
  wrapped : b.w < b.r → b.r ≤ b.t

structure Valid (b : BytesBuffer) : Prop extends Cursors b where
  empty : b.r = b.w → b.w = 0 ∧ b.t = b.c

def content (b : BytesBuffer) : List UInt8 :=
  if b.r ≤ b.w then load b.buffer b.r (b.w - b.r).toNat
  else load b.buffer b.r (b.t - b.r).toNat ++ load b.buffer 0 b.w.toNat

variable {b : BytesBuffer} {n : ℕ} {fill : List UInt8}

theorem content_of_le (h : b.r ≤ b.w) :
    b.content = load b.buffer b.r (b.w - b.r).toNat := if_pos h

theorem content_of_lt (h : b.w < b.r) :
    b.content = load b.buffer b.r (b.t - b.r).toNat ++ load b.buffer 0 b.w.toNat :=
  if_neg (not_le.mpr h)

theorem readable_eq_length (h : b.Cursors) : b.readable = b.content.length := by
  have := h.linear
  have := h.wrapped
  have := h.w_nonneg
  rcases le_or_gt b.r b.w with hrw | hrw
  · rw [content_of_le hrw, length_load, readable, contiguousReadable, jumpReadable, if_pos hrw,
      if_pos hrw]
    omega
  · have hn : ¬ b.w ≥ b.r := not_le.mpr hrw
    rw [content_of_lt hrw, List.length_append, length_load, length_load, readable,
      contiguousReadable, jumpReadable, if_neg hn, if_neg hn]
    omega

theorem valid_init {capacity : ℤ} (h : 1 ≤ capacity) (block : ℤ → UInt8) :
    (init capacity block).Valid where
  cap := h
  r_nonneg := le_refl 0
  w_nonneg := le_refl 0
  w_lt := by simp only [init]; omega
  t_le := le_refl _
  linear _ := by simp only [init]; omega
  wrapped h' := absurd h' (by simp [init])
  empty _ := ⟨rfl, rfl⟩

theorem valid_clear (h : b.Cursors) : b.clear.Valid :=
  valid_init h.cap b.buffer

@[simp] theorem content_clear (b : BytesBuffer) : b.clear.content = [] := rfl

theorem content_refresh (b : BytesBuffer) : b.refresh.content = b.content := by
  rw [refresh]
  split
  · next h => rw [content_clear, content_of_le (le_of_eq h.symm), h, Int.sub_self]; rfl
  · rfl

theorem valid_refresh (h : b.Cursors) : b.refresh.Valid := by
  rw [refresh]
  split
  · exact valid_clear h
  · next hne => exact { h with empty := fun he => absurd he.symm hne }

theorem content_store (h : b.Cursors) (a : ℤ) (xs : List UInt8)
    (hlin : b.r ≤ b.w → b.w ≤ a ∨ a + xs.length ≤ b.r)
    (hwrap : b.w < b.r → b.w ≤ a ∧ a + xs.length ≤ b.r) :
    content { b with buffer := store b.buffer a xs } = b.content := by
  have := h.linear
  have := h.wrapped
  have := h.w_nonneg
  rcases le_or_gt b.r b.w with hrw | hrw
  · simp only [content, if_pos hrw]
    have := hlin hrw
    exact load_store_of_disjoint _ (by omega)
  · simp only [content, if_neg (not_le.mpr hrw)]
    have := hwrap hrw
    rw [load_store_of_disjoint _ (by omega), load_store_of_disjoint _ (by omega)]

theorem Valid.store (h : b.Valid) (m : ℤ → UInt8) :
    Valid { b with buffer := m } := { h with }

theorem le_contiguousWritable {n : ℤ} (h : n ≤ b.contiguousWritable) :
    (b.r ≤ b.w → b.w + n ≤ b.c ∧ (b.r = 0 → b.w + n < b.c)) ∧ (b.w < b.r → b.w + n < b.r) := by
  rw [contiguousWritable] at h
  split at h
  · split at h <;> omega
  · omega

theorem le_jumpWritable {n : ℤ} (hn : 0 < n) (h : n ≤ b.jumpWritable) :
    b.r ≤ b.w ∧ n < b.r := by
  rw [jumpWritable] at h
  split at h
  · split at h <;> omega
  · omega

theorem contiguousWritable_nonneg (h : b.Cursors) : 0 ≤ b.contiguousWritable := by
  have := h.w_lt
  rw [contiguousWritable]
  split
  · split <;> omega
  · omega

theorem content_advanceWriter (h : b.Valid) (hn : (n : ℤ) ≤ b.contiguousWritable) :
    (b.advanceWriter n).Valid ∧ (b.advanceWriter n).content = b.content ++ load b.buffer b.w n := by
  obtain ⟨hlin, hwrap⟩ := le_contiguousWritable hn
  have ⟨⟨hc, hr, hw, hwc, htc, hrw, hwr⟩, he⟩ := h
  have hnat : load b.buffer b.w n = load b.buffer b.w (b.w + n - b.w).toNat := by
    congr 1
    omega
  rw [hnat]
  rcases le_or_gt b.r b.w with hle | hlt
  · have hbw := hrw hle
    by_cases hend : b.w + n = b.c
    · have ht : (if b.t < b.w + n then b.c else b.t) = b.c := by split <;> omega
      have hr0 : 0 < b.r := by have := hlin hle; omega
      simp only [advanceWriter, if_pos hend, ht]
      refine ⟨⟨⟨hc, hr, le_refl 0, hc, le_refl _, fun h' => ?_, fun _ => ?_⟩, fun h' => ?_⟩, ?_⟩
      · simp only at h'; omega
      · simp only; omega
      · simp only at h'; omega
      · have hn' : ¬ b.r ≤ 0 := not_le.mpr hr0
        simp only [content, if_neg hn', if_pos hle]
        rw [hend, load_toNat_split _ hle (le_of_lt hwc), Int.toNat_zero, load_zero,
          List.append_nil]
    · simp only [advanceWriter, if_neg hend]
      have hle' : b.r ≤ b.w + n := by omega
      refine ⟨⟨⟨hc, hr, ?_, ?_, ?_, fun _ => ?_, fun h' => ?_⟩, fun h' => ?_⟩, ?_⟩
      · simp only; omega
      · have := hlin hle; simp only; omega
      · simp only; split <;> omega
      · have := hlin hle; simp only; split <;> omega
      · simp only at h'; omega
      · simp only at h' ⊢
        have h0 := he (by omega)
        have : ¬ b.t < b.w + n := by omega
        rw [if_neg this]
        omega
      · simp only [content, if_pos hle', if_pos hle]
        rw [load_toNat_split _ hle (by omega)]
  · have hbw := hwrap hlt
    have hbt := hwr hlt
    have hend : ¬ b.w + n = b.c := by omega
    have ht : ¬ b.t < b.w + n := by omega
    simp only [advanceWriter, if_neg hend, if_neg ht]
    refine ⟨⟨⟨hc, hr, ?_, ?_, htc, fun h' => ?_, fun _ => hbt⟩, fun h' => ?_⟩, ?_⟩
    · simp only; omega
    · simp only; omega
    · simp only at h'; omega
    · simp only at h'; omega
    · simp only [content, if_neg (not_le.mpr hlt), if_neg (not_le.mpr hbw)]
      have hsplit := load_toNat_split b.buffer hw (show b.w ≤ b.w + n by omega)
      rw [Int.sub_zero, Int.sub_zero] at hsplit
      rw [hsplit, List.append_assoc]

theorem content_jump (h : b.Valid) (hle : b.r ≤ b.w) (hn : (n : ℤ) < b.r) :
    Valid { b with t := b.w, w := n } ∧
      content { b with t := b.w, w := n } = b.content ++ load b.buffer 0 n := by
  have ⟨⟨hc, hr, hw, hwc, htc, hrw, hwr⟩, he⟩ := h
  refine ⟨⟨⟨hc, hr, ?_, ?_, ?_, fun h' => ?_, fun _ => hle⟩, fun h' => ?_⟩, ?_⟩
  · simp only; omega
  · simp only; omega
  · simp only; omega
  · simp only at h'; omega
  · simp only at h'; omega
  · simp only [content, if_pos hle, if_neg (not_le.mpr hn), Int.toNat_natCast]

theorem content_split (h : b.Valid) (hle : b.r ≤ b.w) (hn : (n : ℤ) < b.r) :
    Valid { b with t := b.c, w := n } ∧
      content { b with t := b.c, w := n }
        = b.content ++ (load b.buffer b.w (b.c - b.w).toNat ++ load b.buffer 0 n) := by
  have ⟨⟨hc, hr, hw, hwc, htc, hrw, hwr⟩, he⟩ := h
  refine ⟨⟨⟨hc, hr, ?_, ?_, le_refl _, fun h' => ?_, fun _ => ?_⟩, fun h' => ?_⟩, ?_⟩
  · simp only; omega
  · simp only; omega
  · simp only at h'; omega
  · simp only; omega
  · simp only at h'; omega
  · simp only [content, if_pos hle, if_neg (not_le.mpr hn), Int.toNat_natCast]
    rw [load_toNat_split _ hle (le_of_lt hwc), List.append_assoc]

theorem content_fillAdvance (h : b.Valid) (hfill : (fill.length : ℤ) ≤ b.contiguousWritable)
    (hn : (n : ℤ) ≤ b.contiguousWritable) :
    (advanceWriter { b with buffer := store b.buffer b.w fill } n).Valid ∧
      (advanceWriter { b with buffer := store b.buffer b.w fill } n).content
        = b.content ++ load (store b.buffer b.w fill) b.w n := by
  have hstore := content_store h.toCursors b.w fill (fun _ => Or.inl (le_refl b.w))
    (fun h' => ⟨le_refl b.w, le_of_lt ((le_contiguousWritable hfill).2 h')⟩)
  have hadv := content_advanceWriter (h.store (store b.buffer b.w fill)) hn
  rwa [hstore] at hadv

theorem content_fillJump (h : b.Valid) (hle : b.r ≤ b.w) (hfill : (fill.length : ℤ) < b.r)
    (hn : (n : ℤ) < b.r) :
    Valid { b with buffer := store b.buffer 0 fill, t := b.w, w := n } ∧
      content { b with buffer := store b.buffer 0 fill, t := b.w, w := n }
        = b.content ++ load (store b.buffer 0 fill) 0 n := by
  have hstore := content_store h.toCursors 0 fill (fun _ => Or.inr (by omega))
    (fun h' => absurd hle (not_le.mpr h'))
  have hjump := content_jump (h.store (store b.buffer 0 fill)) hle hn
  rwa [hstore] at hjump

theorem content_fillSplit {front back : List UInt8} (h : b.Valid) (hle : b.r ≤ b.w)
    (hfront : (front.length : ℤ) = b.c - b.w) (hback : (back.length : ℤ) < b.r) :
    Valid { b with buffer := store (store b.buffer b.w front) 0 back, t := b.c, w := back.length } ∧
      content
          { b with buffer := store (store b.buffer b.w front) 0 back, t := b.c, w := back.length }
        = b.content ++ (front ++ back) := by
  have hstore := content_store h.toCursors b.w front (fun _ => Or.inl (le_refl b.w))
    (fun h' => absurd hle (not_le.mpr h'))
  have hstore' := content_store (h.store (store b.buffer b.w front)).toCursors 0 back
    (fun _ => Or.inr (by simp only; omega)) (fun h' => absurd hle (not_le.mpr h'))
  have hsplit := content_split (h.store (store (store b.buffer b.w front) 0 back)) hle hback
  have hend : (b.c - b.w).toNat = front.length := by omega
  have hloadw : load (store (store b.buffer b.w front) 0 back) b.w front.length = front := by
    rw [load_store_of_disjoint _ (by omega), load_store_self]
  simp only at hsplit hstore'
  rwa [hstore', hstore, hend, hloadw, load_store_self] at hsplit

theorem write_spec (h : b.Valid) (src : List UInt8) :
    ((b.write src).1 = true → (b.write src).2.Valid ∧ (b.write src).2.content = b.content ++ src) ∧
      ((b.write src).1 = false → (b.write src).2 = b) := by
  have hcw := contiguousWritable_nonneg h.toCursors
  have ⟨hc, hr, hw, hwc, htc, hrw, hwr⟩ := h.toCursors
  rw [write]
  by_cases hfit : b.contiguousWritable ≥ src.length
  · simp only [if_pos hfit, reduceCtorEq, false_implies, and_true, forall_const]
    have hadv := content_fillAdvance h hfit hfit
    rwa [load_store_self] at hadv
  · simp only [if_neg hfit]
    by_cases hfull : b.contiguousWritable + b.jumpWritable < src.length
    · simp [if_pos hfull]
    · simp only [if_neg hfull]
      by_cases hjump : b.jumpWritable ≥ src.length
      · obtain ⟨hle, hlt⟩ := le_jumpWritable (by omega) hjump
        simp only [if_pos hjump, reduceCtorEq, false_implies, and_true, forall_const]
        have hmove := content_fillJump h hle hlt hlt
        rwa [load_store_self] at hmove
      · obtain ⟨hle, hlt⟩ := le_jumpWritable (b := b) (n := b.jumpWritable) (by omega) (le_refl _)
        have hcw' : b.contiguousWritable = b.c - b.w := by
          rw [contiguousWritable, if_pos hle, if_pos (by omega)]
        simp only [if_neg hjump, if_pos (show b.contiguousWritable > 0 by omega), reduceCtorEq,
          false_implies, and_true, forall_const]
        have hfront : ((src.take b.contiguousWritable.toNat).length : ℤ) = b.c - b.w := by
          rw [List.length_take]
          omega
        have hback : ((src.drop b.contiguousWritable.toNat).length : ℤ) =
            src.length - b.contiguousWritable := by
          rw [List.length_drop]
          omega
        have hlast : ((src.drop b.contiguousWritable.toNat).length : ℤ) < b.r := by omega
        have hsplit := content_fillSplit h hle hfront hlast
        rwa [List.take_append_drop, hback] at hsplit

theorem writerMoveN_of_contiguous (h : b.Valid) {n' : ℕ} (hn : n' ≤ n)
    (hfit : b.contiguousWritable ≥ n) : b.writerMoveN b.w n' = b.advanceWriter n' := by
  obtain ⟨hlin, hwrap⟩ := le_contiguousWritable hfit
  have ⟨hc, hr, hw, hwc, htc, hrw, hwr⟩ := h.toCursors
  by_cases h0 : b.w = 0
  · have hne : ¬ b.w + (n' : ℤ) = b.c := by
      rcases le_or_gt b.r b.w with h' | h'
      · have := hlin h'; omega
      · have := hwrap h'; have := hwr h'; omega
    have hnt : ¬ b.t < b.w + (n' : ℤ) := by
      rcases le_or_gt b.r b.w with h' | h'
      · have := hlin h'; have := h.empty (by omega); omega
      · have := hwrap h'; have := hwr h'; omega
    have hw0 : ¬ b.w > 0 := by omega
    simp only [writerMoveN, advanceWriter, if_pos h0, if_neg hne, if_neg hnt, if_neg hw0]
    rw [h0, zero_add]
  · rw [writerMoveN, if_neg h0]

theorem writerMoveN_spec (h : b.Valid) {n' : ℕ} {p : ℤ} (hp : b.writerFc n = some p)
    (hfill : fill.length ≤ n) (hn : n' ≤ n) :
    (writerMoveN { b with buffer := store b.buffer p fill } p n').Valid ∧
      (writerMoveN { b with buffer := store b.buffer p fill } p n').content
        = b.content ++ load (store b.buffer p fill) p n' := by
  have hcw := contiguousWritable_nonneg h.toCursors
  have ⟨hc, hr, hw, hwc, htc, hrw, hwr⟩ := h.toCursors
  rw [writerFc] at hp
  by_cases hfit : b.contiguousWritable ≥ n
  · rw [if_pos hfit] at hp
    cases hp
    obtain ⟨hlin, hwrap⟩ := le_contiguousWritable hfit
    have hroom : (fill.length : ℤ) ≤ b.contiguousWritable := by omega
    have hadv := content_fillAdvance (n := n') h hroom (by omega)
    rw [writerMoveN_of_contiguous (h.store (store b.buffer b.w fill)) (by exact hn) hfit]
    exact hadv
  · rw [if_neg hfit] at hp
    by_cases hjump : b.jumpWritable ≥ n
    · rw [if_pos hjump] at hp
      cases hp
      obtain ⟨hle, hlt⟩ := le_jumpWritable (by omega) hjump
      have hw0 : b.w > 0 := by omega
      simp only [writerMoveN, if_pos hw0]
      exact content_fillJump h hle (by omega) (by omega)
    · rw [if_neg hjump] at hp
      cases hp

def DrainsAtMark (b : BytesBuffer) (n : ℕ) : Prop := b.r ≤ b.w ∧ b.w = b.t ∧ b.r + n = b.t

instance (b : BytesBuffer) (n : ℕ) : Decidable (b.DrainsAtMark n) := by
  unfold DrainsAtMark; infer_instance

theorem le_contiguousReadable {n : ℤ} (h : n ≤ b.contiguousReadable) :
    (b.r ≤ b.w → b.r + n ≤ b.w) ∧ (b.w < b.r → b.r + n ≤ b.t) := by
  rw [contiguousReadable] at h
  split at h <;> omega

theorem content_advanceReader (h : b.Valid) (hn : (n : ℤ) ≤ b.contiguousReadable) :
    Cursors { b with r := b.r + n } ∧
      b.content = load b.buffer b.r n ++ content { b with r := b.r + n } := by
  obtain ⟨hlin, hwrap⟩ := le_contiguousReadable hn
  have ⟨hc, hr, hw, hwc, htc, hrw, hwr⟩ := h.toCursors
  have hnat : load b.buffer b.r n = load b.buffer b.r (b.r + n - b.r).toNat := by
    congr 1
    omega
  rw [hnat]
  rcases le_or_gt b.r b.w with hle | hlt
  · have hle' := hlin hle
    refine ⟨⟨hc, ?_, hw, hwc, htc, fun _ => hrw hle, fun h' => ?_⟩, ?_⟩
    · simp only; omega
    · simp only at h'; omega
    · simp only [content, if_pos hle, if_pos hle']
      exact load_toNat_split _ (by omega) hle'
  · have hle' := hwrap hlt
    have hlt' : b.w < b.r + n := by omega
    refine ⟨⟨hc, ?_, hw, hwc, htc, fun h' => ?_, fun _ => hle'⟩, ?_⟩
    · simp only; omega
    · simp only at h'; omega
    · simp only [content, if_neg (not_le.mpr hlt), if_neg (not_le.mpr hlt')]
      rw [load_toNat_split _ (show b.r ≤ b.r + n by omega) hle', List.append_assoc]

theorem content_readerWrap (h : b.Cursors) (hlt : b.w < b.r) (ht : b.r = b.t) :
    Cursors { b with r := 0 } ∧ content { b with r := 0 } = b.content := by
  have ⟨hc, hr, hw, hwc, htc, hrw, hwr⟩ := h
  refine ⟨⟨hc, le_refl 0, hw, hwc, htc, fun _ => ?_, fun h' => ?_⟩, ?_⟩
  · simp only; omega
  · simp only at h'; omega
  · rw [content_of_lt hlt, ht, Int.sub_self, Int.toNat_zero, load_zero, List.nil_append]
    simp only [content, if_pos hw, Int.sub_zero]

theorem content_readerAcross {n : ℤ} (h : b.Cursors) (hlt : b.w < b.r) (hn : 0 ≤ n) (hw : n ≤ b.w) :
    Cursors { b with r := n } ∧ b.content =
      load b.buffer b.r (b.t - b.r).toNat ++ load b.buffer 0 n.toNat ++
        content { b with r := n } := by
  have ⟨hc, hr, hw', hwc, htc, hrw, hwr⟩ := h
  have hbt := hwr hlt
  refine ⟨⟨hc, hn, hw', hwc, htc, fun _ => ?_, fun h' => ?_⟩, ?_⟩
  · simp only; omega
  · simp only at h'; omega
  · have hsplit := load_toNat_split b.buffer hn hw
    rw [Int.sub_zero, Int.sub_zero] at hsplit
    simp only [content, if_neg (not_le.mpr hlt), if_pos hw]
    rw [hsplit, List.append_assoc]

theorem readerMove_spec (h : b.Valid) (hn : (n : ℤ) ≤ b.contiguousReadable) :
    (b.readerMove n).1 = true ∧ (b.readerMove n).2.Valid ∧
      b.content = load b.buffer b.r n ++ (b.readerMove n).2.content := by
  obtain ⟨hcur, hcont⟩ := content_advanceReader h hn
  simp only [readerMove, if_pos hn, true_and]
  exact ⟨valid_refresh hcur, by rw [content_refresh]; exact hcont⟩

theorem read_spec {b' : BytesBuffer} {bytes : List UInt8} (h : b.Valid) (hok : ¬ b.DrainsAtMark n)
    (hread : b.read n = some (bytes, b')) :
    b'.Valid ∧ b.content = bytes ++ b'.content := by
  have ⟨hc, hr, hw, hwc, htc, hrw, hwr⟩ := h.toCursors
  rw [read] at hread
  by_cases hfit : b.contiguousReadable ≥ n
  · simp only [if_pos hfit, Option.some.injEq, Prod.mk.injEq, Int.toNat_natCast] at hread
    obtain ⟨rfl, rfl⟩ := hread
    obtain ⟨hcur, hcont⟩ := content_advanceReader h hfit
    obtain ⟨hlin, -⟩ := le_contiguousReadable hfit
    rw [content_refresh]
    by_cases ht : b.r + n = b.t
    · have hlt : b.w < b.r := by
        by_contra hle
        have := hlin (not_lt.mp hle)
        have := hrw (not_lt.mp hle)
        exact hok ⟨not_lt.mp hle, by omega, ht⟩
      obtain ⟨hcur', hcont'⟩ := content_readerWrap hcur (by simp only; omega) ht
      simp only [if_pos ht]
      exact ⟨valid_refresh hcur', by rw [hcont, ← hcont']⟩
    · simp only [if_neg ht]
      exact ⟨valid_refresh hcur, hcont⟩
  · simp only [if_neg hfit] at hread
    by_cases hshort : b.contiguousReadable + b.jumpReadable < n
    · simp [if_pos hshort] at hread
    · simp only [if_neg hshort, Option.some.injEq, Prod.mk.injEq] at hread
      obtain ⟨rfl, rfl⟩ := hread
      have hlt : b.w < b.r := by
        by_contra hle
        have hle := not_lt.mp hle
        rw [contiguousReadable, jumpReadable, if_pos hle, if_pos hle] at hshort
        rw [contiguousReadable, if_pos hle] at hfit
        omega
      have hcr : b.contiguousReadable = b.t - b.r := if_neg (not_le.mpr hlt)
      have hjr : b.jumpReadable = b.w := if_neg (not_le.mpr hlt)
      have hbt := hwr hlt
      rw [content_refresh, hcr]
      rw [hcr, hjr] at hshort
      rw [hcr] at hfit
      have hfront : (if b.t - b.r > 0 then load b.buffer b.r (b.t - b.r).toNat else [])
          = load b.buffer b.r (b.t - b.r).toNat := by
        split
        · rfl
        · next h' => rw [show (b.t - b.r).toNat = 0 by omega, load_zero]
      obtain ⟨hcur, hcont⟩ := content_readerAcross (n := n - (b.t - b.r)) h.toCursors hlt (by omega)
        (by omega)
      rw [hfront]
      exact ⟨valid_refresh hcur, hcont⟩

theorem read_of_drainsAtMark (h : b.Valid) (hd : b.DrainsAtMark n) :
    b.read n = some (b.content, { b with r := 0 }) ∧ 0 < b.w := by
  obtain ⟨hle, hwt, hrt⟩ := hd
  have ⟨hc, hr, hw, hwc, htc, hrw, hwr⟩ := h.toCursors
  have hw0 : 0 < b.w := by
    by_contra h0
    have := h.empty (by omega)
    omega
  have hcr : b.contiguousReadable = n := by
    rw [contiguousReadable, if_pos hle]
    omega
  have hn : (b.w - b.r).toNat = n := by omega
  refine ⟨?_, hw0⟩
  rw [read, hcr]
  simp only [ge_iff_le, le_refl, if_true, Int.toNat_natCast, if_pos hrt]
  rw [refresh, if_neg (by simp only; omega), content_of_le hle, hn]

theorem fetch_eq_read (b : BytesBuffer) (n : ℤ) : b.fetch n = (b.read n).map Prod.fst := by
  rw [fetch, read]
  split
  · rfl
  · split <;> rfl

end BytesBuffer

open BytesBuffer

inductive BytesOp
  | write (src : List UInt8)
  | read (n : ℕ)
  | fetch (n : ℕ)
  | produce (n n' : ℕ) (fill : List UInt8) (hfill : fill.length ≤ n) (hn : n' ≤ n)
  | consume (n n' : ℕ) (hn : n' ≤ n)
  | clear

structure BytesSession where
  buf : BytesBuffer
  accepted : List UInt8
  obtained : List UInt8

namespace BytesSession

def start (capacity : ℤ) (block : ℤ → UInt8) : BytesSession :=
  { buf := BytesBuffer.init capacity block, accepted := [], obtained := [] }

def step (s : BytesSession) : BytesOp → BytesSession
  | .write src =>
      match s.buf.write src with
      | (true, b) => { s with buf := b, accepted := s.accepted ++ src }
      | (false, b) => { s with buf := b }
  | .read n =>
      match s.buf.read n with
      | some (bytes, b) => { s with buf := b, obtained := s.obtained ++ bytes }
      | none => s
  | .fetch _ => s
  | .produce n n' fill _ _ =>
      match s.buf.writerFc n with
      | some p =>
          let b := { s.buf with buffer := store s.buf.buffer p fill }
          { s with buf := b.writerMoveN p n', accepted := s.accepted ++ load b.buffer p n' }
      | none => s
  | .consume n n' _ =>
      match s.buf.readerFc n with
      | some p =>
          { s with
            buf := (s.buf.readerMove n').2, obtained := s.obtained ++ load s.buf.buffer p n' }
      | none => s
  | .clear => { buf := s.buf.clear, accepted := [], obtained := [] }

def run (capacity : ℤ) (block : ℤ → UInt8) (ops : List BytesOp) : BytesSession :=
  ops.foldl step (start capacity block)

def Fifo (s : BytesSession) : Prop :=
  s.obtained <+: s.accepted ∧ s.buf.readable = s.accepted.length - s.obtained.length

/-- The call is not a read that drains the buffer at the mark. -/
def Sound (s : BytesSession) : BytesOp → Prop
  | .read n => ¬ s.buf.DrainsAtMark n
  | _ => True

structure Inv (s : BytesSession) : Prop where
  valid : s.buf.Valid
  owed : s.accepted = s.obtained ++ s.buf.content

theorem inv_start {capacity : ℤ} (h : 1 ≤ capacity) (block : ℤ → UInt8) :
    (start capacity block).Inv where
  valid := valid_init h block
  owed := rfl

variable {s : BytesSession}

theorem Inv.fifo (h : s.Inv) : s.Fifo := by
  refine ⟨⟨_, h.owed.symm⟩, ?_⟩
  rw [readable_eq_length h.valid.toCursors, h.owed, List.length_append]
  push_cast
  omega

theorem Inv.step (h : s.Inv) {op : BytesOp} (hs : s.Sound op) :
    (s.step op).Inv := by
  obtain ⟨hv, howed⟩ := h
  cases op with
  | write src =>
    obtain ⟨hok, hfail⟩ := write_spec hv src
    rcases hres : s.buf.write src with ⟨_ | _, b⟩
    · rw [hres] at hfail
      obtain rfl : b = s.buf := hfail rfl
      simp only [BytesSession.step, hres]
      exact ⟨hv, howed⟩
    · rw [hres] at hok
      simp only [BytesSession.step, hres]
      exact ⟨(hok rfl).1, by rw [howed, (hok rfl).2, List.append_assoc]⟩
  | read n =>
    rcases hres : s.buf.read n with _ | ⟨bytes, b⟩
    · simp only [BytesSession.step, hres]
      exact ⟨hv, howed⟩
    · obtain ⟨hv', hcont⟩ := read_spec hv hs hres
      simp only [BytesSession.step, hres]
      exact ⟨hv', by rw [howed, hcont, List.append_assoc]⟩
  | fetch n => exact ⟨hv, howed⟩
  | produce n n' fill hfill hn =>
    rcases hres : s.buf.writerFc n with _ | p
    · simp only [BytesSession.step, hres]
      exact ⟨hv, howed⟩
    · obtain ⟨hv', hcont⟩ := writerMoveN_spec hv hres hfill hn
      simp only [BytesSession.step, hres]
      exact ⟨hv', by rw [howed, hcont, List.append_assoc]⟩
  | consume n n' hn =>
    rcases hres : s.buf.readerFc n with _ | p
    · simp only [BytesSession.step, hres]
      exact ⟨hv, howed⟩
    · have hp : (n : ℤ) ≤ s.buf.contiguousReadable ∧ s.buf.r = p := by
        rw [readerFc] at hres
        split at hres
        · next hle => exact ⟨hle, Option.some.inj hres⟩
        · cases hres
      obtain ⟨-, hv', hcont⟩ := readerMove_spec (n := n') hv (by omega)
      simp only [BytesSession.step, hres, ← hp.2]
      exact ⟨hv', by rw [howed, hcont, List.append_assoc]⟩
  | clear => exact ⟨valid_clear hv.toCursors, rfl⟩

theorem Inv.not_fifo_step (h : s.Inv) {op : BytesOp} (hs : ¬ s.Sound op) :
    ¬ (s.step op).Fifo := by
  cases op with
  | read n =>
    have hd : s.buf.DrainsAtMark n := not_not.mp hs
    obtain ⟨hread, hw⟩ := read_of_drainsAtMark h.valid hd
    rintro ⟨-, hcount⟩
    have hw' := h.valid.w_nonneg
    simp only [BytesSession.step, hread, ← h.owed, readable, contiguousReadable, jumpReadable,
      ge_iff_le, if_pos hw'] at hcount
    omega
  | write | fetch | produce | consume | clear => exact absurd trivial hs

/-- **The byte buffer is a queue throughout a run exactly when no read drains it with the writer on
the truncation mark.** -/
theorem fifo_iff_no_drainAtMark (capacity : ℤ) (hcap : 1 ≤ capacity) (block : ℤ → UInt8)
    (ops : List BytesOp) :
    (∀ pre, pre <+: ops → (run capacity block pre).Fifo) ↔
      ∀ pre op, pre ++ [op] <+: ops → (run capacity block pre).Sound op :=
  Steps.forall_prefix_iff (inv_start hcap block) (fun _ _ h => h.step) (fun _ h => h.fifo)
    (fun _ _ h => h.not_fifo_step) ops

def staleMarkLap : List BytesOp :=
  [.write [1, 2, 3, 4], .read 3, .write [5, 6], .read 1, .write [7, 8]]

theorem fifo_iff_on_staleMarkLap :
    (1 : ℤ) ≤ 5 ∧
      ((∀ pre, pre <+: staleMarkLap → (run 5 (fun _ => 0) pre).Fifo) ↔
        ∀ pre op, pre ++ [op] <+: staleMarkLap → (run 5 (fun _ => 0) pre).Sound op) :=
  ⟨by decide, fifo_iff_no_drainAtMark 5 (by decide) (fun _ => 0) staleMarkLap⟩

instance (s : BytesSession) : Decidable s.Fifo := by
  unfold Fifo; infer_instance

theorem not_fifo_read_after_staleMarkLap :
    ¬ (run 5 (fun _ => 0) (staleMarkLap ++ [.read 4])).Fifo := by
  decide +kernel

end BytesSession

end Mugglec
