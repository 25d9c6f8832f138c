import Mugglec.Dsaa.SortInsertion

/-!
# Dsaa/SortMerge — merge sort, and that it agrees with insertion sort

A merge reads the two halves of a part of the array, `L` and `R`, and writes the buffer.
-/

namespace Mugglec

namespace Sorting

open StableSort Comparator

variable {α : Type} {cmp : α → α → ℤ}

structure Merging (ptr : List α) (center right : ℕ) (m : Merge α) (L R : List α)
    (out junk rest : List (Option α)) : Prop where
  atLeft : L <+: ptr.drop m.l
  leftEnd : m.l + L.length = center + 1
  atRight : R <+: ptr.drop m.r
  rightEnd : m.r + R.length = right + 1
  arr : m.arr = out ++ junk ++ rest
  idx : out.length = m.idx
  room : junk.length = L.length + R.length

section Merge

variable {ptr L R : List α} {center right n : ℕ} {m : Merge α} {out junk rest : List (Option α)}
  {x : α}

theorem load_of_head {i : ℕ} (h : (x :: L) <+: ptr.drop i) : load ptr i = .ok x := by
  obtain ⟨tl, htl⟩ := h
  have hget : ptr[i]? = some x := by
    have := congrArg (·[0]?) htl.symm
    simpa using this
  rw [load, hget]

theorem drop_succ_of_head {i : ℕ} (h : (x :: L) <+: ptr.drop i) : L <+: ptr.drop (i + 1) := by
  obtain ⟨tl, htl⟩ := h
  refine ⟨tl, ?_⟩
  rw [← List.drop_drop, ← htl]
  rfl

theorem Merging.store (h : Merging ptr center right m L R out junk rest)
    (hpos : 0 < L.length + R.length) (x : α) : ∃ junk', junk.length = junk'.length + 1 ∧
    Sorting.store m.arr m.idx (some x) = .ok (out ++ [some x] ++ junk' ++ rest) := by
  obtain ⟨u, junk', rfl⟩ := List.exists_cons_of_length_pos (h.room ▸ hpos)
  refine ⟨junk', List.length_cons, ?_⟩
  rw [h.arr, ← h.idx, List.append_assoc, List.cons_append, store_mid]
  simp

theorem Merging.takeLeft (h : Merging ptr center right m (x :: L) R out junk rest) :
    load ptr m.l = .ok x ∧ ∃ m' junk', Sorting.takeLeft ptr m = .ok m' ∧
      Merging ptr center right m' L R (out ++ [some x]) junk' rest := by
  have hload := load_of_head h.atLeft
  have hend := h.leftEnd
  have hroom := h.room
  simp only [List.length_cons] at hend hroom
  obtain ⟨junk', hlen, hstore⟩ := h.store (by simp only [List.length_cons]; omega) x
  refine ⟨hload, _, junk', by rw [Sorting.takeLeft, hload, ok_bind, hstore]; rfl, ?_⟩
  exact ⟨drop_succ_of_head h.atLeft, by dsimp only; omega, h.atRight, h.rightEnd, rfl,
    by simp [h.idx], by omega⟩

theorem Merging.takeRight (h : Merging ptr center right m L (x :: R) out junk rest) :
    load ptr m.r = .ok x ∧ ∃ m' junk', Sorting.takeRight ptr m = .ok m' ∧
      Merging ptr center right m' L R (out ++ [some x]) junk' rest := by
  have hload := load_of_head h.atRight
  have hend := h.rightEnd
  have hroom := h.room
  simp only [List.length_cons] at hend hroom
  obtain ⟨junk', hlen, hstore⟩ := h.store (by simp only [List.length_cons]; omega) x
  refine ⟨hload, _, junk', by rw [Sorting.takeRight, hload, ok_bind, hstore]; rfl, ?_⟩
  exact ⟨h.atLeft, h.leftEnd, drop_succ_of_head h.atRight, by dsimp only; omega, rfl,
    by simp [h.idx], by omega⟩

variable (cmp) in
theorem Merging.mergeLoop (h : Merging ptr center right m L R out junk rest)
    (hn : L.length + R.length < n) : ∃ m' L' R' out' junk',
    Sorting.mergeLoop cmp ptr center right n m = .ok m' ∧
    Merging ptr center right m' L' R' out' junk' rest ∧
    out' ++ L'.map some ++ R'.map some = out ++ (L.merge R (notGreater cmp)).map some := by
  induction n generalizing m L R out junk with
  | zero => exact absurd hn (Nat.not_lt_zero _)
  | succ n ih =>
    rw [Sorting.mergeLoop]
    have hl := h.leftEnd
    have hr := h.rightEnd
    match L, R with
    | [], R =>
      simp only [List.length_nil] at hl
      exact ⟨m, [], R, out, junk, if_neg (by omega), h, by simp⟩
    | x :: L, [] =>
      simp only [List.length_nil] at hr
      exact ⟨m, x :: L, [], out, junk, if_neg (by omega), h, by simp⟩
    | x :: L, y :: R =>
      simp only [List.length_cons] at hl hr hn
      obtain ⟨hx, m₁, junk₁, heq₁, h₁⟩ := h.takeLeft
      obtain ⟨hy, m₂, junk₂, heq₂, h₂⟩ := h.takeRight
      rw [if_pos (by omega), hx, ok_bind, hy, ok_bind, List.cons_merge_cons]
      by_cases hle : cmp x y ≤ 0
      · obtain ⟨m', L', R', out', junk', heq, h', hout⟩ := ih h₁ (by
          simp only [List.length_cons]; omega)
        refine ⟨m', L', R', out', junk', ?_, h', hout.trans ?_⟩
        · rw [if_pos hle, heq₁, ok_bind, heq]
        · rw [if_pos (by simpa [notGreater] using hle)]
          simp
      · obtain ⟨m', L', R', out', junk', heq, h', hout⟩ := ih h₂ (by
          simp only [List.length_cons]; omega)
        refine ⟨m', L', R', out', junk', ?_, h', hout.trans ?_⟩
        · rw [if_neg hle, heq₂, ok_bind, heq]
        · rw [if_neg (by simpa [notGreater] using hle)]
          simp

theorem Merging.drainLeft (h : Merging ptr center right m L R out junk rest) (hn : L.length < n) :
    ∃ m' junk', Sorting.drainLeft ptr center n m = .ok m' ∧
      Merging ptr center right m' [] R (out ++ L.map some) junk' rest := by
  induction n generalizing m L out junk with
  | zero => exact absurd hn (Nat.not_lt_zero _)
  | succ n ih =>
    rw [Sorting.drainLeft]
    have hend := h.leftEnd
    cases L with
    | nil =>
      simp only [List.length_nil] at hend
      exact ⟨m, junk, if_neg (by omega), by simpa using h⟩
    | cons x L =>
      simp only [List.length_cons] at hend hn
      obtain ⟨-, m₁, junk₁, heq₁, h₁⟩ := h.takeLeft
      obtain ⟨m', junk', heq, h'⟩ := ih h₁ (by omega)
      refine ⟨m', junk', ?_, by simpa using h'⟩
      rw [if_pos (by omega), heq₁, ok_bind, heq]

theorem Merging.drainRight (h : Merging ptr center right m L R out junk rest) (hn : R.length < n) :
    ∃ m' junk', Sorting.drainRight ptr right n m = .ok m' ∧
      Merging ptr center right m' L [] (out ++ R.map some) junk' rest := by
  induction n generalizing m R out junk with
  | zero => exact absurd hn (Nat.not_lt_zero _)
  | succ n ih =>
    rw [Sorting.drainRight]
    have hend := h.rightEnd
    cases R with
    | nil =>
      simp only [List.length_nil] at hend
      exact ⟨m, junk, if_neg (by omega), by simpa using h⟩
    | cons x R =>
      simp only [List.length_cons] at hend hn
      obtain ⟨-, m₁, junk₁, heq₁, h₁⟩ := h.takeRight
      obtain ⟨m', junk', heq, h'⟩ := ih h₁ (by omega)
      refine ⟨m', junk', ?_, by simpa using h'⟩
      rw [if_pos (by omega), heq₁, ok_bind, heq]

theorem copyBack_eq (pre old seg post : List α) (out rest : List (Option α))
    (hout : out.length = pre.length) (hold : old.length = seg.length)
    (hend : pre.length + seg.length = right + 1) (hn : seg.length < n) :
    copyBack (out ++ seg.map some ++ rest) right n pre.length (pre ++ old ++ post) =
      .ok (pre ++ seg ++ post) := by
  induction n generalizing pre old seg out with
  | zero => exact absurd hn (Nat.not_lt_zero _)
  | succ n ih =>
    rw [copyBack]
    match old, seg with
    | [], [] =>
      simp only [List.length_nil] at hend
      rw [if_neg (by omega)]
    | y :: old, x :: seg =>
      simp only [List.length_cons] at hend hold hn
      have hload : load (out ++ (x :: seg).map some ++ rest) pre.length = .ok (some x) := by
        rw [← hout, List.append_assoc]
        exact load_mid
      have hstore : store (pre ++ y :: old ++ post) pre.length x =
          .ok (pre ++ x :: (old ++ post)) := by
        rw [List.append_assoc]
        exact store_mid
      have hrec := ih (pre ++ [x]) old seg (out ++ [some x]) (by simp [hout]) (by omega)
        (by simp; omega) (by omega)
      rw [if_pos (by omega), hload, ok_bind]
      simp only [hstore, ok_bind]
      simpa using hrec

variable (cmp) in
theorem merge_halves (pre l r post : List α) (arr : List (Option α))
    (hl : pre.length + l.length = center + 1)
    (hend : pre.length + l.length + r.length = right + 1)
    (harr : arr.length = (pre ++ l ++ r ++ post).length)
    (hn : (pre ++ l ++ r ++ post).length < n) : ∃ arr', arr'.length = arr.length ∧
    (do let m ← mergeLoop cmp (pre ++ l ++ r ++ post) center right n
          ⟨pre.length, center + 1, pre.length, arr⟩
        let m ← drainLeft (pre ++ l ++ r ++ post) center n m
        let m ← drainRight (pre ++ l ++ r ++ post) right n m
        let ptr ← copyBack m.arr right n pre.length (pre ++ l ++ r ++ post)
        return (ptr, m.arr)) = .ok (pre ++ l.merge r (notGreater cmp) ++ post, arr') := by
  simp only [List.length_append] at harr hn
  -- the buffer: as much as the array has before the part, as much as the part has, the rest
  obtain ⟨out, junk, rest, rfl, hout, hjunk⟩ : ∃ out junk rest, arr = out ++ junk ++ rest ∧
      out.length = pre.length ∧ junk.length = l.length + r.length := by
    refine ⟨arr.take pre.length, (arr.drop pre.length).take (l.length + r.length),
      (arr.drop pre.length).drop (l.length + r.length), ?_, ?_, ?_⟩
    · rw [List.append_assoc, List.take_append_drop, List.take_append_drop]
    · rw [List.length_take]
      omega
    · rw [List.length_take, List.length_drop]
      omega
  have h : Merging (pre ++ l ++ r ++ post) center right
      ⟨pre.length, center + 1, pre.length, out ++ junk ++ rest⟩ l r out junk rest :=
    ⟨⟨r ++ post, by simp⟩, hl, ⟨post, by simp [← hl]⟩, by dsimp only; omega, rfl, hout, hjunk⟩
  obtain ⟨m₁, l', r', out', junk₁, heq₁, h₁, hmerge⟩ := h.mergeLoop cmp (n := n) (by omega)
  have hlen := congrArg List.length hmerge
  simp only [List.length_append, List.length_map, List.length_merge] at hlen
  obtain ⟨m₂, junk₂, heq₂, h₂⟩ := h₁.drainLeft (n := n) (by omega)
  obtain ⟨m₃, junk₃, heq₃, h₃⟩ := h₂.drainRight (n := n) (by omega)
  obtain rfl : junk₃ = [] := List.length_eq_zero_iff.mp h₃.room
  have harr₃ := h₃.arr
  rw [hmerge, List.append_nil] at harr₃
  have hback := copyBack_eq pre (l ++ r) (l.merge r (notGreater cmp)) post out rest hout (by simp)
    (show _ = right + 1 by simp; omega) (show _ < n by simp; omega)
  refine ⟨m₃.arr, ?_, ?_⟩
  · rw [harr₃]
    simp [hjunk]
  · rw [heq₁, ok_bind, heq₂, ok_bind, heq₃, ok_bind, harr₃]
    simp only [List.append_assoc] at hback ⊢
    rw [hback]
    rfl

end Merge

section Recursion

variable [Std.TransCmp (ordering cmp)]

variable (cmp) in
theorem mergeSortRecursive_spec {depth right : ℕ} (pre seg post : List α) (arr : List (Option α))
    (hne : seg ≠ []) (hend : pre.length + seg.length = right + 1)
    (harr : arr.length = (pre ++ seg ++ post).length) (hfits : 2 * arr.length < 2 ^ 64)
    (hdepth : seg.length ≤ depth) : ∃ seg' arr',
    mergeSortRecursive cmp depth pre.length right (pre ++ seg ++ post, arr) =
      .ok (pre ++ seg' ++ post, arr') ∧
    arr'.length = arr.length ∧ Sorted cmp seg' ∧ Stable cmp seg seg' := by
  have hpos := List.length_pos_iff.mpr hne
  induction depth generalizing pre seg post right arr with
  | zero => omega
  | succ depth ih =>
    simp only [List.length_append] at harr
    rw [mergeSortRecursive]
    by_cases hlt : pre.length < right
    · -- split the part in its halves
      have hcenter : u64 (pre.length + right) / 2 = (pre.length + right) / 2 :=
        congrArg (· / 2) (Nat.mod_eq_of_lt (by omega))
      set center := (pre.length + right) / 2 with hc
      obtain ⟨l, r, rfl, hl⟩ : ∃ l r, seg = l ++ r ∧ pre.length + l.length = center + 1 :=
        ⟨seg.take (center + 1 - pre.length), seg.drop (center + 1 - pre.length),
          (List.take_append_drop ..).symm, by rw [List.length_take]; omega⟩
      simp only [List.length_append] at hend harr hdepth hpos
      obtain ⟨l', arr₁, heq₁, hlen₁, hsorted₁, hstable₁⟩ := ih pre l (r ++ post) arr
        (List.length_pos_iff.mp (by omega)) hl (by simp; omega) hfits (by omega) (by omega)
      have hl' := hstable₁.perm.length_eq
      obtain ⟨r', arr₂, heq₂, hlen₂, hsorted₂, hstable₂⟩ := ih (pre ++ l') r post arr₁
        (List.length_pos_iff.mp (by omega)) (show _ = right + 1 by simp; omega) (by simp; omega)
        (by omega) (by omega) (by omega)
      have hr' := hstable₂.perm.length_eq
      have hn : (pre ++ l' ++ r' ++ post).length < 2 * (pre ++ l' ++ r' ++ post).length + 1 := by
        omega
      have hend' : pre.length + l'.length + r'.length = right + 1 := by omega
      obtain ⟨arr₃, hlen₃, heq₃⟩ := merge_halves cmp pre l' r' post arr₂ (by rw [hl', hl]) hend'
        (by simp; omega) hn
      refine ⟨l'.merge r' (notGreater cmp), arr₃, ?_, by omega, sorted_merge hsorted₁ hsorted₂,
        (hstable₁.append hstable₂).trans (stable_merge hsorted₁)⟩
      rw [List.length_append, hl', hl] at heq₂
      simp only [List.append_assoc] at heq₁ heq₂ heq₃ ⊢
      rw [if_pos hlt]
      simp only [hcenter, heq₁, ok_bind, heq₂, heq₃]
    · -- one element
      refine ⟨seg, arr, if_neg hlt, rfl, ?_, Stable.refl seg⟩
      obtain ⟨x, rfl⟩ := List.length_eq_one_iff.mp (show seg.length = 1 by omega)
      exact List.pairwise_singleton _ x

end Recursion

theorem usub_one {count : ℕ} (hpos : 0 < count) (hlt : count < 2 ^ 64) :
    usub count 1 = count - 1 := by
  simp only [usub]
  omega

section Main

variable [Std.TransCmp (ordering cmp)]

variable (cmp) in
theorem mergeSort_spec (a : PtrArray α) (hne : a.elems ≠ []) {depth : ℕ}
    (hdepth : a.elems.length ≤ depth) : ∃ out, mergeSort cmp true depth a.elems = .ok (true, out) ∧
      Sorted cmp out ∧ Stable cmp a.elems out := by
  have hpos := List.length_pos_iff.mpr hne
  have hfits := a.fits
  have hbytes : u64 (8 * a.elems.length) / 8 = a.elems.length := by
    simp only [u64]
    omega
  obtain ⟨out, arr, heq, -, hsorted, hstable⟩ := mergeSortRecursive_spec cmp [] a.elems []
    (List.replicate a.elems.length none) hne (show _ = a.elems.length - 1 + 1 by simp; omega)
    (by simp) (by simp; omega) hdepth
  refine ⟨out, ?_, hsorted, hstable⟩
  simp only [List.nil_append, List.append_nil, List.length_nil] at heq
  rw [mergeSort, if_neg (by simp), usub_one hpos (by omega), hbytes]
  dsimp only
  rw [heq]
  rfl

/-- **Merge sort and insertion sort leave the same array**, the one that is sorted and in which what
compares equal keeps its order. -/
theorem mergeSort_insertionSort (a : PtrArray α) (hne : a.elems ≠ []) {depth : ℕ}
    (hdepth : a.elems.length ≤ depth) : ∃ out,
    mergeSort cmp true depth a.elems = .ok (true, out) ∧
    insertionSort cmp 0 a.elems a.elems.length = .ok out ∧
    Sorted cmp out ∧ Stable cmp a.elems out ∧ out.Perm a.elems := by
  obtain ⟨out, heq, hsorted, hstable⟩ := mergeSort_spec cmp a hne hdepth
  have hstable' : Stable cmp a.elems (insertAll cmp [] a.elems) := stable_insertAll [] a.elems
  have hsame : insertAll cmp [] a.elems = out := eq_of_stable hsorted
    (sorted_insertAll List.Pairwise.nil a.elems) fun x => (hstable' x).trans (hstable x).symm
  exact ⟨out, heq, hsame ▸ insertionSort_eq a.elems, hsorted, hstable, hstable.perm⟩

end Main

def byHalf (a b : ℕ) : ℤ := (a / 2 : ℤ) - (b / 2 : ℤ)

instance : Std.TransCmp (ordering byHalf) := transCmp_sub fun a : ℕ => (a / 2 : ℤ)

theorem mergeSort_insertionSort_three : ∃ out,
    mergeSort byHalf true 3 [5, 3, 2] = .ok (true, out) ∧
    insertionSort byHalf 0 [5, 3, 2] 3 = .ok out ∧
    Sorted byHalf out ∧ Stable byHalf [5, 3, 2] out ∧ out.Perm [5, 3, 2] :=
  mergeSort_insertionSort ⟨[5, 3, 2], by decide⟩ (by decide) (by decide)

end Sorting

end Mugglec
