import Mugglec.Dsaa.SortQuick

/-!
# Dsaa/SortEmpty — which arrays merge sort and quick sort stay inside

Both sort the part `0 .. count - 1`, and for no elements the upper end wraps around.
-/

namespace Mugglec

namespace Sorting

open StableSort Comparator

variable {α : Type} {cmp : α → α → ℤ}

def Returns {β : Type} (f : ℕ → Except SortFault β) : Prop :=
  ∃ bound, ∀ depth ≥ bound, ∃ r, f depth = .ok r

theorem not_returns_of_error {β : Type} {f : ℕ → Except SortFault β} {bound : ℕ} {e : SortFault}
    (h : ∀ depth ≥ bound, f depth = .error e) : ¬ Returns f := fun ⟨bound', hok⟩ => by
  obtain ⟨r, hr⟩ := hok (max bound bound') (le_max_right _ _)
  rw [h _ (le_max_left _ _)] at hr
  exact absurd hr nofun

theorem load_nil (i : ℕ) : load ([] : List α) i = .error (.access i) := rfl

theorem usub_zero_one : usub 0 1 = 2 ^ 64 - 1 := by decide

theorem quickSort_nil {depth : ℕ} (hdepth : 1 ≤ depth) :
    quickSort cmp depth [] = .error (.access 0) := by
  obtain ⟨depth, rfl⟩ := Nat.exists_eq_add_of_le' hdepth
  have hlong : u64 (0 + QUICK_SORT_CUTOFF) ≤ 2 ^ 64 - 1 := by decide
  rw [quickSort, List.length_nil, usub_zero_one, quickSortRecursive, if_pos hlong, median3, order,
    load_nil]
  rfl

theorem mergeSortRecursive_nil {k depth : ℕ} (hk : k ≤ 63) (hdepth : k + 2 ≤ depth)
    (arr : List (Option α)) :
    mergeSortRecursive cmp depth 0 (2 ^ (k + 1) - 1) ([], arr) = .error (.access 0) := by
  induction k generalizing depth with
  | zero =>
    obtain ⟨depth, rfl⟩ := Nat.exists_eq_add_of_le' hdepth
    rfl
  | succ k ih =>
    obtain ⟨depth, rfl⟩ := Nat.exists_eq_succ_of_ne_zero (Nat.ne_of_gt (Nat.zero_lt_of_lt hdepth))
    have hpow : 2 ^ (k + 1 + 1) = 2 * 2 ^ (k + 1) := by rw [pow_succ, mul_comm]
    have hpos : 0 < 2 ^ (k + 1) := by positivity
    have hle : 2 ^ (k + 1 + 1) ≤ 2 ^ 64 := Nat.pow_le_pow_right two_pos (by omega)
    have hcenter : u64 (0 + (2 ^ (k + 1 + 1) - 1)) / 2 = 2 ^ (k + 1) - 1 := by
      rw [u64, zero_add, Nat.mod_eq_of_lt (by omega)]
      omega
    have hrec := ih (by omega) (show k + 2 ≤ depth by omega)
    rw [mergeSortRecursive, if_pos (by omega), hcenter]
    dsimp only
    rw [hrec]
    rfl

theorem mergeSort_nil {depth : ℕ} (hdepth : 65 ≤ depth) :
    mergeSort cmp true depth [] = .error (.access 0) := by
  rw [mergeSort, if_neg (by simp), List.length_nil, usub_zero_one]
  dsimp only
  rw [mergeSortRecursive_nil (le_refl 63) hdepth]
  rfl

section Main

variable [Std.TransCmp (ordering cmp)]

theorem mergeSort_returns (a : PtrArray α) (hne : a.elems ≠ []) (mem : Bool) :
    Returns fun depth => mergeSort cmp mem depth a.elems := by
  cases mem with
  | false => exact ⟨0, fun _ _ => ⟨(false, a.elems), rfl⟩⟩
  | true =>
    refine ⟨a.elems.length, fun depth hdepth => ?_⟩
    obtain ⟨out, heq, -⟩ := mergeSort_spec cmp a hne hdepth
    exact ⟨(true, out), heq⟩

theorem quickSort_returns (a : PtrArray α) (hne : a.elems ≠ []) :
    Returns fun depth => quickSort cmp depth a.elems := by
  have hfits := a.fits
  refine ⟨a.elems.length, fun depth hdepth => ?_⟩
  obtain ⟨right, hright, heq⟩ := quickSort_eq cmp a hne depth
  obtain ⟨out, stops, heq', -⟩ := quickSortRecursive_spec cmp [] a.elems [] hne
    ((Nat.zero_add _).trans hright) rfl (by simp; omega) hdepth
  exact ⟨_, heq.trans heq'⟩

/-- **Merge sort, and quick sort, stay inside the array** and end their recursion exactly where
there is an element. -/
theorem returns_iff (a : PtrArray α) :
    ((∀ mem, Returns fun depth => mergeSort cmp mem depth a.elems) ↔ a.elems ≠ []) ∧
    ((Returns fun depth => quickSort cmp depth a.elems) ↔ a.elems ≠ []) := by
  refine ⟨⟨fun hmerge hnil => ?_, mergeSort_returns a⟩,
    ⟨fun hquick hnil => ?_, quickSort_returns a⟩⟩
  · rw [hnil] at hmerge
    exact not_returns_of_error (fun depth hdepth => mergeSort_nil hdepth) (hmerge true)
  · rw [hnil] at hquick
    exact not_returns_of_error (fun depth hdepth => quickSort_nil hdepth) hquick

end Main

theorem returns_one :
    ((∀ mem, Returns fun depth => mergeSort byDifference mem depth [7]) ↔ [7] ≠ []) ∧
    ((Returns fun depth => quickSort byDifference depth [7]) ↔ [7] ≠ []) :=
  returns_iff ⟨[7], by decide⟩

theorem access_of_nothing : mergeSort byDifference true 65 [] = .error (.access 0) ∧
    quickSort byDifference 65 [] = .error (.access 0) :=
  ⟨mergeSort_nil (le_refl 65), quickSort_nil (by decide)⟩

end Sorting

end Mugglec
