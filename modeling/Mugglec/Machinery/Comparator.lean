import Mathlib.Tactic

/-!
# Machinery/Comparator — three-way comparison by the sign of an integer

A comparison function in the manner of C returns a negative number, zero or a positive number.
`ordering cmp` is the comparison it stands for, so that "`cmp` is a total order" is `Std.TransCmp
(ordering cmp)`: values that compare equal need not be the same.
-/

namespace Comparator

variable {α : Type*} {cmp : α → α → ℤ} {a b c : α}

def ordering (cmp : α → α → ℤ) (a b : α) : Ordering := compare (cmp a b) 0

theorem ordering_eq_lt : ordering cmp a b = .lt ↔ cmp a b < 0 := compare_lt_iff_lt

theorem ordering_eq_eq : ordering cmp a b = .eq ↔ cmp a b = 0 := compare_eq_iff_eq

theorem ordering_eq_gt : ordering cmp a b = .gt ↔ 0 < cmp a b := compare_gt_iff_gt

theorem transCmp_sub (f : α → ℤ) : Std.TransCmp (ordering fun a b => f a - f b) := by
  have hcmp : (ordering fun a b => f a - f b) = fun a b => compare (f a) (f b) := by
    funext a b
    rcases lt_trichotomy (f a) (f b) with h | h | h
    · rw [compare_lt_iff_lt.mpr h]
      exact ordering_eq_lt.mpr (by omega)
    · rw [compare_eq_iff_eq.mpr h]
      exact ordering_eq_eq.mpr (by omega)
    · rw [compare_gt_iff_gt.mpr h]
      exact ordering_eq_gt.mpr (by omega)
  rw [hcmp]
  exact inferInstanceAs (Std.TransCmp (compareOn f))

variable [Std.TransCmp (ordering cmp)]

theorem eq_self : cmp a a = 0 := ordering_eq_eq.mp Std.ReflCmp.compare_self

theorem eq_symm (h : cmp a b = 0) : cmp b a = 0 :=
  ordering_eq_eq.mp (Std.OrientedCmp.eq_symm (ordering_eq_eq.mpr h))

theorem pos_iff : 0 < cmp a b ↔ cmp b a < 0 := by
  rw [← ordering_eq_gt, ← ordering_eq_lt]
  exact Std.OrientedCmp.gt_iff_lt

theorem lt_trans (h : cmp a b < 0) (h' : cmp b c < 0) : cmp a c < 0 :=
  ordering_eq_lt.mp (Std.TransCmp.lt_trans (ordering_eq_lt.mpr h) (ordering_eq_lt.mpr h'))

theorem eq_trans (h : cmp a b = 0) (h' : cmp b c = 0) : cmp a c = 0 :=
  ordering_eq_eq.mp (Std.TransCmp.eq_trans (ordering_eq_eq.mpr h) (ordering_eq_eq.mpr h'))

theorem nonpos_iff : cmp a b ≤ 0 ↔ 0 ≤ cmp b a := by
  rw [← not_lt, ← not_lt, pos_iff]

theorem nonpos_trans (h : cmp a b ≤ 0) (h' : cmp b c ≤ 0) : cmp a c ≤ 0 := by
  rw [← not_lt, ← ordering_eq_gt, ← Ordering.isLE_iff_ne_gt] at *
  exact Std.TransCmp.isLE_trans h h'

theorem neg_of_neg_of_nonpos (h : cmp a b < 0) (h' : cmp b c ≤ 0) : cmp a c < 0 := by
  rw [← ordering_eq_lt] at *
  rw [← not_lt, ← ordering_eq_gt, ← Ordering.isLE_iff_ne_gt] at h'
  exact Std.TransCmp.lt_of_lt_of_isLE h h'

end Comparator
