import Mathlib.Data.List.DropRight
import Mugglec.Machinery.Comparator

/-!
# Machinery/StableSort — sorted lists, and the one a stable sort gives

`Sorted cmp l` says that no element of `l` is greater than a later one.  `ties cmp x l` are the
elements of `l` that compare equal to `x`, in their order, and `Stable cmp l l'` that they are the
same in `l'` for every `x`: a permutation that keeps the order of what compares equal.
-/

namespace StableSort

open Comparator

variable {α : Type*} {cmp : α → α → ℤ} {l l' l'' r r' : List α} {x y z : α}

def Sorted (cmp : α → α → ℤ) (l : List α) : Prop := l.Pairwise fun x y => cmp x y ≤ 0

def ties (cmp : α → α → ℤ) (x : α) (l : List α) : List α := l.filter fun y => cmp x y = 0

def Stable (cmp : α → α → ℤ) (l l' : List α) : Prop := ∀ x, ties cmp x l' = ties cmp x l

@[simp] theorem ties_nil : ties cmp x [] = [] := rfl

@[simp] theorem ties_append : ties cmp x (l ++ r) = ties cmp x l ++ ties cmp x r :=
  List.filter_append ..

theorem ties_cons : ties cmp x (y :: l) =
    if cmp x y = 0 then y :: ties cmp x l else ties cmp x l := by
  rw [ties, List.filter_cons]
  simp only [decide_eq_true_eq]
  rfl

theorem ties_eq_nil : ties cmp x l = [] ↔ ∀ y ∈ l, cmp x y ≠ 0 := by
  simp [ties, List.filter_eq_nil_iff]

theorem Stable.refl (l : List α) : Stable cmp l l := fun _ => rfl

theorem Stable.trans (h : Stable cmp l l') (h' : Stable cmp l' l'') : Stable cmp l l'' := fun x =>
  (h' x).trans (h x)

theorem Stable.append (h : Stable cmp l l') (h' : Stable cmp r r') :
    Stable cmp (l ++ r) (l' ++ r') := fun x => by
  rw [ties_append, ties_append, h x, h' x]

def insertRight (cmp : α → α → ℤ) (x : α) (l : List α) : List α :=
  l.rdropWhile (fun y => 0 < cmp y x) ++ x :: l.rtakeWhile fun y => 0 < cmp y x

theorem insertRight_nil : insertRight cmp x [] = [x] := rfl

theorem insertRight_concat : insertRight cmp x (l ++ [y]) =
    if 0 < cmp y x then insertRight cmp x l ++ [y] else l ++ [y] ++ [x] := by
  by_cases h : 0 < cmp y x
  · simp [insertRight, h]
  · simp [insertRight, h]

theorem insertRight_perm (x : α) (l : List α) : (insertRight cmp x l).Perm (l ++ [x]) := by
  have hsplit : l = l.rdropWhile (fun y => 0 < cmp y x) ++ l.rtakeWhile fun y => 0 < cmp y x :=
    List.rdropWhile_append_rtakeWhile.symm
  conv_rhs => rw [hsplit]
  rw [insertRight, List.append_assoc]
  exact (List.perm_append_singleton x _).symm.append_left _

variable [Std.TransCmp (ordering cmp)]

theorem mem_ties_self : x ∈ ties cmp x l ↔ x ∈ l := by
  simp [ties, Comparator.eq_self]

theorem Stable.mem_iff (h : Stable cmp l l') : x ∈ l' ↔ x ∈ l := by
  have hself : x ∈ ties cmp x l' ↔ x ∈ l' := mem_ties_self
  rw [← hself, h x, mem_ties_self]

theorem Stable.perm (h : Stable cmp l l') : l'.Perm l := by
  classical
  rw [List.perm_iff_count]
  intro x
  have hcount : ∀ m : List α, (ties cmp x m).count x = m.count x := fun m =>
    List.count_filter (by simp [Comparator.eq_self])
  rw [← hcount l', h x, hcount l]

theorem eq_of_stable (hl' : Sorted cmp l') (hl'' : Sorted cmp l'') (h : Stable cmp l' l'') :
    l'' = l' := by
  induction l' generalizing l'' with
  | nil => exact List.eq_nil_iff_forall_not_mem.mpr fun x hx => absurd (h.mem_iff.mp hx) (by simp)
  | cons a t ih =>
    cases l'' with
    | nil => exact absurd (h.mem_iff.mpr (List.mem_cons_self ..)) (by simp)
    | cons b t' =>
      -- the heads are least in both, so they compare equal, and each is the first of its ties
      have hab : cmp a b ≤ 0 := by
        rcases List.mem_cons.mp (h.mem_iff.mp (List.mem_cons_self ..)) with rfl | hmem
        · exact Comparator.eq_self.le
        · exact (List.pairwise_cons.mp hl').1 b hmem
      have hba : cmp b a ≤ 0 := by
        rcases List.mem_cons.mp (h.mem_iff.mpr (List.mem_cons_self ..)) with rfl | hmem
        · exact Comparator.eq_self.le
        · exact (List.pairwise_cons.mp hl'').1 a hmem
      have htie : cmp a b = 0 := le_antisymm hab (nonpos_iff.mp hba)
      have hhead := h a
      rw [ties_cons, ties_cons, if_pos htie, if_pos Comparator.eq_self] at hhead
      obtain ⟨rfl, -⟩ := List.cons.inj hhead
      refine congrArg (b :: ·) (ih (List.pairwise_cons.mp hl').2 (List.pairwise_cons.mp hl'').2 ?_)
      intro x
      have hx := h x
      rw [ties_cons, ties_cons] at hx
      split_ifs at hx
      · exact (List.cons.inj hx).2
      · exact hx

theorem sorted_insertRight (h : Sorted cmp l) (x : α) : Sorted cmp (insertRight cmp x l) := by
  induction l using List.reverseRecOn with
  | nil => exact List.pairwise_singleton _ _
  | append_singleton l y ih =>
    obtain ⟨hl, -, hle⟩ := List.pairwise_append.mp h
    rw [insertRight_concat]
    split_ifs with hgt
    · refine List.pairwise_append.mpr ⟨ih hl, List.pairwise_singleton _ _, fun a ha b hb => ?_⟩
      obtain rfl := List.mem_singleton.mp hb
      rcases List.mem_append.mp ((insertRight_perm x l).mem_iff.mp ha) with ha | ha
      · exact hle a ha b hb
      · rw [List.mem_singleton.mp ha]
        exact (pos_iff.mp hgt).le
    · refine List.pairwise_append.mpr ⟨h, List.pairwise_singleton _ _, fun a ha b hb => ?_⟩
      obtain rfl := List.mem_singleton.mp hb
      rcases List.mem_append.mp ha with ha | ha
      · exact nonpos_trans (hle a ha y (List.mem_singleton_self y)) (not_lt.mp hgt)
      · rw [List.mem_singleton.mp ha]
        exact not_lt.mp hgt

theorem stable_insertRight (x : α) (l : List α) : Stable cmp (l ++ [x]) (insertRight cmp x l) := by
  induction l using List.reverseRecOn with
  | nil => exact Stable.refl _
  | append_singleton l y ih =>
    rw [insertRight_concat]
    split_ifs with hgt
    · intro z
      -- an element that compares equal to one of them is not equal to the other
      have hdisj : ties cmp z [x] ++ ties cmp z [y] = ties cmp z [y] ++ ties cmp z [x] := by
        by_cases hx : cmp z x = 0
        · have hy : cmp z y ≠ 0 := fun hy => by
            have := eq_trans (eq_symm hy) hx
            omega
          simp [ties_cons, hy]
        · simp [ties_cons, hx]
      rw [ties_append, ih z]
      simp only [ties_append, List.append_assoc, hdisj]
    · exact Stable.refl _

def insertAll (cmp : α → α → ℤ) (l xs : List α) : List α :=
  xs.foldl (fun l x => insertRight cmp x l) l

theorem sorted_insertAll (h : Sorted cmp l) (xs : List α) : Sorted cmp (insertAll cmp l xs) := by
  induction xs generalizing l with
  | nil => exact h
  | cons x xs ih => exact ih (sorted_insertRight h x)

theorem stable_insertAll (l xs : List α) : Stable cmp (l ++ xs) (insertAll cmp l xs) := by
  induction xs generalizing l with
  | nil =>
    rw [List.append_nil]
    exact Stable.refl l
  | cons x xs ih =>
    have hstep : Stable cmp (l ++ [x] ++ xs) (insertRight cmp x l ++ xs) :=
      (stable_insertRight x l).append (Stable.refl xs)
    rw [List.append_cons]
    exact hstep.trans (ih _)

def notGreater (cmp : α → α → ℤ) (x y : α) : Bool := cmp x y ≤ 0

theorem sorted_merge (hl : Sorted cmp l) (hr : Sorted cmp r) :
    Sorted cmp (l.merge r (notGreater cmp)) := by
  have htrans : ∀ a b c, notGreater cmp a b → notGreater cmp b c → notGreater cmp a c :=
    fun a b c hab hbc => by
      simp only [notGreater, decide_eq_true_eq] at *
      exact nonpos_trans hab hbc
  have htotal : ∀ a b, notGreater cmp a b || notGreater cmp b a := fun a b => by
    simp only [notGreater, Bool.or_eq_true, decide_eq_true_eq]
    rw [nonpos_iff (a := b)]
    exact le_total _ _
  have hmerge := List.pairwise_merge htrans htotal l r
  simp only [notGreater, decide_eq_true_eq] at hmerge
  exact hmerge hl hr

theorem stable_merge (hl : Sorted cmp l) : Stable cmp (l ++ r) (l.merge r (notGreater cmp)) := by
  intro z
  rw [ties_append]
  induction l generalizing r with
  | nil => simp
  | cons a l ihl =>
    induction r with
    | nil => simp
    | cons b r ihr =>
      obtain ⟨hle, hl'⟩ := List.pairwise_cons.mp hl
      rw [List.cons_merge_cons]
      by_cases hab : cmp a b ≤ 0
      · rw [if_pos (by simpa [notGreater] using hab), ties_cons, ihl hl' (r := b :: r),
          ties_cons (y := a) (l := l)]
        split_ifs <;> rfl
      · rw [if_neg (by simpa [notGreater] using hab), ties_cons, ihr]
        split_ifs with hb
        · -- everything on the left is greater than `b`
          have hnone : ties cmp z (a :: l) = [] := ties_eq_nil.mpr fun y hy hzy => by
            have hay : cmp a y ≤ 0 := by
              rcases List.mem_cons.mp hy with rfl | hy
              · exact Comparator.eq_self.le
              · exact hle y hy
            have hba : cmp b a < 0 := pos_iff.mp (not_le.mp hab)
            have hby : cmp b y < 0 := neg_of_neg_of_nonpos hba hay
            have := eq_trans (eq_symm hb) hzy
            omega
          rw [hnone, ties_cons, if_pos hb]
          rfl
        · rw [ties_cons (y := b), if_neg hb]

end StableSort
