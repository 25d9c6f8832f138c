import Mugglec.Machinery.StableSort
import Mugglec.Dsaa.Sort

/-!
# Dsaa/SortInsertion — insertion sort and shell sort

A round of insertion sort takes an element out, shifts the greater ones before it to the right, and
puts it into the hole that is left.
-/

namespace Mugglec

namespace Sorting

open StableSort Comparator

variable {α : Type} {cmp : α → α → ℤ} {pre p post rest : List α} {x y tmp : α} {ptr : List α}
  {i j : ℕ}

@[simp] theorem ok_bind {β γ : Type} (b : β) (f : β → Except SortFault γ) :
    (Except.ok b >>= f) = f b := rfl

theorem load_of_lt (h : i < ptr.length) : load ptr i = .ok ptr[i] := by
  rw [load, List.getElem?_eq_getElem h]

theorem load_mid : load (pre ++ x :: post) pre.length = .ok x := by
  simp [load]

theorem store_of_lt (h : i < ptr.length) (x : α) : store ptr i x = .ok (ptr.set i x) := if_pos h

theorem store_mid : store (pre ++ x :: post) pre.length y = .ok (pre ++ y :: post) := by
  rw [store_of_lt (by simp), List.set_append_right _ _ (le_refl _), Nat.sub_self,
    List.set_cons_zero]

theorem foldlM_ok {σ ι : Type} {f : σ → ι → Except SortFault σ} {P : σ → Prop} {is : List ι} {s : σ}
    (hs : P s) (hround : ∀ s, ∀ i ∈ is, P s → ∃ s', f s i = .ok s' ∧ P s') :
    ∃ s', is.foldlM f s = .ok s' ∧ P s' := by
  induction is generalizing s with
  | nil => exact ⟨s, rfl, hs⟩
  | cons i is ih =>
    obtain ⟨s₁, heq, hs₁⟩ := hround s i (List.mem_cons_self ..) hs
    obtain ⟨s₂, heq', hs₂⟩ := ih hs₁ fun s i hi => hround s i (List.mem_cons_of_mem _ hi)
    refine ⟨s₂, ?_, hs₂⟩
    rw [List.foldlM_cons, heq]
    exact heq'

theorem insertionShift_store (tmp : α) (pre p post : List α) (h : α) :
    (do let r ← insertionShift cmp pre.length tmp p.length (pre ++ p ++ h :: post)
        store r.2 (pre.length + r.1) tmp) = .ok (pre ++ insertRight cmp tmp p ++ post) := by
  -- the loop goes through `p` from its end
  induction p using List.reverseRecOn generalizing h post with
  | nil =>
    have hstore : store (pre ++ h :: post) pre.length tmp = .ok (pre ++ tmp :: post) := store_mid
    simpa [insertionShift, insertRight_nil] using hstore
  | append_singleton p y ih =>
    have hload : load (pre ++ (p ++ [y]) ++ h :: post) (pre.length + p.length) = .ok y := by
      have hmid : load (pre ++ p ++ y :: (h :: post)) (pre ++ p).length = .ok y := load_mid
      simpa using hmid
    have hstore : ∀ z, store (pre ++ (p ++ [y]) ++ h :: post) (pre.length + (p.length + 1)) z =
        .ok (pre ++ (p ++ [y]) ++ z :: post) := fun z => by
      have hmid : store (pre ++ (p ++ [y]) ++ h :: post) (pre ++ (p ++ [y])).length z =
          .ok (pre ++ (p ++ [y]) ++ z :: post) := store_mid
      simpa [add_assoc] using hmid
    rw [List.length_append, List.length_singleton, insertionShift, hload, insertRight_concat]
    by_cases hgt : 0 < cmp y tmp
    · have hrec := ih (y :: post) y
      simp only [ok_bind, if_pos hgt, hstore]
      simpa using hrec
    · simpa [hgt] using hstore tmp

theorem insertionRound_eq (pre p post : List α) (x : α) :
    insertionRound cmp pre.length (pre ++ p ++ x :: post) p.length =
      .ok (pre ++ insertRight cmp x p ++ post) := by
  have hload : load (pre ++ p ++ x :: post) (pre.length + p.length) = .ok x := by
    rw [← List.length_append]
    exact load_mid
  rw [insertionRound, hload]
  exact insertionShift_store x pre p post x

variable (cmp) in
theorem foldlM_insertionRound (pre p xs post : List α) :
    (List.range' p.length xs.length).foldlM (insertionRound cmp pre.length)
      (pre ++ p ++ (xs ++ post)) = .ok (pre ++ insertAll cmp p xs ++ post) := by
  induction xs generalizing p with
  | nil => simp [insertAll, pure, Except.pure]
  | cons x xs ih =>
    have hlen : p.length + 1 = (insertRight cmp x p).length := by
      rw [(insertRight_perm x p).length_eq, List.length_append, List.length_singleton]
    rw [List.length_cons, List.range'_succ, List.foldlM_cons, List.cons_append,
      insertionRound_eq, ok_bind, hlen]
    exact ih (insertRight cmp x p)

variable (cmp) in
theorem insertionSort_part (pre seg post : List α) :
    insertionSort cmp pre.length (pre ++ seg ++ post) seg.length =
      .ok (pre ++ insertAll cmp [] seg ++ post) := by
  cases seg with
  | nil => rfl
  | cons x xs =>
    have hrounds := foldlM_insertionRound cmp pre [x] xs post
    simpa [insertionSort, insertAll, insertRight_nil] using hrounds

theorem insertionSort_eq (seg : List α) :
    insertionSort cmp 0 seg seg.length = .ok (insertAll cmp [] seg) := by
  simpa using insertionSort_part cmp [] seg []

variable (cmp) in
theorem shellShift_spec (tmp : α) {increment n : ℕ} (hinc : 0 < increment) (hj : j < ptr.length)
    (hn : j < n) : ∃ k ptr', shellShift cmp increment tmp n j ptr = .ok (k, ptr') ∧
      k < ptr'.length ∧ (ptr'.set k tmp).Perm (ptr.set j tmp) := by
  induction n generalizing j ptr with
  | zero => exact absurd hn (Nat.not_lt_zero j)
  | succ n ih =>
    rw [shellShift]
    by_cases hge : j ≥ increment
    · have hlt : j - increment < ptr.length := by omega
      rw [if_pos hge, load_of_lt hlt, ok_bind]
      by_cases hless : cmp tmp ptr[j - increment] < 0
      · have hlt' : j - increment < (ptr.set j ptr[j - increment]).length := by simpa using hlt
        obtain ⟨k, ptr', heq, hk, hperm⟩ := ih hlt' (by omega)
        refine ⟨k, ptr', ?_, hk, hperm.trans ?_⟩
        · rw [if_pos hless, store_of_lt hj, ok_bind, heq]
        · -- the elements at the old and the new hole change places
          have hne : j ≠ j - increment := by omega
          have hj' : j < (ptr.set j tmp).length := by simpa using hj
          have hswap := List.set_set_perm hj' (j := j - increment) (by simpa using hlt)
          simpa [List.getElem_set_ne hne, List.set_set] using hswap
      · exact ⟨j, ptr, by rw [if_neg hless]; rfl, hj, List.Perm.refl _⟩
    · exact ⟨j, ptr, by rw [if_neg hge], hj, List.Perm.refl _⟩

variable (cmp) in
theorem shellRound_spec {increment : ℕ} (hinc : 0 < increment) (hi : i < ptr.length) :
    ∃ ptr', shellRound cmp increment ptr i = .ok ptr' ∧ ptr'.Perm ptr := by
  obtain ⟨k, ptr', heq, hk, hperm⟩ := shellShift_spec cmp ptr[i] hinc hi
    (Nat.lt_succ_self i)
  rw [List.set_getElem_self] at hperm
  refine ⟨ptr'.set k ptr[i], ?_, hperm⟩
  rw [shellRound, load_of_lt hi, ok_bind, heq, ok_bind]
  exact store_of_lt hk _

variable (cmp) in
theorem shellPass_spec {increment : ℕ} (hinc : 0 < increment) (ptr : List α) :
    ∃ ptr', shellPass cmp ptr.length increment ptr = .ok ptr' ∧ ptr'.Perm ptr := by
  refine foldlM_ok (P := fun ptr' : List α => ptr'.Perm ptr) (List.Perm.refl ptr)
    fun ptr₁ i hi hperm => ?_
  have hlt : i < ptr₁.length := by
    rw [hperm.length_eq]
    have := List.mem_range'_1.mp hi
    omega
  obtain ⟨ptr₂, heq, hperm'⟩ := shellRound_spec cmp hinc hlt
  exact ⟨ptr₂, heq, hperm'.trans hperm⟩

variable [Std.TransCmp (ordering cmp)]

theorem shellShift_one (tmp : α) (j : ℕ) (ptr : List α) :
    shellShift cmp 1 tmp (j + 1) j ptr = insertionShift cmp 0 tmp j ptr := by
  induction j generalizing ptr with
  | zero => rfl
  | succ j ih =>
    rw [shellShift, insertionShift, if_pos (Nat.le_add_left 1 j), Nat.add_sub_cancel, zero_add,
      zero_add]
    refine congrArg _ (funext fun prev => ?_)
    have hiff : cmp tmp prev < 0 ↔ cmp prev tmp > 0 := pos_iff.symm
    simp only [hiff, ih]

theorem shellPass_one (ptr : List α) :
    shellPass cmp ptr.length 1 ptr = .ok (insertAll cmp [] ptr) := by
  rw [← insertionSort_eq, shellPass, insertionSort]
  refine congrArg (fun f => List.foldlM f ptr _) (funext fun ptr => funext fun i => ?_)
  simp only [shellRound, insertionRound, shellShift_one, zero_add]

variable (cmp) in
theorem shellLoop_spec {count n increment : ℕ} (hlen : ptr.length = count) (hn : increment < n) :
    ∃ ptr', shellLoop cmp count n increment ptr = .ok ptr' ∧ ptr'.Perm ptr ∧
      (0 < increment → Sorted cmp ptr') := by
  induction n generalizing increment ptr with
  | zero => exact absurd hn (Nat.not_lt_zero _)
  | succ n ih =>
    rw [shellLoop]
    by_cases hinc : increment > 0
    · obtain ⟨ptr₁, hpass, hperm₁⟩ := shellPass_spec cmp hinc ptr
      have hhalf : increment / 2 < n := by omega
      obtain ⟨ptr₂, hloop, hperm₂, hsorted⟩ := ih (hperm₁.length_eq.trans hlen) hhalf
      refine ⟨ptr₂, ?_, hperm₂.trans hperm₁, fun _ => ?_⟩
      · rw [if_pos hinc, ← hlen, hpass, ok_bind, hlen, hloop]
      · by_cases hone : increment = 1
        · -- this was the last pass
          subst hone
          obtain ⟨m, rfl⟩ : ∃ m, n = m + 1 := ⟨n - 1, by omega⟩
          obtain rfl : ptr₁ = ptr₂ := Except.ok.inj hloop
          obtain rfl := Except.ok.inj ((shellPass_one ptr).symm.trans hpass)
          exact sorted_insertAll List.Pairwise.nil ptr
        · exact hsorted (by omega)
    · exact ⟨ptr, by rw [if_neg hinc], List.Perm.refl _, fun h => absurd h hinc⟩

theorem shellSort_sorts (ptr : List α) :
    ∃ ptr', shellSort cmp ptr = .ok ptr' ∧ Sorted cmp ptr' ∧ ptr'.Perm ptr := by
  have hlt : ptr.length / 2 < ptr.length + 1 := by omega
  obtain ⟨ptr', heq, hperm, hsorted⟩ := shellLoop_spec cmp (rfl : ptr.length = _) hlt
  refine ⟨ptr', heq, ?_, hperm⟩
  by_cases hlen : 2 ≤ ptr.length
  · exact hsorted (by omega)
  · -- at most one element
    have hle : ptr'.length ≤ 1 := by
      rw [hperm.length_eq]
      omega
    match ptr', hle with
    | [], _ => exact List.Pairwise.nil
    | [x], _ => exact List.pairwise_singleton _ x

def byDifference (a b : ℕ) : ℤ := (a : ℤ) - b

instance : Std.TransCmp (ordering byDifference) := transCmp_sub fun a : ℕ => (a : ℤ)

theorem shellSort_sorts_six : ∃ ptr', shellSort byDifference [5, 2, 9, 2, 0, 7] = .ok ptr' ∧
    Sorted byDifference ptr' ∧ ptr'.Perm [5, 2, 9, 2, 0, 7] :=
  shellSort_sorts [5, 2, 9, 2, 0, 7]

end Sorting

end Mugglec
