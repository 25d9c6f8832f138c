import Mathlib.Tactic
import Mathlib.Algebra.BigOperators.Group.Finset.Basic
import Mathlib.Order.Interval.Finset.Nat

/-!
# Machinery/HeapOrder — binary heaps in level order, and the hole that moves through them

The entries `f 1 … f n` are a binary tree, the parent of `j` at `j / 2`.  While an entry is being
placed, one place `i` is a **hole**: what stands there does not count, but the parent of the hole is
below its children, so that the hole can be closed from either side.
-/

namespace HeapOrder

open Function

variable {α : Type*} {le : α → α → Prop} {n m i c : ℕ} {f : ℕ → α} {x : α}

def Ordered (le : α → α → Prop) (n : ℕ) (f : ℕ → α) : Prop :=
  ∀ j, 2 ≤ j → j ≤ n → le (f (j / 2)) (f j)

theorem Ordered.mono (h : Ordered le n f) (hmn : m ≤ n) : Ordered le m f :=
  fun j hj hjm => h j hj (hjm.trans hmn)

theorem Ordered.root_le [Std.Refl le] [IsTrans α le] (h : Ordered le n f) :
    ∀ j, 1 ≤ j → j ≤ n → le (f 1) (f j) := by
  intro j
  -- along the parents
  induction j using Nat.strong_induction_on with
  | _ j ih =>
    intro hj hjn
    obtain rfl | hj : j = 1 ∨ 2 ≤ j := by omega
    · exact refl _
    · exact IsTrans.trans _ _ _ (ih (j / 2) (by omega) (by omega) (by omega)) (h j hj hjn)

structure Hole (le : α → α → Prop) (n i : ℕ) (f : ℕ → α) : Prop where
  pos : 1 ≤ i
  le_size : i ≤ n
  edge : ∀ j, 2 ≤ j → j ≤ n → j ≠ i → j / 2 ≠ i → le (f (j / 2)) (f j)
  past : 2 ≤ i → ∀ j, j ≤ n → j / 2 = i → le (f (i / 2)) (f j)

theorem Ordered.hole [IsTrans α le] (h : Ordered le n f) (hi : 1 ≤ i) (hin : i ≤ n) :
    Hole le n i f where
  pos := hi
  le_size := hin
  edge j hj hjn _ _ := h j hj hjn
  past hi j hjn hji := by
    have hj := h j (by omega) hjn
    rw [hji] at hj
    exact IsTrans.trans _ _ _ (h i hi hin) hj

theorem Ordered.hole_succ (h : Ordered le n f) : Hole le (n + 1) (n + 1) f where
  pos := by omega
  le_size := le_rfl
  edge j hj hjn hne _ := h j hj (by omega)
  past _ j hjn hji := by omega

theorem Hole.rise [IsTrans α le] (h : Hole le n i f) (hi : 2 ≤ i) :
    Hole le n (i / 2) (update f i (f (i / 2))) where
  pos := by omega
  le_size := by have := h.le_size; omega
  edge j hj hjn hjp hjp' := by
    have hji : j ≠ i := by rintro rfl; exact hjp' rfl
    rw [update_of_ne hji]
    obtain hj' | hj' := eq_or_ne (j / 2) i
    · rw [hj', update_self]
      exact h.past hi j hjn hj'
    · rw [update_of_ne hj']
      exact h.edge j hj hjn hji hj'
  past hp j hjn hji := by
    have hparent : le (f (i / 2 / 2)) (f (i / 2)) :=
      h.edge (i / 2) hp (by have := h.le_size; omega) (by omega) (by omega)
    rw [update_of_ne (by omega : i / 2 / 2 ≠ i)]
    obtain rfl | hj := eq_or_ne j i
    · rwa [update_self]
    · rw [update_of_ne hj]
      have hsibling := h.edge j (by omega) hjn hj (by omega)
      rw [hji] at hsibling
      exact IsTrans.trans _ _ _ hparent hsibling

theorem Hole.sink (h : Hole le n i f) (hc : c / 2 = i) (hcn : c ≤ n)
    (hmin : ∀ j, j ≤ n → j / 2 = i → le (f c) (f j)) :
    Hole le n c (update f i (f c)) where
  pos := by have := h.pos; omega
  le_size := hcn
  edge j hj hjn hjc hjc' := by
    obtain rfl | hji := eq_or_ne j i
    · rw [update_self, update_of_ne (by omega)]
      exact h.past hj c hcn hc
    · rw [update_of_ne hji]
      obtain hj' | hj' := eq_or_ne (j / 2) i
      · rw [hj', update_self]
        exact hmin j hjn hj'
      · rw [update_of_ne hj']
        exact h.edge j hj hjn hji hj'
  past hc' j hjn hjc := by
    have hci : c ≠ i := by have := h.pos; omega
    rw [hc, update_self, update_of_ne (by omega)]
    have hchild := h.edge j (by omega) hjn (by omega) (by omega)
    rwa [hjc] at hchild

theorem Hole.fill (h : Hole le n i f) (habove : 2 ≤ i → le (f (i / 2)) x)
    (hbelow : ∀ j, j ≤ n → j / 2 = i → le x (f j)) : Ordered le n (update f i x) := by
  intro j hj hjn
  obtain rfl | hji := eq_or_ne j i
  · rw [update_self, update_of_ne (by omega)]
    exact habove hj
  · rw [update_of_ne hji]
    obtain hj' | hj' := eq_or_ne (j / 2) i
    · rw [hj', update_self]
      exact hbelow j hjn hj'
    · rw [update_of_ne hj']
      exact h.edge j hj hjn hji hj'

def contents (n : ℕ) (f : ℕ → α) : Multiset α := ∑ j ∈ Finset.Icc 1 n, {f j}

theorem mem_contents {a : α} : a ∈ contents n f ↔ ∃ j, 1 ≤ j ∧ j ≤ n ∧ f j = a := by
  simp only [contents, Multiset.mem_sum, Finset.mem_Icc, Multiset.mem_singleton]
  exact ⟨fun ⟨j, ⟨hj, hjn⟩, h⟩ => ⟨j, hj, hjn, h.symm⟩,
    fun ⟨j, hj, hjn, h⟩ => ⟨j, ⟨hj, hjn⟩, h.symm⟩⟩

theorem contents_succ (n : ℕ) (f : ℕ → α) : contents (n + 1) f = f (n + 1) ::ₘ contents n f := by
  rw [contents, Finset.sum_Icc_succ_top (by omega), ← contents, add_comm, Multiset.singleton_add]

theorem card_contents (n : ℕ) (f : ℕ → α) : (contents n f).card = n := by
  induction n with
  | zero => rfl
  | succ n ih => rw [contents_succ, Multiset.card_cons, ih]

theorem contents_congr {g : ℕ → α} (h : ∀ j, 1 ≤ j → j ≤ n → f j = g j) :
    contents n f = contents n g := by
  refine Finset.sum_congr rfl fun j hj => ?_
  obtain ⟨hj, hjn⟩ := Finset.mem_Icc.mp hj
  rw [h j hj hjn]

theorem contents_update (hi : 1 ≤ i) (hin : i ≤ n) (f : ℕ → α) (x : α) :
    f i ::ₘ contents n (update f i x) = x ::ₘ contents n f := by
  have hmem : i ∈ Finset.Icc 1 n := Finset.mem_Icc.mpr ⟨hi, hin⟩
  have hrest : ∑ j ∈ (Finset.Icc 1 n).erase i, ({update f i x j} : Multiset α) =
      ∑ j ∈ (Finset.Icc 1 n).erase i, {f j} :=
    Finset.sum_congr rfl fun j hj => by rw [update_of_ne (Finset.ne_of_mem_erase hj)]
  rw [contents, contents, ← Finset.add_sum_erase _ _ hmem, ← Finset.add_sum_erase _ _ hmem, hrest,
    update_self, Multiset.singleton_add, Multiset.singleton_add]
  exact Multiset.cons_swap ..

theorem contents_move (hi : 1 ≤ i) (hin : i ≤ n) (hc : 1 ≤ c) (hcn : c ≤ n) (hci : c ≠ i) (x : α) :
    contents n (update (update f i (f c)) c x) =
      contents n (update f i x) := by
  have hfrom := contents_update hi hin f x
  have hto := contents_update hi hin f (f c)
  have hmove := contents_update hc hcn (update f i (f c)) x
  rw [update_of_ne hci] at hmove
  refine (Multiset.cons_inj_right (f i)).mp ((Multiset.cons_inj_right (f c)).mp ?_)
  calc f c ::ₘ f i ::ₘ contents n (update (update f i (f c)) c x)
      = f i ::ₘ x ::ₘ contents n (update f i (f c)) := by
        rw [Multiset.cons_swap, hmove]
    _ = x ::ₘ f c ::ₘ contents n f := by rw [Multiset.cons_swap, hto]
    _ = f c ::ₘ f i ::ₘ contents n (update f i x) := by rw [hfrom, Multiset.cons_swap]

end HeapOrder
