import Mathlib.Tactic

/-!
# Machinery/OwnedHeap — a heap as the multiset of its cells

A heap maps addresses to cells, or to nothing where no cell is allocated.  `Own h M` says that `M`
lists **exactly** the cells of `h`, each address once.  Sums of multisets then play the part of the
separating conjunction: the cells an operation works on are brought to the front (`Own.congr`), and
the rest is carried along.
-/

namespace OwnedHeap

open Function

variable {A C : Type*}

def cellAt (a : A) (c : C) : Multiset (A × C) := {(a, c)}

structure Own (h : A → Option C) (M : Multiset (A × C)) : Prop where
  nodup : (M.map Prod.fst).Nodup
  mem : ∀ a c, h a = some c ↔ (a, c) ∈ M

variable {h : A → Option C} {M N : Multiset (A × C)} {a b : A} {c c' : C}

theorem Own.congr (hown : Own h M) (heq : M = N) : Own h N := heq ▸ hown

theorem Own.read (hown : Own h (cellAt a c + M)) : h a = some c :=
  (hown.mem a c).mpr (Multiset.mem_add.mpr (.inl (Multiset.mem_singleton_self _)))

theorem mem_map_fst_iff : a ∈ M.map Prod.fst ↔ ∃ c, (a, c) ∈ M := by
  simp

theorem Own.not_mem (hown : Own h (cellAt a c + M)) (c' : C) : (a, c') ∉ M := by
  intro hmem
  have hnodup := hown.nodup
  rw [cellAt, Multiset.singleton_add, Multiset.map_cons, Multiset.nodup_cons] at hnodup
  exact hnodup.1 (mem_map_fst_iff.mpr ⟨c', hmem⟩)

theorem Own.ne (hown : Own h (cellAt a c + (cellAt b c' + M))) : a ≠ b := by
  rintro rfl
  exact hown.not_mem c' (Multiset.mem_add.mpr (.inl (Multiset.mem_singleton_self _)))

theorem own_empty : Own (fun _ : A => (none : Option C)) 0 :=
  ⟨by simp, by simp⟩

variable [DecidableEq A]

theorem Own.alloc (hown : Own h M) (hfree : h a = none) (c : C) :
    Own (update h a (some c)) (cellAt a c + M) := by
  have hnew : ∀ c', (a, c') ∉ M := fun c' hmem => by
    have hsome := (hown.mem a c').mpr hmem
    rw [hfree] at hsome
    cases hsome
  refine ⟨?_, fun b c' => ?_⟩
  · rw [cellAt, Multiset.singleton_add, Multiset.map_cons, Multiset.nodup_cons]
    refine ⟨fun hmem => ?_, hown.nodup⟩
    obtain ⟨c', hc'⟩ := mem_map_fst_iff.mp hmem
    exact hnew c' hc'
  · rw [cellAt, Multiset.singleton_add, Multiset.mem_cons, Prod.mk.injEq]
    by_cases hb : b = a
    · subst hb
      rw [update_self, Option.some.injEq]
      exact ⟨fun heq => .inl ⟨rfl, heq.symm⟩,
        fun h' => h'.elim (fun heq => heq.2.symm) fun hmem => absurd hmem (hnew c')⟩
    · rw [update_of_ne hb, hown.mem]
      exact ⟨.inr, fun h' => h'.elim (fun heq => absurd heq.1 hb) id⟩

theorem Own.free (hown : Own h (cellAt a c + M)) : Own (update h a none) M := by
  have hnew := hown.not_mem
  refine ⟨?_, fun b c' => ?_⟩
  · have hnodup := hown.nodup
    rw [cellAt, Multiset.singleton_add, Multiset.map_cons, Multiset.nodup_cons] at hnodup
    exact hnodup.2
  · by_cases hb : b = a
    · subst hb
      rw [update_self]
      exact ⟨fun heq => absurd heq (by simp), fun hmem => absurd hmem (hnew c')⟩
    · rw [update_of_ne hb, hown.mem, cellAt, Multiset.singleton_add, Multiset.mem_cons,
        Prod.mk.injEq]
      exact ⟨fun h' => h'.elim (fun heq => absurd heq.1 hb) id, .inr⟩

def modify (h : A → Option C) (a : A) (f : C → C) : Option (A → Option C) :=
  (h a).map fun c => update h a (some (f c))

theorem Own.modify (hown : Own h (cellAt a c + M)) (f : C → C) :
    ∃ h', modify h a f = some h' ∧ Own h' (cellAt a (f c) + M) := by
  refine ⟨update h a (some (f c)), ?_, ?_⟩
  · rw [OwnedHeap.modify, hown.read, Option.map_some]
  · have hnew := hown.free.alloc (update_self a none h) (f c)
    rwa [update_idem] at hnew

end OwnedHeap
