import Mathlib.Tactic

/-!
# Machinery/Packing — how many intervals of one length fit without overlap

Intervals of length `L` may begin at the places where `occ` holds; a **packing** of `[lo, hi)` is a
set of such places, their intervals inside and apart (`IsPacking`).
-/

namespace Packing

variable {occ : ℕ → Prop} {L lo hi p n : ℕ}

structure IsPacking (occ : ℕ → Prop) (L lo hi : ℕ) (P : Finset ℕ) : Prop where
  occ : ∀ q ∈ P, occ q
  inside : ∀ q ∈ P, lo ≤ q ∧ q + L ≤ hi
  apart : ∀ q ∈ P, ∀ r ∈ P, q < r → q + L ≤ r

def sizes (occ : ℕ → Prop) (L lo hi : ℕ) : Set ℕ :=
  {n | ∃ P : Finset ℕ, IsPacking occ L lo hi P ∧ P.card = n}

theorem isGreatest_zero (h : ∀ q, lo ≤ q → occ q → hi < q + L) :
    IsGreatest (sizes occ L lo hi) 0 := by
  refine ⟨⟨∅, ⟨by simp, by simp, by simp⟩, rfl⟩, ?_⟩
  rintro _ ⟨P, hP, rfl⟩
  rw [Nat.le_zero, Finset.card_eq_zero, Finset.eq_empty_iff_forall_notMem]
  intro q hq
  obtain ⟨hlo, hhi⟩ := hP.inside q hq
  have := h q hlo (hP.occ q hq)
  omega

theorem IsPacking.insert {P : Finset ℕ} (hP : IsPacking occ L (p + L) hi P) (hocc : occ p)
    (hlo : lo ≤ p) (hhi : p + L ≤ hi) : IsPacking occ L lo hi (insert p P) := by
  refine ⟨?_, ?_, ?_⟩
  · intro q hq
    rcases Finset.mem_insert.mp hq with rfl | hq
    · exact hocc
    · exact hP.occ q hq
  · intro q hq
    rcases Finset.mem_insert.mp hq with rfl | hq
    · exact ⟨hlo, hhi⟩
    · obtain ⟨h₁, h₂⟩ := hP.inside q hq
      exact ⟨by omega, h₂⟩
  · intro q hq r hr hqr
    rcases Finset.mem_insert.mp hq with rfl | hq' <;> rcases Finset.mem_insert.mp hr with rfl | hr'
    · exact absurd hqr (lt_irrefl _)
    · exact (hP.inside r hr').1
    · have := (hP.inside q hq').1
      omega
    · exact hP.apart q hq' r hr' hqr

theorem IsPacking.erase_min {P : Finset ℕ} (hP : IsPacking occ L lo hi P)
    (hfirst : ∀ q, lo ≤ q → occ q → p ≤ q) (hne : P.Nonempty) :
    IsPacking occ L (p + L) hi (P.erase (P.min' hne)) := by
  have hmem := P.min'_mem hne
  have hle : p ≤ P.min' hne := hfirst _ (hP.inside _ hmem).1 (hP.occ _ hmem)
  refine ⟨fun q hq => hP.occ q (Finset.mem_of_mem_erase hq), fun q hq => ?_, fun q hq r hr => ?_⟩
  · have hlt : P.min' hne < q := Finset.min'_lt_of_mem_erase_min' P hne hq
    have hapart := hP.apart _ hmem q (Finset.mem_of_mem_erase hq) hlt
    exact ⟨by omega, (hP.inside q (Finset.mem_of_mem_erase hq)).2⟩
  · exact hP.apart q (Finset.mem_of_mem_erase hq) r (Finset.mem_of_mem_erase hr)

theorem isGreatest_succ (hL : 0 < L) (hlo : lo ≤ p) (hocc : occ p) (hhi : p + L ≤ hi)
    (hfirst : ∀ q, lo ≤ q → occ q → p ≤ q) (h : IsGreatest (sizes occ L (p + L) hi) n) :
    IsGreatest (sizes occ L lo hi) (n + 1) := by
  obtain ⟨⟨P, hP, rfl⟩, hmax⟩ := h
  refine ⟨⟨insert p P, hP.insert hocc hlo hhi, Finset.card_insert_of_notMem fun hmem => ?_⟩, ?_⟩
  · have := (hP.inside p hmem).1
    omega
  · rintro _ ⟨Q, hQ, rfl⟩
    rcases Q.eq_empty_or_nonempty with rfl | hne
    · exact Nat.zero_le _
    · have hrest := hmax ⟨_, hQ.erase_min hfirst hne, rfl⟩
      rw [Finset.card_erase_of_mem (Q.min'_mem hne)] at hrest
      omega

theorem IsPacking.card_mul_le {P : Finset ℕ} (hP : IsPacking occ L lo hi P) :
    P.card * L ≤ hi - lo := by
  have hdisjoint : (P : Set ℕ).PairwiseDisjoint fun q => Finset.Ico q (q + L) := by
    intro q hq r hr hne
    refine Finset.disjoint_left.mpr fun x hxq hxr => ?_
    rw [Finset.mem_Ico] at hxq hxr
    rcases lt_or_gt_of_ne hne with hlt | hlt
    · have := hP.apart q hq r hr hlt
      omega
    · have := hP.apart r hr q hq hlt
      omega
  have hsub : P.biUnion (fun q => Finset.Ico q (q + L)) ⊆ Finset.Ico lo hi := by
    refine Finset.biUnion_subset.mpr fun q hq => Finset.Ico_subset_Ico ?_ ?_
    · exact (hP.inside q hq).1
    · exact (hP.inside q hq).2
  calc P.card * L = ∑ q ∈ P, (Finset.Ico q (q + L)).card := by simp
    _ = (P.biUnion fun q => Finset.Ico q (q + L)).card := (Finset.card_biUnion hdisjoint).symm
    _ ≤ (Finset.Ico lo hi).card := Finset.card_le_card hsub
    _ = hi - lo := Nat.card_Ico lo hi

end Packing
