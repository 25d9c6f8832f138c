import Mathlib.Data.Set.Function
import Mathlib.Tactic

/-!
# Machinery/DenseTable — a table without holes beside a list

The members of a list `l` stand in the cells `lo … n - 1` of a table, each in one of them and in any
order.  A new member goes into cell `n`; a member that leaves cell `i` has the last one moved there.
-/

namespace DenseTable

open Function

variable {α : Type*}

structure Lists (lo n : ℕ) (t : ℕ → Option α) (l : List α) : Prop where
  cell : ∀ i, lo ≤ i → i < n → ∃ a ∈ l, t i = some a
  inj : ∀ i j a, lo ≤ i → i < n → lo ≤ j → j < n → t i = some a → t j = some a → i = j
  listed : ∀ a ∈ l, ∃ i, lo ≤ i ∧ i < n ∧ t i = some a

def moveLast {β : Type*} (t : ℕ → β) (n i : ℕ) : ℕ → β :=
  if i ≠ n - 1 then update t i (t (n - 1)) else t

variable {lo n i j : ℕ} {t : ℕ → Option α} {l : List α} {a : α}

theorem lists_nil (lo : ℕ) (t : ℕ → Option α) : Lists lo lo t [] where
  cell := fun _ hlo hlt => absurd hlt (not_lt.mpr hlo)
  inj := fun _ _ _ hlo hlt => absurd hlt (not_lt.mpr hlo)
  listed := fun _ ha => absurd ha List.not_mem_nil

theorem Lists.bijOn (h : Lists lo n t l) :
    Set.BijOn t (Set.Ico lo n) (Set.image some {a | a ∈ l}) := by
  refine ⟨fun i hi => ?_, fun i hi j hj heq => ?_, ?_⟩
  · obtain ⟨a, ha, hti⟩ := h.cell i hi.1 hi.2
    exact ⟨a, ha, hti.symm⟩
  · obtain ⟨a, -, hti⟩ := h.cell i hi.1 hi.2
    exact h.inj i j a hi.1 hi.2 hj.1 hj.2 hti (heq ▸ hti)
  · rintro _ ⟨a, ha, rfl⟩
    obtain ⟨i, hlo, hlt, hti⟩ := h.listed a ha
    exact ⟨i, ⟨hlo, hlt⟩, hti⟩

theorem Lists.congr (h : Lists lo n t l) {t' : ℕ → Option α} (heq : ∀ i < n, t' i = t i) :
    Lists lo n t' l where
  cell := fun i hlo hlt => by
    rw [heq i hlt]
    exact h.cell i hlo hlt
  inj := fun i j a hlo hlt hlo' hlt' hi hj =>
    h.inj i j a hlo hlt hlo' hlt' (heq i hlt ▸ hi) (heq j hlt' ▸ hj)
  listed := fun a ha => by
    obtain ⟨i, hlo, hlt, hi⟩ := h.listed a ha
    exact ⟨i, hlo, hlt, (heq i hlt).trans hi⟩

theorem Lists.push (h : Lists lo n t l) (hlo : lo ≤ n) (ha : a ∉ l) :
    Lists lo (n + 1) (update t n (some a)) (l ++ [a]) := by
  have hold : ∀ {i}, i < n → update t n (some a) i = t i := fun hi =>
    update_of_ne hi.ne _ _
  have hnew : update t n (some a) n = some a := update_self ..
  -- an old cell does not hold the new member
  have hnot : ∀ {i}, lo ≤ i → i < n → t i ≠ some a := fun hlo hi heq => by
    obtain ⟨b, hb, hti⟩ := h.cell _ hlo hi
    obtain rfl := Option.some.inj (hti.symm.trans heq)
    exact ha hb
  refine ⟨fun i hlo' hi => ?_, fun i j b hi hin hj hjn hti htj => ?_, fun b hb => ?_⟩
  · rcases Nat.lt_succ_iff_lt_or_eq.mp hi with hi | rfl
    · obtain ⟨b, hb, hti⟩ := h.cell i hlo' hi
      exact ⟨b, List.mem_append_left _ hb, (hold hi).trans hti⟩
    · exact ⟨a, by simp, hnew⟩
  · rcases Nat.lt_succ_iff_lt_or_eq.mp hin with hin | rfl <;>
      rcases Nat.lt_succ_iff_lt_or_eq.mp hjn with hjn | rfl
    · exact h.inj i j b hi hin hj hjn (hold hin ▸ hti) (hold hjn ▸ htj)
    · obtain rfl := Option.some.inj (hnew.symm.trans htj)
      exact absurd (hold hin ▸ hti) (hnot hi hin)
    · obtain rfl := Option.some.inj (hnew.symm.trans hti)
      exact absurd (hold hjn ▸ htj) (hnot hj hjn)
    · rfl
  · rcases List.mem_append.mp hb with hb | hb
    · obtain ⟨i, hi, hin, hti⟩ := h.listed b hb
      exact ⟨i, hi, Nat.lt_succ_of_lt hin, (hold hin).trans hti⟩
    · obtain rfl := List.mem_singleton.mp hb
      exact ⟨n, hlo, Nat.lt_succ_self n, hnew⟩

theorem moveLast_of_lt {β : Type*} (t : ℕ → β) (hj : j < n - 1) :
    moveLast t n i j = if j = i then t (n - 1) else t j := by
  rw [moveLast]
  split_ifs with hlast hji hji
  · rw [hji, update_self]
  · rw [update_of_ne hji]
  · omega
  · rfl

theorem Lists.moveLast [DecidableEq α] (h : Lists lo n t l) (hl : l.Nodup) (hlo : lo ≤ i)
    (hi : i < n) (hti : t i = some a) : Lists lo (n - 1) (moveLast t n i) (l.erase a) := by
  -- a cell other than `i` holds another member, which stays
  have hstays : ∀ {j}, lo ≤ j → j < n → j ≠ i → ∃ b ∈ l.erase a, t j = some b := by
    intro j hj hjn hne
    obtain ⟨b, hb, htj⟩ := h.cell j hj hjn
    have hba : b ≠ a := by
      rintro rfl
      exact hne (h.inj j i b hj hjn hlo hi htj hti)
    exact ⟨b, (List.mem_erase_of_ne hba).mpr hb, htj⟩
  refine ⟨fun j hj hjn => ?_, fun j k b hj hjn hk hkn htj htk => ?_, fun b hb => ?_⟩
  · rw [moveLast_of_lt t hjn]
    split_ifs with hji
    · exact hstays (by omega) (by omega) (by omega)
    · exact hstays hj (by omega) hji
  · rw [moveLast_of_lt t hjn] at htj
    rw [moveLast_of_lt t hkn] at htk
    split_ifs at htj htk with hji hki hki
    · rw [hji, hki]
    · have := h.inj (n - 1) k b (by omega) (by omega) hk (by omega) htj htk
      omega
    · have := h.inj j (n - 1) b hj (by omega) (by omega) (by omega) htj htk
      omega
    · exact h.inj j k b hj (by omega) hk (by omega) htj htk
  · obtain ⟨hba, hb⟩ := (hl.mem_erase_iff).mp hb
    obtain ⟨j, hj, hjn, htj⟩ := h.listed b hb
    have hji : j ≠ i := by
      rintro rfl
      exact hba (Option.some.inj (htj.symm.trans hti))
    by_cases hlast : j = n - 1
    · refine ⟨i, hlo, by omega, ?_⟩
      rw [moveLast_of_lt t (by omega), if_pos rfl, ← hlast]
      exact htj
    · refine ⟨j, hj, by omega, ?_⟩
      rw [moveLast_of_lt t (by omega), if_neg hji]
      exact htj

end DenseTable
