import Mathlib.Data.List.Nodup
import Mathlib.Data.List.Perm.Subperm
import Mathlib.Data.List.Range
import Mathlib.Logic.Function.Basic
import Mathlib.Tactic

/-!
# Machinery/Custody — tokens that are issued, held and passed on

Tokens are numbered as they are issued.  A token is held by one of any number of holders, or it has
been passed on, and then it is in the list of those passed.
-/

namespace Tokens

open Function

variable {T : Type*} {n x : ℕ} {held : T → Option ℕ} {passed : List ℕ} {t : T}

structure Custody (n : ℕ) (held : T → Option ℕ) (passed : List ℕ) : Prop where
  nodup : passed.Nodup
  placed : ∀ x, x < n ↔ x ∈ passed ∨ ∃ t, held t = some x
  apart : ∀ t x, held t = some x → x ∉ passed
  alone : ∀ t t' x, held t = some x → held t' = some x → t = t'

theorem custody_zero : Custody 0 (fun _ : T => none) [] where
  nodup := List.nodup_nil
  placed x := by simp
  apart t x h := absurd h (by simp)
  alone t t' x h := absurd h (by simp)

theorem Custody.perm (h : Custody n held passed) (hnone : ∀ t, held t = none) :
    passed.Perm (List.range n) := by
  refine (List.perm_ext_iff_of_nodup h.nodup List.nodup_range).mpr fun x => ?_
  rw [List.mem_range, h.placed x]
  simp [hnone]

variable [DecidableEq T]

theorem Custody.issue (h : Custody n held passed) (ht : held t = none) :
    Custody (n + 1) (update held t (some n)) passed := by
  have hfresh : ∀ t, held t ≠ some n := fun t' ht' => by
    have := (h.placed n).mpr (.inr ⟨t', ht'⟩)
    omega
  have hin : ∀ t' x, update held t (some n) t' = some x →
      t' = t ∧ x = n ∨ t' ≠ t ∧ held t' = some x := by
    intro t' x hx
    obtain rfl | hne := eq_or_ne t' t
    · rw [update_self] at hx
      exact .inl ⟨rfl, (Option.some.inj hx).symm⟩
    · rw [update_of_ne hne] at hx
      exact .inr ⟨hne, hx⟩
  refine ⟨h.nodup, fun x => ⟨fun hx => ?_, ?_⟩, fun t' x hx => ?_, fun t₁ t₂ x h₁ h₂ => ?_⟩
  · obtain hlt | rfl := Nat.lt_succ_iff_lt_or_eq.mp hx
    · refine ((h.placed x).mp hlt).imp_right fun ⟨t', ht'⟩ => ⟨t', ?_⟩
      rwa [update_of_ne]
      rintro rfl
      rw [ht] at ht'
      cases ht'
    · exact .inr ⟨t, update_self ..⟩
  · rintro (hx | ⟨t', ht'⟩)
    · exact ((h.placed x).mpr (.inl hx)).trans (Nat.lt_succ_self n)
    · obtain ⟨-, rfl⟩ | ⟨-, ht'⟩ := hin t' x ht'
      · exact Nat.lt_succ_self _
      · exact ((h.placed x).mpr (.inr ⟨t', ht'⟩)).trans (Nat.lt_succ_self n)
  · obtain ⟨-, rfl⟩ | ⟨-, ht'⟩ := hin t' x hx
    · intro hmem
      have := (h.placed x).mpr (.inl hmem)
      omega
    · exact h.apart t' x ht'
  · obtain ⟨ht₁, hx₁⟩ | ⟨-, h₁'⟩ := hin t₁ x h₁ <;>
      obtain ⟨ht₂, hx₂⟩ | ⟨-, h₂'⟩ := hin t₂ x h₂
    · exact ht₁.trans ht₂.symm
    · exact absurd (hx₁ ▸ h₂') (hfresh t₂)
    · exact absurd (hx₂ ▸ h₁') (hfresh t₁)
    · exact h.alone t₁ t₂ x h₁' h₂'

theorem Custody.pass (h : Custody n held passed) (ht : held t = some x) :
    Custody n (update held t none) (passed ++ [x]) := by
  have hin : ∀ t' y, update held t none t' = some y → t' ≠ t ∧ held t' = some y := by
    intro t' y hy
    obtain rfl | hne := eq_or_ne t' t
    · rw [update_self] at hy
      cases hy
    · rw [update_of_ne hne] at hy
      exact ⟨hne, hy⟩
  refine ⟨?_, fun y => ⟨fun hy => ?_, ?_⟩, fun t' y hy => ?_, fun t₁ t₂ y h₁ h₂ => ?_⟩
  · rw [← List.concat_eq_append, List.nodup_concat]
    exact ⟨h.apart t x ht, h.nodup⟩
  · rw [List.mem_append, List.mem_singleton]
    obtain hy | ⟨t', ht'⟩ := (h.placed y).mp hy
    · exact .inl (.inl hy)
    · obtain rfl | hne := eq_or_ne t' t
      · exact .inl (.inr (Option.some.inj (ht'.symm.trans ht)))
      · exact .inr ⟨t', by rwa [update_of_ne hne]⟩
  · rintro (hy | ⟨t', ht'⟩)
    · obtain hy | hy := List.mem_append.mp hy
      · exact (h.placed y).mpr (.inl hy)
      · obtain rfl := List.mem_singleton.mp hy
        exact (h.placed y).mpr (.inr ⟨t, ht⟩)
    · exact (h.placed y).mpr (.inr ⟨t', (hin t' y ht').2⟩)
  · obtain ⟨hne, ht'⟩ := hin t' y hy
    rw [List.mem_append, List.mem_singleton, not_or]
    refine ⟨h.apart t' y ht', ?_⟩
    rintro rfl
    exact hne (h.alone t' t y ht' ht)
  · exact h.alone t₁ t₂ y (hin t₁ y h₁).2 (hin t₂ y h₂).2

end Tokens
