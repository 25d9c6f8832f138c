import Mathlib.Tactic

/-!
# Machinery/RingQueue — a log kept in a ring of cells

A producer appends to a log, a consumer has taken its first `r` entries, and entry `k` of the log is
kept in cell `k % c` of a ring of `c` cells.
-/

namespace RingQueue

theorem mod_eq_iff {c a b : ℕ} (hle : a ≤ b) (hlt : b < a + c) : a % c = b % c ↔ a = b := by
  constructor
  · intro h
    have hdvd : c ∣ b - a := (Nat.modEq_iff_dvd' hle).mp h
    have hzero : b - a = 0 := Nat.eq_zero_of_dvd_of_lt hdvd (by omega)
    omega
  · rintro rfl
    rfl

variable {α : Type*}

/-- The entries of `log` from number `r` on are in their cells. -/
structure Holds (c : ℕ) (cells : ℕ → α) (log : List α) (r : ℕ) : Prop where
  le : r ≤ log.length
  kept : ∀ k, r ≤ k → k < log.length → log[k]? = some (cells (k % c))

variable {c r : ℕ} {cells : ℕ → α} {log : List α}

theorem isPrefix_concat {taken : List α} {a : α} (h : taken <+: log)
    (ha : log[taken.length]? = some a) : taken ++ [a] <+: log := by
  obtain ⟨hlt, rfl⟩ := List.getElem?_eq_some_iff.mp ha
  exact List.concat_get_prefix h hlt

theorem holds_nil (c : ℕ) (cells : ℕ → α) : Holds c cells [] 0 :=
  ⟨le_refl 0, fun _ _ hk => absurd hk (Nat.not_lt_zero _)⟩

theorem Holds.set (h : Holds c cells log r) (hroom : log.length < r + c) (a : α) :
    Holds c (Function.update cells (log.length % c) a) log r := by
  refine ⟨h.le, fun k hr hk => ?_⟩
  have hne : k % c ≠ log.length % c := by
    rw [ne_eq, mod_eq_iff hk.le (by omega)]
    exact hk.ne
  rw [Function.update_of_ne hne]
  exact h.kept k hr hk

theorem Holds.push (h : Holds c cells log r) {a : α} (ha : cells (log.length % c) = a) :
    Holds c cells (log ++ [a]) r := by
  refine ⟨?_, fun k hr hk => ?_⟩
  · rw [List.length_append]
    exact Nat.le_add_right_of_le h.le
  · rw [List.length_append, List.length_singleton, Nat.lt_succ_iff] at hk
    rcases hk.lt_or_eq with hk | rfl
    · rw [List.getElem?_append_left hk]
      exact h.kept k hr hk
    · rw [List.getElem?_concat_length, ha]

theorem Holds.mono (h : Holds c cells log r) {r' : ℕ} (hr : r ≤ r') (hle : r' ≤ log.length) :
    Holds c cells log r' :=
  ⟨hle, fun k hk => h.kept k (hr.trans hk)⟩

theorem Holds.pop (h : Holds c cells log r) (hr : r < log.length) : Holds c cells log (r + 1) :=
  h.mono (Nat.le_succ r) hr

end RingQueue
