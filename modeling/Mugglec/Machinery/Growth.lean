import Mathlib.Tactic
import Mathlib.Data.List.GetD

/-!
# Machinery/Growth — an array filled from the front

`for (i = len; i < len + n; i++) a[i] = next(a, i);` where `next` reads entries below `i` only.  The
loop leaves the entries it found alone, and every entry it writes satisfies **the recurrence in the
finished array** (`getD_grow`).
-/

namespace Growth

variable {α : Type*} (next : List α → ℕ → α) (l : List α)

def grow (n : ℕ) : List α := (List.range' l.length n).foldl (fun l i => l ++ [next l i]) l

theorem grow_succ (n : ℕ) :
    grow next l (n + 1) = grow next l n ++ [next (grow next l n) (l.length + n)] := by
  simp [grow, List.range'_concat]

@[simp] theorem length_grow (n : ℕ) : (grow next l n).length = l.length + n := by
  induction n with
  | zero => rfl
  | succ n ih => rw [grow_succ, List.length_append, ih, List.length_singleton, add_assoc]

theorem getD_grow_succ (n : ℕ) (d : α) {i : ℕ} (hi : i < l.length + n) :
    (grow next l (n + 1)).getD i d = (grow next l n).getD i d := by
  rw [grow_succ, List.getD_append _ _ _ _ (by rwa [length_grow])]

theorem getD_grow_of_lt (n : ℕ) (d : α) {i : ℕ} (hi : i < l.length) :
    (grow next l n).getD i d = l.getD i d := by
  induction n with
  | zero => rfl
  | succ n ih => rw [getD_grow_succ next l n d (by omega), ih]

theorem getD_grow {next : List α → ℕ → α} {l : List α} {d : α} {n i : ℕ}
    (hnext : ∀ a b : List α, (∀ j < i, a.getD j d = b.getD j d) → next a i = next b i)
    (hge : l.length ≤ i) (hlt : i < l.length + n) :
    (grow next l n).getD i d = next (grow next l n) i := by
  induction n with
  | zero => omega
  | succ n ih =>
    have hsame : next (grow next l n) i = next (grow next l (n + 1)) i :=
      hnext _ _ fun j hj => (getD_grow_succ next l n d (by omega)).symm
    rcases (show i < l.length + n ∨ i = l.length + n by omega) with h | rfl
    · rw [getD_grow_succ next l n d h, ih h, hsame]
    · rw [← hsame, grow_succ, List.getD_append_right _ _ _ _ (by rw [length_grow]), length_grow,
        Nat.sub_self]
      rfl

end Growth
