import Mathlib.Data.List.Rotate
import Mathlib.Tactic

/-!
# Machinery/Cyclic — the arcs of a list read as a ring

`arc l i n` is the `n` entries of `l` from index `i` on, going round at the end.  A ring buffer
takes from the front of an arc (`arc_succ`) and puts at its back (`arc_set`).
-/

namespace Cyclic

variable {α : Type*} {l : List α}

def arc (l : List α) (i n : ℕ) : List α := (l.rotate i).take n

def bump (i c : ℕ) : ℕ := if i + 1 = c then 0 else i + 1

theorem bump_lt {i c : ℕ} (h : i < c) : bump i c < c := by
  rw [bump]
  split <;> omega

theorem bump_eq_mod {i c : ℕ} (h : i < c) : bump i c = (i + 1) % c := by
  rw [bump]
  split
  · next hc => rw [hc, Nat.mod_self]
  · rw [Nat.mod_eq_of_lt (by omega)]

theorem bump_mod {c : ℕ} (hc : 0 < c) (n : ℕ) : bump (n % c) c = (n + 1) % c := by
  rw [bump_eq_mod (Nat.mod_lt n hc), Nat.mod_add_mod]

theorem length_arc {n : ℕ} (i : ℕ) (h : n ≤ l.length) : (arc l i n).length = n := by
  rw [arc, List.length_take, List.length_rotate]
  omega

theorem arc_mod (l : List α) (i n : ℕ) : arc l (i % l.length) n = arc l i n := by
  rw [arc, List.rotate_mod, arc]

theorem arc_succ {i n : ℕ} (hi : i < l.length) (hn : n < l.length) :
    arc l i (n + 1) = l[i] :: arc l (bump i l.length) n := by
  have hrot : l.rotate i = l[i] :: (l.drop (i + 1) ++ l.take i) := by
    rw [List.rotate_eq_drop_append_take hi.le, List.drop_eq_getElem_cons hi, List.cons_append]
  have hnext : l.rotate (i + 1) = (l.drop (i + 1) ++ l.take i) ++ [l[i]] := by
    rw [← List.rotate_rotate, hrot, List.rotate_cons_succ, List.rotate_zero]
  have hlen : n ≤ (l.drop (i + 1) ++ l.take i).length := by
    rw [List.length_append, List.length_drop, List.length_take]
    omega
  rw [bump_eq_mod hi, arc_mod, arc, arc, hrot, hnext, List.take_succ_cons,
    List.take_append_of_le_length hlen]

theorem rotate_set (l : List α) {i n : ℕ} (x : α) (hn : n < l.length) :
    (l.set ((i + n) % l.length) x).rotate i = (l.rotate i).set n x := by
  refine List.ext_getElem (by simp) fun k hk hk' => ?_
  have hk : k < l.length := by simpa using hk
  rw [List.getElem_rotate, List.getElem_set, List.getElem_set, List.getElem_rotate]
  simp only [List.length_set]
  have hiff : (i + n) % l.length = (k + i) % l.length ↔ n = k := by
    refine ⟨fun h => ?_, fun h => by rw [h, Nat.add_comm]⟩
    have h' : n ≡ k [MOD l.length] := by
      refine Nat.ModEq.add_left_cancel' i ?_
      rw [Nat.add_comm i k]
      exact h
    exact h'.eq_of_lt_of_lt hn hk
  by_cases h : n = k
  · rw [if_pos h, if_pos (hiff.mpr h)]
  · rw [if_neg h, if_neg (hiff.not.mpr h)]

theorem arc_set (l : List α) {i n : ℕ} (x : α) (hn : n < l.length) :
    arc (l.set ((i + n) % l.length) x) i (n + 1) = arc l i n ++ [x] := by
  have hlen : n < (l.rotate i).length := by rwa [List.length_rotate]
  rw [arc, rotate_set l x hn, arc, List.set_eq_take_append_cons_drop, if_pos hlen]
  have htake : ((l.rotate i).take n).length = n := by
    rw [List.length_take]
    omega
  rw [List.take_append, htake, List.take_of_length_le (by omega), Nat.add_sub_cancel_left]
  rfl

theorem arc_succ_right {i n : ℕ} (hn : n < l.length) (hidx : (i + n) % l.length < l.length) :
    arc l i (n + 1) = arc l i n ++ [l[(i + n) % l.length]] := by
  have h := arc_set l (i := i) l[(i + n) % l.length] hn
  rwa [List.set_getElem_self] at h

theorem arc_set_of_lt (l : List α) {i n : ℕ} (x : α) (hn : n < l.length) :
    arc (l.set ((i + n) % l.length) x) i n = arc l i n := by
  rw [arc, rotate_set l x hn, List.take_set_of_le (le_refl n), arc]

theorem arc_eq_slice {i n : ℕ} (h : i + n ≤ l.length) :
    arc l i n = (l.drop i).take n := by
  rw [arc, List.rotate_eq_drop_append_take (by omega),
    List.take_append_of_le_length (by rw [List.length_drop]; omega)]

theorem arc_eq_slices {i n : ℕ} (hi : i ≤ l.length) (h : l.length ≤ i + n) (hn : n ≤ l.length) :
    arc l i n = l.drop i ++ l.take (i + n - l.length) := by
  have hdrop : (l.drop i).length = l.length - i := List.length_drop
  rw [arc, List.rotate_eq_drop_append_take hi, List.take_append, hdrop,
    List.take_of_length_le (by omega), List.take_take]
  congr 2
  omega

end Cyclic
