import Mathlib.Tactic

/-!
# Machinery/EventLog — how many events of a log are recent

A log lists the times of events, in order.  Of the last `n` the oldest tells whether fewer than `n`
are later than `b` (`countP_lt_iff`), and a log that was only ever extended while fewer than `n`
events were later than `x - t` has at most `n` in any window of length `t` (`windowed_concat`).
-/

namespace EventLog

variable {log : List ℤ} {n : ℕ} {t x : ℤ}

theorem countP_lt_iff (hsorted : log.Pairwise (· ≤ ·)) (hn : 0 < n) (hle : n ≤ log.length) (b : ℤ)
    {e : ℤ} (he : log[log.length - n]? = some e) : log.countP (b < ·) < n ↔ e ≤ b := by
  obtain ⟨hlt, rfl⟩ := List.getElem?_eq_some_iff.mp he
  -- the log cut in front of the event in question
  have hcut := List.take_append_drop (log.length - n) log
  have hdrop := List.drop_eq_getElem_cons hlt
  rw [← hcut, hdrop, List.pairwise_append, List.pairwise_cons] at hsorted
  obtain ⟨-, ⟨hafter, -⟩, hbefore⟩ := hsorted
  have hrest : (log.drop (log.length - n + 1)).length = n - 1 := by
    rw [List.length_drop]
    omega
  have hcount : log.countP (b < ·) = (log.take (log.length - n)).countP (b < ·) +
      ((log[log.length - n] :: log.drop (log.length - n + 1)).countP (b < ·)) := by
    conv_lhs => rw [← hcut, List.countP_append, hdrop]
  constructor
  · intro hfew
    by_contra hlate
    have hall : (log[log.length - n] :: log.drop (log.length - n + 1)).countP (b < ·) = n := by
      rw [List.countP_eq_length.mpr, List.length_cons, hrest]
      · omega
      · intro a ha
        rcases List.mem_cons.mp ha with rfl | ha
        · simpa using hlate
        · have := hafter a ha
          simp only [decide_eq_true_eq]
          omega
    omega
  · intro hearly
    have hnone : (log.take (log.length - n)).countP (b < ·) = 0 := by
      refine List.countP_eq_zero.mpr fun a ha => ?_
      have := hbefore a ha _ List.mem_cons_self
      simp only [decide_eq_true_eq]
      omega
    rw [hcount, hnone, List.countP_cons_of_neg (by simpa using hearly)]
    have := List.countP_le_length (p := fun a => decide (b < a))
      (l := log.drop (log.length - n + 1))
    omega

def Windowed (n : ℕ) (t : ℤ) (log : List ℤ) : Prop :=
  ∀ a, log.countP (fun e => a < e ∧ e ≤ a + t) ≤ n ∧ log.countP (fun e => a ≤ e ∧ e < a + t) ≤ n

theorem windowed_nil (n : ℕ) (t : ℤ) : Windowed n t [] := fun _ => ⟨Nat.zero_le _, Nat.zero_le _⟩

theorem windowed_concat (h : Windowed n t log) (hfew : log.countP (x - t < ·) < n) :
    Windowed n t (log ++ [x]) := by
  intro a
  -- the events that share a window with `x` are later than `x - t`
  have hbound : ∀ p : ℤ → Bool, (∀ e, p e → p x → x - t < e) → log.countP p ≤ n →
      (log ++ [x]).countP p ≤ n := by
    intro p hp hle
    rw [List.countP_append, List.countP_singleton]
    split_ifs with hx
    · have hmono : log.countP p ≤ log.countP (x - t < ·) :=
        List.countP_mono_left fun e _ he => by simpa using hp e he hx
      omega
    · exact hle
  obtain ⟨hopen, hclosed⟩ := h a
  refine ⟨hbound _ (fun e he hx => ?_) hopen, hbound _ (fun e he hx => ?_) hclosed⟩ <;>
  · simp only [decide_eq_true_eq] at he hx
    omega

end EventLog
