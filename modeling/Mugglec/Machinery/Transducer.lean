import Mathlib.Tactic

/-!
# Machinery/Transducer — a letter in, a letter out, and a state carried along

A **transducer** reads a letter, changes its state and writes a letter.  Run over a word it writes
a word of the same length.
-/

namespace Transducer

variable {σ α β : Type*}

def run (step : σ → α → σ × β) : σ → List α → σ × List β
  | s, [] => (s, [])
  | s, a :: l => ((run step (step s a).1 l).1, (step s a).2 :: (run step (step s a).1 l).2)

variable (step : σ → α → σ × β)

@[simp] theorem run_nil (s : σ) : run step s [] = (s, []) := rfl

@[simp] theorem run_cons (s : σ) (a : α) (l : List α) :
    run step s (a :: l) =
      ((run step (step s a).1 l).1, (step s a).2 :: (run step (step s a).1 l).2) := rfl

@[simp] theorem length_run (s : σ) (l : List α) : (run step s l).2.length = l.length := by
  induction l generalizing s with
  | nil => rfl
  | cons a l ih => simp [ih]

theorem run_append (s : σ) (l l' : List α) : run step s (l ++ l') =
      ((run step (run step s l).1 l').1, (run step s l).2 ++ (run step (run step s l).1 l').2) := by
  induction l generalizing s with
  | nil => rfl
  | cons a l ih => simp [ih]

theorem run_run_of_undo {there : σ → α → σ × β} {back : σ → β → σ × α}
    (h : ∀ s a, back s (there s a).2 = ((there s a).1, a)) (s : σ) (l : List α) :
    run back s (run there s l).2 = ((run there s l).1, l) := by
  induction l generalizing s with
  | nil => rfl
  | cons a l ih => simp [h, ih]

theorem run_invariant {step : σ → α → σ × β} {I : σ → Prop} (h : ∀ s a, I s → I (step s a).1)
    {s : σ} (hs : I s) (l : List α) : I (run step s l).1 := by
  induction l generalizing s with
  | nil => exact hs
  | cons a l ih => exact ih (h s a hs)

end Transducer
