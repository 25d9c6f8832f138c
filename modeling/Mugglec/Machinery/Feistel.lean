import Mathlib.Tactic

/-!
# Machinery/Feistel — a network is undone by its keys in the other order

A **Feistel round** passes the right half to the left and adds a function of it, and of a key, to
the old left half.  The function need not be invertible: the half it was computed from is still
there.
-/

namespace Feistel

variable {α κ : Type*} (add : α → α → α) (F : α → κ → α)

def round (p : α × α) (k : κ) : α × α := (p.2, add p.1 (F p.2 k))

def rounds (ks : List κ) (p : α × α) : α × α := ks.foldl (round add F) p

variable {add} (hadd : ∀ a b, add (add a b) b = a)
include hadd

theorem round_swap_round (p : α × α) (k : κ) :
    round add F (round add F p k).swap k = p.swap :=
  Prod.ext rfl (hadd p.1 (F p.2 k))

theorem rounds_reverse_swap (ks : List κ) (p : α × α) :
    rounds add F ks.reverse (rounds add F ks p).swap = p.swap := by
  induction ks generalizing p with
  | nil => rfl
  | cons k ks ih =>
    have hrest := ih (round add F p k)
    rw [rounds] at hrest
    rw [List.reverse_cons, rounds, List.foldl_append]
    exact (congrArg (fun q => round add F q k) hrest).trans (round_swap_round F hadd p k)

end Feistel
