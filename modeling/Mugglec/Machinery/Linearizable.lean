import Mugglec.Machinery.Steps

/-!
# Machinery/Linearizable — histories of calls that take effect at one instant

A sequential object is a state and an operation applied to it, `none` where the operation has to
wait.  Let any number of threads use it *atomically*: each call takes effect at one instant between
the call and its return.  A history is linearizable if the atomic use of the object can show it.
-/

namespace Linearizability

open Function Steps

structure Object (S O R : Type*) where
  init : S
  apply : S → O → Option (S × R)

inductive Event (T O R : Type*)
  | call (t : T) (o : O)
  | ret (t : T) (r : R)
deriving DecidableEq, Repr

inductive Phase (O R : Type*)
  | idle
  | called (o : O)
  | acted (r : R)
deriving DecidableEq, Repr

@[ext]
structure Use (T S O R : Type*) where
  state : S
  phases : T → Phase O R
  history : List (Event T O R)

inductive Act (T O R : Type*)
  | call (t : T) (o : O)
  | act (t : T)
  | ret (t : T)

variable {T S O R : Type*} [DecidableEq T]

def Use.next (obj : Object S O R) (w : Use T S O R) : Act T O R → Option (Use T S O R)
  | .call t o =>
    match w.phases t with
    | .idle => some { w with
        phases := update w.phases t (.called o)
        history := w.history ++ [.call t o] }
    | _ => none
  | .act t =>
    match w.phases t with
    | .called o => (obj.apply w.state o).map fun p =>
      { w with state := p.1, phases := update w.phases t (.acted p.2) }
    | _ => none
  | .ret t =>
    match w.phases t with
    | .acted r => some { w with
        phases := update w.phases t .idle
        history := w.history ++ [.ret t r] }
    | _ => none

def Use.start (obj : Object S O R) : Use T S O R := ⟨obj.init, fun _ => .idle, []⟩

def Possible (obj : Object S O R) (w : Use T S O R) : Prop :=
  Reach (Use.next obj) anyStep (Use.start obj) w

def Linearizable (obj : Object S O R) (history : List (Event T O R)) : Prop :=
  ∃ w, Possible obj w ∧ w.history = history

variable {obj : Object S O R} {w : Use T S O R} {t : T}

theorem Possible.call (h : Possible obj w) (ht : w.phases t = .idle) (o : O) :
    Possible obj { w with
      phases := update w.phases t (.called o), history := w.history ++ [.call t o] } :=
  Reach.step (a := Act.call t o) h trivial (by rw [Use.next, ht])

theorem Possible.act (h : Possible obj w) {o : O} (ht : w.phases t = .called o) {s : S} {r : R}
    (happly : obj.apply w.state o = some (s, r)) :
    Possible obj { w with state := s, phases := update w.phases t (.acted r) } :=
  Reach.step (a := Act.act t) h trivial (by simp only [Use.next, ht, happly, Option.map_some])

theorem Possible.ret (h : Possible obj w) {r : R} (ht : w.phases t = .acted r) :
    Possible obj { w with
      phases := update w.phases t .idle, history := w.history ++ [.ret t r] } :=
  Reach.step (a := Act.ret t) h trivial (by rw [Use.next, ht])

end Linearizability
