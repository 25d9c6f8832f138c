import Mugglec.Machinery.LinkedList
import Mugglec.Time.TimeCounter

/-!
# Dsaa/TimeWheel — the time wheel of `dsaa/time_wheel.c`

A ring of `n` slots, each with a doubly linked list of nodes between two sentinels, and a cursor on
the slot of the next tick.
-/

namespace Mugglec

open LinkedList

inductive WheelPtr (A : Type) where
  | head (i : ℕ)
  | tail (i : ℕ)
  | node (a : A)
deriving DecidableEq

abbrev WheelCell (A : Type) := Cell (WheelPtr A) Unit

structure TimeWheel (A : Type) where
  heap : WheelPtr A → Option (WheelCell A)
  n : ℕ
  unitMs : ℕ
  insertMode : ℕ
  tc : TimeCounter
  cur : ℕ
  insertCur : ℕ

inductive WheelError (A : Type) where
  | rounds
  | fault
  | stray (p : Option (WheelPtr A))
deriving DecidableEq

namespace TimeWheel

variable {A : Type}

def insertModeCurrent : ℕ := 0

def insertModeLoop : ℕ := 1

def initHeap (n : ℕ) (nodes : A → WheelCell A) : WheelPtr A → Option (WheelCell A)
  | .head i => if i < n then some ⟨none, some (.tail i), ()⟩ else none
  | .tail i => if i < n then some ⟨some (.head i), none, ()⟩ else none
  | .node a => some (nodes a)

def init (n unitMs insertMode : ℕ) (now : Timespec) (nodes : A → WheelCell A) (mem : Bool) :
    Option (TimeWheel A) :=
  if mem then
    some
      { heap := initHeap n nodes, n := n, unitMs := unitMs, insertMode := insertMode
        tc := TimeCounter.start now, cur := 0, insertCur := 0 }
  else none

def insertIdx (W : TimeWheel A) : ℕ × TimeWheel A :=
  if W.insertMode = insertModeCurrent then (W.cur, W)
  else if W.insertMode = insertModeLoop then
    let insertCur := (W.insertCur + 1) % W.n
    (insertCur, { W with insertCur := insertCur })
  else (0, W)

variable [DecidableEq A]

def insert (W : TimeWheel A) (a : A) : Option (TimeWheel A) := do
  let (idx, W) := W.insertIdx
  let next ← nextOf W.heap (.head idx)
  let heap ← OwnedHeap.modify W.heap next (·.setPrev (some (.node a)))
  let heap ← OwnedHeap.modify heap (.node a) (·.setNext (nextOf heap (.head idx)))
  let heap ← OwnedHeap.modify heap (.node a) (·.setPrev (some (.head idx)))
  let heap ← OwnedHeap.modify heap (.head idx) (·.setNext (some (.node a)))
  return { W with heap := heap }

def remove (W : TimeWheel A) (a : A) : Option (TimeWheel A) := do
  let next ← nextOf W.heap (.node a)
  let heap ← OwnedHeap.modify W.heap next (·.setPrev (prevOf W.heap (.node a)))
  let prev ← prevOf heap (.node a)
  let heap ← OwnedHeap.modify heap prev (·.setNext (nextOf heap (.node a)))
  return { W with heap := heap }

abbrev Callback (A : Type) := List A → A → TimeWheel A → Option (TimeWheel A)

def walk (cb : Callback A) (idx : ℕ) : ℕ → Option (WheelPtr A) → TimeWheel A → List A →
    Except (WheelError A) (TimeWheel A × List A)
  | 0, _, _, _ => .error .rounds
  | rounds + 1, node, W, calls =>
    if node = some (.tail idx) then .ok (W, calls)
    else match node with
    | some (.node a) =>
      match cb calls a W with
      | none => .error .fault
      | some W => walk cb idx rounds (nextOf W.heap (.node a)) W (calls ++ [a])
    | p => .error (.stray p)

def advance (W : TimeWheel A) : TimeWheel A := { W with cur := (W.cur + 1) % W.n }

/-- One round of the loop of `muggle_time_wheel_update_n`. -/
def tick (cb : Callback A) (rounds : ℕ) (W : TimeWheel A) :
    Except (WheelError A) (TimeWheel A × List A) :=
  walk cb W.cur rounds (nextOf W.heap (.head W.cur)) W.advance []

def updateN (cb : Callback A) (rounds : ℕ) : ℕ → TimeWheel A →
    Except (WheelError A) (TimeWheel A × List (List A))
  | 0, W => .ok (W, [])
  | nSlot + 1, W => do
    let (W, calls) ← W.tick cb rounds
    let (W, rest) ← updateN cb rounds nSlot W
    return (W, calls :: rest)

def nSlot (W : TimeWheel A) (now : Timespec) : ℕ :=
  -- the quotient is one of `int64_t` numbers, rounded toward zero, and converted to `uint32_t`
  let nSlot := (((W.tc.setEnd now).intervalMs.tdiv W.unitMs) % 2 ^ 32).toNat
  if nSlot > W.n then W.n else nSlot

def update (cb : Callback A) (rounds : ℕ) (W : TimeWheel A) (now : Timespec) :
    Except (WheelError A) (TimeWheel A × List (List A)) := do
  let (W, calls) ← updateN cb rounds (W.nSlot now) { W with tc := W.tc.setEnd now }
  return ({ W with tc := W.tc.moveEndToStart }, calls)

end TimeWheel

end Mugglec
