import Mathlib.Logic.Function.Basic
import Mugglec.Base.Utils

/-!
# Dsaa/Heap — the binary heap

An array with the root at index 1, an entry a key and a value pointer.  An entry is placed by moving
a hole: `insert` moves it up from the end, `extract` down from the root, and `remove` from where the
entry was, in one loop that may go either way.
-/

namespace Mugglec

structure Heap (K V : Type) where
  capacity : ℕ
  size : ℕ
  nodes : ℕ → Option (Option K × Option V)
  freedKeys : List K
  freedValues : List V

namespace Heap

variable {K V : Type}

def init (cmpGiven : Bool) (capacity : ℕ) (mem : Bool) : Option (Heap K V) := do
  guard cmpGiven
  let capacity := if capacity = 0 then 8 else capacity
  guard (dsCapIsValid capacity)
  guard mem
  return ⟨capacity, 0, fun _ => none, [], []⟩

def setNode (H : Heap K V) (idx : ℕ) (node : Option K × Option V) : Option (Heap K V) := do
  guard (idx ≤ H.capacity)
  return { H with nodes := Function.update H.nodes idx (some node) }

def copyNode (H : Heap K V) (src dst : ℕ) : Option (Heap K V) := do
  H.setNode dst (← H.nodes src)

def clearLoop (keyFree valueFree : Bool) : ℕ → ℕ → Heap K V → Option (Heap K V)
  | 0, _, H => some H
  | n + 1, i, H => do
    let node ← H.nodes i
    let H ← H.setNode i (none, none)
    clearLoop keyFree valueFree n (i + 1)
      { H with
        freedKeys := H.freedKeys ++ freed keyFree node.1
        freedValues := H.freedValues ++ freed valueFree node.2 }

def clear (H : Heap K V) (keyFree valueFree : Bool) : Option (Heap K V) := do
  let H ← clearLoop keyFree valueFree H.size 1 H
  return { H with size := 0 }

def isEmpty (H : Heap K V) : Bool := H.size = 0

def ensureCapacity (H : Heap K V) (capacity : ℕ) (mem : Bool) : Bool × Heap K V :=
  if H.capacity ≥ capacity then (true, H)
  else if ! dsCapIsValid capacity then (false, H)
  else if ! mem then (false, H)
  else
    (true, { H with
      nodes := fun i => if 1 ≤ i ∧ i ≤ H.size then H.nodes i else none
      capacity := capacity })

def insertLoop (cmp : Option K → Option K → ℤ) (key : Option K) :
    ℕ → Heap K V → ℕ → Option (Heap K V × ℕ)
  | 0, _, _ => none
  | n + 1, H, idx => do
    let parentIdx := idx / 2
    if parentIdx = 0 then return (H, idx)
    let parent ← H.nodes parentIdx
    if cmp parent.1 key ≤ 0 then return (H, idx)
    insertLoop cmp key n (← H.copyNode parentIdx idx) parentIdx

def insert (cmp : Option K → Option K → ℤ) (H : Heap K V) (key : Option K) (value : Option V)
    (mem : Bool) : Option (Bool × Heap K V) :=
  -- capacities are below `2 ^ 31`, so doubling does not overflow
  match if H.capacity = H.size then H.ensureCapacity (H.capacity * 2) mem else (true, H) with
  | (false, H) => some (false, H)
  | (true, H) => do
    let H := { H with size := H.size + 1 }
    let (H, idx) ← insertLoop cmp key H.size H H.size
    let H ← H.setNode idx (key, value)
    return (true, H)

def root (H : Heap K V) : Option ℕ := if H.isEmpty then none else some 1

def smallerChild (cmp : Option K → Option K → ℤ) (H : Heap K V) (child : ℕ) (more : Bool) :
    Option ℕ := do
  if more then
    let right ← H.nodes (child + 1)
    let left ← H.nodes child
    return if cmp right.1 left.1 < 0 then child + 1 else child
  else
    return child

def percolate (cmp : Option K → Option K → ℤ) (H : Heap K V) (lastNode idx : ℕ) (more : Bool) :
    Option (Option ℕ) := do
  let child ← smallerChild cmp H (idx * 2) more
  let last ← H.nodes lastNode
  let node ← H.nodes child
  return if cmp last.1 node.1 ≥ 0 then some child else none

def extractLoop (cmp : Option K → Option K → ℤ) (lastNode : ℕ) :
    ℕ → Heap K V → ℕ → Option (Heap K V × ℕ)
  | 0, _, _ => none
  | n + 1, H, i => do
    if i * 2 ≤ H.size then
      match ← percolate cmp H lastNode i (i * 2 ≠ H.size) with
      | some child => extractLoop cmp lastNode n (← H.copyNode child i) child
      | none => return (H, i)
    else
      return (H, i)

def extract (cmp : Option K → Option K → ℤ) (H : Heap K V) :
    Option (Option (Option K × Option V) × Heap K V) := do
  if H.isEmpty then return (none, H)
  let node ← H.nodes 1
  let lastNode := H.size
  let H := { H with size := H.size - 1 }
  let (H, i) ← extractLoop cmp lastNode (H.size + 1) H 1
  let H ← H.copyNode lastNode i
  return (some node, H)

def findLoop (cmp : Option K → Option K → ℤ) (H : Heap K V) (data : Option K) :
    ℕ → ℕ → Option (Option ℕ)
  | 0, _ => some none
  | n + 1, i => do
    let node ← H.nodes i
    if cmp node.1 data = 0 then return some i
    findLoop cmp H data n (i + 1)

def find (cmp : Option K → Option K → ℤ) (H : Heap K V) (data : Option K) : Option (Option ℕ) :=
  findLoop cmp H data H.size 1

def moveUp (cmp : Option K → Option K → ℤ) (H : Heap K V) (lastNode idx : ℕ) :
    Option (Option ℕ) := do
  let parentIdx := idx / 2
  if parentIdx ≠ 0 then
    let parent ← H.nodes parentIdx
    let last ← H.nodes lastNode
    return if cmp last.1 parent.1 < 0 then some parentIdx else none
  else
    return none

def removeLoop (cmp : Option K → Option K → ℤ) (lastNode : ℕ) :
    ℕ → Heap K V → ℕ → Option (Heap K V × ℕ)
  | 0, _, _ => none
  | n + 1, H, idx => do
    match ← moveUp cmp H lastNode idx with
    | some parentIdx => removeLoop cmp lastNode n (← H.copyNode parentIdx idx) parentIdx
    | none =>
      if idx * 2 ≤ H.size then
        match ← percolate cmp H lastNode idx (idx * 2 < H.size) with
        | some childIdx => removeLoop cmp lastNode n (← H.copyNode childIdx idx) childIdx
        | none => return (H, idx)
      else
        return (H, idx)

def remove (cmp : Option K → Option K → ℤ) (H : Heap K V) (tmp : ℤ) (keyFree valueFree : Bool) :
    Option (Bool × Heap K V) := do
  if H.isEmpty then return (false, H)
  if tmp ≤ 0 ∨ tmp.toNat > H.size then return (false, H)
  let idx := tmp.toNat
  -- free node memory
  let node ← H.nodes idx
  let H ← H.setNode idx (none, none)
  let H := { H with
    freedKeys := H.freedKeys ++ freed keyFree node.1
    freedValues := H.freedValues ++ freed valueFree node.2 }
  if idx = H.size then return (true, { H with size := H.size - 1 })
  let lastNode := H.size
  let H := { H with size := H.size - 1 }
  let (H, idx) ← removeLoop cmp lastNode (H.size + 1) H idx
  let H ← H.copyNode lastNode idx
  return (true, H)

end Heap

end Mugglec
