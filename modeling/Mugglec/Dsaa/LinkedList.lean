import Mugglec.Machinery.SentinelList
import Mugglec.Base.Utils

/-!
# Dsaa/LinkedList — the doubly linked list of `dsaa/linked_list.c`

The nodes hang between two sentinels that are part of the list.
-/

namespace Mugglec

open Function LinkedList OwnedHeap

inductive ListPtr (A : Type)
  | head | tail
  | node (a : A)
deriving DecidableEq, Repr

abbrev ListCell (A V : Type) := Cell (ListPtr A) (Option V)

structure LinkedListT (A V : Type) where
  heap : ListPtr A → Option (ListCell A V)
  size : ℕ
  freed : List V

namespace LinkedListT

variable {A V : Type}

def initHeap : ListPtr A → Option (ListCell A V)
  | .head => some ⟨none, some .tail, none⟩
  | .tail => some ⟨some .head, none, none⟩
  | .node _ => none

def init (capacity : ℕ) (pool poolInit : Bool) : Option (LinkedListT A V) := do
  if capacity > 0 then
    guard (dsCapIsValid capacity)
    guard (pool && poolInit)
  return ⟨initHeap, 0, []⟩

variable [DecidableEq A]

def isEmpty (L : LinkedListT A V) : Option Bool := do
  let head ← L.heap .head
  return head.next = some .tail

def findLoop (cmp : Option V → Option V → ℤ) (heap : ListPtr A → Option (ListCell A V))
    (data : Option V) : ℕ → ListPtr A → Option (Option (ListPtr A))
  | 0, _ => none
  | n + 1, node =>
    if node = .tail then some none
    else do
      let c ← heap node
      if cmp c.data data = 0 then return some node
      else
        let next ← c.next
        findLoop cmp heap data n next

def find (cmp : Option V → Option V → ℤ) (L : LinkedListT A V) (node : Option (ListPtr A))
    (data : Option V) : Option (Option (ListPtr A)) := do
  let node ← node.or (nextOf L.heap .head)
  findLoop cmp L.heap data (L.size + 1) node

def next (L : LinkedListT A V) (node : ListPtr A) : Option (Option (ListPtr A)) := do
  let c ← L.heap node
  return if c.next = some .tail then none else c.next

def prev (L : LinkedListT A V) (node : ListPtr A) : Option (Option (ListPtr A)) := do
  let c ← L.heap node
  return if c.prev = some .head then none else c.prev

def first (L : LinkedListT A V) : Option (Option (ListPtr A)) := L.next .head

def last (L : LinkedListT A V) : Option (Option (ListPtr A)) := L.prev .tail

def insert (L : LinkedListT A V) (node : Option (ListPtr A)) (data : Option V) (mem : Option A) :
    Option (Option (ListPtr A) × LinkedListT A V) :=
  match mem with
  | none => some (none, L)
  | some a => do
    let new := ListPtr.node a
    let h := update L.heap new (some ⟨none, none, data⟩)
    let node ← node.or (nextOf h .head)
    let prev ← prevOf h node
    let h ← modify h prev (·.setNext (some new))
    let h ← modify h new (·.setPrev (some prev))
    let h ← modify h new (·.setNext (some node))
    let h ← modify h node (·.setPrev (some new))
    return (some new, { L with heap := h, size := L.size + 1 })

def append (L : LinkedListT A V) (node : Option (ListPtr A)) (data : Option V) (mem : Option A) :
    Option (Option (ListPtr A) × LinkedListT A V) :=
  match mem with
  | none => some (none, L)
  | some a => do
    let new := ListPtr.node a
    let h := update L.heap new (some ⟨none, none, data⟩)
    let node ← node.or (prevOf h .tail)
    let next ← nextOf h node
    let h ← modify h next (·.setPrev (some new))
    let h ← modify h new (·.setNext (some next))
    let h ← modify h new (·.setPrev (some node))
    let h ← modify h node (·.setNext (some new))
    return (some new, { L with heap := h, size := L.size + 1 })

def freeData (L : LinkedListT A V) (node : ListPtr A) (freeGiven : Bool) :
    Option (LinkedListT A V) := do
  let c ← L.heap node
  let h ← modify L.heap node (·.mapData fun _ => none)
  return { L with heap := h, freed := L.freed ++ Mugglec.freed freeGiven c.data }

def freeNode (L : LinkedListT A V) (node : ListPtr A) : Option (LinkedListT A V) := do
  let c ← L.heap node
  let prev ← c.prev
  let h ← modify L.heap prev (·.setNext c.next)
  let next ← c.next
  let h ← modify h next (·.setPrev c.prev)
  return { L with heap := update h node none, size := L.size - 1 }

def remove (L : LinkedListT A V) (node : ListPtr A) (freeGiven : Bool) :
    Option (Option (ListPtr A) × LinkedListT A V) := do
  let next ← L.next node
  let L ← L.freeData node freeGiven
  let L ← L.freeNode node
  return (next, L)

def clearLoop (freeGiven : Bool) : ℕ → LinkedListT A V → ListPtr A → Option (LinkedListT A V)
  | 0, _, _ => none
  | n + 1, L, node =>
    if node = .tail then some L
    else do
      let next ← nextOf L.heap node
      let L ← L.freeData node freeGiven
      let L ← L.freeNode node
      clearLoop freeGiven n L next

def clear (L : LinkedListT A V) (freeGiven : Bool) : Option (LinkedListT A V) := do
  let node ← nextOf L.heap .head
  let L ← clearLoop freeGiven (L.size + 1) L node
  return { L with size := 0 }

def walkFrom (step : ListPtr A → Option (Option (ListPtr A))) :
    ℕ → Option (ListPtr A) → Option (List (ListPtr A))
  | 0, _ => none
  | _ + 1, none => some []
  | n + 1, some node => do
    let node' ← step node
    let rest ← walkFrom step n node'
    return node :: rest

def forward (L : LinkedListT A V) : Option (List (ListPtr A)) := do
  let node ← L.first
  walkFrom L.next (L.size + 1) node

def backward (L : LinkedListT A V) : Option (List (ListPtr A)) := do
  let node ← L.last
  walkFrom L.prev (L.size + 1) node

end LinkedListT

end Mugglec
