import Mugglec.Machinery.LinkedList
import Mugglec.Base.Utils

/-!
# Memory/PointerSlot — values kept under small indices (`memory/pointer_slot.c`)

An array `slots` of items, and a ring `pp_slots` of pointers to them.  `insert` takes the item the
ring has at `alloc_index` and hangs it at the end of a doubly linked list between the sentinels
`head` and `tail`; `remove` unlinks an item and puts its pointer back into the ring, at
`free_index`.
-/

namespace Mugglec

open LinkedList OwnedHeap

inductive SlotPtr
  | head | tail
  | slot (i : ℕ)
deriving DecidableEq, Repr

structure SlotData (α : Type) where
  slotIdx : ℕ
  inUsed : ℕ
  data : Option α
deriving DecidableEq, Repr

abbrev SlotItem (α : Type) := Cell SlotPtr (SlotData α)

structure PointerSlot (α : Type) where
  items : SlotPtr → Option (SlotItem α)
  ppSlots : List SlotPtr
  capacity : ℕ
  allocIndex : ℕ
  freeIndex : ℕ

namespace PointerSlot

variable {α : Type}

def initItems (capacity : ℕ) : SlotPtr → Option (SlotItem α)
  | .head => some ⟨none, some .tail, ⟨0, 0, none⟩⟩
  | .tail => some ⟨some .head, none, ⟨0, 0, none⟩⟩
  | .slot i => if i < capacity then some ⟨none, none, ⟨i, 0, none⟩⟩ else none

def init (capacity : ℕ) (slotsGranted ppGranted : Bool) : Except Err (PointerSlot α) :=
  let capacity := if capacity > 0 then capacity else 1
  if slotsGranted && ppGranted then
    .ok { items := initItems capacity
          ppSlots := (List.range capacity).map .slot
          -- the arrays above are not rounded up
          capacity := u32 (nextPowOf2 capacity)
          allocIndex := 0
          freeIndex := 0 }
  else .error .memAlloc

def insert (ps : PointerSlot α) (data : Option α) : Option (Except Err ℕ × PointerSlot α) := do
  let allocIdx := idxInPowOf2Ring ps.allocIndex ps.capacity
  let p ← ps.ppSlots[allocIdx]?
  let c ← ps.items p
  if c.data.inUsed = 1 then return (.error .memAlloc, ps)
  else
    let tail ← ps.items .tail
    let h ← modify ps.items p (·.setPrev tail.prev)
    let h ← modify h p (·.setNext (some .tail))
    let last ← tail.prev
    let h ← modify h last (·.setNext (some p))
    let h ← modify h .tail (·.setPrev (some p))
    let h ← modify h p (·.mapData ({ · with data := data, inUsed := 1 }))
    return (.ok c.data.slotIdx, { ps with items := h, allocIndex := u32 (ps.allocIndex + 1) })

def remove (ps : PointerSlot α) (slotIdx : ℕ) : Option (Err × PointerSlot α) :=
  if ps.capacity ≤ slotIdx then some (.beyondRange, ps)
  else do
    let c ← ps.items (.slot slotIdx)
    if c.data.inUsed = 0 then return (.memDuplicateFree, ps)
    else
      let freeIdx := idxInPowOf2Ring ps.freeIndex ps.capacity
      guard (freeIdx < ps.ppSlots.length)
      let prev ← c.prev
      let h ← modify ps.items prev (·.setNext c.next)
      let next ← c.next
      let h ← modify h next (·.setPrev c.prev)
      let h ← modify h (.slot slotIdx) (·.setPrev none)
      let h ← modify h (.slot slotIdx) (·.setNext none)
      let h ← modify h (.slot slotIdx) (·.mapData ({ · with inUsed := 0, data := none }))
      return (.ok, { ps with
        items := h
        ppSlots := ps.ppSlots.set freeIdx (.slot slotIdx)
        freeIndex := u32 (ps.freeIndex + 1) })

def get (ps : PointerSlot α) (idx : ℕ) : Option (Option α) :=
  if ps.capacity ≤ idx then some none
  else do
    let c ← ps.items (.slot idx)
    if c.data.inUsed = 0 then return none else return c.data.data

def iterBegin (ps : PointerSlot α) : Option SlotPtr := nextOf ps.items .head

def iterEnd : SlotPtr := .tail

def iterData (ps : PointerSlot α) (iter : SlotPtr) : Option (Option α) :=
  (dataOf ps.items iter).map SlotData.data

def iterateFrom (ps : PointerSlot α) : ℕ → SlotPtr → Option (List (Option α))
  | 0, _ => none
  | n + 1, iter =>
    if iter = iterEnd then some []
    else do
      let data ← ps.iterData iter
      let next ← nextOf ps.items iter
      let rest ← iterateFrom ps n next
      return data :: rest

def iterate (ps : PointerSlot α) : Option (List (Option α)) := do
  let iter ← ps.iterBegin
  ps.iterateFrom (ps.capacity + 1) iter

end PointerSlot

end Mugglec
