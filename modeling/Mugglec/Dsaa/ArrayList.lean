import Mathlib.Logic.Function.Basic
import Mugglec.Base.Utils

/-!
# Dsaa/ArrayList — the growing array of `dsaa/array_list.c`

An array of data pointers of which the first `size` are in use.
-/

namespace Mugglec

structure ArrayList (V : Type) where
  capacity : ℕ
  size : ℕ
  nodes : ℕ → Option (Option V)
  freed : List (Option V)

namespace ArrayList

variable {V : Type}

def toInt (n : ℕ) : ℤ := i32 (u32 n)

def getIndex (L : ArrayList V) (index : ℤ) : ℤ :=
  if index ≥ 0 then
    if index.toNat ≥ L.size then -1 else index
  else
    if (-index).toNat > L.size then -1 else toInt (L.size - (-index).toNat)

def init (capacity : ℕ) (mem : Bool) : Option (ArrayList V) := do
  let capacity := if capacity = 0 then 8 else capacity
  guard (dsCapIsValid capacity)
  guard mem
  return ⟨capacity, 0, fun _ => none, []⟩

def setNode (L : ArrayList V) (i : ℤ) (data : Option V) : Option (ArrayList V) := do
  guard (0 ≤ i ∧ i.toNat < L.capacity)
  return { L with nodes := Function.update L.nodes i.toNat (some data) }

def getNode (L : ArrayList V) (i : ℤ) : Option (Option V) := do
  guard (0 ≤ i)
  L.nodes i.toNat

def clearLoop (L : ArrayList V) : List ℕ → Option (ArrayList V)
  | [] => some L
  | i :: is => do
    let data ← L.nodes i
    clearLoop { L with freed := if data.isSome then L.freed ++ [data] else L.freed } is

def clear (L : ArrayList V) (freeGiven : Bool) : Option (ArrayList V) :=
  (if freeGiven then L.clearLoop (List.range L.size) else some L).map fun L => { L with size := 0 }

def isEmpty (L : ArrayList V) : Bool := L.size = 0

def ensureCapacity (L : ArrayList V) (capacity : ℕ) (mem : Bool) : Bool × ArrayList V :=
  if L.capacity ≥ capacity then (true, L)
  else if ! dsCapIsValid capacity then (false, L)
  else if ! mem then (false, L)
  else
    (true, { L with
      nodes := fun i => if i < L.size then L.nodes i else none
      capacity := capacity })

def index (L : ArrayList V) (index : ℤ) : Option ℕ :=
  let idx := L.getIndex index
  if idx < 0 then none else some idx.toNat

def findLoop (cmp : Option V → Option V → ℤ) (L : ArrayList V) (data : Option V) :
    ℕ → ℕ → Option ℤ
  | 0, _ => none
  | n + 1, i =>
    if i < L.size then do
      let d ← L.nodes i
      if cmp d data = 0 then return toInt i
      else findLoop cmp L data n (i + 1)
    else some (-1)

def find (cmp : Option V → Option V → ℤ) (L : ArrayList V) (index : ℤ) (data : Option V) :
    Option ℤ :=
  let index := L.getIndex index
  if index < 0 then some (-1) else findLoop cmp L data (L.size + 1) index.toNat

def shiftUp (idx : ℤ) : ℕ → ArrayList V → ℤ → Option (ArrayList V)
  | 0, _, _ => none
  | n + 1, L, i =>
    if i ≥ idx then do
      let data ← L.getNode i
      let L ← L.setNode (i + 1) data
      shiftUp idx n L (i - 1)
    else some L

def shiftDown (last : ℤ) : ℕ → ArrayList V → ℤ → Option (ArrayList V)
  | 0, _, _ => none
  | n + 1, L, i =>
    if i < last then do
      let data ← L.getNode (i + 1)
      let L ← L.setNode i data
      shiftDown last n L (i + 1)
    else some L

def prepare (L : ArrayList V) (index : ℤ) (mem : Bool) : ℤ × ArrayList V :=
  -- capacities are below `2 ^ 31`, so doubling does not overflow
  match if L.size = L.capacity then L.ensureCapacity (L.capacity * 2) mem else (true, L) with
  | (false, L) => (-1, L)
  | (true, L) =>
    let idx := L.getIndex index
    if idx < 0 then
      if (index = 0 ∨ index = -1) ∧ L.size = 0 then (0, L) else (-1, L)
    else (idx, L)

def insert (L : ArrayList V) (index : ℤ) (data : Option V) (mem : Bool) :
    Option (Option ℕ × ArrayList V) :=
  let (idx, L) := L.prepare index mem
  if idx < 0 then some (none, L)
  else do
    let L ← shiftUp idx (L.size + 1) L (toInt L.size - 1)
    let L ← L.setNode idx data
    return (some idx.toNat, { L with size := L.size + 1 })

def append (L : ArrayList V) (index : ℤ) (data : Option V) (mem : Bool) :
    Option (Option ℕ × ArrayList V) :=
  let (idx, L) := L.prepare index mem
  if idx < 0 then some (none, L)
  else do
    let L ← shiftUp (idx + 1) (L.size + 1) L (toInt L.size - 1)
    let idx := if L.size = 0 then 0 else idx + 1
    let L ← L.setNode idx data
    return (some idx.toNat, { L with size := L.size + 1 })

def freeNode (L : ArrayList V) (index : ℤ) (freeGiven : Bool) : Option (ArrayList V) :=
  if freeGiven then (L.getNode index).map fun data => { L with freed := L.freed ++ [data] }
  else some L

def remove (L : ArrayList V) (index : ℤ) (freeGiven : Bool) : Option (Bool × ArrayList V) :=
  let index := L.getIndex index
  if index < 0 then some (false, L)
  else do
    let L ← L.freeNode index freeGiven
    let L ← shiftDown (toInt L.size - 1) (L.size + 1) L index
    return (true, { L with size := L.size - 1 })

end ArrayList

end Mugglec
