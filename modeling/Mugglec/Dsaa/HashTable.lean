import Mugglec.Machinery.LinkedList
import Mugglec.Base.Utils

/-!
# Dsaa/HashTable — the chained hash table (`dsaa/hash_table.c`)

An array of `tableSize` heads, each the sentinel of a doubly linked chain that ends in a null
pointer. A key's chain is the one at `hash key % tableSize`; `put` hangs a new node in right behind
the head.
-/

namespace Mugglec

open LinkedList OwnedHeap

inductive HashPtr (A : Type)
  | head (i : ℕ)
  | node (a : A)
deriving DecidableEq, Repr

abbrev HashCell (A K V : Type) := Cell (HashPtr A) (Option K × Option V)

structure HashTable (A K V : Type) where
  heap : HashPtr A → Option (HashCell A K V)
  tableSize : ℕ
  nodes : ℕ
  freedKeys : List K
  freedValues : List V

namespace HashTable

variable {A K V : Type}

def SIZE_10007 : ℕ := 10007

structure Grants where
  pool : Bool
  poolInit : Bool
  nodes : Bool
deriving DecidableEq, Repr

def initHeap (tableSize : ℕ) : HashPtr A → Option (HashCell A K V)
  | .head i => if i < tableSize then some ⟨none, none, (none, none)⟩ else none
  | .node _ => none

def init (tableSize : ℕ) (cmpGiven : Bool) (capacity : ℕ) (g : Grants) :
    Option (HashTable A K V) := do
  guard cmpGiven
  if capacity > 0 then
    guard (dsCapIsValid capacity)
    guard (g.pool && g.poolInit)
  let tableSize := if tableSize < 8 then SIZE_10007 else tableSize
  guard g.nodes
  return ⟨initHeap tableSize, tableSize, 0, [], []⟩

def bucket (hash : Option K → ℕ) (T : HashTable A K V) (key : Option K) : ℕ :=
  hash key % T.tableSize

def findLoop (cmp : Option K → Option K → ℤ) (heap : HashPtr A → Option (HashCell A K V))
    (key : Option K) : ℕ → Option (HashPtr A) → Option (Option (HashPtr A))
  | 0, _ => none
  | _ + 1, none => some none
  | n + 1, some p => do
    let c ← heap p
    if cmp c.data.1 key = 0 then return some p
    else findLoop cmp heap key n c.next

def find (hash : Option K → ℕ) (cmp : Option K → Option K → ℤ) (T : HashTable A K V)
    (key : Option K) : Option (Option (HashPtr A)) := do
  let head ← T.heap (.head (T.bucket hash key))
  findLoop cmp T.heap key (T.nodes + 1) head.next

variable [DecidableEq A]

def setPrevOf (h : HashPtr A → Option (HashCell A K V)) (next prev : Option (HashPtr A)) :
    Option (HashPtr A → Option (HashCell A K V)) :=
  match next with
  | none => some h
  | some n => modify h n (·.setPrev prev)

def put (hash : Option K → ℕ) (cmp : Option K → Option K → ℤ) (T : HashTable A K V)
    (key : Option K) (value : Option V) (mem : Option A) :
    Option (Option (HashPtr A) × HashTable A K V) := do
  let idx := T.bucket hash key
  let head ← T.heap (.head idx)
  match ← findLoop cmp T.heap key (T.nodes + 1) head.next, mem with
  | some _, _ => return (none, T)
  | none, none => return (none, T)
  | none, some a =>
    let h := Function.update T.heap (.node a)
      (some ⟨some (.head idx), head.next, (key, value)⟩)
    let h ← modify h (.head idx) (·.setNext (some (.node a)))
    let h ← setPrevOf h head.next (some (.node a))
    return (some (.node a), { T with heap := h, nodes := T.nodes + 1 })

def remove (T : HashTable A K V) (node : HashPtr A) (keyFree valueFree : Bool) :
    Option (HashTable A K V) := do
  let c ← T.heap node
  let h ← modify T.heap node (·.mapData fun _ => (none, none))
  let prev ← c.prev
  let h ← modify h prev (·.setNext c.next)
  let h ← setPrevOf h c.next c.prev
  return { T with
    heap := Function.update h node none
    nodes := T.nodes - 1
    freedKeys := T.freedKeys ++ freed keyFree c.data.1
    freedValues := T.freedValues ++ freed valueFree c.data.2 }

def clearChain (keyFree valueFree : Bool) : ℕ → HashTable A K V → Option (HashPtr A) →
    Option (HashTable A K V)
  | 0, _, _ => none
  | _ + 1, T, none => some T
  | n + 1, T, some node => do
    let c ← T.heap node
    let T ← T.remove node keyFree valueFree
    clearChain keyFree valueFree n T c.next

def clearBucket (keyFree valueFree : Bool) (T : HashTable A K V) (i : ℕ) :
    Option (HashTable A K V) := do
  let head ← T.heap (.head i)
  T.clearChain keyFree valueFree (T.nodes + 1) head.next

def clear (T : HashTable A K V) (keyFree valueFree : Bool) : Option (HashTable A K V) :=
  (List.range T.tableSize).foldlM (clearBucket keyFree valueFree) T

end HashTable

end Mugglec
