import Mathlib.Tactic

/-!
# Dsaa/Trie — the trie of `dsaa/trie.c`

A node has an array of 256 pointers, indexed by the next byte of the key, and a data pointer.  The
root is part of the trie; the other nodes are allocated.  The empty key has a node of its own, below
the root at index `'\0'`, where no other key goes.
-/

namespace Mugglec

open Function

inductive TriePtr (A : Type)
  | root
  | node (a : A)
deriving DecidableEq, Repr

def TRIE_CHILDREN_SIZE : ℕ := 256

structure TrieNode (A V : Type) where
  children : Fin TRIE_CHILDREN_SIZE → Option (TriePtr A)
  data : Option V

/-- `muggle_trie_t`, and what the free function was called on -/
structure Trie (A V : Type) where
  heap : TriePtr A → Option (TrieNode A V)
  freed : List (Option V)

namespace Trie

variable {A V : Type}

def childIndex (c : UInt8) : Option (Fin TRIE_CHILDREN_SIZE) :=
  if h : c.toNat < 128 then some ⟨c.toNat, h.trans (by decide)⟩ else none

def nulIndex : Fin TRIE_CHILDREN_SIZE := ⟨0, by decide⟩

def zeroNode : TrieNode A V := ⟨fun _ => none, none⟩

def init : Trie A V where
  heap
    | .root => some zeroNode
    | .node _ => none
  freed := []

def findLoop (T : Trie A V) : TriePtr A → List UInt8 → Option (Option (TriePtr A))
  | node, [] => some (some node)
  | node, c :: p => do
    let n ← T.heap node
    let i ← childIndex c
    match n.children i with
    | none => return none
    | some child => findLoop T child p

def find (T : Trie A V) (key : List UInt8) : Option (Option (TriePtr A)) :=
  match key with
  | [] => do
    let root ← T.heap .root
    return root.children nulIndex
  | c :: p => T.findLoop .root (c :: p)

variable [DecidableEq A]

def setChild (T : Trie A V) (node : TriePtr A) (i : Fin TRIE_CHILDREN_SIZE) (child : TriePtr A) :
    Option (Trie A V) := do
  let n ← T.heap node
  return { T with
    heap := update T.heap node
      (some { n with children := update n.children i (some child) }) }

def setData (T : Trie A V) (node : TriePtr A) (data : Option V) : Option (Trie A V) := do
  let n ← T.heap node
  return { T with heap := update T.heap node (some { n with data := data }) }

def allocateNode (T : Trie A V) : List (Option A) → Option (TriePtr A) × Trie A V × List (Option A)
  | some a :: mem =>
    (some (.node a), { T with heap := update T.heap (.node a) (some zeroNode) }, mem)
  | none :: mem => (none, T, mem)
  | [] => (none, T, [])

def insertLoop (T : Trie A V) (mem : List (Option A)) :
    TriePtr A → List UInt8 → Option (Option (TriePtr A) × Trie A V)
  | node, [] => some (some node, T)
  | node, c :: p => do
    let n ← T.heap node
    let i ← childIndex c
    match n.children i with
    | some child => insertLoop T mem child p
    | none =>
      match T.allocateNode mem with
      | (none, T, _) => return (none, T)
      | (some child, T, mem) =>
        let T ← T.setChild node i child
        insertLoop T mem child p

def insert (T : Trie A V) (key : List UInt8) (value : V) (mem : List (Option A)) :
    Option (Option (TriePtr A) × Trie A V) :=
  match key with
  | [] => do
    let root ← T.heap .root
    match root.children nulIndex with
    | some child =>
      let T ← T.setData child value
      return (some child, T)
    | none =>
      match T.allocateNode mem with
      | (none, T, _) => return (none, T)
      | (some child, T, _) =>
        let T ← T.setData child value
        let T ← T.setChild .root nulIndex child
        return (some child, T)
  | c :: p => do
    match ← T.insertLoop mem .root (c :: p) with
    | (none, T) => return (none, T)
    | (some child, T) =>
      let T ← T.setData child value
      return (some child, T)

def remove (T : Trie A V) (key : List UInt8) (freeGiven : Bool) : Option (Bool × Trie A V) := do
  match ← T.find key with
  | none => return (false, T)
  | some node =>
    let n ← T.heap node
    let T := if freeGiven then { T with freed := T.freed ++ [n.data] } else T
    let T ← T.setData node none
    return (true, T)

end Trie

end Mugglec
