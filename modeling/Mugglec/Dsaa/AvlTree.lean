import Mugglec.Machinery.LinkedTree

/-!
# Dsaa/AvlTree — the AVL tree (`dsaa/avl_tree.c`)

Nodes are cells of a heap with pointers to their children and their parent.  `insert` hangs a new
node under a leaf position and retraces towards the root; `remove` moves the data to be removed down
to a leaf, erases the leaf and retraces.
-/

namespace Mugglec

open LinkedTree OwnedHeap

structure AvlData (K V : Type) where
  balance : ℤ
  key : Option K
  value : Option V
deriving DecidableEq, Repr

namespace AvlData

variable {K V : Type} (d : AvlData K V)

def setBalance (b : ℤ) : AvlData K V := { d with balance := b }

def pair : Option K × Option V := (d.key, d.value)

def setPair (q : Option K × Option V) : AvlData K V := { d with key := q.1, value := q.2 }

end AvlData

abbrev AvlLinks (A K V : Type) := Links A (AvlData K V)

structure AvlTree (A K V : Type) extends Links A (AvlData K V) where
  nodes : ℕ
  freedKeys : List K
  freedValues : List V

variable {A K V : Type} [DecidableEq A]

namespace AvlLinks

def setBalance (h : A → Option (Cell A (AvlData K V))) (node : A) (b : ℤ) :
    Option (A → Option (Cell A (AvlData K V))) :=
  modify h node (·.mapData (·.setBalance b))

def rotate (σ : Side) (L : AvlLinks A K V) (x : A) : Option (Bool × AvlLinks A K V) := do
  let cx ← L.heap x
  let z ← cx.child σ
  let cz ← L.heap z
  guard (cx.data.balance = 2 * σ.sign)
  guard (cz.data.balance = σ.sign ∨ cz.data.balance = 0)
  let h ← replaceChild L.heap cx.parent x (some z)
  let h ← setParent h (some z) cx.parent
  let root := if L.root = some x then some z else L.root
  let cz ← h z
  let h ← hang h x σ (cz.child σ.other)
  let h ← hang h z σ.other (some x)
  let cz ← h z
  if cz.data.balance = 0 then
    let h ← setBalance h x σ.sign
    let h ← setBalance h z (-σ.sign)
    return (false, ⟨root, h⟩)
  else
    let h ← setBalance h x 0
    let h ← setBalance h z 0
    return (true, ⟨root, h⟩)

def doubleBalance (σ : Side) (b : ℤ) : ℤ × ℤ :=
  if 0 < σ.sign * b then (-σ.sign, 0) else if b = 0 then (0, 0) else (0, σ.sign)

def rotateTwice (σ : Side) (L : AvlLinks A K V) (x : A) : Option (AvlLinks A K V) := do
  let cx ← L.heap x
  let z ← cx.child σ
  let cz ← L.heap z
  let y ← cz.child σ.other
  guard (cx.data.balance = 2 * σ.sign)
  guard (cz.data.balance = -σ.sign)
  let cy ← L.heap y
  let t2 := cy.child σ.other
  let t3 := cy.child σ
  let h ← replaceChild L.heap cx.parent x (some y)
  let h ← setParent h (some y) cx.parent
  let root := if L.root = some x then some y else L.root
  let h ← hang h x σ t2
  let h ← hang h z σ.other t3
  let h ← hang h y σ.other (some x)
  let h ← hang h y σ (some z)
  let cy ← h y
  let h ← setBalance h x (doubleBalance σ cy.data.balance).1
  let h ← setBalance h z (doubleBalance σ cy.data.balance).2
  let h ← setBalance h y 0
  return ⟨root, h⟩

def rotateLeft (L : AvlLinks A K V) (x : A) : Option (Bool × AvlLinks A K V) := rotate .right L x

def rotateRight (L : AvlLinks A K V) (x : A) : Option (Bool × AvlLinks A K V) := rotate .left L x

def rotateRightLeft (L : AvlLinks A K V) (x : A) : Option (AvlLinks A K V) := rotateTwice .right L x

def rotateLeftRight (L : AvlLinks A K V) (x : A) : Option (AvlLinks A K V) := rotateTwice .left L x

/-- `muggle_avl_tree_rebalance`; whether the depth decreases. -/
def rebalance (L : AvlLinks A K V) (node : A) : Option (Bool × AvlLinks A K V) := do
  let c ← L.heap node
  if c.data.balance < -1 then
    let child ← c.left
    let cc ← L.heap child
    if cc.data.balance ≤ 0 then rotateRight L node
    else
      let L ← rotateLeftRight L node
      return (true, L)
  else if 1 < c.data.balance then
    let child ← c.right
    let cc ← L.heap child
    if 0 ≤ cc.data.balance then rotateLeft L node
    else
      let L ← rotateRightLeft L node
      return (true, L)
  else return (false, L)

def insertRetrace : ℕ → AvlLinks A K V → A → Side → Option (AvlLinks A K V)
  | 0, _, _, _ => none
  | n + 1, L, node, side => do
    let h ← modify L.heap node (·.mapData fun d => d.setBalance (d.balance + side.sign))
    let c ← h node
    if c.data.balance = 0 then return ⟨L.root, h⟩
    else if c.data.balance = 1 ∨ c.data.balance = -1 then
      match c.parent with
      | none => return ⟨L.root, h⟩
      | some p =>
        let cp ← h p
        insertRetrace n ⟨L.root, h⟩ p (cp.sideOf node)
    else
      guard (c.data.balance = 2 ∨ c.data.balance = -2)
      let (_, L) ← rebalance ⟨L.root, h⟩ node
      return L

def sideUnder (h : A → Option (Cell A (AvlData K V))) (parent : Option A) (node : A) (side : Side) :
    Option Side :=
  match parent with
  | none => some side
  | some p => (h p).map (·.sideOf node)

def removeRetrace : ℕ → AvlLinks A K V → Option A → Side → Option (AvlLinks A K V)
  | 0, _, _, _ => none
  | _ + 1, L, none, _ => some L
  | n + 1, L, some node, side => do
    let h ← modify L.heap node (·.mapData fun d => d.setBalance (d.balance - side.sign))
    let c ← h node
    if c.data.balance = 1 ∨ c.data.balance = -1 then return ⟨L.root, h⟩
    else if c.data.balance = 0 then
      match c.parent with
      | none => return ⟨L.root, h⟩
      | some p =>
        let cp ← h p
        removeRetrace n ⟨L.root, h⟩ (some p) (cp.sideOf node)
    else
      guard (c.data.balance = 2 ∨ c.data.balance = -2)
      let side ← sideUnder h c.parent node side
      let (decrease, L) ← rebalance ⟨L.root, h⟩ node
      if decrease then removeRetrace n L c.parent side else return L

def extreme (σ : Side) (h : A → Option (Cell A (AvlData K V))) : ℕ → A → Option A
  | 0, _ => none
  | n + 1, target => do
    let c ← h target
    match c.child σ with
    | none => return target
    | some next => extreme σ h n next

def swapPairs (h : A → Option (Cell A (AvlData K V))) (node target : A) :
    Option (A → Option (Cell A (AvlData K V))) := do
  let cn ← h node
  let ct ← h target
  let h ← modify h node (·.mapData (·.setPair ct.data.pair))
  modify h target (·.mapData (·.setPair cn.data.pair))

def sink (rounds : ℕ) : ℕ → AvlLinks A K V → A → Option (A × AvlLinks A K V)
  | 0, _, _ => none
  | n + 1, L, node => do
    let c ← L.heap node
    match c.left, c.right with
    | none, none => return (node, L)
    | some l, _ =>
      let target ← extreme .right L.heap rounds l
      let h ← swapPairs L.heap node target
      sink rounds n ⟨L.root, h⟩ target
    | none, some r =>
      let target ← extreme .left L.heap rounds r
      let h ← swapPairs L.heap node target
      sink rounds n ⟨L.root, h⟩ target

def findLoop (cmp : Option K → Option K → ℤ) (h : A → Option (Cell A (AvlData K V)))
    (data : Option K) : ℕ → Option A → Option (Option A)
  | 0, _ => none
  | _ + 1, none => some none
  | n + 1, some node => do
    let c ← h node
    let ret := cmp data c.data.key
    if ret = 0 then return some node
    else if ret < 0 then findLoop cmp h data n c.left
    else findLoop cmp h data n c.right

def descend (cmp : Option K → Option K → ℤ) (h : A → Option (Cell A (AvlData K V)))
    (key : Option K) : ℕ → A → Option (Option (A × Side))
  | 0, _ => none
  | n + 1, node => do
    let c ← h node
    let ret := cmp key c.data.key
    if ret = 0 then return none
    else
      let side : Side := if ret < 0 then .left else .right
      match c.child side with
      | some next => descend cmp h key n next
      | none => return some (node, side)

end AvlLinks

namespace AvlTree

open AvlLinks

def init : AvlTree A K V := ⟨⟨none, fun _ => none⟩, 0, [], []⟩

def allocateNode (T : AvlTree A K V) (a : A) : AvlTree A K V :=
  { T with
    heap := Function.update T.heap a (some ⟨none, none, none, ⟨0, none, none⟩⟩)
    nodes := T.nodes + 1 }

def eraseNode (keyFree valueFree : Bool) : ℕ → AvlTree A K V → A → Option (AvlTree A K V)
  | 0, _, _ => none
  | n + 1, T, node => do
    let c ← T.heap node
    let T ← match c.left with
      | none => some T
      | some l => eraseNode keyFree valueFree n T l
    let c ← T.heap node
    let T ← match c.right with
      | none => some T
      | some r => eraseNode keyFree valueFree n T r
    let c ← T.heap node
    let h ← replaceChild T.heap c.parent node none
    return {
      root := T.root
      heap := Function.update h node none
      nodes := T.nodes - 1
      freedKeys := if keyFree then T.freedKeys ++ c.data.key.toList else T.freedKeys
      freedValues := if valueFree then T.freedValues ++ c.data.value.toList else T.freedValues }

def find (cmp : Option K → Option K → ℤ) (T : AvlTree A K V) (data : Option K) :
    Option (Option A) :=
  findLoop cmp T.heap data (T.nodes + 1) T.root

def insert (cmp : Option K → Option K → ℤ) (T : AvlTree A K V) (key : Option K) (value : Option V)
    (mem : Option A) : Option (Option A × AvlTree A K V) :=
  match T.root with
  | none =>
    match mem with
    | none => some (none, T)
    | some a => do
      let T := T.allocateNode a
      let h ← modify T.heap a (·.mapData fun _ => ⟨0, key, value⟩)
      return (some a, { T with root := some a, heap := h })
  | some root => do
    match ← descend cmp T.heap key (T.nodes + 1) root, mem with
    | none, _ => return (none, T)
    | some _, none => return (none, T)
    | some (node, side), some a =>
      let T := T.allocateNode a
      let h ← modify T.heap node (·.setChild side (some a))
      let h ← modify h a fun c => (c.setParent (some node)).mapData fun _ => ⟨0, key, value⟩
      let L ← insertRetrace (T.nodes + 1) ⟨T.root, h⟩ node side
      return (some a, { T with toLinks := L })

def remove (T : AvlTree A K V) (node : A) (keyFree valueFree : Bool) : Option (AvlTree A K V) := do
  let (leaf, L) ← sink (T.nodes + 1) (T.nodes + 1) T.toLinks node
  let T := { T with toLinks := L }
  let c ← T.heap leaf
  match c.parent with
  | none =>
    let T ← T.eraseNode keyFree valueFree (T.nodes + 1) leaf
    return { T with root := none }
  | some parent =>
    let cp ← T.heap parent
    let T ← T.eraseNode keyFree valueFree (T.nodes + 1) leaf
    let L ← removeRetrace (T.nodes + 1) T.toLinks (some parent) (cp.sideOf leaf)
    return { T with toLinks := L }

end AvlTree

end Mugglec
