import Mugglec.Base.Utils
import Mugglec.Machinery.Steps

/-!
# Sync/MaRing — a ring for each producer thread (`sync/ma_ring.c`)

Every producer thread has a ring of its own, which it makes when it begins and frees when it is
done; one backend thread goes round all rings and calls a callback for each message.
-/

namespace Mugglec

open Function

inductive MaRingStatus
  | normal | waitRemove | done
deriving DecidableEq, Repr

structure MaRing (T α : Type*) where
  tid : T
  wpos : ℕ
  rpos : ℕ
  status : MaRingStatus
  blocks : ℕ → α
  moved : List α
  delivered : List α

inductive MaAlloc
  | ring (k : ℕ)
  | buffer (k : ℕ)
  | node (k : ℕ)
deriving DecidableEq, Repr

inductive MaProducerPc
  | idle
  | insertLock
  | insertLoad
  | insertStore (rest : List ℕ)
  | insertUnlock
  | moveTest (nextW : ℕ)
  | moveLoad (nextW : ℕ)
  | moveStore (nextW : ℕ)
  | join
  | storeWait
  | awaitDone
  | free
deriving DecidableEq, Repr

structure MaProducer (α : Type*) where
  pc : MaProducerPc
  ring : Option ℕ
  r : ℕ
  handed : Option ℕ
  sent : List α

inductive MaBackendPc
  | lock
  | handleNew
  | take (k : ℕ) (rest : List ℕ)
  | unlock
  | consume (todo : List ℕ)
  | loadR (k : ℕ) (todo : List ℕ) (w : ℕ)
  | callback (k : ℕ) (todo : List ℕ) (w r n : ℕ)
  | remove (todo : List ℕ)
  | storeDone (k : ℕ) (todo : List ℕ)
  | unlink (k : ℕ) (todo : List ℕ)
deriving DecidableEq, Repr

def MaBackendPc.accesses : MaBackendPc → Option ℕ
  | .consume (k :: _) | .loadR k _ _ | .callback k _ _ _ _ | .remove (k :: _) | .storeDone k _ =>
    some k
  | _ => none

inductive MaHolder (T : Type*)
  | producer (t : T)
  | backend
deriving DecidableEq, Repr

structure MaRingState (T α : Type*) where
  rings : ℕ → MaRing T α
  count : ℕ
  addList : List ℕ
  ringList : List ℕ
  spinlock : Option (MaHolder T)
  allocs : List MaAlloc
  frees : List MaAlloc
  producers : T → MaProducer α
  backend : MaBackendPc
  received : T → List α

structure MaGrants where
  ring : Bool
  buffer : Bool
  node : Bool
deriving DecidableEq, Repr

namespace MaGrants

def all : MaGrants := ⟨true, true, true⟩

def allocs (g : MaGrants) (k : ℕ) : List MaAlloc :=
  .ring k :: if g.buffer then .buffer k :: if g.node then [.node k] else [] else []

/-- The ring goes into `add_list`, or is cleaned up at once. -/
def pc (g : MaGrants) : MaProducerPc := if g.buffer && g.node then .insertLock else .join

end MaGrants

inductive MaRingStep (T α : Type*)
  | init (t : T) (g : MaGrants) (junk : ℕ → α)
  | alloc (t : T)
  | fill (t : T) (data : α)
  | move (t : T)
  | cleanup (t : T)
  | producer (t : T)
  | backend

def MaRing.nextPos (capacity pos : ℕ) : ℕ :=
  if u32 (pos + 1) ≥ capacity then 0 else u32 (pos + 1)

namespace MaRingState

variable {T α : Type*} (capacity : ℕ)

def start (junk : MaRing T α) : MaRingState T α where
  rings := fun _ => junk
  count := 0
  addList := []
  ringList := []
  spinlock := none
  allocs := []
  frees := []
  producers := fun _ => ⟨.idle, none, 0, none, []⟩
  backend := .lock
  received := fun _ => []

variable [DecidableEq T] (s : MaRingState T α)

def setRing (k : ℕ) (x : MaRing T α) : MaRingState T α :=
  { s with rings := update s.rings k x }

def setProducer (t : T) (p : MaProducer α) : MaRingState T α :=
  { s with producers := update s.producers t p }

def goto (t : T) (pc : MaProducerPc) : MaRingState T α :=
  s.setProducer t { s.producers t with pc := pc }

/-- The ring that `muggle_ma_ring_thread_ctx_init` makes. -/
def newRing (t : T) (junk : ℕ → α) : MaRing T α := ⟨t, 0, 0, .normal, junk, [], []⟩

def makeRing (t : T) (g : MaGrants) (junk : ℕ → α) : MaRingState T α :=
  { s with
    rings := update s.rings s.count (newRing t junk)
    count := s.count + 1
    allocs := s.allocs ++ g.allocs s.count
    producers := update s.producers t
      ⟨g.pc, some s.count, (s.producers t).r, (s.producers t).handed, (s.producers t).sent⟩ }

def threadCtxInit (t : T) (g : MaGrants) (junk : ℕ → α) : MaRingState T α :=
  match (s.producers t).ring with
  | some _ => s
  | none => if g.ring then s.makeRing t g junk else s

def moved (x : MaRing T α) (nextW : ℕ) : MaRing T α :=
  { x with wpos := nextW, moved := x.moved ++ [x.blocks x.wpos] }

def producerStepOf (t : T) (k : ℕ) : Option (MaRingState T α) :=
  let p := s.producers t
  let x := s.rings k
  match p.pc with
  | .idle => none
  | .insertLock =>
    if s.spinlock = none then some { s.goto t .insertLoad with spinlock := some (.producer t) }
    else none
  | .insertLoad => some (s.goto t (.insertStore s.addList))
  | .insertStore rest => some { s.goto t .insertUnlock with addList := k :: rest }
  | .insertUnlock => some { s.goto t .idle with spinlock := none }
  | .moveTest nextW => some (s.goto t (if nextW = p.r then .moveLoad nextW else .moveStore nextW))
  | .moveLoad nextW => some (s.setProducer t { p with pc := .moveTest nextW, r := x.rpos })
  | .moveStore nextW =>
    some ((s.setRing k (moved x nextW)).setProducer t
      { p with pc := .idle, sent := p.sent ++ [x.blocks x.wpos] })
  | .join => some (s.goto t (if x.rpos = x.wpos then .storeWait else .join))
  | .storeWait => some ((s.setRing k { x with status := .waitRemove }).goto t .awaitDone)
  | .awaitDone => some (s.goto t (if x.status = .done then .free else .awaitDone))
  | .free =>
    some { s.setProducer t { p with pc := .idle, ring := none } with
      frees := s.frees ++ [.ring k] }

def delivered (x : MaRing T α) (r : ℕ) : MaRing T α :=
  { x with delivered := x.delivered ++ [x.blocks r] }

def backendStep : Option (MaRingState T α) :=
  match s.backend with
  | .lock =>
    if s.spinlock = none then some { s with backend := .handleNew, spinlock := some .backend }
    else none
  | .handleNew =>
    match s.addList with
    | [] => some { s with backend := .unlock }
    | k :: rest => some { s with backend := .take k rest }
  | .take k rest =>
    some { s with backend := .handleNew, addList := rest, ringList := k :: s.ringList }
  | .unlock => some { s with backend := .consume s.ringList, spinlock := none }
  | .consume [] => some { s with backend := .remove s.ringList }
  | .consume (k :: todo) => some { s with backend := .loadR k todo (s.rings k).wpos }
  | .loadR k todo w => some { s with backend := .callback k todo w (s.rings k).rpos 0 }
  | .callback k todo w r n =>
    let x := s.rings k
    if r ≠ w then
      some { s.setRing k (delivered x r) with
        backend := .callback k todo w (MaRing.nextPos capacity r) (n + 1)
        received := update s.received x.tid (s.received x.tid ++ [x.blocks r]) }
    else if n > 0 then
      some { s.setRing k { x with rpos := r } with backend := .consume todo }
    else some { s with backend := .consume todo }
  | .remove [] => some { s with backend := .lock }
  | .remove (k :: todo) =>
    if (s.rings k).status = .waitRemove then some { s with backend := .storeDone k todo }
    else some { s with backend := .remove todo }
  | .storeDone k todo =>
    some { s.setRing k { s.rings k with status := .done } with backend := .unlink k todo }
  | .unlink k todo =>
    some { s with
      backend := .remove todo
      ringList := s.ringList.erase k
      frees := s.frees ++ [.node k] }

def next (a : MaRingStep T α) : Option (MaRingState T α) :=
  match a with
  | .init t g junk =>
    if (s.producers t).pc = .idle then some (s.threadCtxInit t g junk) else none
  | .alloc t =>
    match (s.producers t).pc, (s.producers t).ring with
    | .idle, some k =>
      some (s.setProducer t { s.producers t with handed := some (s.rings k).wpos })
    | _, _ => none
  | .fill t data =>
    match (s.producers t).pc, (s.producers t).ring, (s.producers t).handed with
    | .idle, some k, some b =>
      some (s.setRing k { s.rings k with blocks := update (s.rings k).blocks b data })
    | _, _, _ => none
  | .move t =>
    match (s.producers t).pc, (s.producers t).ring with
    | .idle, some k =>
      some (s.setProducer t { s.producers t with
        pc := .moveTest (MaRing.nextPos capacity (s.rings k).wpos)
        handed := none })
    | _, _ => none
  | .cleanup t =>
    if (s.producers t).pc = .idle then
      match (s.producers t).ring with
      | some _ => some (s.setProducer t { s.producers t with pc := .join, handed := none })
      | none => some s
    else none
  | .producer t => (s.producers t).ring.bind fun k => s.producerStepOf t k
  | .backend => s.backendStep capacity

end MaRingState

end Mugglec
