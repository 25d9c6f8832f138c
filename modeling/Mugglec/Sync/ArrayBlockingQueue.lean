import Mugglec.Base.Utils
import Mugglec.Machinery.Cyclic
import Mugglec.Machinery.Linearizable
import Mugglec.Machinery.Monitor
import Mugglec.Machinery.RingQueue

/-!
# Sync/ArrayBlockingQueue — the bounded queue of `sync/array_blocking_queue.c`

A ring of `capacity` entries under one mutex.  `put` waits on `cv_not_full` while the ring is full
and `take` on `cv_not_empty` while it is empty; each notifies *one* thread of the other side.
-/

namespace Mugglec

open Linearizability

structure ArrayBlockingQueue (α : Type*) where
  datas : ℕ → α
  capacity : ℕ
  takeIdx : ℕ
  putIdx : ℕ
  cnt : ℕ

inductive QueueOp (α : Type*)
  | put (data : α)
  | take
deriving DecidableEq, Repr

/-- What they return: `MUGGLE_OK`, or the value taken. -/
inductive QueueRes (α : Type*)
  | ok
  | value (data : α)
deriving DecidableEq, Repr

inductive QueueCv
  | notEmpty | notFull
deriving DecidableEq, Repr

def QueueOp.cv {α : Type*} : QueueOp α → QueueCv
  | .put _ => .notFull
  | .take => .notEmpty

def QueueRes.cv {α : Type*} : QueueRes α → QueueCv
  | .ok => .notEmpty
  | .value _ => .notFull

namespace ArrayBlockingQueue

variable {α : Type*}

structure Grants where
  datas : Bool
  mutex : Err
  cvNotFull : Err
  cvNotEmpty : Err
deriving DecidableEq, Repr

def Grants.all : Grants := ⟨true, .ok, .ok, .ok⟩

def init (g : Grants) (capacity : ℤ) (junk : ℕ → α) : Except Err (ArrayBlockingQueue α) :=
  if capacity ≤ 0 then .error .invalidParam
  else if ¬ g.datas then .error .memAlloc
  else if g.mutex ≠ .ok then .error g.mutex
  else if g.cvNotFull ≠ .ok then .error g.cvNotFull
  else if g.cvNotEmpty ≠ .ok then .error g.cvNotEmpty
  else .ok ⟨junk, capacity.toNat, 0, 0, 0⟩

variable (q : ArrayBlockingQueue α)

def mustWait : QueueOp α → Bool
  | .put _ => q.cnt = q.capacity
  | .take => q.cnt = 0

/-- `muggle_array_blocking_queue_enqueue` up to the notification -/
def enqueue (data : α) : ArrayBlockingQueue α :=
  { q with
    datas := Function.update q.datas q.putIdx data
    putIdx := Cyclic.bump q.putIdx q.capacity
    cnt := q.cnt + 1 }

/-- `muggle_array_blocking_queue_dequeue` up to the notification -/
def dequeue : α × ArrayBlockingQueue α :=
  (q.datas q.takeIdx, { q with takeIdx := Cyclic.bump q.takeIdx q.capacity, cnt := q.cnt - 1 })

def slack : QueueCv → ℕ
  | .notEmpty => q.cnt
  | .notFull => q.capacity - q.cnt

end ArrayBlockingQueue

inductive QueuePc (α : Type*)
  | idle
  | lock (op : QueueOp α)
  | test (op : QueueOp α)
  | blocked (op : QueueOp α)
  | act (op : QueueOp α)
  | notify (res : QueueRes α)
  | unlock (res : QueueRes α)
  | ret (res : QueueRes α)
deriving DecidableEq, Repr

namespace QueuePc

variable {α : Type*}

def place : QueuePc α → Monitor.Place QueueCv
  | .idle | .lock _ | .ret _ => .outside
  | .test _ | .act _ | .notify _ | .unlock _ => .inside
  | .blocked op => .blocked op.cv

def phase : QueuePc α → Phase (QueueOp α) (QueueRes α)
  | .idle => .idle
  | .lock op | .test op | .blocked op | .act op => .called op
  | .notify res | .unlock res | .ret res => .acted res

def owes (pc : QueuePc α) (cv : QueueCv) : ℕ :=
  match pc with
  | .test op | .act op => if op.cv = cv then 1 else 0
  | .notify res => if res.cv = cv then 1 else 0
  | _ => 0

theorem owes_test (op : QueueOp α) (cv : QueueCv) :
    (test op).owes cv = if op.cv = cv then 1 else 0 := rfl

theorem owes_act (op : QueueOp α) (cv : QueueCv) :
    (act op).owes cv = if op.cv = cv then 1 else 0 := rfl

theorem owes_notify (res : QueueRes α) (cv : QueueCv) :
    (notify res).owes cv = if res.cv = cv then 1 else 0 := rfl

theorem owes_unlock (res : QueueRes α) (cv : QueueCv) : (unlock res).owes cv = 0 := rfl

end QueuePc

structure QueueState (T α : Type*) where
  queue : ArrayBlockingQueue α
  monitor : Monitor T QueueCv
  threads : T → QueuePc α
  puts : List α
  taken : List α
  history : List (Event T (QueueOp α) (QueueRes α))

inductive QueueStep (T α : Type*)
  | call (t : T) (op : QueueOp α)
  | step (t : T)
  | notify (t : T) (who : Option T)
  | spurious (t : T)

namespace QueueState

variable {T α : Type*}

def start (q : ArrayBlockingQueue α) : QueueState T α where
  queue := q
  monitor := Monitor.init
  threads := fun _ => .idle
  puts := []
  taken := []
  history := []

variable [DecidableEq T] (s : QueueState T α)

def goto (t : T) (pc : QueuePc α) : QueueState T α :=
  { s with threads := Function.update s.threads t pc }

def enter (t : T) (pc : QueuePc α) (m : Monitor T QueueCv) : QueueState T α :=
  { s.goto t pc with monitor := m }

def threadStep (t : T) : Option (QueueState T α) :=
  match s.threads t with
  | .idle => none
  | .lock op => (s.monitor.lock t).map (s.enter t (.test op))
  | .test op =>
    if s.queue.mustWait op then some (s.enter t (.blocked op) (s.monitor.wait t op.cv))
    else some (s.goto t (.act op))
  | .blocked op => (s.monitor.resume t op.cv).map (s.enter t (.test op))
  | .act (.put data) =>
    some { s.goto t (.notify .ok) with
      queue := s.queue.enqueue data
      puts := s.puts ++ [data] }
  | .act .take =>
    let (data, queue) := s.queue.dequeue
    some { s.goto t (.notify (.value data)) with
      queue := queue
      taken := s.taken ++ [data] }
  | .notify _ => none
  | .unlock res => some (s.enter t (.ret res) s.monitor.unlock)
  | .ret res => some { s.goto t .idle with history := s.history ++ [.ret t res] }

def next (a : QueueStep T α) : Option (QueueState T α) :=
  match a with
  | .call t op =>
    match s.threads t with
    | .idle => some { s.goto t (.lock op) with history := s.history ++ [.call t op] }
    | _ => none
  | .step t => s.threadStep t
  | .notify t who =>
    match s.threads t with
    | .notify res => (s.monitor.notifyOne res.cv who).map (s.enter t (.unlock res))
    | _ => none
  | .spurious t =>
    match s.threads t with
    | .blocked op => (s.monitor.spurious t op.cv).map fun m => { s with monitor := m }
    | _ => none

end QueueState

end Mugglec
