import Mugglec.Base.Utils
import Mugglec.Machinery.Steps

/-!
# Sync/RingBuffer — the broadcast ring of `sync/ring_buffer.c`

Writers fill the block at `cursor` and move `cursor` on, round and round; nobody stops them when the
ring is full.  A reader names the index of the value it wants, waits while `cursor` is at the block
of that index, and reads the block.
-/

namespace Mugglec

open Function

inductive RingWriteMode
  | lock | single
deriving DecidableEq, Repr

inductive RingReadMode
  | wait | singleWait | busyLoop | once
deriving DecidableEq, Repr

structure RingBuffer where
  useSync : Bool
  capacity : ℕ
  writeMode : RingWriteMode
  readMode : RingReadMode
deriving DecidableEq, Repr

namespace RingBuffer

structure Grants where
  mutex : Err
  cv : Err
  blocks : Bool
deriving DecidableEq, Repr

def Grants.all : Grants := ⟨.ok, .ok, true⟩

def hasFlag (flag bit : ℕ) : Bool := flag &&& bit ≠ 0

def getMode (flag : ℕ) : Except Err (RingWriteMode × RingReadMode) :=
  let writeMode := if hasFlag flag 0x01 then RingWriteMode.single else .lock
  if hasFlag flag 0x02 then
    .ok (writeMode, if hasFlag flag 0x08 then .busyLoop else .singleWait)
  else if hasFlag flag 0x10 then
    if hasFlag flag 0x08 then .error .invalidParam else .ok (writeMode, .once)
  else .ok (writeMode, if hasFlag flag 0x08 then .busyLoop else .wait)

def init (useSync : Bool) (g : Grants) (capacity flag : ℕ) : Except Err RingBuffer :=
  if capacity = 0 then .error .invalidParam
  else if i32 (u32 (nextPowOf2 capacity)) ≤ 0 then .error .invalidParam
  else match getMode flag with
    | .error e => .error e
    | .ok (writeMode, readMode) =>
      if g.mutex ≠ .ok then .error g.mutex
      else if g.cv ≠ .ok then .error g.cv
      else if ¬ g.blocks then .error .memAlloc
      else .ok ⟨useSync, (i32 (u32 (nextPowOf2 capacity))).toNat, writeMode, readMode⟩

variable (rb : RingBuffer)

def pos (idx : ℕ) : ℕ := idxInPowOf2Ring idx rb.capacity

def bump (cursor : ℕ) : ℕ := rb.pos (u32 (cursor + 1))

def rpos (i : ℕ) : ℕ := rb.pos (rb.pos (u32 i))

def underMutex : Bool :=
  match rb.readMode with
  | .once => true
  | .busyLoop => false
  | .wait | .singleWait => !rb.useSync

end RingBuffer

/-- Where a thread is in `muggle_ring_buffer_write`. -/
inductive RingWriterPc (α : Type*)
  | idle
  | lock (data : α)
  | index (data : α)
  | store (data : α) (idx : ℕ)
  | advance (data : α)
  | publish (data : α) (rpos : ℕ)
  | unlock
  | wakeLock
  | wakeUnlock
  | wake
deriving DecidableEq, Repr

inductive RingReaderPc (α : Type*)
  | idle
  | lock (i : ℕ)
  | poll (i : ℕ)
  | wait (i wpos : ℕ)
  | asleep (i : ℕ)
  | fetch (i : ℕ)
  | advance (i : ℕ) (data : α)
  | unlock (i : ℕ) (data : α)
  | ret (i : ℕ) (data : α)
deriving DecidableEq, Repr

structure RingRead (α : Type*) where
  idx : ℕ
  data : α
  lapped : Bool
deriving DecidableEq, Repr

structure RingReader (α : Type*) where
  pc : RingReaderPc α
  asked : ℕ
  lapped : Bool
  got : List (RingRead α)
deriving DecidableEq, Repr

namespace RingReader

variable {α : Type*} (x : RingReader α)

def observe (c w : ℕ) : RingReader α :=
  { x with lapped := x.lapped || decide (x.asked + (c - 1) < w) }

def call (pc : RingReaderPc α) : RingReader α := { x with pc := pc, lapped := false }

def finish (i : ℕ) (data : α) : RingReader α :=
  { x with pc := .idle, asked := x.asked + 1, got := x.got ++ [⟨i, data, x.lapped⟩] }

end RingReader

inductive RingHolder (T R : Type*)
  | reader (r : R)
  | writer (t : T)
deriving DecidableEq, Repr

structure RingMem (R α : Type*) where
  cursor : ℕ
  readCursor : ℕ
  blocks : ℕ → α
  written : List α
  delivered : List (R × α)
  overrun : Bool

structure RingState (T R α : Type*) extends RingMem R α where
  writeSpin : Option T
  readMutex : Option (RingHolder T R)
  sleepers : Finset R
  writers : T → RingWriterPc α
  readers : R → RingReader α

inductive RingStep (T R α : Type*)
  | write (t : T) (data : α)
  | writer (t : T)
  | wake (t : T) (who : Option R)
  | read (r : R)
  | reader (r : R)
  | spurious (r : R)

namespace RingState

variable {T R α : Type*} (rb : RingBuffer)

def start (junk : ℕ → α) : RingState T R α where
  cursor := 0
  readCursor := 0
  blocks := junk
  written := []
  delivered := []
  overrun := false
  writeSpin := none
  readMutex := none
  sleepers := ∅
  writers := fun _ => .idle
  readers := fun _ => ⟨.idle, 0, false, []⟩

def block (m : RingMem R α) (i : ℕ) : ℕ :=
  match rb.readMode with
  | .once => m.readCursor
  | _ => rb.rpos i

def resume (pc : RingReaderPc α) : RingReaderPc α :=
  match pc with
  | .asleep i => if rb.useSync then .poll i else .lock i
  | pc => pc

variable [DecidableEq T] [DecidableEq R] (s : RingState T R α)

def goto (t : T) (pc : RingWriterPc α) : RingState T R α :=
  { s with writers := update s.writers t pc }

def gotoReader (r : R) (pc : RingReaderPc α) : RingState T R α :=
  { s with readers := update s.readers r { s.readers r with pc := pc } }

def awaken (r : R) : RingState T R α :=
  { s.gotoReader r (resume rb (s.readers r).pc) with sleepers := s.sleepers.erase r }

def awakenAll : RingState T R α :=
  { s with
    readers := fun r =>
      if r ∈ s.sleepers then { s.readers r with pc := resume rb (s.readers r).pc } else s.readers r
    sleepers := ∅ }

def awakenOne : Option R → Option (RingState T R α)
  | none => if s.sleepers = ∅ then some s else none
  | some r => if r ∈ s.sleepers then some (s.awaken rb r) else none

def published (rpos : ℕ) (data : α) : RingMem R α :=
  { s.toRingMem with
    cursor := rpos
    written := s.written ++ [data]
    overrun := s.overrun ||
      decide (s.delivered.length + (rb.capacity - 1) < s.written.length + 1) }

def wakePc : RingWriterPc α :=
  match rb.readMode with
  | .busyLoop => .idle
  | _ => if rb.useSync then .wake else .wakeLock

def writerStep (t : T) : Option (RingState T R α) :=
  match s.writers t with
  | .idle => none
  | .lock data =>
    if s.writeSpin = none then some { s.goto t (.index data) with writeSpin := some t } else none
  | .index data => some (s.goto t (.store data s.cursor))
  | .store data idx =>
    some { s.goto t (.advance data) with blocks := update s.blocks idx data }
  | .advance data => some (s.goto t (.publish data (rb.bump s.cursor)))
  | .publish data rpos =>
    some { s.goto t .unlock with
      toRingMem := s.published rb rpos data
      readers := fun r => (s.readers r).observe rb.capacity (s.written.length + 1) }
  | .unlock => some { s.goto t (wakePc rb) with writeSpin := none }
  | .wakeLock =>
    if s.readMutex = none then
      some { s.goto t .wakeUnlock with readMutex := some (.writer t) }
    else none
  | .wakeUnlock => some { s.goto t .wake with readMutex := none }
  | .wake => none

def readerStep (r : R) : Option (RingState T R α) :=
  match (s.readers r).pc with
  | .idle => none
  | .lock i =>
    if s.readMutex = none then
      some { s.gotoReader r (.poll i) with readMutex := some (.reader r) }
    else none
  | .poll i =>
    if s.cursor ≠ block rb s.toRingMem i then some (s.gotoReader r (.fetch i))
    else if rb.readMode = .busyLoop then some s
    else some (s.gotoReader r (.wait i s.cursor))
  | .wait i wpos =>
    if rb.useSync then
      -- the futex compares the word again before it sleeps, and leaves the mutex as it is
      if s.cursor = wpos then
        some { s.gotoReader r (.asleep i) with sleepers := insert r s.sleepers }
      else some (s.gotoReader r (.poll i))
    else
      some { s.gotoReader r (.asleep i) with sleepers := insert r s.sleepers, readMutex := none }
  | .asleep _ => none
  | .fetch i =>
    let data := s.blocks (block rb s.toRingMem i)
    if rb.readMode = .once then some (s.gotoReader r (.advance i data))
    else if rb.underMutex then some (s.gotoReader r (.unlock i data))
    else some (s.gotoReader r (.ret i data))
  | .advance i data =>
    some { s.gotoReader r (.unlock i data) with
      readCursor := rb.bump s.readCursor
      delivered := s.delivered ++ [(r, data)] }
  | .unlock i data => some { s.gotoReader r (.ret i data) with readMutex := none }
  | .ret i data =>
    some { s with readers := update s.readers r ((s.readers r).finish i data) }

def next (a : RingStep T R α) : Option (RingState T R α) :=
  match a with
  | .write t data =>
    match s.writers t with
    | .idle => some (s.goto t (.lock data))
    | _ => none
  | .writer t => s.writerStep rb t
  | .wake t who =>
    match s.writers t with
    | .wake =>
      (if rb.readMode = .wait then some (s.awakenAll rb) else s.awakenOne rb who).map
        fun s' => s'.goto t .idle
    | _ => none
  | .read r =>
    let x := s.readers r
    match x.pc with
    | .idle =>
      let y := x.call (if rb.underMutex then .lock x.asked else .poll x.asked)
      some { s with
        readers := update s.readers r (y.observe rb.capacity s.written.length) }
    | _ => none
  | .reader r => s.readerStep rb r
  | .spurious r => if r ∈ s.sleepers then some (s.awaken rb r) else none

end RingState

end Mugglec
