import Mugglec.Base.Utils
import Mugglec.Machinery.Steps

/-!
# Sync/Channel — the many-writers one-reader channel of `sync/channel.c`

A ring of `capacity` blocks with two cursors, both kept in `[0, capacity)`.  `writeCursor` is the
block the next write fills; `readCursor` is the block of the *last* value read, so that it starts
at `capacity - 1` and trails by one.
-/

namespace Mugglec

inductive WriteMode
  | mutex | sync | spin | single
deriving DecidableEq, Repr

inductive ReadMode
  | sync | mutex | busy
deriving DecidableEq, Repr

structure Channel where
  capacity : ℕ
  writeMode : WriteMode
  readMode : ReadMode
deriving DecidableEq, Repr

namespace Channel

structure Grants where
  writeMutex : Option Err
  readMutex : Option Err
  readCv : Option Err
  blocks : Bool
deriving DecidableEq, Repr

def Grants.all : Grants := ⟨some .ok, some .ok, some .ok, true⟩

def writeModeOf (flags : ℕ) : WriteMode :=
  match flags &&& 0x0f with
  | 1 => .sync
  | 2 => .spin
  | 3 => .single
  | _ => .mutex

def readModeOf (flags : ℕ) : ReadMode :=
  match flags &&& 0xf0 with
  | 0x00 => .sync
  | 0x20 => .busy
  | _ => .mutex

def acquire (g : Option Err) : Except Err Unit :=
  match g with
  | none => .error .ok
  | some .ok => .ok ()
  | some e => .error e

def acquireLocks (g : Grants) (flags : ℕ) : Except Err Unit := do
  if writeModeOf flags = .mutex then acquire g.writeMutex
  if readModeOf flags = .mutex then
    acquire g.readMutex
    acquire g.readCv

def init (g : Grants) (capacity flags : ℕ) : Except Err Channel :=
  if capacity = 0 then .error .invalidParam
  else if u32 (nextPowOf2 capacity) = 0 then .error .invalidParam
  else match acquireLocks g flags with
    | .error ret => .error ret
    | .ok () =>
      if g.blocks then .ok ⟨u32 (nextPowOf2 capacity), writeModeOf flags, readModeOf flags⟩
      else .error .memAlloc

end Channel

/-- Where a thread is in `muggle_channel_write`. -/
inductive WriterPc (α : Type*)
  | idle
  | lock (data : α)
  | loadRead (data : α)
  | compare (data : α) (rpos unread : ℕ)
  | lockRead (data : α)
  | advance (data : α)
  | test (data : α) (wpos : ℕ)
  | reload (data : α) (wpos : ℕ)
  | recache (data : α) (wpos rpos unread : ℕ)
  | retest (data : α) (wpos unread : ℕ)
  | index (data : α) (wpos : ℕ)
  | store (data : α) (wpos idx : ℕ)
  | publish (data : α) (wpos : ℕ)
  | unlockRead (ret : Err)
  | unlock (ret : Err)
  | wake
deriving DecidableEq, Repr

/-- Where the reader is in `muggle_channel_read`. -/
inductive ReaderPc (α : Type*)
  | idle
  | lock
  | head
  | poll (rpos : ℕ)
  | wait (rpos wpos : ℕ)
  | asleep (rpos : ℕ)
  | fetch (rpos : ℕ)
  | publish (rpos : ℕ) (data : α)
  | unlock
deriving DecidableEq, Repr

inductive Holder (T : Type*)
  | reader
  | writer (t : T)
deriving DecidableEq, Repr

structure ChannelMem (α : Type*) where
  writeCursor : ℕ
  cachedRCur : ℕ
  readCursor : ℕ
  blocks : ℕ → α
  written : List α
  returned : List α

def ChannelMem.unread {α : Type*} (m : ChannelMem α) : ℕ := m.written.length - m.returned.length

structure ChannelState (T α : Type*) extends ChannelMem α where
  writeLock : Option T
  readMutex : Option (Holder T)
  writers : T → WriterPc α
  reader : ReaderPc α
  fulls : List ℕ

inductive ChannelStep (T α : Type*)
  | write (t : T) (data : α)
  | writer (t : T)
  | read
  | reader
  | spurious

namespace ChannelState

variable {T α : Type*} [DecidableEq T] (ch : Channel) (s : ChannelState T α)

def start (null : α) : ChannelState T α where
  writeCursor := 0
  cachedRCur := ch.capacity - 1
  readCursor := ch.capacity - 1
  blocks := fun _ => null
  writeLock := none
  readMutex := none
  writers := fun _ => .idle
  reader := .idle
  written := []
  returned := []
  fulls := []

def bump (cursor : ℕ) : ℕ := idxInPowOf2Ring (u32 (cursor + 1)) ch.capacity

def goto (t : T) (pc : WriterPc α) : ChannelState T α :=
  { s with writers := Function.update s.writers t pc }

def full (t : T) (unread : ℕ) (pc : WriterPc α) : ChannelState T α :=
  { s.goto t pc with fulls := s.fulls ++ [unread] }

def enter (data : α) : WriterPc α :=
  match ch.readMode with
  | .sync => .loadRead data
  | .mutex => .lockRead data
  | .busy => .advance data

def resume (pc : ReaderPc α) : ReaderPc α :=
  match pc, ch.readMode with
  | .asleep _, .mutex => .lock
  | .asleep rpos, _ => .poll rpos
  | pc, _ => pc

def writerStep (t : T) : Option (ChannelState T α) :=
  match s.writers t with
  | .idle => none
  | .lock data =>
    if s.writeLock = none then
      some { s.goto t (enter ch data) with writeLock := some t }
    else none
  | .loadRead data => some (s.goto t (.compare data s.readCursor s.unread))
  | .compare data rpos unread =>
    let wpos := bump ch s.writeCursor
    if wpos = rpos then some (s.full t unread (.unlock .full))
    else some (s.goto t (.index data wpos))
  | .lockRead data =>
    if s.readMutex = none then
      some { s.goto t (.advance data) with readMutex := some (.writer t) }
    else none
  | .advance data => some (s.goto t (.test data (bump ch s.writeCursor)))
  | .test data wpos =>
    match ch.readMode with
    | .busy =>
      if wpos = s.cachedRCur then some (s.goto t (.reload data wpos))
      else some (s.goto t (.index data wpos))
    | _ =>
      if wpos = s.readCursor then some (s.full t s.unread (.unlockRead .full))
      else some (s.goto t (.index data wpos))
  | .reload data wpos => some (s.goto t (.recache data wpos s.readCursor s.unread))
  | .recache data wpos rpos unread =>
    some { s.goto t (.retest data wpos unread) with cachedRCur := rpos }
  | .retest data wpos unread =>
    if wpos = s.cachedRCur then some (s.full t unread (.unlock .full))
    else some (s.goto t (.index data wpos))
  | .index data wpos => some (s.goto t (.store data wpos s.writeCursor))
  | .store data wpos idx =>
    some { s.goto t (.publish data wpos) with blocks := Function.update s.blocks idx data }
  | .publish data wpos =>
    some { s.goto t (if ch.readMode = .mutex then .unlockRead .ok else .unlock .ok) with
      writeCursor := wpos
      written := s.written ++ [data] }
  | .unlockRead ret => some { s.goto t (.unlock ret) with readMutex := none }
  | .unlock ret =>
    some { s.goto t (if ret = .ok then .wake else .idle) with writeLock := none }
  | .wake =>
    -- `muggle_channel_wake_busy` does nothing, and a busy reader never sleeps
    some { s.goto t .idle with reader := resume ch s.reader }

def readerStep : Option (ChannelState T α) :=
  match s.reader with
  | .idle => none
  | .lock =>
    if s.readMutex = none then some { s with reader := .head, readMutex := some .reader }
    else none
  | .head => some { s with reader := .poll (bump ch s.readCursor) }
  | .poll rpos =>
    if s.writeCursor ≠ rpos then some { s with reader := .fetch rpos }
    else if ch.readMode = .busy then some s
    else some { s with reader := .wait rpos s.writeCursor }
  | .wait rpos wpos =>
    match ch.readMode with
    | .mutex => some { s with reader := .asleep rpos, readMutex := none }
    | _ =>
      -- the futex compares the word again before it sleeps
      if s.writeCursor = wpos then some { s with reader := .asleep rpos }
      else some { s with reader := .poll rpos }
  | .asleep _ => none
  | .fetch rpos => some { s with reader := .publish rpos (s.blocks rpos) }
  | .publish rpos data =>
    some { s with
      reader := if ch.readMode = .mutex then .unlock else .idle
      readCursor := rpos
      returned := s.returned ++ [data] }
  | .unlock => some { s with reader := .idle, readMutex := none }

def next (a : ChannelStep T α) : Option (ChannelState T α) :=
  match a with
  | .write t data =>
    match s.writers t with
    | .idle => some (s.goto t (.lock data))
    | _ => none
  | .writer t => s.writerStep ch t
  | .read =>
    match s.reader with
    | .idle => some { s with reader := if ch.readMode = .mutex then .lock else .head }
    | _ => none
  | .reader => s.readerStep ch
  | .spurious =>
    match s.reader with
    | .asleep rpos => some { s with reader := resume ch (.asleep rpos) }
    | _ => none

end ChannelState

end Mugglec
