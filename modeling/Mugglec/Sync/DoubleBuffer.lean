import Mugglec.Base.Utils
import Mugglec.Machinery.Monitor
import Mugglec.Machinery.Steps

/-!
# Sync/DoubleBuffer — the pair of buffers of `sync/double_buffer.c`

Writers append to the back buffer; the reader exchanges the buffers and keeps the front one until it
reads again.
-/

namespace Mugglec

structure SingleBuffer (α : Type*) where
  datas : ℕ → α
  cnt : ℕ

namespace SingleBuffer

variable {α : Type*} (b : SingleBuffer α)

def push (data : α) : SingleBuffer α := ⟨Function.update b.datas b.cnt data, b.cnt + 1⟩

def values : List α := (List.range b.cnt).map b.datas

end SingleBuffer

structure DoubleBuffer (α : Type*) where
  buf : Fin 2 → SingleBuffer α
  front : Fin 2
  back : Fin 2
  capacity : ℕ
  nonBlocking : Bool

inductive BufferCv
  | notFull | notEmpty
deriving DecidableEq, Repr

namespace DoubleBuffer

variable {α : Type*}

structure Grants where
  datas : Fin 2 → Bool
  mutex : Err
  cvNotFull : Err
  cvNotEmpty : Err

def Grants.all : Grants := ⟨fun _ => true, .ok, .ok, .ok⟩

def init (g : Grants) (capacity : ℤ) (nonBlocking : Bool) (junk : Fin 2 → ℕ → α) :
    Except Err (DoubleBuffer α) :=
  if capacity ≤ 0 then .error .invalidParam
  else if ¬ (g.datas 0 && g.datas 1) then .error .memAlloc
  else if g.mutex ≠ .ok then .error g.mutex
  else if g.cvNotFull ≠ .ok then .error g.cvNotFull
  else if g.cvNotEmpty ≠ .ok then .error g.cvNotEmpty
  else .ok ⟨fun p => ⟨junk p, 0⟩, 0, 1, capacity.toNat, nonBlocking⟩

variable (b : DoubleBuffer α)

def append (p : Fin 2) (data : α) : DoubleBuffer α :=
  { b with buf := Function.update b.buf p ((b.buf p).push data) }

def swap : DoubleBuffer α :=
  { b with
    buf := Function.update b.buf b.front { b.buf b.front with cnt := 0 }
    front := b.back
    back := b.front }

def free : ℕ := b.capacity - (b.buf b.back).cnt

end DoubleBuffer

/-- Where a thread is in `muggle_double_buffer_write`. -/
inductive BufferWriterPc (α : Type*)
  | idle
  | lock (data : α)
  | load (data : α)
  | test (data : α) (back : Fin 2)
  | blocked (data : α)
  | store (data : α) (back : Fin 2)
  | notify
  | unlock (ret : Err)
deriving DecidableEq, Repr

/-- Where the reader is in `muggle_double_buffer_read`. -/
inductive BufferReaderPc
  | idle
  | lock
  | test
  | blocked
  | swap
  | notify
  | unlock
  | ret
  | holding (p : Fin 2)
deriving DecidableEq, Repr

inductive BufferThread (T : Type*)
  | reader
  | writer (t : T)
deriving DecidableEq, Repr

def BufferWriterPc.place {α : Type*} : BufferWriterPc α → Monitor.Place BufferCv
  | .idle | .lock _ => .outside
  | .blocked _ => .blocked .notFull
  | .load _ | .test _ _ | .store _ _ | .notify | .unlock _ => .inside

def BufferReaderPc.place : BufferReaderPc → Monitor.Place BufferCv
  | .idle | .lock | .ret | .holding _ => .outside
  | .blocked => .blocked .notEmpty
  | .test | .swap | .notify | .unlock => .inside

structure DoubleBufferState (T α : Type*) where
  buffer : DoubleBuffer α
  monitor : Monitor (BufferThread T) BufferCv
  writers : T → BufferWriterPc α
  reader : BufferReaderPc
  written : List α
  taken : List (List α)
  decided : List (Err × ℕ)

inductive DoubleBufferStep (T α : Type*)
  | write (t : T) (data : α)
  | writer (t : T)
  | notifyReader (t : T) (who : Option (BufferThread T))
  | read
  | reader
  | notifyWriter (who : Option (BufferThread T))
  | spuriousWriter (t : T)
  | spuriousReader

namespace DoubleBufferState

variable {T α : Type*}

def start (b : DoubleBuffer α) : DoubleBufferState T α where
  buffer := b
  monitor := Monitor.init
  writers := fun _ => .idle
  reader := .idle
  written := []
  taken := []
  decided := []

variable [DecidableEq T] (s : DoubleBufferState T α)

def goto (t : T) (pc : BufferWriterPc α) : DoubleBufferState T α :=
  { s with writers := Function.update s.writers t pc }

def enter (t : T) (pc : BufferWriterPc α) (m : Monitor (BufferThread T) BufferCv) :
    DoubleBufferState T α :=
  { s.goto t pc with monitor := m }

/-- The test of `p_back` has decided upon the return value. -/
def resolve (t : T) (pc : BufferWriterPc α) (ret : Err) : DoubleBufferState T α :=
  { s.goto t pc with
    decided := s.decided ++ [(ret, (s.buffer.buf s.buffer.back).values.length)] }

def setMonitor (m : Monitor (BufferThread T) BufferCv) : DoubleBufferState T α :=
  { s with monitor := m }

def enterReader (pc : BufferReaderPc) (m : Monitor (BufferThread T) BufferCv) :
    DoubleBufferState T α :=
  { s with reader := pc, monitor := m }

def writerStep (t : T) : Option (DoubleBufferState T α) :=
  match s.writers t with
  | .idle => none
  | .lock data => (s.monitor.lock (.writer t)).map (s.enter t (.load data))
  | .load data => some (s.goto t (.test data s.buffer.back))
  | .test data p =>
    if (s.buffer.buf p).cnt = s.buffer.capacity then
      if s.buffer.nonBlocking then some (s.resolve t (.unlock .full) .full)
      else some (s.enter t (.blocked data) (s.monitor.wait (.writer t) .notFull))
    else some (s.resolve t (.store data p) .ok)
  | .blocked data => (s.monitor.resume (.writer t) .notFull).map (s.enter t (.load data))
  | .store data p =>
    some { s.goto t .notify with
      buffer := s.buffer.append p data
      written := s.written ++ [data] }
  | .notify => none
  | .unlock _ => some (s.enter t .idle s.monitor.unlock)

def readerStep : Option (DoubleBufferState T α) :=
  match s.reader with
  | .idle | .holding _ => none
  | .lock => (s.monitor.lock .reader).map (s.enterReader .test)
  | .test =>
    if (s.buffer.buf s.buffer.back).cnt = 0 then
      some (s.enterReader .blocked (s.monitor.wait .reader .notEmpty))
    else some { s with reader := .swap }
  | .blocked => (s.monitor.resume .reader .notEmpty).map (s.enterReader .test)
  | .swap => some { s with reader := .notify, buffer := s.buffer.swap }
  | .notify => none
  | .unlock => some (s.enterReader .ret s.monitor.unlock)
  | .ret => some { s with reader := .holding s.buffer.front }

def next (a : DoubleBufferStep T α) : Option (DoubleBufferState T α) :=
  match a with
  | .write t data =>
    match s.writers t with
    | .idle => some (s.goto t (.lock data))
    | _ => none
  | .writer t => s.writerStep t
  | .notifyReader t who =>
    match s.writers t with
    | .notify => (s.monitor.notifyOne .notEmpty who).map (s.enter t (.unlock .ok))
    | _ => none
  | .read =>
    match s.reader with
    | .idle => some { s with reader := .lock }
    | .holding p => some { s with reader := .lock, taken := s.taken ++ [(s.buffer.buf p).values] }
    | _ => none
  | .reader => s.readerStep
  | .notifyWriter who =>
    match s.reader with
    | .notify => (s.monitor.notifyOne .notFull who).map (s.enterReader .unlock)
    | _ => none
  | .spuriousWriter t =>
    match s.writers t with
    | .blocked _ => (s.monitor.spurious (.writer t) .notFull).map s.setMonitor
    | _ => none
  | .spuriousReader =>
    match s.reader with
    | .blocked => (s.monitor.spurious .reader .notEmpty).map s.setMonitor
    | _ => none

end DoubleBufferState

end Mugglec
