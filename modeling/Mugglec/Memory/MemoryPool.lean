import Mugglec.Machinery.Cyclic
import Mugglec.Base.Utils

/-!
# Memory/MemoryPool — the block pool of `memory/memory_pool.c`

The pool owns `numBuf` data buffers cut into blocks of `blockSize` bytes, and one ring of pointers
to all of them, `ptrBuf`, of `capacity` entries.  `alloc` hands out the entry at `allocIndex`,
`free` puts a block back at `freeIndex`.
-/

namespace Mugglec

structure Block where
  buf : ℕ
  off : ℕ
deriving DecidableEq, Repr

structure MemoryPool where
  ptrBuf : List Block
  allocIndex : ℕ
  freeIndex : ℕ
  capacity : ℕ
  used : ℕ
  blockSize : ℕ
  numBuf : ℕ
  flag : ℕ
  maxDeltaCap : ℕ
deriving DecidableEq, Repr

namespace MemoryPool

def CONSTANT_SIZE : ℕ := 0x01

def THP : ℕ := 0x02

def SIZE_2GB : ℕ := 2 * 1024 * 1024 * 1024

def freshBlocks (buf n blockSize : ℕ) : List Block :=
  (List.range n).map fun i => ⟨buf, i * blockSize⟩

structure Grants where
  bufs : Bool
  data : Bool
  ptrs : Bool
  advisePtrs : Bool
  adviseData : Bool
deriving DecidableEq, Repr

def Grants.suffice (g : Grants) (thp : Bool) : Bool :=
  g.bufs && g.data && g.ptrs && (!thp || (g.advisePtrs && g.adviseData))

def init (initCapacity blockSize : ℕ) (thp : Bool) (g : Grants) : Option MemoryPool :=
  let initCapacity := if initCapacity = 0 then 8 else initCapacity
  if blockSize = 0 then none
  else if g.suffice thp then
    some { ptrBuf := freshBlocks 0 initCapacity blockSize
           allocIndex := 0, freeIndex := 0, capacity := initCapacity, used := 0
           blockSize := blockSize, numBuf := 1, flag := if thp then THP else 0
           maxDeltaCap := SIZE_2GB / blockSize }
  else none

def sectionAt (pool : MemoryPool) (i n : ℕ) : List Block := (pool.ptrBuf.drop i).take n

def sections (pool : MemoryPool) : List Block × List Block :=
  if pool.used = pool.capacity then
    (pool.sectionAt pool.freeIndex (pool.capacity - pool.freeIndex)
        ++ pool.sectionAt 0 pool.freeIndex, [])
  else if pool.allocIndex > pool.freeIndex then
    (pool.sectionAt pool.freeIndex (pool.allocIndex - pool.freeIndex),
      if pool.capacity - pool.allocIndex > 0 then
        pool.sectionAt pool.allocIndex (pool.capacity - pool.allocIndex)
          ++ pool.sectionAt 0 pool.freeIndex
      else [])
  else
    (pool.sectionAt pool.freeIndex (pool.capacity - pool.freeIndex)
        ++ pool.sectionAt 0 pool.allocIndex,
      pool.sectionAt pool.allocIndex (pool.freeIndex - pool.allocIndex))

def grow (pool : MemoryPool) (capacity : ℕ) : MemoryPool :=
  let (frees, allocs) := pool.sections
  { pool with
    ptrBuf := frees ++ allocs
      ++ freshBlocks pool.numBuf (capacity - pool.capacity) pool.blockSize
    freeIndex := 0
    allocIndex := frees.length
    numBuf := pool.numBuf + 1
    capacity := capacity }

def ensureSpace (pool : MemoryPool) (capacity : ℕ) (g : Grants) : Bool × MemoryPool :=
  if capacity ≤ pool.capacity then (true, pool)
  else if pool.flag &&& CONSTANT_SIZE ≠ 0 then (false, pool)
  else if g.suffice (pool.flag &&& THP ≠ 0) then (true, pool.grow capacity)
  else (false, pool)

def take (pool : MemoryPool) : Option Block × MemoryPool :=
  (pool.ptrBuf[pool.allocIndex]?,
    { pool with
      used := u32 (pool.used + 1), allocIndex := Cyclic.bump pool.allocIndex pool.capacity })

def nextCapacity (pool : MemoryPool) : ℕ :=
  let deltaCap :=
    if pool.maxDeltaCap > 0 ∧ pool.capacity > pool.maxDeltaCap then pool.maxDeltaCap
    else pool.capacity
  u32 (pool.capacity + deltaCap)

def alloc (pool : MemoryPool) (g : Grants) : Option Block × MemoryPool :=
  if pool.used = pool.capacity then
    if pool.nextCapacity ≤ pool.capacity then (none, pool)
    else
      match pool.ensureSpace pool.nextCapacity g with
      | (true, pool') => pool'.take
      | (false, pool') => (none, pool')
  else pool.take

def free (pool : MemoryPool) (block : Block) : MemoryPool :=
  { pool with
    ptrBuf := pool.ptrBuf.set pool.freeIndex block
    freeIndex := Cyclic.bump pool.freeIndex pool.capacity
    used := u32 (pool.used + (2 ^ 32 - 1)) }

def setFlag (pool : MemoryPool) (flag : ℕ) : MemoryPool := { pool with flag := pool.flag ||| flag }

def setMaxDeltaCap (pool : MemoryPool) (maxDeltaCap : ℕ) : MemoryPool :=
  { pool with maxDeltaCap := maxDeltaCap }

end MemoryPool

end Mugglec
