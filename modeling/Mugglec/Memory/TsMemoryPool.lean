import Mugglec.Base.Utils
import Mugglec.Machinery.Steps

/-!
# Memory/TsMemoryPool — the lock-free pool of `memory/threadsafe_memory_pool.c`

A ring `ptrs` of pointers to all the blocks, with `allocIdx` where the next block is taken and
`freeIdx` where the next one is put back.  `alloc` reads the entry at the index it expects and then
moves `allocIdx` by a compare-and-swap; `free` writes its entry and moves `freeIdx` under a
spinlock.
-/

namespace Mugglec

structure TsMemoryPool where
  capacity : ℕ
  blockSize : ℕ
deriving DecidableEq, Repr

def TS_MEMORY_POOL_HEAD_SIZE : ℕ := 8

def TsMemoryPool.init (capacity dataSize : ℕ) (data ptrs : Bool) : Except Err TsMemoryPool :=
  if capacity = 0 then .error .invalidParam
  else if dataSize = 0 then .error .invalidParam
  else if u32 (nextPowOf2 capacity) = 0 then .error .invalidParam
  else
    let blockSize := alignTrueSharing (u32 (TS_MEMORY_POOL_HEAD_SIZE + dataSize))
    if blockSize = 0 then .error .invalidParam
    else if data && ptrs then .ok ⟨u32 (nextPowOf2 capacity), blockSize⟩
    else .error .memAlloc

inductive TsPoolPc
  | idle
  | loadAlloc
  | test (expected : ℕ)
  | loadFree (expected : ℕ)
  | storeCached (expected freePos : ℕ)
  | retest (expected : ℕ)
  | loadPtr (expected : ℕ)
  | cas (expected block : ℕ)
  | lock (block : ℕ)
  | index (block : ℕ)
  | storePtr (block idx : ℕ)
  | advance (block : ℕ)
  | storeFree (block freePos : ℕ)
  | unlock
deriving DecidableEq, Repr

structure TsPoolRing where
  allocIdx : ℕ
  freeIdx : ℕ
  ptrs : List ℕ
  live : List ℕ
deriving DecidableEq, Repr

structure TsPoolState (T : Type*) extends TsPoolRing where
  cachedFreePos : ℕ
  freeSpinlock : Option T
  threads : T → TsPoolPc

inductive TsPoolStep (T : Type*)
  | alloc (t : T)
  | free (t : T) (block : ℕ)
  | step (t : T)
  | spurious (t : T)

namespace TsPoolState

variable {T : Type*} [DecidableEq T] (pool : TsMemoryPool) (s : TsPoolState T)

def start : TsPoolState T where
  allocIdx := 0
  cachedFreePos := 0
  freeIdx := 0
  ptrs := List.range pool.capacity
  freeSpinlock := none
  threads := fun _ => .idle
  live := []

def bump (pos : ℕ) : ℕ := idxInPowOf2Ring (u32 (pos + 1)) pool.capacity

def goto (t : T) (pc : TsPoolPc) : TsPoolState T :=
  { s with threads := Function.update s.threads t pc }

def threadStep (t : T) : Option (TsPoolState T) :=
  match s.threads t with
  | .idle => none
  | .loadAlloc => some (s.goto t (.test s.allocIdx))
  | .test expected =>
    if bump pool expected = s.cachedFreePos then some (s.goto t (.loadFree expected))
    else some (s.goto t (.loadPtr expected))
  | .loadFree expected => some (s.goto t (.storeCached expected s.freeIdx))
  | .storeCached expected freePos =>
    some { s.goto t (.retest expected) with cachedFreePos := freePos }
  | .retest expected =>
    if bump pool expected = s.cachedFreePos then some (s.goto t .idle)
    else some (s.goto t (.loadPtr expected))
  | .loadPtr expected => some (s.goto t (.cas expected (s.ptrs[expected]?.getD 0)))
  | .cas expected block =>
    if s.allocIdx = expected then
      some { s.goto t .idle with allocIdx := bump pool expected, live := s.live ++ [block] }
    else some (s.goto t (.test s.allocIdx))
  | .lock block =>
    if s.freeSpinlock = none then some { s.goto t (.index block) with freeSpinlock := some t }
    else none
  | .index block => some (s.goto t (.storePtr block s.freeIdx))
  | .storePtr block idx => some { s.goto t (.advance block) with ptrs := s.ptrs.set idx block }
  | .advance block => some (s.goto t (.storeFree block (bump pool s.freeIdx)))
  | .storeFree _ freePos => some { s.goto t .unlock with freeIdx := freePos }
  | .unlock => some { s.goto t .idle with freeSpinlock := none }

def next (a : TsPoolStep T) : Option (TsPoolState T) :=
  match a with
  | .alloc t =>
    match s.threads t with
    | .idle => some (s.goto t .loadAlloc)
    | _ => none
  | .free t block =>
    match s.threads t with
    | .idle =>
      if block ∈ s.live then some { s.goto t (.lock block) with live := s.live.erase block }
      else none
    | _ => none
  | .step t => s.threadStep pool t
  | .spurious t =>
    match s.threads t with
    | .cas _ _ => some (s.goto t (.test s.allocIdx))
    | _ => none

end TsPoolState

end Mugglec
