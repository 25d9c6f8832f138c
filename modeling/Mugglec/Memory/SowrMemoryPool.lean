import Mugglec.Base.Utils
import Mugglec.Machinery.RingQueue
import Mugglec.Machinery.Steps

/-!
# Memory/SowrMemoryPool — the one-allocator one-freer pool of `memory/sowr_memory_pool.c`

One thread takes blocks round the ring, another gives them back in the same order; freeing a block
frees every block taken before it.  With `A` blocks handed out and `F` of them released.
-/

namespace Mugglec

structure SowrMemoryPool where
  capacity : ℕ
  blockSize : ℕ
deriving DecidableEq, Repr

def SOWR_BLOCK_HEAD_SIZE : ℕ := 16

def SowrMemoryPool.init (capacity dataSize : ℕ) : Except Err SowrMemoryPool :=
  let capacity := u32 (nextPowOf2 (if capacity = 0 then 8 else capacity))
  if capacity = 0 then .error .invalidParam
  else
    let blockSize := alignTrueSharing (u32 (SOWR_BLOCK_HEAD_SIZE + dataSize))
    if blockSize = 0 then .error .invalidParam
    else .ok ⟨capacity, blockSize⟩

inductive SowrAllocatorPc
  | idle
  | reload (allocPos : ℕ)
  | retest (allocPos live : ℕ)
  | loadFree
  | compare (freeIdx live : ℕ)
deriving DecidableEq, Repr

inductive SowrFreerPc
  | idle
  | store (block n : ℕ)
deriving DecidableEq, Repr

structure SowrPoolState where
  allocIdx : ℕ
  cachedFreePos : ℕ
  freeIdx : ℕ
  allocator : SowrAllocatorPc
  freer : SowrFreerPc
  handed : List ℕ
  freed : ℕ
  nulls : List ℕ
  answers : List (Bool × ℕ)
deriving DecidableEq, Repr

inductive SowrPoolStep
  | alloc
  | isAllFree
  | allocator
  | free (n : ℕ)
  | freer
deriving DecidableEq, Repr

namespace SowrPoolState

variable (pool : SowrMemoryPool) (s : SowrPoolState)

def start : SowrPoolState where
  allocIdx := 0
  cachedFreePos := pool.capacity - 1
  freeIdx := 0
  allocator := .idle
  freer := .idle
  handed := []
  freed := 0
  nulls := []
  answers := []

def pos (idx : ℕ) : ℕ := idxInPowOf2Ring idx pool.capacity

def before (freeIdx : ℕ) : ℕ := u32 (freeIdx + (2 ^ 32 - 1))

def live : List ℕ := s.handed.drop s.freed

def handOut (allocPos : ℕ) : SowrPoolState :=
  { s with
    allocator := .idle
    allocIdx := u32 (s.allocIdx + 1)
    handed := s.handed ++ [allocPos] }

def allocatorStep : Option SowrPoolState :=
  match s.allocator with
  | .idle => none
  | .reload allocPos =>
    some { s with
      allocator := .retest allocPos s.live.length
      cachedFreePos := pos pool (before s.freeIdx) }
  | .retest allocPos live =>
    if allocPos ≠ s.cachedFreePos then some (s.handOut allocPos)
    else some { s with allocator := .idle, nulls := s.nulls ++ [live] }
  | .loadFree => some { s with allocator := .compare s.freeIdx s.live.length }
  | .compare freeIdx live =>
    some { s with
      allocator := .idle
      answers := s.answers ++ [(decide (pos pool freeIdx = pos pool s.allocIdx), live)] }

def next (a : SowrPoolStep) : Option SowrPoolState :=
  match a with
  | .alloc =>
    match s.allocator with
    | .idle =>
      let allocPos := pos pool s.allocIdx
      if allocPos ≠ s.cachedFreePos then some (s.handOut allocPos)
      else some { s with allocator := .reload allocPos }
    | _ => none
  | .isAllFree =>
    match s.allocator with
    | .idle => some { s with allocator := .loadFree }
    | _ => none
  | .allocator => s.allocatorStep pool
  | .free n =>
    match s.freer with
    | .idle => if s.freed ≤ n then s.handed[n]?.map fun block => { s with freer := .store block n }
      else none
    | _ => none
  | .freer =>
    match s.freer with
    | .store block n => some { s with freer := .idle, freeIdx := u32 (block + 1), freed := n + 1 }
    | .idle => none

section Positions

variable {pool} {k : ℕ} (hc : pool.capacity = 2 ^ k) (hk : k < 32)
include hc hk

theorem pos_u32 (n : ℕ) : pos pool (u32 n) = n % pool.capacity := by
  rw [pos, hc, idx_eq_mod hk, u32, Nat.mod_mod_of_dvd _ (Nat.pow_dvd_pow 2 hk.le)]

theorem pos_before {idx n : ℕ} (h : idx % pool.capacity = n % pool.capacity) :
    pos pool (before idx) = (n + (pool.capacity - 1)) % pool.capacity := by
  have hdvd : pool.capacity ∣ 2 ^ 32 := hc ▸ Nat.pow_dvd_pow 2 hk.le
  have hpos : 0 < pool.capacity := hc ▸ Nat.two_pow_pos k
  have hlap : 2 ^ 32 ≡ pool.capacity [MOD pool.capacity] :=
    (Nat.mod_eq_zero_of_dvd hdvd).trans (Nat.mod_self _).symm
  rw [before, pos_u32 hc hk]
  refine Nat.ModEq.add_right_cancel' 1 ?_
  rw [Nat.add_assoc, Nat.add_assoc, Nat.sub_add_cancel hpos]
  exact Nat.ModEq.add h hlap

end Positions

structure Loaded (handed freed n live : ℕ) : Prop where
  passed : n ≤ freed
  handed : handed = n + live
  live_le : live ≤ pool.capacity - 1

/-- The block before `free_idx` when `n` blocks had been released. -/
def limit (n : ℕ) : ℕ := (n + (pool.capacity - 1)) % pool.capacity

def AllocatorOk : SowrAllocatorPc → Prop
  | .reload allocPos => allocPos = s.handed.length % pool.capacity
  | .retest allocPos live =>
    allocPos = s.handed.length % pool.capacity ∧
      ∃ n, Loaded pool s.handed.length s.freed n live ∧ s.cachedFreePos = limit pool n
  | .compare freeIdx live =>
    ∃ n, Loaded pool s.handed.length s.freed n live ∧ freeIdx % pool.capacity = n % pool.capacity
  | _ => True

def FreerOk (handed : List ℕ) (freed : ℕ) : SowrFreerPc → Prop
  | .store block n => freed ≤ n ∧ handed[n]? = some block
  | .idle => True

structure Inv : Prop where
  allocIdx : s.allocIdx = u32 s.handed.length
  handed : ∀ n block, s.handed[n]? = some block → block = n % pool.capacity
  freed : s.freed ≤ s.handed.length
  freeIdx : s.freeIdx % pool.capacity = s.freed % pool.capacity
  cached : ∃ n live, Loaded pool s.handed.length s.freed n live ∧ s.cachedFreePos = limit pool n
  allocator : AllocatorOk pool s s.allocator
  freer : FreerOk s.handed s.freed s.freer
  nulls : ∀ live ∈ s.nulls, live = pool.capacity - 1
  answers : ∀ a ∈ s.answers, a.1 = true ↔ a.2 = 0

variable {pool s} {s' : SowrPoolState}

theorem inv_start (hpos : 0 < pool.capacity) : Inv pool (start pool) where
  allocIdx := rfl
  handed := fun _ _ h => by simp [start] at h
  freed := le_refl 0
  freeIdx := rfl
  cached := by
    refine ⟨0, 0, ⟨le_refl 0, rfl, Nat.zero_le _⟩, ?_⟩
    rw [limit, Nat.zero_add, Nat.mod_eq_of_lt (Nat.sub_lt hpos one_pos)]
    rfl
  allocator := trivial
  freer := trivial
  nulls := fun _ h => absurd h List.not_mem_nil
  answers := fun _ h => absurd h List.not_mem_nil

theorem Loaded.limit_iff {handed freed n live : ℕ} (h : Loaded pool handed freed n live)
    (hpos : 0 < pool.capacity) :
    handed % pool.capacity = limit pool n ↔ live = pool.capacity - 1 := by
  have hlive := h.live_le
  rw [limit, h.handed, RingQueue.mod_eq_iff (by omega) (by omega)]
  omega

theorem Loaded.zero_iff {handed freed n live : ℕ} (h : Loaded pool handed freed n live)
    (hpos : 0 < pool.capacity) :
    n % pool.capacity = handed % pool.capacity ↔ live = 0 := by
  have hlive := h.live_le
  rw [h.handed, RingQueue.mod_eq_iff (by omega) (by omega)]
  omega

theorem Loaded.mono {handed freed freed' n live : ℕ} (h : Loaded pool handed freed n live)
    (hfreed : freed ≤ freed') : Loaded pool handed freed' n live :=
  ⟨h.passed.trans hfreed, h.handed, h.live_le⟩

theorem AllocatorOk.mono {pc : SowrAllocatorPc} (h : AllocatorOk pool s pc)
    (hhanded : s'.handed = s.handed) (hcached : s'.cachedFreePos = s.cachedFreePos)
    (hfreed : s.freed ≤ s'.freed) : AllocatorOk pool s' pc := by
  cases pc with
  | reload => simpa only [AllocatorOk, hhanded] using h
  | retest =>
    obtain ⟨hpos, n, hn, hlimit⟩ := h
    exact ⟨hhanded ▸ hpos, n, hhanded ▸ hn.mono hfreed, hcached.trans hlimit⟩
  | compare =>
    obtain ⟨n, hn, hidx⟩ := h
    exact ⟨n, hhanded ▸ hn.mono hfreed, hidx⟩
  | _ => trivial

theorem length_live (s : SowrPoolState) : s.live.length = s.handed.length - s.freed :=
  List.length_drop

theorem Inv.live_le (h : Inv pool s) : s.live.length ≤ pool.capacity - 1 := by
  obtain ⟨n, live, ⟨hn, hlen, hlive⟩, -⟩ := h.cached
  rw [length_live]
  omega

theorem Inv.loaded (h : Inv pool s) :
    Loaded pool s.handed.length s.freed s.freed s.live.length where
  passed := le_refl _
  handed := by rw [length_live, Nat.add_sub_of_le h.freed]
  live_le := h.live_le

theorem Inv.handOut (h : Inv pool s) (hpos : 0 < pool.capacity) {n live allocPos : ℕ}
    (hn : Loaded pool s.handed.length s.freed n live) (hlimit : s.cachedFreePos = limit pool n)
    (hpos' : allocPos = s.handed.length % pool.capacity) (hne : allocPos ≠ s.cachedFreePos) :
    Inv pool (s.handOut allocPos) := by
  have hlen : (s.handed ++ [allocPos]).length = s.handed.length + 1 := by
    rw [List.length_append, List.length_singleton]
  have hroom : live ≠ pool.capacity - 1 := fun hfull =>
    hne (hpos'.trans (((hn.limit_iff hpos).mpr hfull).trans hlimit.symm))
  refine ⟨?_, ?_, ?_, h.freeIdx, ⟨n, live + 1, ⟨hn.passed, ?_, ?_⟩, hlimit⟩, trivial, ?_, h.nulls,
    h.answers⟩
  · change u32 (s.allocIdx + 1) = u32 (s.handed ++ [allocPos]).length
    rw [hlen, h.allocIdx, u32, u32, u32, Nat.mod_add_mod]
  · intro m block hm
    rcases lt_or_ge m s.handed.length with hlt | hge
    · exact h.handed m block ((List.getElem?_append_left hlt).symm.trans hm)
    · have hm' : m = s.handed.length := by
        have := (List.getElem?_eq_some_iff.mp hm).1
        rw [SowrPoolState.handOut, hlen] at this
        omega
      subst hm'
      rw [SowrPoolState.handOut, List.getElem?_concat_length] at hm
      exact (Option.some.inj hm).symm.trans hpos'
  · exact h.freed.trans (hlen ▸ Nat.le_succ _)
  · rw [SowrPoolState.handOut, hlen, hn.handed, Nat.add_assoc]
  · have := hn.live_le
    omega
  · have hfreer := h.freer
    change FreerOk (s.handed ++ [allocPos]) s.freed s.freer
    cases hpc : s.freer with
    | idle => trivial
    | store block m =>
      rw [hpc] at hfreer
      refine ⟨hfreer.1, ?_⟩
      exact (List.getElem?_append_left (List.getElem?_eq_some_iff.mp hfreer.2).1).trans hfreer.2

section Step

variable {k : ℕ} (hc : pool.capacity = 2 ^ k) (hk : k < 32)
include hc hk

theorem Inv.pos_allocIdx (h : Inv pool s) :
    pos pool s.allocIdx = s.handed.length % pool.capacity := by
  rw [h.allocIdx, pos_u32 hc hk]

theorem Inv.allocatorStep (h : Inv pool s) (hnext : s.allocatorStep pool = some s') :
    Inv pool s' := by
  have hpos : 0 < pool.capacity := hc ▸ Nat.two_pow_pos k
  have hok := h.allocator
  rw [SowrPoolState.allocatorStep] at hnext
  cases hpc : s.allocator with
  | idle => simp [hpc] at hnext
  | reload allocPos =>
    simp only [hpc, Option.some.injEq] at hnext hok
    subst hnext
    -- what is cached now is the limit for the blocks released now
    have hlimit : pos pool (before s.freeIdx) = limit pool s.freed := pos_before hc hk h.freeIdx
    exact ⟨h.allocIdx, h.handed, h.freed, h.freeIdx, ⟨s.freed, s.live.length, h.loaded, hlimit⟩,
      ⟨hok, s.freed, h.loaded, hlimit⟩, h.freer, h.nulls, h.answers⟩
  | retest allocPos live =>
    simp only [hpc] at hnext hok
    obtain ⟨hat, n, hn, hlimit⟩ := hok
    split_ifs at hnext with hmeet <;> cases hnext
    · exact h.handOut hpos hn hlimit hat hmeet
    · refine ⟨h.allocIdx, h.handed, h.freed, h.freeIdx, h.cached, trivial, h.freer, ?_, h.answers⟩
      have hfull := (hn.limit_iff hpos).mp (hat.symm.trans ((not_not.mp hmeet).trans hlimit))
      exact List.forall_mem_append.mpr ⟨h.nulls, List.forall_mem_singleton.mpr hfull⟩
  | loadFree =>
    simp only [hpc] at hnext
    cases hnext
    exact ⟨h.allocIdx, h.handed, h.freed, h.freeIdx, h.cached, ⟨_, h.loaded, h.freeIdx⟩,
      h.freer, h.nulls, h.answers⟩
  | compare freeIdx live =>
    simp only [hpc, Option.some.injEq] at hnext hok
    obtain ⟨n, hn, hidx⟩ := hok
    subst hnext
    refine ⟨h.allocIdx, h.handed, h.freed, h.freeIdx, h.cached, trivial, h.freer, h.nulls, ?_⟩
    refine List.forall_mem_append.mpr ⟨h.answers, List.forall_mem_singleton.mpr ?_⟩
    rw [decide_eq_true_iff, h.pos_allocIdx hc hk, pos, hc, idx_eq_mod hk, ← hc, hidx]
    exact hn.zero_iff hpos

theorem Inv.step {a : SowrPoolStep} (h : Inv pool s) (hnext : s.next pool a = some s') :
    Inv pool s' := by
  have hpos : 0 < pool.capacity := hc ▸ Nat.two_pow_pos k
  cases a with
  | alloc =>
    rw [next] at hnext
    cases hpc : s.allocator <;> simp only [hpc, reduceCtorEq, h.pos_allocIdx hc hk] at hnext
    split_ifs at hnext with hmeet <;> cases hnext
    · obtain ⟨n, live, hn, hlimit⟩ := h.cached
      exact h.handOut hpos hn hlimit rfl hmeet
    · exact ⟨h.allocIdx, h.handed, h.freed, h.freeIdx, h.cached, rfl, h.freer, h.nulls, h.answers⟩
  | isAllFree =>
    rw [next] at hnext
    cases hpc : s.allocator <;> simp only [hpc, reduceCtorEq] at hnext
    cases hnext
    exact ⟨h.allocIdx, h.handed, h.freed, h.freeIdx, h.cached, trivial, h.freer, h.nulls, h.answers⟩
  | allocator => exact h.allocatorStep hc hk hnext
  | free n =>
    rw [next] at hnext
    cases hpc : s.freer <;>
      simp only [hpc, reduceCtorEq, Option.ite_none_right_eq_some, Option.map_eq_some_iff] at hnext
    obtain ⟨hn, block, hblock, rfl⟩ := hnext
    exact ⟨h.allocIdx, h.handed, h.freed, h.freeIdx, h.cached,
      h.allocator.mono rfl rfl le_rfl, ⟨hn, hblock⟩, h.nulls, h.answers⟩
  | freer =>
    rw [next] at hnext
    cases hpc : s.freer <;> simp only [hpc, reduceCtorEq, Option.some.injEq] at hnext
    rename_i block n
    have hok := h.freer
    rw [hpc] at hok
    obtain ⟨hn, hblock⟩ := hok
    subst hnext
    have hlt : n < s.handed.length := (List.getElem?_eq_some_iff.mp hblock).1
    have hfreed : s.freed ≤ n + 1 := hn.trans (Nat.le_succ n)
    refine ⟨h.allocIdx, h.handed, hlt, ?_, ?_, h.allocator.mono rfl rfl hfreed, trivial, h.nulls,
      h.answers⟩
    · obtain rfl := h.handed n block hblock
      have hstored := pos_u32 hc hk (n % pool.capacity + 1)
      rw [pos, hc, idx_eq_mod hk, ← hc, Nat.mod_add_mod] at hstored
      exact hstored
    · obtain ⟨m, live, hm, hlimit⟩ := h.cached
      exact ⟨m, live, hm.mono hfreed, hlimit⟩

end Step

structure Sound (pool : SowrMemoryPool) (s : SowrPoolState) : Prop where
  distinct : s.live.Nodup
  live_le : s.live.length ≤ pool.capacity - 1
  nulls : ∀ live ∈ s.nulls, live = pool.capacity - 1
  answers : ∀ a ∈ s.answers, a.1 = true ↔ a.2 = 0

theorem Inv.distinct (h : Inv pool s) (hpos : 0 < pool.capacity) : s.live.Nodup := by
  have hle := h.live_le
  refine List.nodup_iff_injective_get.mpr fun i j hij => ?_
  have hget : ∀ i : Fin s.live.length, s.live.get i = (s.freed + i) % pool.capacity := fun i => by
    refine h.handed (s.freed + i) _ ?_
    rw [← List.getElem?_drop]
    exact List.getElem?_eq_getElem i.isLt
  rw [hget, hget] at hij
  rcases le_total (i : ℕ) j with hij' | hij'
  · have := (RingQueue.mod_eq_iff (by omega) (by omega)).mp hij
    exact Fin.ext (by omega)
  · have := (RingQueue.mod_eq_iff (by omega) (by omega)).mp hij.symm
    exact Fin.ext (by omega)

theorem capacity_of_init {capacity dataSize : ℕ} (hcap : capacity < 2 ^ 32)
    (hinit : SowrMemoryPool.init capacity dataSize = .ok pool) :
    ∃ k, k < 32 ∧ pool.capacity = 2 ^ k := by
  have hne : (if capacity = 0 then 8 else capacity) ≠ 0 := by split <;> omega
  have hlt : (if capacity = 0 then 8 else capacity) < 2 ^ 32 := by split <;> omega
  rw [SowrMemoryPool.init] at hinit
  generalize (if capacity = 0 then 8 else capacity) = c at hinit hne hlt
  dsimp only at hinit
  split_ifs at hinit with hzero hsize
  obtain rfl := Except.ok.inj hinit
  exact u32_nextPowOf2 hne hlt hzero

/-- **The pool is sound** for a thread that frees in the order of the allocations, skipping any. -/
theorem sound_of_reach {capacity dataSize : ℕ} (hcap : capacity < 2 ^ 32)
    (hinit : SowrMemoryPool.init capacity dataSize = .ok pool)
    (hs : Steps.Reach (next pool) Steps.anyStep (start pool) s) : Sound pool s := by
  obtain ⟨k, hk, hc⟩ := capacity_of_init hcap hinit
  have hpos : 0 < pool.capacity := hc ▸ Nat.two_pow_pos k
  have hinv : Inv pool s := hs.invariant (inv_start hpos) fun _ _ _ h _ => h.step hc hk
  exact ⟨hinv.distinct hpos, hinv.live_le, hinv.nulls, hinv.answers⟩

def skippedFree : List SowrPoolStep :=
  [.alloc, .alloc, .alloc, .alloc, .allocator, .allocator, .free 1, .freer,
   .alloc, .allocator, .allocator, .alloc, .isAllFree, .allocator, .allocator]

theorem sound_skippedFree : ∃ s, Steps.exec (next ⟨4, 192⟩) (start ⟨4, 192⟩) skippedFree = some s ∧
    (s.live, s.nulls, s.answers) = ([2, 3, 0], [3], [(false, 3)]) ∧ Sound ⟨4, 192⟩ s := by
  have hinit : SowrMemoryPool.init 3 16 = .ok ⟨4, 192⟩ := by decide
  exact Steps.exists_exec (by decide +kernel) fun _ hs _ => sound_of_reach (by decide) hinit hs

end SowrPoolState

end Mugglec
