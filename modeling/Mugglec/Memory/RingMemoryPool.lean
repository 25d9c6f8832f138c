import Mugglec.Base.Utils
import Mugglec.Machinery.Steps

/-!
# Memory/RingMemoryPool — the ring pool of `memory/ring_memory_pool.c`

Every block has a flag that says whether it is in use.  `alloc` goes round the ring from the cursor
until it finds one that is not, and sets it; the cursor is left behind that block.
-/

namespace Mugglec

open Function

structure RingMemoryPool where
  capacity : ℕ
  blockSize : ℕ
deriving DecidableEq, Repr

def RING_MPOOL_BLOCK_HEAD_SIZE : ℕ := 144

def RingMemoryPool.init (capacity dataSize : ℕ) (mem : Bool) : Except Err RingMemoryPool :=
  let capacity := if capacity < 2 then 2 else capacity
  let capacity := u32 (nextPowOf2 capacity)
  if capacity < 2 then .error .invalidParam
  else if dataSize = 0 then .error .invalidParam
  else
    let blockSize := u32 (nextPowOf2 (dataSize + RING_MPOOL_BLOCK_HEAD_SIZE))
    if mem then .ok ⟨capacity, blockSize⟩ else .error .memAlloc

/-- Where a thread is in `threadsafe_alloc`. -/
inductive RingPoolPc
  | idle
  | lock
  | probe (probes : ℕ) (hadFree : Bool)
  | store (block probes : ℕ) (hadFree : Bool)
  | unlock (block probes : ℕ) (hadFree : Bool)
deriving DecidableEq, Repr

structure RingPoolState (T : Type*) where
  allocIdx : ℕ
  inUse : ℕ → Bool
  writeSpinlock : Option T
  threads : T → RingPoolPc
  live : List ℕ

inductive RingPoolStep (T : Type*)
  | alloc (t : T)
  | step (t : T)
  | free (block : ℕ)
deriving DecidableEq

def RingPoolPc.Locked : RingPoolPc → Prop
  | .probe _ _ | .store _ _ _ | .unlock _ _ _ => True
  | .idle | .lock => False

namespace RingPoolState

variable {T : Type*} [DecidableEq T] (pool : RingMemoryPool) (s : RingPoolState T)

def start : RingPoolState T where
  allocIdx := 0
  inUse := fun _ => false
  writeSpinlock := none
  threads := fun _ => .idle
  live := []

def hasFree : Bool := (List.range pool.capacity).any fun b => !s.inUse b

def goto (t : T) (pc : RingPoolPc) : RingPoolState T :=
  { s with threads := update s.threads t pc }

def threadStep (t : T) : Option (RingPoolState T) :=
  match s.threads t with
  | .idle => none
  | .lock =>
    if s.writeSpinlock = none then
      some { s.goto t (.probe 0 (s.hasFree pool)) with writeSpinlock := some t }
    else none
  | .probe probes hadFree =>
    let block := s.allocIdx
    let pc := if s.inUse block then RingPoolPc.probe (probes + 1) hadFree
      else .store block (probes + 1) hadFree
    some { s.goto t pc with allocIdx := idxInPowOf2Ring (u32 (s.allocIdx + 1)) pool.capacity }
  | .store block probes hadFree =>
    some { s.goto t (.unlock block probes hadFree) with
      inUse := update s.inUse block true }
  | .unlock block _ _ => some { s.goto t .idle with writeSpinlock := none, live := block :: s.live }

def next : RingPoolStep T → Option (RingPoolState T)
  | .alloc t => if s.threads t = .idle then some (s.goto t .lock) else none
  | .step t => s.threadStep pool t
  | .free block =>
    if block ∈ s.live then
      some { s with inUse := update s.inUse block false, live := s.live.erase block }
    else none

def ThreadOk : RingPoolPc → Prop
  | .idle | .lock => True
  | .probe probes hadFree => hadFree →
    ∃ d, probes + d < pool.capacity ∧ s.inUse ((s.allocIdx + d) % pool.capacity) = false
  | .store block probes hadFree =>
    s.inUse block = false ∧ block < pool.capacity ∧ (hadFree → probes ≤ pool.capacity)
  | .unlock block probes hadFree => block ∉ s.live ∧ s.inUse block = true ∧
    block < pool.capacity ∧ (hadFree → probes ≤ pool.capacity)

structure Inv : Prop where
  live_inUse : ∀ b ∈ s.live, s.inUse b = true
  nodup : s.live.Nodup
  allocIdx_lt : s.allocIdx < pool.capacity
  owner : ∀ t, (s.threads t).Locked → s.writeSpinlock = some t
  threads : ∀ t, ThreadOk pool s (s.threads t)

variable {pool s} {s' : RingPoolState T} {t : T} {pc : RingPoolPc}

omit [DecidableEq T] in
theorem inv_start (hpos : 0 < pool.capacity) : Inv pool (start : RingPoolState T) where
  live_inUse := by simp [start]
  nodup := List.nodup_nil
  allocIdx_lt := hpos
  owner t ht := absurd ht (by simp [start, RingPoolPc.Locked])
  threads _ := trivial

omit [DecidableEq T] in
theorem ThreadOk.of_not_locked (h : ¬ pc.Locked) : ThreadOk pool s pc := by
  cases pc <;> first | exact trivial | exact absurd trivial h

omit [DecidableEq T] in
theorem Inv.not_locked (h : Inv pool s) {t' : T} (ht : (s.threads t).Locked) (hne : t' ≠ t) :
    ¬ (s.threads t').Locked := fun ht' =>
  hne (Option.some.inj ((h.owner t' ht').symm.trans (h.owner t ht)))

theorem inv_goto (hthreads : s'.threads = update s.threads t pc)
    (hlive : ∀ b ∈ s'.live, s'.inUse b = true) (hnodup : s'.live.Nodup)
    (hidx : s'.allocIdx < pool.capacity) (howner : pc.Locked → s'.writeSpinlock = some t)
    (hok : ThreadOk pool s' pc)
    (hothers : ∀ t' ≠ t, ((s.threads t').Locked → s'.writeSpinlock = some t') ∧
      ThreadOk pool s' (s.threads t')) : Inv pool s' := by
  have hthread : ∀ t', s'.threads t' = if t' = t then pc else s.threads t' := by
    intro t'
    rw [hthreads, update_apply]
  refine ⟨hlive, hnodup, hidx, fun t' ht' => ?_, fun t' => ?_⟩
  · rw [hthread] at ht'
    split_ifs at ht' with heq
    · exact heq ▸ howner ht'
    · exact (hothers t' heq).1 ht'
  · rw [hthread]
    split_ifs with heq
    · exact hok
    · exact (hothers t' heq).2

omit [DecidableEq T] in
theorem Inv.others (h : Inv pool s) (ht : (s.threads t).Locked) :
    ∀ t' ≠ t, ((s.threads t').Locked → s'.writeSpinlock = some t') ∧
      ThreadOk pool s' (s.threads t') := fun _ hne =>
  ⟨fun ht' => absurd ht' (h.not_locked ht hne), ThreadOk.of_not_locked (h.not_locked ht hne)⟩

omit [DecidableEq T] in
theorem exists_distance (hidx : s.allocIdx < pool.capacity) (hfree : s.hasFree pool) :
    ∃ d, 0 + d < pool.capacity ∧ s.inUse ((s.allocIdx + d) % pool.capacity) = false := by
  obtain ⟨b, hb, hfree⟩ := List.any_eq_true.mp hfree
  have hb : b < pool.capacity := List.mem_range.mp hb
  have hpos : 0 < pool.capacity := Nat.zero_lt_of_lt hb
  refine ⟨(b + (pool.capacity - s.allocIdx)) % pool.capacity, ?_, ?_⟩
  · rw [Nat.zero_add]
    exact Nat.mod_lt _ hpos
  · have hsum : s.allocIdx + (b + (pool.capacity - s.allocIdx)) = b + pool.capacity := by omega
    rw [Nat.add_mod_mod, hsum, Nat.add_mod_right, Nat.mod_eq_of_lt hb]
    simpa using hfree

variable {k : ℕ}

theorem Inv.threadStep (hc : pool.capacity = 2 ^ k) (hk : k < 32) (h : Inv pool s)
    (hnext : s.threadStep pool t = some s') : Inv pool s' := by
  have hok := h.threads t
  rw [RingPoolState.threadStep] at hnext
  generalize hpc : s.threads t = pc at hnext hok
  cases pc with
  | idle =>
    cases hnext
  | lock =>
    dsimp only at hnext
    split_ifs at hnext with hlock
    cases hnext
    refine inv_goto rfl h.live_inUse h.nodup h.allocIdx_lt (fun _ => rfl)
      (exists_distance h.allocIdx_lt) fun t' _ => ?_
    have hnot : ¬ (s.threads t').Locked := fun ht' =>
      absurd ((h.owner t' ht').symm.trans hlock) (by simp)
    exact ⟨fun ht' => absurd ht' hnot, ThreadOk.of_not_locked hnot⟩
  | probe probes hadFree =>
    cases hnext
    have hlocked : (s.threads t).Locked := hpc ▸ trivial
    have hpos : 0 < pool.capacity := Nat.zero_lt_of_lt h.allocIdx_lt
    have hidx : idxInPowOf2Ring (u32 (s.allocIdx + 1)) pool.capacity =
        (s.allocIdx + 1) % pool.capacity := by
      have hlt := h.allocIdx_lt
      have hle : 2 ^ k < 2 ^ 32 := Nat.pow_lt_pow_right (by decide) hk
      rw [u32_of_lt (by omega), hc, idx_eq_mod hk]
    refine inv_goto rfl h.live_inUse h.nodup (hidx ▸ Nat.mod_lt _ hpos)
      (fun _ => h.owner t hlocked) ?_ (h.others hlocked)
    have hhere : ∀ d, s.inUse ((s.allocIdx + d) % pool.capacity) = false →
        s.inUse s.allocIdx = true → ∃ d', d = d' + 1 := by
      intro d hd huse
      refine Nat.exists_eq_succ_of_ne_zero ?_
      rintro rfl
      rw [Nat.add_zero, Nat.mod_eq_of_lt h.allocIdx_lt, huse] at hd
      cases hd
    cases huse : s.inUse s.allocIdx with
    | true =>
      intro hfree
      obtain ⟨d, hd, hzero⟩ := hok hfree
      obtain ⟨d, rfl⟩ := hhere d hzero huse
      refine ⟨d, by omega, ?_⟩
      change s.inUse ((idxInPowOf2Ring (u32 (s.allocIdx + 1)) pool.capacity + d) % _) = false
      rw [hidx, Nat.mod_add_mod, Nat.add_right_comm]
      exact hzero
    | false =>
      refine ⟨huse, h.allocIdx_lt, fun hfree => ?_⟩
      obtain ⟨d, hd, -⟩ := hok hfree
      omega
  | store block probes hadFree =>
    cases hnext
    have hlocked : (s.threads t).Locked := hpc ▸ trivial
    obtain ⟨huse, hlt, hprobes⟩ := hok
    have hnot : block ∉ s.live := fun hmem => by
      rw [h.live_inUse block hmem] at huse
      cases huse
    refine inv_goto rfl (fun b hb => ?_) h.nodup h.allocIdx_lt (fun _ => h.owner t hlocked)
      ⟨hnot, update_self .., hlt, hprobes⟩ (h.others hlocked)
    have hne : b ≠ block := by
      rintro rfl
      exact hnot hb
    exact (update_of_ne hne _ _).trans (h.live_inUse b hb)
  | unlock block probes hadFree =>
    cases hnext
    have hlocked : (s.threads t).Locked := hpc ▸ trivial
    obtain ⟨hnot, huse, -, -⟩ := hok
    refine inv_goto rfl (fun b hb => ?_) (List.nodup_cons.mpr ⟨hnot, h.nodup⟩) h.allocIdx_lt
      (fun hidle => absurd hidle (by simp [RingPoolPc.Locked])) trivial (h.others hlocked)
    rcases List.mem_cons.mp hb with rfl | hmem
    · exact huse
    · exact h.live_inUse b hmem

omit [DecidableEq T] in
theorem Inv.free (h : Inv pool s) {block : ℕ} (hmem : block ∈ s.live) :
    Inv pool { s with
      inUse := update s.inUse block false, live := s.live.erase block } := by
  have hflag : ∀ b, s.inUse b = false → update s.inUse block false b = false := by
    intro b hb
    rw [update_apply]
    split_ifs <;> simp [hb]
  refine ⟨fun b hb => ?_, h.nodup.erase block, h.allocIdx_lt, h.owner, fun t => ?_⟩
  · obtain ⟨hne, hb⟩ := h.nodup.mem_erase_iff.mp hb
    exact (update_of_ne hne _ _).trans (h.live_inUse b hb)
  · have hok := h.threads t
    simp only
    generalize hpc : s.threads t = pc at hok
    cases pc with
    | idle => trivial
    | lock => trivial
    | probe probes hadFree =>
      intro hfree
      obtain ⟨d, hd, hzero⟩ := hok hfree
      exact ⟨d, hd, hflag _ hzero⟩
    | store b probes hadFree =>
      exact ⟨hflag _ hok.1, hok.2⟩
    | unlock b probes hadFree =>
      have hne : b ≠ block := by
        rintro rfl
        exact hok.1 hmem
      exact ⟨fun hb => hok.1 (List.mem_of_mem_erase hb),
        (update_of_ne hne _ _).trans hok.2.1, hok.2.2⟩

theorem Inv.step (hc : pool.capacity = 2 ^ k) (hk : k < 32) (h : Inv pool s)
    {a : RingPoolStep T} (hnext : s.next pool a = some s') : Inv pool s' := by
  cases a with
  | alloc t =>
    rw [RingPoolState.next] at hnext
    split_ifs at hnext with hidle
    cases hnext
    exact inv_goto rfl h.live_inUse h.nodup h.allocIdx_lt
      (fun hlock => absurd hlock (by simp [RingPoolPc.Locked])) trivial
      fun t' _ => ⟨h.owner t', h.threads t'⟩
  | step t => exact h.threadStep hc hk hnext
  | free block =>
    rw [RingPoolState.next] at hnext
    split_ifs at hnext with hmem
    cases hnext
    exact h.free hmem

end RingPoolState

end Mugglec
