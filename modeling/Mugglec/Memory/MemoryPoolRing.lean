import Mugglec.Machinery.Steps
import Mugglec.Memory.MemoryPool

/-!
# Memory/MemoryPoolRing — every block is handed out or waiting, unless an empty pool grew

`available pool` is the arc of the ring that `alloc` will hand out: `capacity − used` entries from
`allocIndex` on.  The ring is in step (`Ring`) when `freeIndex` is where that arc ends.
-/

open Cyclic

namespace Mugglec

namespace MemoryPool

def available (pool : MemoryPool) : List Block :=
  arc pool.ptrBuf pool.allocIndex (pool.capacity - pool.used)

structure Ring (pool : MemoryPool) : Prop where
  cap_pos : 0 < pool.capacity
  cap_lt : pool.capacity < 2 ^ 32
  length_eq : pool.ptrBuf.length = pool.capacity
  used_le : pool.used ≤ pool.capacity
  alloc_lt : pool.allocIndex < pool.capacity
  free_eq : pool.freeIndex = (pool.allocIndex + (pool.capacity - pool.used)) % pool.capacity
  block_pos : 0 < pool.blockSize

theorem length_freshBlocks (buf n blockSize : ℕ) : (freshBlocks buf n blockSize).length = n := by
  simp [freshBlocks]

theorem buf_of_mem_freshBlocks {buf n blockSize : ℕ} {b : Block}
    (h : b ∈ freshBlocks buf n blockSize) : b.buf = buf := by
  obtain ⟨i, -, rfl⟩ := List.mem_map.mp h
  rfl

theorem nodup_freshBlocks (buf n : ℕ) {blockSize : ℕ} (h : 0 < blockSize) :
    (freshBlocks buf n blockSize).Nodup := by
  refine List.Nodup.map (fun i j hij => ?_) List.nodup_range
  exact Nat.eq_of_mul_eq_mul_right h (Block.mk.inj hij).2

variable {pool : MemoryPool}

theorem ring_init {initCapacity blockSize : ℕ} {thp : Bool} {g : Grants}
    (hcap : initCapacity < 2 ^ 32) (h : init initCapacity blockSize thp g = some pool) :
    pool.Ring ∧ pool.used = 0 ∧ pool.numBuf = 1 ∧
      pool.available = freshBlocks 0 pool.capacity pool.blockSize := by
  rw [init] at h
  by_cases hb : blockSize = 0
  · rw [if_pos hb] at h
    cases h
  · rw [if_neg hb] at h
    split at h
    · cases h
      have hc : 0 < (if initCapacity = 0 then 8 else initCapacity) := by split <;> omega
      have hlt : (if initCapacity = 0 then 8 else initCapacity) < 2 ^ 32 := by split <;> omega
      refine ⟨⟨hc, hlt, length_freshBlocks _ _ _, Nat.zero_le _, hc, ?_, Nat.pos_of_ne_zero hb⟩,
        rfl, rfl, ?_⟩
      · simp
      · rw [available, arc_eq_slice (by rw [length_freshBlocks]; simp), List.drop_zero,
          List.take_of_length_le (by rw [length_freshBlocks]; simp)]
    · cases h

theorem length_available (h : pool.Ring) :
    pool.available.length = pool.capacity - pool.used :=
  length_arc _ (by rw [h.length_eq]; omega)

theorem take_spec (h : pool.Ring) (hused : pool.used < pool.capacity) :
    ∃ b, pool.take.1 = some b ∧ pool.available = b :: pool.take.2.available ∧ pool.take.2.Ring ∧
      pool.take.2.used = pool.used + 1 := by
  have hidx : pool.allocIndex < pool.ptrBuf.length := by rw [h.length_eq]; exact h.alloc_lt
  have hcl := h.cap_lt
  have hu : u32 (pool.used + 1) = pool.used + 1 := Nat.mod_eq_of_lt (by omega)
  obtain ⟨n, hn⟩ : ∃ n, pool.capacity - pool.used = n + 1 :=
    ⟨pool.capacity - pool.used - 1, by omega⟩
  have hn' : pool.capacity - (pool.used + 1) = n := by omega
  refine ⟨pool.ptrBuf[pool.allocIndex], List.getElem?_eq_getElem hidx, ?_, ?_, hu⟩
  · simp only [available, take, hu, hn, hn']
    rw [arc_succ hidx (by rw [h.length_eq]; omega), h.length_eq]
  · refine ⟨h.cap_pos, hcl, h.length_eq, ?_, bump_lt h.alloc_lt, ?_, h.block_pos⟩
    · simp only [take, hu]; omega
    · simp only [take, hu, hn']
      rw [h.free_eq, hn, bump_eq_mod h.alloc_lt, Nat.mod_add_mod]
      congr 1
      omega

theorem free_spec (h : pool.Ring) (hused : 0 < pool.used) (b : Block) :
    (pool.free b).available = pool.available ++ [b] ∧ (pool.free b).Ring ∧
      (pool.free b).used = pool.used - 1 := by
  have hcl := h.cap_lt
  have hul := h.used_le
  have hu : u32 (pool.used + (2 ^ 32 - 1)) = pool.used - 1 := by
    rw [u32]
    omega
  have hn : pool.capacity - (pool.used - 1) = (pool.capacity - pool.used) + 1 := by omega
  have hlt : pool.freeIndex < pool.capacity := by rw [h.free_eq]; exact Nat.mod_lt _ h.cap_pos
  refine ⟨?_, ?_, hu⟩
  · simp only [available, free, hu, hn]
    have := arc_set pool.ptrBuf (i := pool.allocIndex) b (n := pool.capacity - pool.used)
      (by rw [h.length_eq]; omega)
    rw [h.length_eq, ← h.free_eq] at this
    exact this
  · refine ⟨h.cap_pos, hcl, ?_, ?_, h.alloc_lt, ?_, h.block_pos⟩
    · simp only [free, List.length_set]; exact h.length_eq
    · simp only [free, hu]; omega
    · simp only [free, hu, hn]
      rw [bump_eq_mod hlt, h.free_eq, Nat.mod_add_mod, Nat.add_assoc]

theorem sectionAt_zero (pool : MemoryPool) (n : ℕ) : pool.sectionAt 0 n = pool.ptrBuf.take n := by
  rw [sectionAt, List.drop_zero]

theorem sectionAt_end (h : pool.Ring) (i : ℕ) :
    pool.sectionAt i (pool.capacity - i) = pool.ptrBuf.drop i :=
  List.take_of_length_le (by rw [List.length_drop, h.length_eq])

theorem sections_spec (h : pool.Ring) (hused : 0 < pool.used) :
    pool.sections.1.length = pool.used ∧ pool.sections.2 = pool.available := by
  have ⟨hc, hcl, hlen, hul, hal, hfree, hb⟩ := h
  rw [sections, sectionAt_end h, sectionAt_end h, sectionAt_zero, sectionAt_zero]
  by_cases hfull : pool.used = pool.capacity
  · rw [hfull, Nat.sub_self, Nat.add_zero, Nat.mod_eq_of_lt hal] at hfree
    rw [if_pos hfull]
    refine ⟨?_, ?_⟩
    · simp only [List.length_append, List.length_drop, List.length_take]
      omega
    · rw [available, hfull, Nat.sub_self, arc, List.take_zero]
  · rw [if_neg hfull]
    -- the arc to hand out goes round exactly when it ends before it starts
    by_cases hround : pool.allocIndex + (pool.capacity - pool.used) < pool.capacity
    · rw [Nat.mod_eq_of_lt hround] at hfree
      rw [if_neg (by omega)]
      refine ⟨?_, ?_⟩
      · simp only [List.length_append, List.length_drop, List.length_take]
        omega
      · have hn : pool.freeIndex - pool.allocIndex = pool.capacity - pool.used := by omega
        rw [available, arc_eq_slice (by omega), hn, sectionAt]
    · rw [Nat.mod_eq_sub_mod (by omega), Nat.mod_eq_of_lt (by omega)] at hfree
      rw [if_pos (by omega), if_pos (by omega)]
      refine ⟨?_, ?_⟩
      · simp only [sectionAt, List.length_take, List.length_drop]
        omega
      · rw [available, arc_eq_slices (by omega) (by omega) (by omega), hfree, hlen]

theorem grow_spec (h : pool.Ring) (hused : 0 < pool.used) {capacity : ℕ}
    (hcap : pool.capacity < capacity) (hlt : capacity < 2 ^ 32) :
    (pool.grow capacity).Ring ∧
      (pool.grow capacity).available = pool.available
        ++ freshBlocks pool.numBuf (capacity - pool.capacity) pool.blockSize := by
  obtain ⟨hfrees, hallocs⟩ := sections_spec h hused
  have ⟨hc, hcl, hlen, hul, hal, hfree, hb⟩ := h
  have hav := length_available h
  have hnew : (pool.sections.1 ++ pool.sections.2
      ++ freshBlocks pool.numBuf (capacity - pool.capacity) pool.blockSize).length = capacity := by
    rw [List.length_append, List.length_append, hfrees, hallocs, hav, length_freshBlocks]
    omega
  refine ⟨⟨hc.trans hcap, hlt, hnew, ?_, ?_, ?_, hb⟩, ?_⟩
  · simp only [grow]; omega
  · simp only [grow, hfrees]; omega
  · simp only [grow, hfrees]
    rw [show pool.used + (capacity - pool.used) = capacity by omega, Nat.mod_self]
  · have hdrop : (pool.sections.1 ++ pool.sections.2
        ++ freshBlocks pool.numBuf (capacity - pool.capacity) pool.blockSize).drop pool.used
        = pool.available ++ freshBlocks pool.numBuf (capacity - pool.capacity) pool.blockSize := by
      rw [List.append_assoc, List.drop_left' hfrees, hallocs]
    rw [available]
    simp only [grow, hfrees]
    rw [arc_eq_slice (by rw [hnew]; omega), hdrop, List.take_of_length_le]
    rw [List.length_append, hav, length_freshBlocks]
    omega

theorem ensureSpace_cases (pool : MemoryPool) (capacity : ℕ) (g : Grants) :
    capacity ≤ pool.capacity ∧ pool.ensureSpace capacity g = (true, pool) ∨
      pool.ensureSpace capacity g = (false, pool) ∨
      pool.capacity < capacity ∧ pool.flag &&& CONSTANT_SIZE = 0 ∧
        g.suffice (pool.flag &&& THP ≠ 0) = true ∧
        pool.ensureSpace capacity g = (true, pool.grow capacity) := by
  rw [ensureSpace]
  by_cases hcap : capacity ≤ pool.capacity
  · rw [if_pos hcap]
    exact Or.inl ⟨hcap, rfl⟩
  · rw [if_neg hcap]
    by_cases hconst : pool.flag &&& CONSTANT_SIZE ≠ 0
    · rw [if_pos hconst]
      exact Or.inr (Or.inl rfl)
    · rw [if_neg hconst]
      split
      · next hg => exact Or.inr (Or.inr ⟨not_le.mp hcap, not_not.mp hconst, hg, rfl⟩)
      · exact Or.inr (Or.inl rfl)

theorem ensureSpace_fail {pool' : MemoryPool} {capacity : ℕ} {g : Grants}
    (h : pool.ensureSpace capacity g = (false, pool')) : pool' = pool := by
  rcases ensureSpace_cases pool capacity g with ⟨-, heq⟩ | heq | ⟨-, -, -, heq⟩ <;> rw [heq] at h
  · cases h
  · exact (Prod.mk.inj h).2.symm
  · cases h

theorem nextCapacity_lt (pool : MemoryPool) : pool.nextCapacity < 2 ^ 32 :=
  Nat.mod_lt _ (by decide)

theorem alloc_cases (pool : MemoryPool) (g : Grants) :
    pool.used ≠ pool.capacity ∧ pool.alloc g = pool.take ∨
      pool.used = pool.capacity ∧
        (pool.alloc g = (none, pool) ∨
          pool.capacity < pool.nextCapacity ∧
            pool.alloc g = (pool.grow pool.nextCapacity).take) := by
  rw [alloc]
  by_cases hfull : pool.used = pool.capacity
  · rw [if_pos hfull]
    refine Or.inr ⟨hfull, ?_⟩
    by_cases hcap : pool.nextCapacity ≤ pool.capacity
    · rw [if_pos hcap]
      exact Or.inl rfl
    · rw [if_neg hcap]
      rcases ensureSpace_cases pool pool.nextCapacity g with ⟨h, -⟩ | heq | ⟨h, -, -, heq⟩
      · exact absurd h hcap
      · rw [heq]
        exact Or.inl rfl
      · rw [heq]
        exact Or.inr ⟨h, rfl⟩
  · rw [if_neg hfull]
    exact Or.inl ⟨hfull, rfl⟩

end MemoryPool

open MemoryPool

inductive PoolOp
  | alloc (g : Grants)
  | free (b : Block)
  | ensureSpace (capacity : ℕ) (hcap : capacity < 2 ^ 32) (g : Grants)
  | setFlag (flag : ℕ)
  | setMaxDeltaCap (maxDeltaCap : ℕ)

structure PoolSession where
  pool : MemoryPool
  blocks : List Block
  handed : List Block

namespace PoolSession

def start (pool : MemoryPool) : PoolSession :=
  { pool, blocks := freshBlocks 0 pool.capacity pool.blockSize, handed := [] }

def settle (s : PoolSession) (pool : MemoryPool) : PoolSession :=
  { s with
    pool := pool
    blocks := s.blocks
      ++ freshBlocks s.pool.numBuf (pool.capacity - s.pool.capacity) s.pool.blockSize }

def next (s : PoolSession) : PoolOp → Option PoolSession
  | .alloc g =>
      match s.pool.alloc g with
      | (some b, pool) => some { s.settle pool with handed := b :: s.handed }
      | (none, pool) => some (s.settle pool)
  | .free b =>
      if b ∈ s.handed then some { s with pool := s.pool.free b, handed := s.handed.erase b }
      else none
  | .ensureSpace capacity _ g => some (s.settle (s.pool.ensureSpace capacity g).2)
  | .setFlag flag => some { s with pool := s.pool.setFlag flag }
  | .setMaxDeltaCap n => some { s with pool := s.pool.setMaxDeltaCap n }

structure Disciplined (s : PoolSession) : Prop where
  partition : ∀ b ∈ s.blocks, b ∈ s.handed ∧ b ∉ s.pool.available ∨
    b ∉ s.handed ∧ s.pool.available.count b = 1
  alloc_fresh : ∀ g b pool, s.pool.alloc g = (some b, pool) → b ∉ s.handed
  alloc_fail : ∀ g pool, s.pool.alloc g = (none, pool) → pool.available = s.pool.available
  ensureSpace_fail : ∀ capacity g pool, s.pool.ensureSpace capacity g = (false, pool) →
    pool.available = s.pool.available

def GrownInUse (s : PoolSession) : PoolOp → Prop
  | .ensureSpace capacity _ g =>
      ¬ (s.pool.used = 0 ∧ s.pool.capacity < capacity ∧ s.pool.flag &&& CONSTANT_SIZE = 0 ∧
        g.suffice (s.pool.flag &&& THP ≠ 0) = true)
  | _ => True

structure Inv (s : PoolSession) : Prop where
  ring : s.pool.Ring
  handed_length : s.handed.length = s.pool.used
  perm : (s.handed ++ s.pool.available).Perm s.blocks
  nodup : s.blocks.Nodup
  buf_lt : ∀ b ∈ s.blocks, b.buf < s.pool.numBuf

theorem inv_start {initCapacity blockSize : ℕ} {thp : Bool} {g : Grants} {pool : MemoryPool}
    (hcap : initCapacity < 2 ^ 32) (h : init initCapacity blockSize thp g = some pool) :
    (start pool).Inv := by
  obtain ⟨hring, hused, hnum, hav⟩ := ring_init hcap h
  refine ⟨hring, hused.symm, ?_, nodup_freshBlocks _ _ hring.block_pos, fun b hb => ?_⟩
  · rw [start, hav]
    exact List.Perm.refl _
  · simp only [start] at hb ⊢
    rw [buf_of_mem_freshBlocks hb, hnum]
    exact Nat.one_pos

variable {s : PoolSession}

theorem Inv.nodup_append (h : s.Inv) : (s.handed ++ s.pool.available).Nodup :=
  h.perm.nodup_iff.mpr h.nodup

theorem Inv.grow (h : s.Inv) (hused : 0 < s.pool.used) {capacity : ℕ}
    (hcap : s.pool.capacity < capacity) (hlt : capacity < 2 ^ 32) :
    (s.settle (s.pool.grow capacity)).Inv := by
  obtain ⟨hring, hav⟩ := grow_spec h.ring hused hcap hlt
  refine ⟨hring, h.handed_length, ?_, ?_, fun b hb => ?_⟩
  · simp only [settle, hav]
    rw [← List.append_assoc]
    exact h.perm.append_right _
  · refine List.nodup_append'.mpr ⟨h.nodup, nodup_freshBlocks _ _ h.ring.block_pos, ?_⟩
    intro b hb hb'
    have := h.buf_lt b hb
    rw [buf_of_mem_freshBlocks hb'] at this
    omega
  · simp only [settle, MemoryPool.grow] at hb ⊢
    rcases List.mem_append.mp hb with hb | hb
    · exact (h.buf_lt b hb).trans (Nat.lt_succ_self _)
    · rw [buf_of_mem_freshBlocks hb]
      exact Nat.lt_succ_self _

theorem Inv.take (h : s.Inv) (hused : s.pool.used < s.pool.capacity) :
    ∃ b, s.pool.take.1 = some b ∧ b ∉ s.handed ∧
      Inv { s with pool := s.pool.take.2, handed := b :: s.handed } := by
  obtain ⟨b, hb, hav, hring, hu⟩ := take_spec h.ring hused
  have hnd := h.nodup_append
  rw [hav] at hnd
  refine ⟨b, hb, fun hmem => ?_, hring, ?_, ?_, h.nodup, h.buf_lt⟩
  · exact List.disjoint_of_nodup_append hnd hmem List.mem_cons_self
  · simp only [List.length_cons, h.handed_length, hu]
  · refine List.Perm.trans ?_ h.perm
    rw [hav, List.cons_append]
    exact List.perm_middle.symm

theorem Inv.free (h : s.Inv) {b : Block} (hb : b ∈ s.handed) :
    Inv { s with pool := s.pool.free b, handed := s.handed.erase b } := by
  have hused : 0 < s.pool.used := by
    rw [← h.handed_length]
    exact List.length_pos_of_mem hb
  obtain ⟨hav, hring, hu⟩ := free_spec h.ring hused b
  refine ⟨hring, ?_, ?_, h.nodup, h.buf_lt⟩
  · simp only [List.length_erase_of_mem hb, h.handed_length, hu]
  · refine List.Perm.trans ?_ h.perm
    simp only [hav]
    rw [← List.append_assoc]
    refine List.perm_append_comm.trans ?_
    exact ((List.perm_cons_erase hb).append_right _).symm

theorem settle_of_capacity_eq (s : PoolSession) {pool : MemoryPool}
    (h : pool.capacity = s.pool.capacity) : s.settle pool = { s with pool := pool } := by
  simp [settle, freshBlocks, h]

theorem Inv.alloc (h : s.Inv) (g : Grants) :
    s.pool.alloc g = (none, s.pool) ∨
      ∃ b pool, s.pool.alloc g = (some b, pool) ∧ b ∉ s.handed ∧
        Inv { s.settle pool with handed := b :: s.handed } := by
  have hul := h.ring.used_le
  rcases alloc_cases s.pool g with ⟨hne, heq⟩ | ⟨hfull, hfail | ⟨hcap, heq⟩⟩
  · obtain ⟨b, hb, hfresh, hinv⟩ := h.take (by omega)
    refine Or.inr ⟨b, s.pool.take.2, ?_, hfresh, ?_⟩
    · rw [heq, ← hb]
    · rw [settle_of_capacity_eq s (show s.pool.take.2.capacity = s.pool.capacity from rfl)]
      exact hinv
  · exact Or.inl hfail
  · have hgrow := h.grow (by have := h.ring.cap_pos; omega) hcap (nextCapacity_lt _)
    obtain ⟨b, hb, hfresh, hinv⟩ := hgrow.take (by
      simp only [settle, MemoryPool.grow]
      omega)
    exact Or.inr ⟨b, (s.pool.grow s.pool.nextCapacity).take.2, by rw [heq]; exact Prod.ext hb rfl,
      hfresh, hinv⟩

theorem Inv.step {s' : PoolSession} (h : s.Inv) {op : PoolOp} (hop : s.GrownInUse op)
    (hnext : s.next op = some s') : s'.Inv := by
  cases op with
  | alloc g =>
    rcases h.alloc g with hfail | ⟨b, pool, hok, -, hinv⟩
    · rw [next, hfail] at hnext
      cases hnext
      rw [settle_of_capacity_eq s rfl]
      exact h
    · rw [next, hok] at hnext
      cases hnext
      exact hinv
  | free b =>
    rw [next] at hnext
    by_cases hb : b ∈ s.handed
    · rw [if_pos hb] at hnext
      cases hnext
      exact h.free hb
    · rw [if_neg hb] at hnext
      cases hnext
  | ensureSpace capacity hlt g =>
    cases hnext
    rcases ensureSpace_cases s.pool capacity g with ⟨-, heq⟩ | heq | ⟨hcap, hconst, hg, heq⟩
    · rw [heq, settle_of_capacity_eq s rfl]
      exact h
    · rw [heq, settle_of_capacity_eq s rfl]
      exact h
    · rw [heq]
      refine h.grow (Nat.pos_of_ne_zero fun hused => ?_) hcap hlt
      exact hop ⟨hused, hcap, hconst, hg⟩
  | setFlag flag =>
    cases hnext
    exact ⟨{ h.ring with }, h.handed_length, h.perm, h.nodup, h.buf_lt⟩
  | setMaxDeltaCap n =>
    cases hnext
    exact ⟨{ h.ring with }, h.handed_length, h.perm, h.nodup, h.buf_lt⟩

theorem Inv.disciplined (h : s.Inv) : s.Disciplined where
  partition b hb := by
    have hnd := h.nodup_append
    rcases List.mem_append.mp (h.perm.mem_iff.mpr hb) with hmem | hmem
    · exact Or.inl ⟨hmem, fun hav => List.disjoint_of_nodup_append hnd hmem hav⟩
    · refine Or.inr ⟨fun hh => List.disjoint_of_nodup_append hnd hh hmem, ?_⟩
      exact List.count_eq_one_of_mem (List.nodup_append'.mp hnd).2.1 hmem
  alloc_fresh g b pool halloc := by
    rcases h.alloc g with hfail | ⟨b', pool', hok, hfresh, -⟩
    · rw [hfail] at halloc
      cases halloc
    · rw [hok] at halloc
      obtain ⟨hb, -⟩ := Prod.mk.inj halloc
      rwa [← Option.some.inj hb]
  alloc_fail g pool halloc := by
    rcases h.alloc g with hfail | ⟨b', pool', hok, -, -⟩
    · rw [hfail] at halloc
      rw [(Prod.mk.inj halloc).2]
    · rw [hok] at halloc
      cases halloc
  ensureSpace_fail capacity g pool hfail := by rw [MemoryPool.ensureSpace_fail hfail]

/-- **The blocks of a pool stay partitioned in every run in which no empty pool grows.** -/
theorem disciplined_of_grown_in_use {initCapacity blockSize : ℕ} {thp : Bool} {g : Grants}
    {pool : MemoryPool} (hcap : initCapacity < 2 ^ 32)
    (hinit : init initCapacity blockSize thp g = some pool) {s : PoolSession}
    (hs : Steps.Reach next GrownInUse (start pool) s) : s.Disciplined := by
  have hinv : s.Inv := hs.invariant (inv_start hcap hinit) fun _ _ _ h hop hn => h.step hop hn
  exact hinv.disciplined

def allGranted : Grants := ⟨true, true, true, true, true⟩

def onePool : MemoryPool :=
  { ptrBuf := [⟨0, 0⟩], allocIndex := 0, freeIndex := 0, capacity := 1, used := 0, blockSize := 8
    numBuf := 1, flag := 0, maxDeltaCap := 268435456 }

def growWhenFull : List PoolOp := [.alloc allGranted, .alloc allGranted, .free ⟨0, 0⟩]

instance (s : PoolSession) (op : PoolOp) : Decidable (s.GrownInUse op) := by
  cases op <;> unfold GrownInUse <;> infer_instance

def grownPool : PoolSession :=
  { pool :=
      { ptrBuf := [⟨0, 0⟩, ⟨1, 0⟩], allocIndex := 0, freeIndex := 1, capacity := 2, used := 1
        blockSize := 8, numBuf := 2, flag := 0, maxDeltaCap := 268435456 }
    blocks := [⟨0, 0⟩, ⟨1, 0⟩]
    handed := [⟨1, 0⟩] }

theorem disciplined_grownPool :
    init 1 8 false allGranted = some onePool ∧
      Steps.Reach next GrownInUse (start onePool) grownPool ∧ grownPool.Disciplined := by
  have hinit : init 1 8 false allGranted = some onePool := by decide
  have hreach : Steps.Reach next GrownInUse (start onePool) grownPool :=
    Steps.Reach.of_execWhen _ (fun _ _ => of_decide_eq_true) growWhenFull rfl
  exact ⟨hinit, hreach, disciplined_of_grown_in_use (by decide) hinit hreach⟩

def growWhenEmpty : List PoolOp :=
  [.ensureSpace 2 (by decide) allGranted, .alloc allGranted, .free ⟨1, 0⟩, .alloc allGranted]

def doubledPool : PoolSession :=
  { pool :=
      { ptrBuf := [⟨1, 0⟩, ⟨1, 0⟩], allocIndex := 1, freeIndex := 1, capacity := 2, used := 1
        blockSize := 8, numBuf := 2, flag := 0, maxDeltaCap := 268435456 }
    blocks := [⟨0, 0⟩, ⟨1, 0⟩]
    handed := [⟨1, 0⟩] }

theorem not_disciplined_after_empty_growth :
    init 1 8 false allGranted = some onePool ∧
      Steps.Reach next Steps.anyStep (start onePool) doubledPool ∧ ¬ doubledPool.Disciplined := by
  refine ⟨by decide, Steps.Reach.of_exec growWhenEmpty rfl, fun h => ?_⟩
  have hfresh := h.alloc_fresh allGranted ⟨1, 0⟩ _ rfl
  exact hfresh (by decide)

end PoolSession

end Mugglec
