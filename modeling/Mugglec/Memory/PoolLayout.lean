import Mugglec.Machinery.Packing
import Mugglec.Memory.SowrMemoryPool
import Mugglec.Memory.TsMemoryPool
import Mugglec.Memory.RingMemoryPool

/-!
# Memory/PoolLayout — where the blocks of the pools lie

Three pools cut one allocation into blocks of one size, each a head and the user's data.
-/

namespace Mugglec

structure Layout where
  count : ℕ
  size : ℕ
  bytes : ℕ
  offset : ℕ → ℕ
  head : ℕ

namespace Layout

structure Sound (L : Layout) (dataSize : ℕ) : Prop where
  inside : ∀ i < L.count, L.offset i + L.size ≤ L.bytes
  apart : ∀ i < L.count, ∀ j < L.count, i ≠ j →
    L.offset i + L.size ≤ L.offset j ∨ L.offset j + L.size ≤ L.offset i
  room : L.head + dataSize ≤ L.size

variable {L : Layout} {dataSize : ℕ}

theorem Sound.mul_le (h : L.Sound dataSize) (hpos : 0 < L.size) : L.count * L.size ≤ L.bytes := by
  have hinj : Set.InjOn L.offset (Finset.range L.count : Set ℕ) := by
    intro i hi j hj heq
    by_contra hne
    rcases h.apart i (by simpa using hi) j (by simpa using hj) hne with hle | hle <;> omega
  have hpacking : Packing.IsPacking (fun _ => True) L.size 0 L.bytes
      ((Finset.range L.count).image L.offset) := by
    refine ⟨fun _ _ => trivial, fun q hq => ?_, fun q hq r hr hlt => ?_⟩
    · obtain ⟨i, hi, rfl⟩ := Finset.mem_image.mp hq
      exact ⟨Nat.zero_le _, h.inside i (Finset.mem_range.mp hi)⟩
    · obtain ⟨i, hi, rfl⟩ := Finset.mem_image.mp hq
      obtain ⟨j, hj, rfl⟩ := Finset.mem_image.mp hr
      have hne : i ≠ j := by
        rintro rfl
        exact lt_irrefl _ hlt
      rcases h.apart i (Finset.mem_range.mp hi) j (Finset.mem_range.mp hj) hne with hle | hle
      · exact hle
      · omega
  have hcard := hpacking.card_mul_le
  rwa [Finset.card_image_of_injOn hinj, Finset.card_range, Nat.sub_zero] at hcard

theorem sound_of_mul (hoffset : ∀ i < L.count, L.offset i = L.size * i)
    (hbytes : L.bytes = L.size * L.count) (hroom : L.head + dataSize ≤ L.size) :
    L.Sound dataSize := by
  have hnext : ∀ i j, i < j → L.size * i + L.size ≤ L.size * j := fun i j hij =>
    (Nat.mul_succ L.size i).symm ▸ Nat.mul_le_mul_left L.size hij
  refine ⟨fun i hi => ?_, fun i hi j hj hne => ?_, hroom⟩
  · rw [hoffset i hi, hbytes]
    exact hnext i L.count hi
  · rw [hoffset i hi, hoffset j hj]
    rcases lt_or_gt_of_ne hne with hlt | hlt
    · exact .inl (hnext i j hlt)
    · exact .inr (hnext j i hlt)

theorem sound_u32_iff {count size head : ℕ} (hhead : 0 < head) :
    Layout.Sound ⟨count, size, u32 (size * count), fun i => u32 (size * i), head⟩ dataSize ↔
      size * count < 2 ^ 32 ∧ head + dataSize ≤ size := by
  constructor
  · intro h
    have hroom : head + dataSize ≤ size := h.room
    have hle : count * size ≤ u32 (size * count) := h.mul_le (show 0 < size by omega)
    refine ⟨?_, hroom⟩
    rw [Nat.mul_comm] at hle
    exact hle.trans_lt (Nat.mod_lt _ (by decide))
  · rintro ⟨hlt, hroom⟩
    refine sound_of_mul (fun i hi => ?_) (u32_of_lt hlt) hroom
    exact u32_of_lt ((Nat.mul_le_mul_left size hi.le).trans_lt hlt)

end Layout

def SowrMemoryPool.layout (pool : SowrMemoryPool) : Layout :=
  ⟨pool.capacity, pool.blockSize, u32 (pool.blockSize * pool.capacity),
    fun i => u32 (pool.blockSize * i), SOWR_BLOCK_HEAD_SIZE⟩

def RingMemoryPool.layout (pool : RingMemoryPool) : Layout :=
  ⟨pool.capacity, pool.blockSize, u32 (pool.blockSize * pool.capacity),
    fun i => u32 (pool.blockSize * i), RING_MPOOL_BLOCK_HEAD_SIZE⟩

def TsMemoryPool.layout (pool : TsMemoryPool) : Layout :=
  ⟨pool.capacity, pool.blockSize, pool.capacity * pool.blockSize % 2 ^ 64,
    fun i => pool.blockSize * i % 2 ^ 64, TS_MEMORY_POOL_HEAD_SIZE⟩

theorem alignTrueSharing_cases {y : ℕ} (hy : y < 2 ^ 32 + 64) :
    (y ≤ 2 ^ 32 - 192 → alignTrueSharing (u32 y) = 64 * ((y + 63) / 64) + 128) ∧
    (2 ^ 32 - 192 < y → y ≤ 2 ^ 32 - 128 → alignTrueSharing (u32 y) = 0) ∧
    (2 ^ 32 - 128 < y → alignTrueSharing (u32 y) ≠ 0 ∧ alignTrueSharing (u32 y) < y) := by
  have hmask : ∀ x, x < 2 ^ 32 → x &&& (2 ^ 32 - 64) = 64 * (x / 64) := fun x hx =>
    and_alignMask (k := 6) (N := 32) (by decide) hx
  have heq : alignTrueSharing (u32 y) = u32 (64 * (u32 (u32 y + 64 - 1) / 64) + 128) := by
    rw [alignTrueSharing, hmask (u32 _) (Nat.mod_lt _ (by decide))]
  rw [heq, u32, u32, u32]
  omega

def SowrFits (capacity dataSize : ℕ) : Prop :=
  capacity ≤ 2 ^ 31 →
    SOWR_BLOCK_HEAD_SIZE + dataSize ≤ 2 ^ 32 - 192 ∧
        (64 * ((SOWR_BLOCK_HEAD_SIZE + dataSize + 63) / 64) + 128) *
          2 ^ Nat.clog 2 (if capacity = 0 then 8 else capacity) < 2 ^ 32 ∨
      2 ^ 32 - 192 < SOWR_BLOCK_HEAD_SIZE + dataSize ∧
        SOWR_BLOCK_HEAD_SIZE + dataSize ≤ 2 ^ 32 - 128

def TsFits (capacity dataSize : ℕ) : Prop :=
  capacity ≠ 0 → dataSize ≠ 0 → capacity ≤ 2 ^ 31 →
    TS_MEMORY_POOL_HEAD_SIZE + dataSize ≤ 2 ^ 32 - 128

def RingFits (capacity dataSize : ℕ) : Prop :=
  capacity ≤ 2 ^ 31 → dataSize ≠ 0 →
    dataSize + RING_MPOOL_BLOCK_HEAD_SIZE ≤ 2 ^ 31 ∧
      2 ^ Nat.clog 2 (dataSize + RING_MPOOL_BLOCK_HEAD_SIZE) *
        2 ^ Nat.clog 2 (if capacity < 2 then 2 else capacity) < 2 ^ 32

variable {capacity dataSize : ℕ}

theorem u32_nextPowOf2_default {small : Prop} [Decidable small] {d : ℕ} (hd : 0 < d ∧ d ≤ 2 ^ 31)
    (hsmall : small → capacity ≤ 2 ^ 31) (hpos : ¬ small → 0 < capacity)
    (hcap : capacity < 2 ^ 32) :
    u32 (nextPowOf2 (if small then d else capacity)) =
      if capacity ≤ 2 ^ 31 then 2 ^ Nat.clog 2 (if small then d else capacity) else 0 := by
  by_cases h : small
  · rw [if_pos h, u32_nextPowOf2_eq (by omega) (by omega), if_pos hd.2, if_pos (hsmall h)]
  · have hne := hpos h
    rw [if_neg h, u32_nextPowOf2_eq (by omega) hcap]

theorem sowrInit_eq_ok_iff (hcap : capacity < 2 ^ 32) {pool : SowrMemoryPool} :
    SowrMemoryPool.init capacity dataSize = .ok pool ↔
      pool = ⟨2 ^ Nat.clog 2 (if capacity = 0 then 8 else capacity),
        alignTrueSharing (u32 (SOWR_BLOCK_HEAD_SIZE + dataSize))⟩ ∧
      capacity ≤ 2 ^ 31 ∧ alignTrueSharing (u32 (SOWR_BLOCK_HEAD_SIZE + dataSize)) ≠ 0 := by
  rw [SowrMemoryPool.init,
    u32_nextPowOf2_default (by decide) (by omega) Nat.pos_of_ne_zero hcap]
  by_cases hbig : capacity ≤ 2 ^ 31
  · simp only [if_pos hbig]
    rw [if_neg (Nat.two_pow_pos _).ne']
    by_cases hsize : alignTrueSharing (u32 (SOWR_BLOCK_HEAD_SIZE + dataSize)) = 0
    · rw [if_pos hsize]
      exact iff_of_false (by simp) fun hand => hand.2.2 hsize
    · rw [if_neg hsize, Except.ok.injEq, eq_comm]
      exact ⟨fun heq => ⟨heq, hbig, hsize⟩, And.left⟩
  · simp only [if_neg hbig]
    exact iff_of_false (by simp) fun hand => hbig hand.2.1

theorem tsInit_eq_ok_iff (hcap : capacity < 2 ^ 32) {pool : TsMemoryPool} :
    TsMemoryPool.init capacity dataSize true true = .ok pool ↔
      pool = ⟨2 ^ Nat.clog 2 capacity,
        alignTrueSharing (u32 (TS_MEMORY_POOL_HEAD_SIZE + dataSize))⟩ ∧
      capacity ≠ 0 ∧ dataSize ≠ 0 ∧ capacity ≤ 2 ^ 31 ∧
      alignTrueSharing (u32 (TS_MEMORY_POOL_HEAD_SIZE + dataSize)) ≠ 0 := by
  rw [TsMemoryPool.init]
  by_cases hzero : capacity = 0
  · rw [if_pos hzero]
    exact iff_of_false (by simp) fun hand => hand.2.1 hzero
  rw [if_neg hzero]
  by_cases hdata : dataSize = 0
  · rw [if_pos hdata]
    exact iff_of_false (by simp) fun hand => hand.2.2.1 hdata
  rw [if_neg hdata, u32_nextPowOf2_eq hzero hcap]
  by_cases hbig : capacity ≤ 2 ^ 31
  · simp only [if_pos hbig]
    rw [if_neg (Nat.two_pow_pos _).ne']
    by_cases hsize : alignTrueSharing (u32 (TS_MEMORY_POOL_HEAD_SIZE + dataSize)) = 0
    · rw [if_pos hsize]
      exact iff_of_false (by simp) fun hand => hand.2.2.2.2 hsize
    · rw [if_neg hsize, if_pos (by rfl), Except.ok.injEq, eq_comm]
      exact ⟨fun heq => ⟨heq, hzero, hdata, hbig, hsize⟩, And.left⟩
  · rw [if_neg hbig, if_pos rfl]
    exact iff_of_false (by simp) fun hand => hbig hand.2.2.2.1

theorem ringInit_eq_ok_iff (hcap : capacity < 2 ^ 32) {pool : RingMemoryPool} :
    RingMemoryPool.init capacity dataSize true = .ok pool ↔
      pool = ⟨2 ^ Nat.clog 2 (if capacity < 2 then 2 else capacity),
        u32 (nextPowOf2 (dataSize + RING_MPOOL_BLOCK_HEAD_SIZE))⟩ ∧
      capacity ≤ 2 ^ 31 ∧ dataSize ≠ 0 := by
  have htwo : 2 ≤ 2 ^ Nat.clog 2 (if capacity < 2 then 2 else capacity) := by
    refine le_trans ?_ (Nat.le_pow_clog one_lt_two _)
    split_ifs <;> omega
  simp only [RingMemoryPool.init,
    u32_nextPowOf2_default (show 0 < 2 ∧ 2 ≤ 2 ^ 31 by decide)
      (show capacity < 2 → capacity ≤ 2 ^ 31 by omega) (by omega) hcap]
  by_cases hbig : capacity ≤ 2 ^ 31
  · simp only [if_pos hbig]
    rw [if_neg (not_lt.mpr htwo)]
    by_cases hdata : dataSize = 0
    · rw [if_pos hdata]
      exact iff_of_false (by simp) fun hand => hand.2.2 hdata
    · rw [if_neg hdata, if_pos trivial, Except.ok.injEq, eq_comm]
      exact ⟨fun heq => ⟨heq, hbig, hdata⟩, And.left⟩
  · simp only [if_neg hbig]
    exact iff_of_false (by simp) fun hand => hbig hand.2.1

theorem sowr_sound_iff (hcap : capacity < 2 ^ 32) (hdata : dataSize < 2 ^ 32) :
    (∀ pool, SowrMemoryPool.init capacity dataSize = .ok pool → pool.layout.Sound dataSize) ↔
      SowrFits capacity dataSize := by
  obtain ⟨hgood, hzero, hsmall⟩ :=
    alignTrueSharing_cases (y := SOWR_BLOCK_HEAD_SIZE + dataSize) (by
      rw [SOWR_BLOCK_HEAD_SIZE]
      omega)
  simp only [sowrInit_eq_ok_iff hcap, SowrFits, and_imp, forall_eq, SowrMemoryPool.layout,
    Layout.sound_u32_iff (show 0 < SOWR_BLOCK_HEAD_SIZE by decide)]
  refine forall_congr' fun hbig => ?_
  rcases le_or_gt (SOWR_BLOCK_HEAD_SIZE + dataSize) (2 ^ 32 - 192) with hle | hlt
  · rw [hgood hle]
    refine ⟨fun himp => .inl ⟨hle, (himp (by omega)).1⟩, fun hor _ => ?_⟩
    rcases hor with ⟨-, hlt⟩ | ⟨hgt, -⟩
    · exact ⟨hlt, by omega⟩
    · omega
  · rcases le_or_gt (SOWR_BLOCK_HEAD_SIZE + dataSize) (2 ^ 32 - 128) with hle | hgt
    · rw [hzero hlt hle]
      exact iff_of_true (fun hne => absurd rfl hne) (.inr ⟨hlt, hle⟩)
    · obtain ⟨hne, hsize⟩ := hsmall hgt
      refine iff_of_false (fun himp => ?_) (by omega)
      have := (himp hne).2
      omega

theorem ts_sound_iff (hcap : capacity < 2 ^ 32) (hdata : dataSize < 2 ^ 32) :
    (∀ pool, TsMemoryPool.init capacity dataSize true true = .ok pool →
      pool.layout.Sound dataSize) ↔ TsFits capacity dataSize := by
  obtain ⟨hgood, hzero, hsmall⟩ :=
    alignTrueSharing_cases (y := TS_MEMORY_POOL_HEAD_SIZE + dataSize) (by
      rw [TS_MEMORY_POOL_HEAD_SIZE]
      omega)
  simp only [tsInit_eq_ok_iff hcap, TsFits, and_imp, forall_eq]
  refine forall_congr' fun _ => forall_congr' fun _ => forall_congr' fun hbig => ?_
  rcases le_or_gt (TS_MEMORY_POOL_HEAD_SIZE + dataSize) (2 ^ 32 - 128) with hle | hgt
  · refine iff_of_true (fun hne => ?_) hle
    have hle' : TS_MEMORY_POOL_HEAD_SIZE + dataSize ≤ 2 ^ 32 - 192 := by
      by_contra hlt
      exact hne (hzero (by omega) hle)
    have hcount : 2 ^ Nat.clog 2 capacity ≤ 2 ^ 31 :=
      Nat.pow_le_pow_right two_pos ((Nat.clog_le_iff_le_pow one_lt_two).mpr hbig)
    have hsize : alignTrueSharing (u32 (TS_MEMORY_POOL_HEAD_SIZE + dataSize)) < 2 ^ 32 :=
      Nat.mod_lt _ (by decide)
    have hprod : ∀ i ≤ 2 ^ Nat.clog 2 capacity,
        alignTrueSharing (u32 (TS_MEMORY_POOL_HEAD_SIZE + dataSize)) * i < 2 ^ 64 := fun i hi =>
      calc _ ≤ 2 ^ 32 * 2 ^ 31 := Nat.mul_le_mul hsize.le (hi.trans hcount)
        _ < 2 ^ 64 := by norm_num
    refine Layout.sound_of_mul (fun i hi => Nat.mod_eq_of_lt (hprod i hi.le)) ?_ ?_
    · simp only [TsMemoryPool.layout]
      rw [Nat.mul_comm, Nat.mod_eq_of_lt (hprod _ le_rfl)]
    · simp only [TsMemoryPool.layout]
      rw [hgood hle']
      omega
  · obtain ⟨hne, hsize⟩ := hsmall hgt
    refine iff_of_false (fun himp => ?_) (by omega)
    have : TS_MEMORY_POOL_HEAD_SIZE + dataSize ≤ _ := (himp hne).room
    simp only [TsMemoryPool.layout] at this
    omega

theorem ring_sound_iff (hcap : capacity < 2 ^ 32) :
    (∀ pool, RingMemoryPool.init capacity dataSize true = .ok pool →
      pool.layout.Sound dataSize) ↔ RingFits capacity dataSize := by
  simp only [ringInit_eq_ok_iff hcap, RingFits, and_imp, forall_eq, RingMemoryPool.layout,
    Layout.sound_u32_iff (show 0 < RING_MPOOL_BLOCK_HEAD_SIZE by decide)]
  refine forall_congr' fun hbig => forall_congr' fun _ => ?_
  have hne : dataSize + RING_MPOOL_BLOCK_HEAD_SIZE ≠ 0 := by
    rw [RING_MPOOL_BLOCK_HEAD_SIZE]
    omega
  rw [Nat.add_comm RING_MPOOL_BLOCK_HEAD_SIZE dataSize]
  rcases le_or_gt (dataSize + RING_MPOOL_BLOCK_HEAD_SIZE) (2 ^ 31) with hle | hgt
  · rw [u32_nextPowOf2_eq hne (by omega), if_pos hle]
    exact ⟨fun hand => ⟨hle, hand.1⟩, fun hand => ⟨hand.2, Nat.le_pow_clog one_lt_two _⟩⟩
  · refine iff_of_false (fun hand => ?_) (by omega)
    -- above `2 ^ 31` the size is zero, and from `2 ^ 32` on it is at least too small
    rcases lt_or_ge (dataSize + RING_MPOOL_BLOCK_HEAD_SIZE) (2 ^ 32) with hlt | hge
    · rw [u32_nextPowOf2_eq hne hlt, if_neg (by omega)] at hand
      omega
    · have := hand.2
      have : u32 (nextPowOf2 (dataSize + RING_MPOOL_BLOCK_HEAD_SIZE)) < 2 ^ 32 :=
        Nat.mod_lt _ (by decide)
      omega

/-- **The blocks of the three pools lie inside their allocations, apart, and with room for the
data** exactly if no size wraps around unseen. -/
theorem pools_sound_iff (hcap : capacity < 2 ^ 32) (hdata : dataSize < 2 ^ 32) :
    ((∀ pool, SowrMemoryPool.init capacity dataSize = .ok pool →
        pool.layout.Sound dataSize) ↔ SowrFits capacity dataSize) ∧
    ((∀ pool, RingMemoryPool.init capacity dataSize true = .ok pool →
        pool.layout.Sound dataSize) ↔ RingFits capacity dataSize) ∧
    ((∀ pool, TsMemoryPool.init capacity dataSize true true = .ok pool →
        pool.layout.Sound dataSize) ↔ TsFits capacity dataSize) :=
  ⟨sowr_sound_iff hcap hdata, ring_sound_iff hcap, ts_sound_iff hcap hdata⟩

theorem pools_sound_thousand :
    (∀ pool, SowrMemoryPool.init 1000 100 = .ok pool → pool.layout.Sound 100) ∧
    (∀ pool, RingMemoryPool.init 1000 100 true = .ok pool → pool.layout.Sound 100) ∧
    (∀ pool, TsMemoryPool.init 1000 100 true true = .ok pool → pool.layout.Sound 100) := by
  obtain ⟨hsowr, hring, hts⟩ :=
    pools_sound_iff (show 1000 < 2 ^ 32 by decide) (show 100 < 2 ^ 32 by decide)
  have hclog : Nat.clog 2 1000 = 10 ∧ Nat.clog 2 244 = 8 := by norm_num
  refine ⟨hsowr.mpr fun _ => .inl ⟨by decide, ?_⟩, hring.mpr fun _ _ => ⟨by decide, ?_⟩,
    hts.mpr fun _ _ _ => by decide⟩
  · change 256 * 2 ^ Nat.clog 2 1000 < 2 ^ 32
    rw [hclog.1]
    decide
  · change 2 ^ Nat.clog 2 244 * 2 ^ Nat.clog 2 1000 < 2 ^ 32
    rw [hclog.1, hclog.2]
    decide

theorem pools_wrap_around :
    (∃ pool, SowrMemoryPool.init (2 ^ 25) 100 = .ok pool ∧ pool.layout.bytes = 0 ∧
      ¬ pool.layout.Sound 100) ∧
    (∃ pool, RingMemoryPool.init (2 ^ 25) 100 true = .ok pool ∧ pool.layout.bytes = 0 ∧
      ¬ pool.layout.Sound 100) ∧
    ∃ pool, TsMemoryPool.init 8 (2 ^ 32 - 100) true true = .ok pool ∧ pool.layout.size = 64 ∧
      ¬ pool.layout.Sound (2 ^ 32 - 100) := by
  refine ⟨⟨⟨2 ^ 25, 256⟩, by decide, by decide, fun h => ?_⟩,
    ⟨⟨2 ^ 25, 256⟩, by decide, by decide, fun h => ?_⟩, ⟨8, 64⟩, by decide, rfl, fun h => ?_⟩
  · exact absurd (h.inside 0 (by decide)) (by decide)
  · exact absurd (h.inside 0 (by decide)) (by decide)
  · exact absurd h.room (by decide)

end Mugglec
