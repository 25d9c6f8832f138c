import Mugglec.Sync.ShmRingFifo

/-!
# Sync/ShmRingOpen — the size of the memory a ring is put into

`muggle_shm_ringbuf_open` rounds the bytes asked for up to cache lines, the lines up to a power of
two, and the control structure and the lines together up to pages.  All of it is `uint32_t`.
-/

namespace Mugglec

def SHM_RINGBUF_SIZE : ℕ := 5 * (CACHE_LINE_SIZE + 2 * CACHE_LINE_SIZE)

def SHM_FLAG_CREAT : ℕ := 1

def SHM_RINGBUF_MAGIC : ℕ := 0x4D53484D

def roundUpPowOf2Mul32 (x n : ℕ) : ℕ := u32 (x + n - 1) &&& (2 ^ 32 - n)

structure ShmSegment where
  size : ℕ
  magic : ℕ
  nBytes : ℕ
  totalBytes : ℕ
  ready : ℕ
  ring : ShmRing

structure ShmOutcome where
  ftok : Bool
  shmget : Bool
  shmat : Bool
  segment : ShmSegment

def shmOpen (o : ShmOutcome) (flag nbytes : ℕ) : Option ShmSegment := do
  guard o.ftok
  guard o.shmget
  guard o.shmat
  return if flag &&& SHM_FLAG_CREAT ≠ 0 then { o.segment with size := nbytes } else o.segment

def shmRingbufSizes (nbytes : ℕ) : ℕ × ℕ × ℕ :=
  if nbytes = 0 then (0, 0, 0)
  else
    let dataBytes := roundUpPowOf2Mul32 nbytes CACHE_LINE_SIZE
    let nCacheline := u32 (nextPowOf2 (dataBytes / CACHE_LINE_SIZE))
    let dataBytes := u32 (nCacheline * CACHE_LINE_SIZE)
    let totalBytes := u32 (SHM_RINGBUF_SIZE + dataBytes)
    (dataBytes, nCacheline, roundUpPowOf2Mul32 totalBytes 4096)

def shmRingbufOpen (o : ShmOutcome) (flag nbytes : ℕ) : Option ShmSegment :=
  let (dataBytes, nCacheline, totalBytes) := shmRingbufSizes nbytes
  match shmOpen o flag totalBytes with
  | none => none
  | some seg =>
    if flag &&& SHM_FLAG_CREAT ≠ 0 then
      some { seg with
        magic := SHM_RINGBUF_MAGIC
        nBytes := dataBytes
        totalBytes := totalBytes
        ready := 1
        ring := {
          nCacheline := nCacheline
          writeCursor := 0
          cachedRemain := u32 (nCacheline + (2 ^ 32 - 1))
          cachedWHdr := 0
          readCursor := 0
          cachedRHdr := 0
          data := seg.ring.data } }
    else some seg

structure ShmSegment.Contained (seg : ShmSegment) (nbytes : ℕ) : Prop where
  powOf2 : ∃ k, seg.ring.nCacheline = 2 ^ k
  holds : nbytes ≤ seg.ring.nCacheline * CACHE_LINE_SIZE
  room : SHM_RINGBUF_SIZE + seg.ring.nCacheline * CACHE_LINE_SIZE ≤ seg.totalBytes
  requested : seg.size = seg.totalBytes
  lines : ∀ pos < seg.ring.nCacheline,
    SHM_RINGBUF_SIZE + ShmRing.getData pos + CACHE_LINE_SIZE ≤ seg.size

theorem roundUpPowOf2Mul32_eq {x k : ℕ} (hk : k ≤ 32) :
    roundUpPowOf2Mul32 x (2 ^ k) = 2 ^ k * (u32 (x + 2 ^ k - 1) / 2 ^ k) :=
  and_alignMask hk (Nat.mod_lt _ (by decide))

theorem shmRingbufSizes_eq {nbytes : ℕ} (hpos : 0 < nbytes) {n : ℕ}
    (hn : u32 (nextPowOf2 (u32 (nbytes + 63) / 64)) = n) :
    shmRingbufSizes nbytes =
      (u32 (n * 64), n, 4096 * (u32 (u32 (960 + u32 (n * 64)) + 4095) / 4096)) := by
  have hdata : roundUpPowOf2Mul32 nbytes 64 = 64 * (u32 (nbytes + 63) / 64) :=
    roundUpPowOf2Mul32_eq (k := 6) (by decide)
  have htotal : ∀ x, roundUpPowOf2Mul32 x 4096 = 4096 * (u32 (x + 4095) / 4096) :=
    fun x => roundUpPowOf2Mul32_eq (k := 12) (by decide)
  simp only [shmRingbufSizes, if_neg hpos.ne', CACHE_LINE_SIZE, SHM_RINGBUF_SIZE, hdata, htotal,
    Nat.mul_div_cancel_left _ (by decide : 0 < 64), hn]

theorem shmRingbufSizes_of_le {nbytes : ℕ} (hpos : 0 < nbytes) (hle : nbytes ≤ 2 ^ 31) :
    ∃ k ≤ 25, nbytes ≤ 2 ^ k * 64 ∧ ∃ total, 960 + 2 ^ k * 64 ≤ total ∧
      shmRingbufSizes nbytes = (2 ^ k * 64, 2 ^ k, total) := by
  have hround : u32 (nbytes + 63) = nbytes + 63 := u32_of_lt (by omega)
  obtain ⟨k, -, hpow, hleast⟩ := nextPowOf2_least (x := (nbytes + 63) / 64) (by omega) (by omega)
  have hk : k ≤ 25 := (hleast 25).mpr (by omega)
  have hlines := (hleast k).mp le_rfl
  have hbound : 2 ^ k ≤ 2 ^ 25 := Nat.pow_le_pow_right (by decide) hk
  have hn : u32 (nextPowOf2 (u32 (nbytes + 63) / 64)) = 2 ^ k := by
    rw [hround, hpow]
    exact u32_of_lt (by omega)
  have hsizes := shmRingbufSizes_eq hpos hn
  rw [u32_of_lt (by omega : 2 ^ k * 64 < 2 ^ 32), u32_of_lt (by omega : 960 + 2 ^ k * 64 < 2 ^ 32),
    u32_of_lt (by omega : 960 + 2 ^ k * 64 + 4095 < 2 ^ 32)] at hsizes
  exact ⟨k, hk, by omega, _, by omega, hsizes⟩

theorem shmRingbufSizes_of_lt {nbytes : ℕ} (hlt : 2 ^ 31 < nbytes) (hmax : nbytes < 2 ^ 32) :
    shmRingbufSizes nbytes = (0, 2 ^ 26, 4096) ∨ shmRingbufSizes nbytes = (0, 0, 4096) := by
  have hpos : 0 < nbytes := by omega
  by_cases hwrap : nbytes + 63 < 2 ^ 32
  · obtain ⟨k, -, hpow, hleast⟩ :=
      nextPowOf2_least (x := (nbytes + 63) / 64) (by omega) (by omega)
    have hk : k = 26 := by
      have hle : k ≤ 26 := (hleast 26).mpr (by omega)
      have hgt : ¬ k ≤ 25 := fun h => by
        have := (hleast 25).mp h
        omega
      omega
    have hn : u32 (nextPowOf2 (u32 (nbytes + 63) / 64)) = 2 ^ 26 := by
      rw [u32_of_lt hwrap, hpow, hk]
      rfl
    exact .inl (shmRingbufSizes_eq hpos hn)
  · have hzero : u32 (nbytes + 63) / 64 = 0 := by
      rw [u32]
      omega
    have hn : u32 (nextPowOf2 (u32 (nbytes + 63) / 64)) = 0 := by
      rw [hzero]
      rfl
    exact .inr (shmRingbufSizes_eq hpos hn)

variable {o : ShmOutcome} {flag nbytes : ℕ} {seg : ShmSegment}

theorem shmRingbufOpen_creat (hcreat : flag &&& SHM_FLAG_CREAT ≠ 0)
    (hopen : shmRingbufOpen o flag nbytes = some seg) :
    ∃ data, seg = ⟨(shmRingbufSizes nbytes).2.2, SHM_RINGBUF_MAGIC, (shmRingbufSizes nbytes).1,
      (shmRingbufSizes nbytes).2.2, 1, (shmRingbufSizes nbytes).2.1, 0,
      u32 ((shmRingbufSizes nbytes).2.1 + (2 ^ 32 - 1)), 0, 0, 0, data⟩ := by
  have hshm : ∀ {n seg}, shmOpen o flag n = some seg → seg = { o.segment with size := n } := by
    intro n seg hshm
    simp only [shmOpen, Option.bind_eq_bind, Option.bind_eq_some_iff, if_pos hcreat] at hshm
    obtain ⟨-, -, -, -, -, -, hseg⟩ := hshm
    exact (Option.some.inj hseg).symm
  rw [shmRingbufOpen] at hopen
  dsimp only at hopen
  cases hseg : shmOpen o flag (shmRingbufSizes nbytes).2.2 with
  | none =>
    rw [hseg] at hopen
    exact nomatch hopen
  | some seg₀ =>
    rw [hseg] at hopen
    simp only [if_pos hcreat, Option.some.injEq] at hopen
    rw [← hopen, hshm hseg]
    exact ⟨_, rfl⟩

/-- **A ring that was created is inside its memory up to `2 ^ 31` bytes**, and not beyond. -/
theorem contained_iff (hpos : 0 < nbytes) (hmax : nbytes < 2 ^ 32)
    (hcreat : flag &&& SHM_FLAG_CREAT ≠ 0) (hopen : shmRingbufOpen o flag nbytes = some seg) :
    seg.Contained nbytes ↔ nbytes ≤ 2 ^ 31 := by
  obtain ⟨data, rfl⟩ := shmRingbufOpen_creat hcreat hopen
  constructor
  · intro h
    by_contra hlt
    rcases shmRingbufSizes_of_lt (not_le.mp hlt) hmax with hsizes | hsizes
    · have hroom := h.room
      simp only [hsizes, SHM_RINGBUF_SIZE, CACHE_LINE_SIZE] at hroom
      omega
    · have hholds := h.holds
      simp only [hsizes] at hholds
      omega
  · intro hle
    obtain ⟨k, -, hholds, total, hroom, hsizes⟩ := shmRingbufSizes_of_le hpos hle
    simp only [hsizes]
    refine ⟨⟨k, rfl⟩, hholds, hroom, rfl, fun pos hline => ?_⟩
    simp only [ShmRing.getData, SHM_RINGBUF_SIZE, CACHE_LINE_SIZE] at hline ⊢
    omega

def zeroSegment : ShmOutcome :=
  ⟨true, true, true, 0, 0, 0, 0, 0, 0, 0, 0, 0, 0, 0, fun _ => 0⟩

theorem contained_thousand : ∃ seg, shmRingbufOpen zeroSegment SHM_FLAG_CREAT 1000 = some seg ∧
    (seg.ring.nCacheline, seg.totalBytes) = (16, 4096) ∧ seg.Contained 1000 := by
  obtain ⟨seg, hopen⟩ : ∃ seg, shmRingbufOpen zeroSegment SHM_FLAG_CREAT 1000 = some seg :=
    ⟨_, rfl⟩
  have hsizes : (seg.ring.nCacheline, seg.totalBytes) = (16, 4096) := by
    cases hopen
    decide
  exact ⟨seg, hopen, hsizes,
    (contained_iff (by decide) (by decide) (by decide) hopen).mpr (by decide)⟩

theorem not_contained_beyond : ∃ seg,
    shmRingbufOpen zeroSegment SHM_FLAG_CREAT (2 ^ 31 + 1) = some seg ∧
      (seg.ring.nCacheline, seg.totalBytes) = (2 ^ 26, 4096) ∧ ¬ seg.Contained (2 ^ 31 + 1) := by
  obtain ⟨seg, hopen⟩ :
      ∃ seg, shmRingbufOpen zeroSegment SHM_FLAG_CREAT (2 ^ 31 + 1) = some seg := ⟨_, rfl⟩
  have hsizes : (seg.ring.nCacheline, seg.totalBytes) = (2 ^ 26, 4096) := by
    cases hopen
    decide +kernel
  refine ⟨seg, hopen, hsizes, fun h => ?_⟩
  obtain ⟨hlines, htotal⟩ := Prod.mk.inj hsizes
  have hroom := h.room
  rw [hlines, htotal] at hroom
  exact absurd hroom (by decide)

section Attached

open ShmState

variable {s : ShmState}

/-- A writer and a reader in front of the ring of a segment, neither of them in a call. -/
def ShmSegment.attach (seg : ShmSegment) : ShmState := ⟨seg.ring, .idle, .idle, [], []⟩

theorem attach_eq_start (hpos : 0 < nbytes) (hle : nbytes ≤ 2 ^ 31)
    (hcreat : flag &&& SHM_FLAG_CREAT ≠ 0) (hopen : shmRingbufOpen o flag nbytes = some seg) :
    ∃ k ≤ 25, seg.attach = start (2 ^ k) seg.ring.data ∧
      SHM_RINGBUF_SIZE + 2 ^ k * CACHE_LINE_SIZE ≤ seg.size := by
  obtain ⟨data, rfl⟩ := shmRingbufOpen_creat hcreat hopen
  obtain ⟨k, hk, -, total, hroom, hsizes⟩ := shmRingbufSizes_of_le hpos hle
  have hremain : u32 (2 ^ k + (2 ^ 32 - 1)) = 2 ^ k - 1 := by
    have hbound : 2 ^ k ≤ 2 ^ 25 := Nat.pow_le_pow_right (by decide) hk
    have := Nat.two_pow_pos k
    rw [u32]
    omega
  refine ⟨k, hk, ?_, hsizes ▸ hroom⟩
  simp only [ShmSegment.attach, hsizes, hremain]
  rfl

/-- **A ring that was created for at most `2 ^ 31` bytes delivers what is published in it**, and
nothing is written behind the end of its memory, in every interleaving of a writer and a reader. -/
theorem attached_faithful (hpos : 0 < nbytes) (hle : nbytes ≤ 2 ^ 31)
    (hcreat : flag &&& SHM_FLAG_CREAT ≠ 0) (hopen : shmRingbufOpen o flag nbytes = some seg)
    (hs : Steps.Reach next Proper seg.attach s) :
    Faithful s ∧ ∀ pos n, s.writes = some (pos, n) →
      SHM_RINGBUF_SIZE + ShmRing.getData pos + CACHE_LINE_SIZE * n ≤ seg.size := by
  obtain ⟨k, hk, hstart, hroom⟩ := attach_eq_start hpos hle hcreat hopen
  rw [hstart] at hs
  have hsize : 2 ^ k ≤ 2 ^ 31 := Nat.pow_le_pow_right (by omega) (by omega)
  obtain ⟨⟨⟨mark, h⟩, -, hfits⟩, hlines⟩ := hs.invariant
    (P := fun s => ProperInv s ∧ s.nCacheline = 2 ^ k)
    ⟨⟨⟨none, inv_start (Nat.two_pow_pos k) hsize _⟩, nofun, nofun⟩, rfl⟩
    fun _ _ _ hp hok hnext => ⟨properInv_step hp.1 hok hnext, (logs_next hnext).1.trans hp.2⟩
  refine ⟨h.faithful hfits, fun pos n hw => ?_⟩
  have hin := (h.apart hw).1
  simp only [ShmRing.getData, SHM_RINGBUF_SIZE, CACHE_LINE_SIZE] at hroom ⊢
  omega

theorem attached_faithful_eightLines : ∃ seg s,
    shmRingbufOpen zeroSegment SHM_FLAG_CREAT 500 = some seg ∧
      s.consumed = [([7], 1), ([8], 1), ([9], 1)] ∧ Faithful s := by
  obtain ⟨seg, hopen⟩ : ∃ seg, shmRingbufOpen zeroSegment SHM_FLAG_CREAT 500 = some seg := ⟨_, rfl⟩
  obtain ⟨s, hrun, hlog⟩ : ∃ s, Steps.execWhen next (fun s a => decide (Proper s a)) seg.attach
      roundLap = some s ∧ s.consumed = [([7], 1), ([8], 1), ([9], 1)] := by
    cases hopen
    decide
  exact ⟨seg, s, hopen, hlog,
    (attached_faithful (by decide) (by decide) (by decide) hopen (.of_decide hrun)).1⟩

end Attached

end Mugglec
