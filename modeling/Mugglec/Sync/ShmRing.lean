import Mugglec.Base.Utils
import Mugglec.Machinery.Steps
import Mugglec.Machinery.Window

/-!
# Sync/ShmRing — the one-writer one-reader record ring of `sync/shm_ring_buffer.c`

A data area of `nCacheline` lines of 64 bytes.  A record takes whole lines, its first eight bytes
being a header of two words, `n_bytes` and `n_cachelines`.  A record never wraps: where the rest of
the area is too short the writer leaves a header with `n_bytes` zero and starts again at line 0.
-/

namespace Mugglec

open Window

def CACHE_LINE_SIZE : ℕ := 64

def SHM_HDR_SIZE : ℕ := 8

/-- `MUGGLE_SHM_RINGBUF_CAL_BYTES_CACHELINE`, computed in `size_t` -/
def shmRingbufCalBytesCacheline (nBytes : ℕ) : ℕ :=
  roundUpPowOf2Mul (SHM_HDR_SIZE + nBytes) CACHE_LINE_SIZE / CACHE_LINE_SIZE + 2

structure ShmRing where
  nCacheline : ℕ
  writeCursor : ℕ
  cachedRemain : ℕ
  cachedWHdr : ℕ
  readCursor : ℕ
  cachedRHdr : ℕ
  data : ℤ → UInt8

inductive ShmWriterPc
  | idle
  | loadRead (nBytes nCacheline : ℕ)
  | markBytes (nBytes nCacheline : ℕ) (leftRemain : ℤ)
  | markLines (nBytes nCacheline : ℕ) (leftRemain : ℤ)
  | wrap (nBytes nCacheline : ℕ) (leftRemain : ℤ)
  | hdrBytes (nBytes nCacheline : ℕ)
  | hdrLines (nBytes nCacheline : ℕ)
  | granted (nBytes nCacheline : ℕ)
deriving DecidableEq, Repr

inductive ShmReaderPc
  | idle
  | hdr (wPos : ℕ)
  | reset
  | hdrZero
  | size
  | held (nBytes : ℕ)
  | move (nBytes nCachelines : ℕ)
deriving DecidableEq, Repr

structure ShmRecord where
  pos : ℕ
  lines : ℕ
  nBytes : ℕ
  payload : List UInt8
deriving DecidableEq, Repr

def ShmRecord.message (rec : ShmRecord) : List UInt8 × ℕ := (rec.payload, rec.nBytes)

structure ShmState extends ShmRing where
  writer : ShmWriterPc
  reader : ShmReaderPc
  published : List ShmRecord
  consumed : List (List UInt8 × ℕ)

inductive ShmStep
  | allocBytes (nBytes : ℕ)
  | allocCachelines (nBytes nCacheline : ℕ)
  | writer
  | fill (off : ℕ) (byte : UInt8)
  | wMove
  | rFetch
  | rMove
  | reader
deriving DecidableEq, Repr

namespace ShmRing

variable (q : ShmRing)

/-- `muggle_shm_ringbuf_get_data`, as a byte address -/
def getData (pos : ℕ) : ℤ := CACHE_LINE_SIZE * pos

def hdrNBytes (pos : ℕ) : ℕ := load32 q.data (getData pos)

def hdrNCachelines (pos : ℕ) : ℕ := load32 q.data (getData pos + 4)

def payload (pos n : ℕ) : List UInt8 := load q.data (getData pos + SHM_HDR_SIZE) n

def setHdrNBytes (pos n : ℕ) : ShmRing := { q with data := store32 q.data (getData pos) n }

def setHdrNCachelines (pos n : ℕ) : ShmRing :=
  { q with data := store32 q.data (getData pos + 4) n }

end ShmRing

namespace ShmState

variable (s : ShmState)

def start (nCacheline : ℕ) (data : ℤ → UInt8) : ShmState where
  nCacheline := nCacheline
  writeCursor := 0
  cachedRemain := nCacheline - 1
  cachedWHdr := 0
  readCursor := 0
  cachedRHdr := 0
  data := data
  writer := .idle
  reader := .idle
  published := []
  consumed := []

def unread : List ShmRecord := s.published.drop s.consumed.length

def retest (nBytes nCacheline : ℕ) : ShmState :=
  { s with writer := if s.cachedRemain < nCacheline then .idle else .hdrBytes nBytes nCacheline }

/-- The first test of `w_alloc_cachelines`. -/
def wAllocCachelines (nBytes nCacheline : ℕ) : Option ShmState :=
  match s.writer with
  | .idle | .granted _ _ =>
    some { s with
      writer :=
        if s.cachedRemain < nCacheline then .loadRead nBytes nCacheline
        else .hdrBytes nBytes nCacheline }
  | _ => none

def updateCachedRemain (nBytes nCacheline : ℕ) : ShmState :=
  let rPos := s.readCursor
  if s.writeCursor < rPos then
    { s with cachedRemain := rPos - s.writeCursor - 1 }.retest nBytes nCacheline
  else
    let rightRemain := u32 (s.nCacheline + (2 ^ 32 - s.writeCursor) + (2 ^ 32 - 1))
    let leftRemain := i32 rPos - 1
    if nCacheline ≤ rightRemain then
      { s with cachedRemain := rightRemain }.retest nBytes nCacheline
    else if i32 nCacheline ≤ leftRemain then
      { s with writer := .markBytes nBytes nCacheline leftRemain }
    else s.retest nBytes nCacheline

def writerStep : Option ShmState :=
  match s.writer with
  | .idle | .granted _ _ => none
  | .loadRead nBytes nCacheline => some (s.updateCachedRemain nBytes nCacheline)
  | .markBytes nBytes nCacheline leftRemain =>
    some { s with
      toShmRing := s.setHdrNBytes s.writeCursor 0
      writer := .markLines nBytes nCacheline leftRemain }
  | .markLines nBytes nCacheline leftRemain =>
    some { s with
      toShmRing := s.setHdrNCachelines s.writeCursor 0
      writer := .wrap nBytes nCacheline leftRemain }
  | .wrap nBytes nCacheline leftRemain =>
    some ({ s with
      writeCursor := 0
      -- an `int32_t` stored to an unsigned variable
      cachedRemain := (leftRemain % 2 ^ 32).toNat }.retest nBytes nCacheline)
  | .hdrBytes nBytes nCacheline =>
    some { s with
      toShmRing := s.setHdrNBytes s.writeCursor nBytes
      writer := .hdrLines nBytes nCacheline }
  | .hdrLines nBytes nCacheline =>
    some { s with
      toShmRing := { s.setHdrNCachelines s.writeCursor nCacheline with cachedWHdr := s.writeCursor }
      writer := .granted nBytes nCacheline }

def wMove : Option ShmState :=
  match s.writer with
  | .granted nBytes _ =>
    let n := s.hdrNCachelines s.cachedWHdr
    some { s with
      cachedRemain := u32 (s.cachedRemain + (2 ^ 32 - n))
      writeCursor := u32 (s.writeCursor + n)
      writer := .idle
      published := s.published ++ [⟨s.cachedWHdr, n, nBytes, s.payload s.cachedWHdr nBytes⟩] }
  | _ => none

def readerStep : Option ShmState :=
  match s.reader with
  | .idle | .held _ => none
  | .hdr wPos =>
    let q := { s with cachedRHdr := s.readCursor }
    if s.hdrNBytes s.readCursor ≠ 0 then some { q with reader := .size }
    else if wPos = 0 then some { q with reader := .idle }
    else some { q with reader := .reset }
  | .reset => some { s with readCursor := 0, reader := .hdrZero }
  | .hdrZero =>
    let q := { s with cachedRHdr := s.readCursor }
    if s.hdrNBytes s.readCursor ≠ 0 then some { q with reader := .size }
    else some { q with reader := .idle }
  | .size => some { s with reader := .held (s.hdrNBytes s.cachedRHdr) }
  | .move nBytes nCachelines =>
    some { s with
      readCursor := u32 (s.readCursor + nCachelines)
      reader := .idle
      consumed := s.consumed ++ [(s.payload s.cachedRHdr nBytes, nBytes)] }

def next (a : ShmStep) : Option ShmState :=
  match a with
  | .allocBytes nBytes => s.wAllocCachelines nBytes (u32 (shmRingbufCalBytesCacheline nBytes))
  | .allocCachelines nBytes nCacheline => s.wAllocCachelines nBytes nCacheline
  | .writer => s.writerStep
  | .fill off byte =>
    match s.writer with
    | .granted _ nCacheline =>
      if SHM_HDR_SIZE + off < CACHE_LINE_SIZE * nCacheline then
        some { s with
          data := store s.data (ShmRing.getData s.cachedWHdr + SHM_HDR_SIZE + off) [byte] }
      else none
    | _ => none
  | .wMove => s.wMove
  | .rFetch =>
    match s.reader with
    | .idle =>
      some { s with reader := if s.writeCursor = s.readCursor then .idle else .hdr s.writeCursor }
    | _ => none
  | .rMove =>
    match s.reader with
    | .held nBytes => some { s with reader := .move nBytes (s.hdrNCachelines s.cachedRHdr) }
    | _ => none
  | .reader => s.readerStep

end ShmState

end Mugglec
