import Mugglec.Machinery.Window

/-!
# Memory/BytesBuffer — the byte buffer of `memory/bytes_buffer.c`

Four cursors over one array of `c` bytes: the writer `w`, the reader `r` and the truncation mark
`t`, where the bytes before the reader stop once the writer has jumped back to the start.
-/

open Window

namespace Mugglec

structure BytesBuffer where
  c : ℤ
  w : ℤ
  r : ℤ
  t : ℤ
  buffer : ℤ → UInt8

namespace BytesBuffer

def contiguousWritable (b : BytesBuffer) : ℤ :=
  if b.w ≥ b.r then
    if b.r ≠ 0 then b.c - b.w else b.c - b.w - 1
  else b.r - b.w - 1

def jumpWritable (b : BytesBuffer) : ℤ :=
  if b.w ≥ b.r then
    if b.r ≠ 0 then b.r - 1 else 0
  else 0

def jumpReadable (b : BytesBuffer) : ℤ :=
  if b.w ≥ b.r then 0 else b.w

def contiguousReadable (b : BytesBuffer) : ℤ :=
  if b.w ≥ b.r then b.w - b.r else b.t - b.r

def writable (b : BytesBuffer) : ℤ := b.contiguousWritable + b.jumpWritable

def readable (b : BytesBuffer) : ℤ := b.contiguousReadable + b.jumpReadable

def init (capacity : ℤ) (block : ℤ → UInt8) : BytesBuffer :=
  { c := capacity, w := 0, r := 0, t := capacity, buffer := block }

def clear (b : BytesBuffer) : BytesBuffer := { b with w := 0, r := 0, t := b.c }

def refresh (b : BytesBuffer) : BytesBuffer := if b.w = b.r then b.clear else b

def fetch (b : BytesBuffer) (numBytes : ℤ) : Option (List UInt8) :=
  let cr := b.contiguousReadable
  if cr ≥ numBytes then some (load b.buffer b.r numBytes.toNat)
  else if cr + b.jumpReadable < numBytes then none
  else
    let front := if cr > 0 then load b.buffer b.r cr.toNat else []
    some (front ++ load b.buffer 0 (numBytes - cr).toNat)

def read (b : BytesBuffer) (numBytes : ℤ) : Option (List UInt8 × BytesBuffer) :=
  let cr := b.contiguousReadable
  if cr ≥ numBytes then
    let r := b.r + numBytes
    some (load b.buffer b.r numBytes.toNat, refresh { b with r := if r = b.t then 0 else r })
  else if cr + b.jumpReadable < numBytes then none
  else
    let front := if cr > 0 then load b.buffer b.r cr.toNat else []
    let remain := numBytes - cr
    some (front ++ load b.buffer 0 remain.toNat, refresh { b with r := remain })

def advanceWriter (b : BytesBuffer) (numBytes : ℤ) : BytesBuffer :=
  let w := b.w + numBytes
  { b with w := if w = b.c then 0 else w, t := if b.t < w then b.c else b.t }

def write (b : BytesBuffer) (src : List UInt8) : Bool × BytesBuffer :=
  let numBytes : ℤ := src.length
  let cw := b.contiguousWritable
  if cw ≥ numBytes then
    (true, advanceWriter { b with buffer := store b.buffer b.w src } numBytes)
  else
    let jw := b.jumpWritable
    if cw + jw < numBytes then (false, b)
    else if jw ≥ numBytes then
      (true, { b with t := b.w, buffer := store b.buffer 0 src, w := numBytes })
    else
      let split := if cw > 0 then store b.buffer b.w (src.take cw.toNat) else b.buffer
      (true, { b with t := b.c, buffer := store split 0 (src.drop cw.toNat), w := numBytes - cw })

def writerFc (b : BytesBuffer) (numBytes : ℤ) : Option ℤ :=
  if b.contiguousWritable ≥ numBytes then some b.w
  else if b.jumpWritable ≥ numBytes then some 0
  else none

def writerMove (b : BytesBuffer) (numBytes : ℤ) : Bool × BytesBuffer :=
  if b.contiguousWritable ≥ numBytes then (true, b.advanceWriter numBytes)
  else if b.jumpWritable ≥ numBytes then (true, { b with t := b.w, w := numBytes })
  else (false, b)

/-- `muggle_bytes_buffer_writer_move_n`; it always returns `true` -/
def writerMoveN (b : BytesBuffer) (ptr : ℤ) (numBytes : ℤ) : BytesBuffer :=
  if ptr = 0 then { b with t := if b.w > 0 then b.w else b.t, w := numBytes }
  else b.advanceWriter numBytes

def readerFc (b : BytesBuffer) (numBytes : ℤ) : Option ℤ :=
  if b.contiguousReadable ≥ numBytes then some b.r else none

def readerMove (b : BytesBuffer) (numBytes : ℤ) : Bool × BytesBuffer :=
  if b.contiguousReadable ≥ numBytes then (true, refresh { b with r := b.r + numBytes })
  else (false, b)

end BytesBuffer

end Mugglec
