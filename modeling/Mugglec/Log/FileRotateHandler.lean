import Mugglec.Machinery.FileStore
import Mugglec.Log.FileHandler

/-!
# Log/FileRotateHandler — `log/log_file_rotate_handler.c`

Records are appended to `filepath`.  Once the file has `max_bytes` it is rotated: the backups go up
by one, the last one is dropped, and the file becomes the first backup.
-/

namespace Mugglec

open CText FileStore

structure FileRotate where
  filepath : List Char
  fp : Option (List Char)
  maxBytes : ℕ
  backupCount : ℕ
  offset : ℕ
  files : List Char → Option (List UInt8)
  initial : List UInt8
  written : List UInt8
  rotated : List (List UInt8)

namespace FileRotate

def backupPath (filepath : List Char) (i : ℕ) : List Char := filepath ++ '.' :: decimal i

def numberedPath (filepath : List Char) (n : ℤ) : List Char :=
  filepath ++ '.' :: ((if n < 0 then ['-'] else []) ++ decimal n.natAbs)

def rotate (s : FileRotate) (opens : Bool) : Err × FileRotate :=
  let buf := snprintf (MAX_PATH - 1) (numberedPath s.filepath (i32 s.backupCount))
  let files := if (s.files buf).isSome then remove s.files buf else s.files
  -- the loop from `(int)backup_count - 1` down to 1
  let name := fun i => snprintf MAX_PATH (backupPath s.filepath i)
  let files := shiftUp name (i32 s.backupCount - 1).toNat files
  let files := rename files s.filepath (name 1)
  let s := { s with
    rotated := (s.files s.filepath).getD [] :: s.rotated, fp := none, files := files }
  if opens then
    (.ok, { s with fp := some s.filepath, files := openAppend files s.filepath, offset := 0 })
  else (.sysCall, s)

def write (s : FileRotate) (m : LogWrite) : Option (ℤ × FileRotate) :=
  match m.fmt with
  | none => some (-1, s)
  | some f =>
    if f.ret < 0 then some (-2, s)
    else
      match s.fp with
      | none => some (f.ret, s)
      | some path => do
        let bytes ← f.fwrite m.accepted
        let s := { s with
          files := appendBytes s.files path bytes
          written := s.written ++ bytes
          offset := s.offset + bytes.length }
        let s := if s.offset ≥ s.maxBytes then (s.rotate m.opens).2 else s
        return (bytes.length, s)

def init (absFilepath : List Char) (maxBytes backupCount : ℕ)
    (files : List Char → Option (List UInt8)) (opens : Bool) : FileRotate :=
  let content := (files absFilepath).getD []
  let s : FileRotate := {
    filepath := absFilepath.take (MAX_PATH - 1)
    fp := some absFilepath
    maxBytes := maxBytes
    backupCount := backupCount
    offset := content.length
    files := openAppend files absFilepath
    initial := content
    written := []
    rotated := [] }
  if s.offset ≥ s.maxBytes then (s.rotate opens).2 else s

end FileRotate

end Mugglec
