import Mugglec.Log.FileHandler

/-!
# Log/FileTimeRotHandler — `log/log_file_time_rot_handler.c`

The name of the file has the date of the record it was opened for, down to the unit of rotation.  A
`write` **first appends the record to the open file, then** compares its date with that of the
record before, and opens a new file if the two are in different periods.
-/

namespace Mugglec

open CText

structure Tm where
  tmSec : ℕ
  tmMin : ℕ
  tmHour : ℕ
  tmMday : ℕ
  tmMon : ℕ
  tmYear : ℕ
deriving DecidableEq, Repr

/-- `MUGGLE_LOG_TIME_ROTATE_UNIT_SEC`, `_MIN`, `_HOUR`, `_DAY` -/
inductive RotateUnit
  | sec | min | hour | day
deriving DecidableEq, Repr

structure StoredRecord where
  file : List Char
  sec : ℤ
  opened : Bool
deriving DecidableEq, Repr

structure FileTimeRot where
  filepath : List Char
  fp : Option (List Char)
  rotateUnit : RotateUnit
  rotateMod : ℕ+
  lastSec : ℤ
  lastTm : Tm
  files : List Char → Option (List UInt8)
  stored : List StoredRecord

namespace FileTimeRot

/-- The `switch` of `muggle_log_file_time_rot_handler_detect` -/
def needRot (rotateUnit : RotateUnit) (rotateMod : ℕ+) (curr last : Tm) : Bool :=
  match rotateUnit with
  | .sec =>
    curr.tmSec / rotateMod != last.tmSec / rotateMod || curr.tmMin != last.tmMin ||
      curr.tmHour != last.tmHour || curr.tmMday != last.tmMday || curr.tmMon != last.tmMon ||
      curr.tmYear != last.tmYear
  | .min =>
    curr.tmMin / rotateMod != last.tmMin / rotateMod || curr.tmHour != last.tmHour ||
      curr.tmMday != last.tmMday || curr.tmMon != last.tmMon || curr.tmYear != last.tmYear
  | .hour =>
    curr.tmHour / rotateMod != last.tmHour / rotateMod || curr.tmMday != last.tmMday ||
      curr.tmMon != last.tmMon || curr.tmYear != last.tmYear
  | .day =>
    curr.tmMday / rotateMod != last.tmMday / rotateMod || curr.tmMon != last.tmMon ||
      curr.tmYear != last.tmYear

def detect (cal : ℤ → Tm) (h : FileTimeRot) (tvSec now : ℤ) : Bool × FileTimeRot :=
  let sec := if tvSec = 0 then now else tvSec
  if h.lastSec ≥ sec then (false, h)
  else
    let curr := cal sec
    (needRot h.rotateUnit h.rotateMod curr h.lastTm, { h with lastSec := sec, lastTm := curr })

def dateText (rotateUnit : RotateUnit) (t : Tm) : List Char :=
  let ymd := decimal (t.tmYear + 1900) ++ decimal2 (t.tmMon + 1) ++ decimal2 t.tmMday
  match rotateUnit with
  | .sec => ymd ++ ['T'] ++ decimal2 t.tmHour ++ decimal2 t.tmMin ++ decimal2 t.tmSec
  | .min => ymd ++ ['T'] ++ decimal2 t.tmHour ++ decimal2 t.tmMin
  | .hour => ymd ++ ['T'] ++ decimal2 t.tmHour
  | .day => ymd

def datePath (filepath : List Char) (rotateUnit : RotateUnit) (t : Tm) : List Char :=
  filepath ++ '.' :: dateText rotateUnit t

def rotate (h : FileTimeRot) (opens : Bool) : Err × FileTimeRot :=
  let buf := snprintf MAX_PATH (datePath h.filepath h.rotateUnit h.lastTm)
  if opens then (.ok, { h with fp := some buf, files := openAppend h.files buf })
  else (.sysCall, { h with fp := none })

def write (cal : ℤ → Tm) (h : FileTimeRot) (m : LogWrite) (tvSec now : ℤ) :
    Option (ℤ × FileTimeRot) :=
  match m.fmt with
  | none => some (-1, h)
  | some f =>
    if f.ret < 0 then some (-2, h)
    else
      match h.fp with
      | none => some (f.ret, h)
      | some path => do
        let bytes ← f.fwrite m.accepted
        let h := { h with files := appendBytes h.files path bytes }
        let (needRot, h) := h.detect cal tvSec now
        let h := { h with stored := h.stored ++ [⟨path, tvSec, needRot⟩] }
        let h := if needRot then (h.rotate m.opens).2 else h
        return (bytes.length, h)

def init (cal : ℤ → Tm) (absFilepath : List Char) (rotateUnit : RotateUnit) (rotateMod : ℕ+)
    (now : ℤ) (files : List Char → Option (List UInt8)) (opens : Bool) : Err × FileTimeRot :=
  rotate {
    filepath := absFilepath.take (MAX_PATH - 1)
    fp := none
    rotateUnit := rotateUnit
    rotateMod := rotateMod
    lastSec := now
    lastTm := cal now
    files := files
    stored := [] } opens

end FileTimeRot

end Mugglec
