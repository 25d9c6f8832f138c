import Mugglec.Log.FileRotateHandler
import Mugglec.Log.FileTimeRotHandler
import Mugglec.Os.Path

/-!
# Log/LogFmt — the formatters (`log/log_fmt.c`) and what the handlers write

A handler formats a message into an array of 4096 characters by `snprintf`, **which returns the
length of the whole text**, and has `fwrite` take as many bytes from the array.
-/

namespace Mugglec

open CBuffer CText

structure LogRecord where
  level : ℤ
  tvSec : ℤ
  tvNsec : ℤ
  tid : ℕ
  file : List Char
  line : ℕ
  func : List Char
  payload : Option (List Char)

structure GmTime where
  year : ℤ
  mon : ℤ
  mday : ℤ
  hour : ℤ
  min : ℤ
  sec : ℤ

def decimalInt (width : ℕ) (n : ℤ) : List Char :=
  let sign := if n < 0 then ['-'] else []
  let digits := decimal n.natAbs
  sign ++ List.replicate (width - sign.length - digits.length) '0' ++ digits

def logLevelToStr (level : ℤ) : List Char :=
  let level := level / 2 ^ 8
  if level ≥ 0 ∧ level < 6 then
    ["TRACE", "DEBUG", "INFO", "WARNING", "ERROR", "FATAL"].map String.toList |>.getD level.toNat []
  else "UNKNOWN".toList

inductive LogFmt
  | simple
  | complicated (gmtime : ℤ → GmTime)

def LogFmt.text (fmt : LogFmt) (msg : LogRecord) (filename : List Char) : List Char :=
  let level := logLevelToStr msg.level
  let payload := msg.payload.getD []
  match fmt with
  | .simple =>
    level ++ '|' :: filename ++ ':' :: decimal msg.line ++ " - ".toList ++ payload ++ ['\n']
  | .complicated gmtime =>
    let t := gmtime msg.tvSec
    level ++ '|' :: decimalInt 0 (t.year + 1900) ++ '-' :: decimalInt 2 (t.mon + 1) ++
      '-' :: decimalInt 2 t.mday ++ 'T' :: decimalInt 2 t.hour ++ ':' :: decimalInt 2 t.min ++
      ':' :: decimalInt 2 t.sec ++ '.' :: decimalInt 3 (msg.tvNsec.tdiv 1000000) ++
      '|' :: filename ++ ':' :: decimal msg.line ++ '|' :: msg.func ++ '|' :: decimal msg.tid ++
      " - ".toList ++ payload ++ ['\n']

def LOG_MSG_MAX_LEN : ℕ := 4096

def printed (text : List Char) : Formatted where
  ret := if text.length < 2 ^ 31 then text.length else -1
  buf := (snprintf LOG_MSG_MAX_LEN text).map fun c => UInt8.ofNat c.toNat

def LogFmt.fmtFunc (fmt : LogFmt) (msg : LogRecord) (filename : List Char) : Option Formatted := do
  let (_, filename) ← pathBasename msg.file filename
  return printed (fmt.text msg (← cstr nul filename))

theorem printed_beyond_iff (text : List Char) :
    (0 ≤ (printed text).ret ∧ (printed text).buf.length < (printed text).ret) ↔
      LOG_MSG_MAX_LEN ≤ text.length ∧ text.length < 2 ^ 31 := by
  simp only [printed, List.length_map, snprintf, List.length_take, LOG_MSG_MAX_LEN]
  split_ifs <;> omega

structure FileLog where
  fp : Option (List Char)
  files : List Char → Option (List UInt8)

def FileLog.write (h : FileLog) (m : LogWrite) : Option (ℤ × FileLog) :=
  match m.fmt with
  | none => some (-1, h)
  | some f =>
    if f.ret < 0 then some (-2, h)
    else
      match h.fp with
      | none => some (f.ret, h)
      | some path => do
        let bytes ← f.fwrite m.accepted
        return (bytes.length, { h with files := appendBytes h.files path bytes })

structure ConsoleLog where
  enableColor : Bool
  out : List UInt8
  err : List UInt8

def terminalColor (code : List Char) : List UInt8 :=
  (Char.ofNat 0x1B :: '[' :: code ++ ['m']).map fun c => UInt8.ofNat c.toNat

def ConsoleLog.write (h : ConsoleLog) (level : ℤ) (m : LogWrite) : Option (ℤ × ConsoleLog) :=
  match m.fmt with
  | none => some (-1, h)
  | some f =>
    if f.ret < 0 then some (-2, h)
    else do
      let bytes ← f.fwrite m.accepted
      let printed :=
        if h.enableColor ∧ level ≥ 3 * 2 ^ 8 then
          terminalColor (if level ≥ 4 * 2 ^ 8 then ['3', '1'] else ['3', '3']) ++ bytes ++
            terminalColor ['0']
        else bytes
      return (bytes.length, if level ≥ 3 * 2 ^ 8 then { h with err := h.err ++ printed }
        else { h with out := h.out ++ printed })

inductive LogHandler
  | file (h : FileLog)
  | fileRotate (h : FileRotate)
  | fileTimeRot (cal : ℤ → Tm) (now : ℤ) (h : FileTimeRot)
  | console (h : ConsoleLog)

namespace LogHandler

def isOpen : LogHandler → Bool
  | file h => h.fp.isSome
  | fileRotate h => h.fp.isSome
  | fileTimeRot _ _ h => h.fp.isSome
  | console _ => true

def write (h : LogHandler) (msg : LogRecord) (m : LogWrite) : Option (ℤ × LogHandler) :=
  match h with
  | file h => (h.write m).map (Prod.map id file)
  | fileRotate h => (h.write m).map (Prod.map id fileRotate)
  | fileTimeRot cal now h => (h.write cal m msg.tvSec now).map (Prod.map id (fileTimeRot cal now))
  | console h => (h.write msg.level m).map (Prod.map id console)

def log (h : LogHandler) (fmt : LogFmt) (msg : LogRecord) (filename : List Char) (accepted : ℕ)
    (opens : Bool) : Option (ℤ × LogHandler) := do
  h.write msg ⟨some (← fmt.fmtFunc msg filename), accepted, opens⟩

theorem write_eq_none_iff (h : LogHandler) (msg : LogRecord) (f : Formatted) (accepted : ℕ)
    (opens : Bool) : h.write msg ⟨some f, accepted, opens⟩ = none ↔
      h.isOpen = true ∧ 0 ≤ f.ret ∧ f.buf.length < f.ret := by
  have hfwrite : f.fwrite accepted = none ↔ f.buf.length < f.ret := by
    rw [Formatted.fwrite, ← not_le]
    split_ifs with hle <;> simp [hle]
  rw [← hfwrite]
  rcases lt_or_ge f.ret 0 with hret | hret
  · refine iff_of_false ?_ fun h => absurd hret (not_lt.mpr h.2.1)
    cases h <;> simp [write, FileLog.write, FileRotate.write, FileTimeRot.write, ConsoleLog.write,
      hret]
  rw [and_iff_right hret]
  cases h with
  | console h =>
    simp only [write, ConsoleLog.write, isOpen, if_neg (not_lt.mpr hret)]
    cases f.fwrite accepted <;> simp
  | file h | fileRotate h | fileTimeRot cal now h =>
    simp only [write, FileLog.write, FileRotate.write, FileTimeRot.write, isOpen,
      if_neg (not_lt.mpr hret)]
    cases h.fp <;> cases f.fwrite accepted <;> simp

/-- **What is written is the formatted text**, just if that fits the array, or is so long that it
has no length. -/
theorem log_within_iff (h : LogHandler) (fmt : LogFmt) (msg : LogRecord) (filename : List Char)
    (accepted : ℕ) (opens : Bool) : h.log fmt msg filename accepted opens ≠ none ↔
      ∃ r filename' name, pathBasename msg.file filename = some (r, filename') ∧
        cstr nul filename' = some name ∧
        (h.isOpen = true → (fmt.text msg name).length < LOG_MSG_MAX_LEN ∨
          2 ^ 31 ≤ (fmt.text msg name).length) := by
  rw [log, LogFmt.fmtFunc]
  cases hbase : pathBasename msg.file filename with
  | none => simp
  | some base =>
    obtain ⟨r, filename'⟩ := base
    cases hname : cstr nul filename' with
    | none => simp [hname]
    | some name =>
      have hwrite := (h.write_eq_none_iff msg (printed (fmt.text msg name)) accepted opens).trans
        (and_congr_right fun _ => printed_beyond_iff _)
      simp only [hname, Option.bind_eq_bind, Option.bind_some, Option.pure_def, ne_eq, hwrite]
      constructor
      · intro hwithin
        refine ⟨r, filename', name, rfl, hname, fun hopen => ?_⟩
        by_contra! hlen
        exact hwithin ⟨hopen, hlen⟩
      · rintro ⟨_, _, name', ⟨⟩, hname', hwithin⟩ ⟨hopen, hlen⟩
        cases hname.symm.trans hname'
        rcases hwithin hopen with h | h <;> omega

theorem log_beyond_text :
    (file ⟨some ['l'], fun _ => some []⟩).log .simple
      ⟨0, 0, 0, 0, ['a'], 1, ['f'], some (List.replicate 4095 'x')⟩ (List.replicate MAX_PATH nul)
      4096 true = none := by
  have hbase : ∀ n, pathBasename ['a'] (List.replicate (n + 3) nul) =
      some (.ok, 'a' :: List.replicate (n + 2) nul) := fun n => by
    simp [pathBasename, scanBack, isSep, strncpy, store, ← List.replicate_succ']
  have hname : ∀ n, cstr nul ('a' :: List.replicate (n + 2) nul) = some ['a'] := fun n => by
    have ha : 'a' ≠ nul := by decide
    simp [cstr, ha]
  change (pathBasename ['a'] (List.replicate (1021 + 3) nul) >>= _) >>= _ = _
  simp only [hbase, hname, Option.bind_eq_bind, Option.bind_some,
    Option.pure_def, write_eq_none_iff, printed_beyond_iff, LogFmt.text, List.length_append,
    List.length_cons, List.length_replicate, Option.getD_some]
  decide

end LogHandler

end Mugglec
