import Mugglec.Machinery.Steps
import Mugglec.Log.FileTimeRotPeriods

/-!
# Log/FileTimeRotAccepted — what `muggle_log_file_time_rot_handler_init` lets through

`init` stores the unit and the divisor as they are given.  A unit that no `case` is for rotates
never; **a divisor of zero is accepted, and the first later record divides by it**
(`decides_iff`).
-/

namespace Mugglec

open CText FileTimeRot

structure TimeRotHandler where
  filepath : List Char
  fp : Option (List Char)
  rotateUnit : Char
  rotateMod : ℕ
  lastSec : ℤ
  lastTm : Tm
  files : List Char → Option (List UInt8)

namespace TimeRotHandler

def unitOf (rotateUnit : Char) : Option RotateUnit :=
  if rotateUnit = 's' then some .sec
  else if rotateUnit = 'm' then some .min
  else if rotateUnit = 'h' then some .hour
  else if rotateUnit = 'd' then some .day
  else none

def fieldMod (field rotateMod : ℕ) : Option ℤ :=
  if rotateMod = 0 then none else some (i32 (u32 field / rotateMod))

def needRot (rotateUnit : Char) (rotateMod : ℕ) (curr last : Tm) : Option Bool :=
  match unitOf rotateUnit with
  | some .sec => do
    let currSecMod ← fieldMod curr.tmSec rotateMod
    let lastSecMod ← fieldMod last.tmSec rotateMod
    return currSecMod != lastSecMod || curr.tmMin != last.tmMin ||
      curr.tmHour != last.tmHour || curr.tmMday != last.tmMday || curr.tmMon != last.tmMon ||
      curr.tmYear != last.tmYear
  | some .min => do
    let currMinMod ← fieldMod curr.tmMin rotateMod
    let lastMinMod ← fieldMod last.tmMin rotateMod
    return currMinMod != lastMinMod || curr.tmHour != last.tmHour ||
      curr.tmMday != last.tmMday || curr.tmMon != last.tmMon || curr.tmYear != last.tmYear
  | some .hour => do
    let currHourMod ← fieldMod curr.tmHour rotateMod
    let lastHourMod ← fieldMod last.tmHour rotateMod
    return currHourMod != lastHourMod || curr.tmMday != last.tmMday ||
      curr.tmMon != last.tmMon || curr.tmYear != last.tmYear
  | some .day => do
    let currDayMod ← fieldMod curr.tmMday rotateMod
    let lastDayMod ← fieldMod last.tmMday rotateMod
    return currDayMod != lastDayMod || curr.tmMon != last.tmMon || curr.tmYear != last.tmYear
  | none => some false

def recordSec (tvSec now : ℤ) : ℤ := if tvSec = 0 then now else tvSec

def detect (cal : ℤ → Tm) (h : TimeRotHandler) (tvSec now : ℤ) : Option (Bool × TimeRotHandler) :=
  let sec := recordSec tvSec now
  if h.lastSec ≥ sec then some (false, h)
  else
    let curr := cal sec
    (needRot h.rotateUnit h.rotateMod curr h.lastTm).map fun needRot =>
      (needRot, { h with lastSec := sec, lastTm := curr })

def rotate (unset : List Char) (h : TimeRotHandler) (opens : Bool) : Err × TimeRotHandler :=
  let buf := match unitOf h.rotateUnit with
    | some unit => snprintf MAX_PATH (datePath h.filepath unit h.lastTm)
    | none => unset
  if opens then (.ok, { h with fp := some buf, files := openAppend h.files buf })
  else (.sysCall, { h with fp := none })

def write (cal : ℤ → Tm) (unset : List Char) (h : TimeRotHandler) (m : TimedWrite) :
    Option (ℤ × TimeRotHandler) :=
  match m.call.fmt with
  | none => some (-1, h)
  | some f =>
    if f.ret < 0 then some (-2, h)
    else
      match h.fp with
      | none => some (f.ret, h)
      | some path =>
        (f.fwrite m.call.accepted).bind fun bytes =>
          (detect cal { h with files := appendBytes h.files path bytes } m.tvSec m.now).map fun r =>
            (bytes.length, if r.1 then (r.2.rotate unset m.call.opens).2 else r.2)

def init (cal : ℤ → Tm) (unset absFilepath : List Char) (rotateUnit : Char) (rotateMod : ℕ)
    (now : ℤ) (files : List Char → Option (List UInt8)) (opens : Bool) : Err × TimeRotHandler :=
  rotate unset {
    filepath := absFilepath.take (MAX_PATH - 1)
    fp := none
    rotateUnit := rotateUnit
    rotateMod := rotateMod
    lastSec := now
    lastTm := cal now
    files := files } opens

def next (cal : ℤ → Tm) (unset : List Char) (h : TimeRotHandler) (m : TimedWrite) :
    Option TimeRotHandler := (h.write cal unset m).map Prod.snd

/-- The fields that are divided are values of an `int`. -/
def IntFields (t : Tm) : Prop := ∀ unit, unitValue unit t < 2 ^ 31

/-- The date is in another period than the handler's last one. -/
def Differs (h : TimeRotHandler) (unit : RotateUnit) (t : Tm) : Prop :=
  (largerFields unit t, unitValue unit t / h.rotateMod) ≠
    (largerFields unit h.lastTm, unitValue unit h.lastTm / h.rotateMod)

def Decides (cal : ℤ → Tm) (h : TimeRotHandler) (tvSec now : ℤ) : Prop :=
  ∃ b h', h.detect cal tvSec now = some (b, h') ∧
    ∀ unit, unitOf h.rotateUnit = some unit → h.rotateMod ≠ 0 →
      (b = true ↔ h.Differs unit (cal (recordSec tvSec now)))

variable {cal : ℤ → Tm} {unset : List Char} {rotateUnit : Char} {unit : RotateUnit}
  {h : TimeRotHandler} {curr last : Tm}

theorem fieldMod_of_lt {field : ℕ} (hlt : field < 2 ^ 31) (m : ℕ+) :
    fieldMod field m = some ((field / m : ℕ) : ℤ) := by
  have hle : field / m ≤ field := Nat.div_le_self ..
  rw [fieldMod, if_neg m.ne_zero, u32_of_lt (by omega), i32_of_lt (by omega)]

theorem natCast_bne (a b : ℕ) : ((a : ℤ) != (b : ℤ)) = (a != b) := by
  rw [Bool.eq_iff_iff, bne_iff_ne, bne_iff_ne, Ne, Nat.cast_inj]

theorem needRot_of_unit (hunit : unitOf rotateUnit = some unit) (m : ℕ+) (hcurr : IntFields curr)
    (hlast : IntFields last) :
    needRot rotateUnit m curr last = some (FileTimeRot.needRot unit m curr last) := by
  have hc := fieldMod_of_lt (hcurr unit) m
  have hl := fieldMod_of_lt (hlast unit) m
  rw [needRot, hunit]
  cases unit <;>
    simp only [unitValue] at hc hl <;>
    simp only [hc, hl, Option.bind_eq_bind, Option.bind_some, Option.pure_def, natCast_bne,
      FileTimeRot.needRot]

theorem needRot_zero (hunit : unitOf rotateUnit = some unit) :
    needRot rotateUnit 0 curr last = none := by
  rw [needRot, hunit]
  cases unit <;> rfl

structure Kept (rotateUnit : Char) (rotateMod : ℕ) (h : TimeRotHandler) : Prop where
  rotateUnit : h.rotateUnit = rotateUnit
  rotateMod : h.rotateMod = rotateMod
  lastTm : IntFields h.lastTm

variable {rotateMod : ℕ}

theorem Kept.rotate (hk : Kept rotateUnit rotateMod h) (opens : Bool) :
    Kept rotateUnit rotateMod (h.rotate unset opens).2 := by
  rw [TimeRotHandler.rotate]
  split_ifs
  · exact ⟨hk.rotateUnit, hk.rotateMod, hk.lastTm⟩
  · exact ⟨hk.rotateUnit, hk.rotateMod, hk.lastTm⟩

theorem Kept.detect (hcal : ∀ t, IntFields (cal t)) (hk : Kept rotateUnit rotateMod h)
    {tvSec now : ℤ} {r : Bool × TimeRotHandler} (hr : h.detect cal tvSec now = some r) :
    Kept rotateUnit rotateMod r.2 := by
  rw [TimeRotHandler.detect] at hr
  simp only at hr
  split_ifs at hr
  · cases hr
    exact hk
  · obtain ⟨b, -, rfl⟩ := Option.map_eq_some_iff.mp hr
    exact ⟨hk.rotateUnit, hk.rotateMod, hcal _⟩

theorem Kept.next (hcal : ∀ t, IntFields (cal t)) (hk : Kept rotateUnit rotateMod h)
    {m : TimedWrite} {h' : TimeRotHandler} (hnext : next cal unset h m = some h') :
    Kept rotateUnit rotateMod h' := by
  obtain ⟨⟨ret, h''⟩, hwrite, rfl⟩ := Option.map_eq_some_iff.mp hnext
  rw [write] at hwrite
  cases hfmt : m.call.fmt with
  | none =>
    rw [hfmt] at hwrite
    cases hwrite
    exact hk
  | some f =>
    simp only [hfmt] at hwrite
    split_ifs at hwrite with hneg
    · cases hwrite
      exact hk
    · cases hfp : h.fp with
      | none =>
        rw [hfp] at hwrite
        cases hwrite
        exact hk
      | some path =>
        simp only [hfp, Option.bind_eq_some_iff, Option.map_eq_some_iff] at hwrite
        obtain ⟨bytes, -, r, hr, heq⟩ := hwrite
        cases heq
        have hr' : Kept rotateUnit rotateMod r.2 := by
          refine Kept.detect hcal ?_ hr
          exact ⟨hk.rotateUnit, hk.rotateMod, hk.lastTm⟩
        simp only
        split_ifs
        · exact hr'.rotate _
        · exact hr'

/-- **A write decides as it should** exactly if no `case` is for the unit, or the record is later
than the last one and the divisor is not zero, or it is not later and of the same period. -/
theorem decides_iff (hcal : ∀ t, IntFields (cal t)) (absFilepath : List Char) (start : ℤ)
    (files : List Char → Option (List UInt8))
    (hh : Steps.Reach (next cal unset) Steps.anyStep
      (init cal unset absFilepath rotateUnit rotateMod start files true).2 h) (tvSec now : ℤ) :
    h.Decides cal tvSec now ↔ ∀ unit, unitOf rotateUnit = some unit →
      if h.lastSec < recordSec tvSec now then rotateMod ≠ 0
      else rotateMod ≠ 0 → ¬ h.Differs unit (cal (recordSec tvSec now)) := by
  have hk : Kept rotateUnit rotateMod h := by
    refine hh.invariant ?_ fun s m s' hs _ hnext => hs.next hcal hnext
    refine Kept.rotate ?_ true
    exact ⟨rfl, rfl, hcal start⟩
  obtain ⟨rfl, rfl, hlast⟩ := hk
  rw [Decides, detect]
  simp only [ge_iff_le]
  by_cases hsec : h.lastSec < recordSec tvSec now
  · simp only [if_neg (not_le.mpr hsec), if_pos hsec]
    cases hunit : unitOf h.rotateUnit with
    | none =>
      have hswitch : needRot h.rotateUnit h.rotateMod (cal (recordSec tvSec now)) h.lastTm =
          some false := by rw [needRot, hunit]
      rw [hswitch]
      exact iff_of_true ⟨_, _, rfl, by simp⟩ (by simp)
    | some unit =>
      simp only [Option.some.injEq, forall_eq']
      rcases Nat.eq_zero_or_pos h.rotateMod with hzero | hpos
      · simp [hzero, needRot_zero hunit]
      · have hdecide := needRot_of_unit hunit ⟨h.rotateMod, hpos⟩ (hcal (recordSec tvSec now)) hlast
        rw [PNat.mk_coe] at hdecide
        rw [hdecide]
        exact iff_of_true ⟨_, _, rfl, fun _ => needRot_iff⟩ hpos.ne'
  · simp only [if_pos (not_lt.mp hsec), if_neg hsec]
    constructor
    · rintro ⟨b, h', heq, hdiff⟩ unit hunit hmod
      cases heq
      exact fun hd => Bool.false_ne_true ((hdiff unit hunit hmod).mpr hd)
    · exact fun hsame => ⟨_, _, rfl, fun unit hunit hmod =>
        iff_of_false Bool.false_ne_true (hsame unit hunit hmod)⟩

theorem intFields_firstMinute (t : ℤ) : IntFields (firstMinute t) := by
  intro unit
  have := min_le_right t.toNat 59
  cases unit <;> simp only [unitValue, firstMinute] <;> omega

theorem decides_uintMax :
    (init firstMinute [] ['l'] 's' (2 ^ 32 - 1) 1 (fun _ => none) true).2.Decides
      firstMinute 2 2 := by
  refine (decides_iff intFields_firstMinute ['l'] 1 (fun _ => none) .start 2 2).mpr fun _ _ => ?_
  rw [if_pos (by decide)]
  decide

theorem not_decides_zero :
    (init firstMinute [] ['l'] 's' 0 1 (fun _ => none) true).1 = .ok ∧
      next firstMinute [] (init firstMinute [] ['l'] 's' 0 1 (fun _ => none) true).2
        (oneByteAt 2) = none ∧
      ¬ (init firstMinute [] ['l'] 's' 0 1 (fun _ => none) true).2.Decides firstMinute 2 2 :=
  ⟨rfl, rfl, fun ⟨_, _, h, _⟩ => nomatch h⟩

end TimeRotHandler

end Mugglec
