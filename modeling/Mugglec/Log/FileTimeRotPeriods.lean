import Mugglec.Log.FileTimeRotHandler

/-!
# Log/FileTimeRotPeriods — which records share a file

What a run stores depends on the seconds of its records alone (`Between.run`): each record goes to
the file that is open, and a file is opened *after* each record of another period than the one
before.
-/

namespace Mugglec

open CText

namespace FileTimeRot

def largerFields : RotateUnit → Tm → List ℕ
  | .sec, t => [t.tmYear, t.tmMon, t.tmMday, t.tmHour, t.tmMin]
  | .min, t => [t.tmYear, t.tmMon, t.tmMday, t.tmHour]
  | .hour, t => [t.tmYear, t.tmMon, t.tmMday]
  | .day, t => [t.tmYear, t.tmMon]

def unitValue : RotateUnit → Tm → ℕ
  | .sec, t => t.tmSec
  | .min, t => t.tmMin
  | .hour, t => t.tmHour
  | .day, t => t.tmMday

def period (rotateUnit : RotateUnit) (rotateMod : ℕ+) (t : Tm) : List ℕ × ℕ :=
  (largerFields rotateUnit t, unitValue rotateUnit t / rotateMod)

variable {rotateUnit : RotateUnit} {rotateMod : ℕ+}

theorem needRot_iff {curr last : Tm} : needRot rotateUnit rotateMod curr last = true ↔
    period rotateUnit rotateMod curr ≠ period rotateUnit rotateMod last := by
  cases rotateUnit <;>
    simp only [needRot, period, largerFields, unitValue, Bool.or_eq_true, bne_iff_ne, ne_eq,
      Prod.mk.injEq, List.cons.injEq, and_true] <;>
    tauto

def nameAt (cal : ℤ → Tm) (filepath : List Char) (rotateUnit : RotateUnit) (t : ℤ) : List Char :=
  snprintf MAX_PATH (datePath filepath rotateUnit (cal t))

abbrev periodAt (cal : ℤ → Tm) (rotateUnit : RotateUnit) (rotateMod : ℕ+) (t : ℤ) : List ℕ × ℕ :=
  period rotateUnit rotateMod (cal t)

section Trail

variable {π : Type} [DecidableEq π] (per : ℤ → π) (name : ℤ → List Char)

def trail (file : List Char) (prev : ℤ) : List ℤ → List StoredRecord
  | [] => []
  | s :: rest =>
    ⟨file, s, decide (per s ≠ per prev)⟩ :: trail (if per s ≠ per prev then name s else file) s rest

/-- **One period a file.** -/
def OnePeriod (stored : List StoredRecord) : Prop :=
  ∀ r ∈ stored, ∀ r' ∈ stored, r.file = r'.file → per r.sec = per r'.sec

def Settled (prev : ℤ) : List ℤ → Prop
  | [] => True
  | s :: rest => (per s ≠ per prev ∧ Settled s rest) ∨ ∀ x ∈ s :: rest, per x = per prev

instance decidableSettled : ∀ prev secs, Decidable (Settled per prev secs)
  | _, [] => .isTrue trivial
  | _, s :: rest =>
    have := decidableSettled s rest
    inferInstanceAs (Decidable (_ ∨ _))

variable {per name} {file : List Char} {prev s : ℤ} {secs rest : List ℤ} {r : StoredRecord}

omit [DecidableEq π] in
theorem OnePeriod.tail {stored : List StoredRecord} (h : OnePeriod per (r :: stored)) :
    OnePeriod per stored :=
  fun a ha b hb => h a (List.mem_cons_of_mem _ ha) b (List.mem_cons_of_mem _ hb)

theorem OnePeriod.all_of_same (h : OnePeriod per (trail per name file prev (s :: rest)))
    (hs : per s = per prev) : ∀ x ∈ rest, per x = per prev := by
  induction rest generalizing prev s with
  | nil => exact fun x hx => absurd hx List.not_mem_nil
  | cons x rest ih =>
    rw [trail, if_neg (not_not.mpr hs)] at h
    have hx : per x = per s :=
      h _ (List.mem_cons_of_mem _ List.mem_cons_self) _ List.mem_cons_self rfl
    intro y hy
    rcases List.mem_cons.mp hy with rfl | hy
    · exact hx.trans hs
    · exact (ih h.tail hx y hy).trans hs

theorem OnePeriod.settled (h : OnePeriod per (trail per name file prev secs)) :
    Settled per prev secs := by
  induction secs generalizing file prev with
  | nil => trivial
  | cons s rest ih =>
    by_cases hs : per s = per prev
    · exact .inr (List.forall_mem_cons.mpr ⟨hs, h.all_of_same hs⟩)
    · exact .inl ⟨hs, ih h.tail⟩

end Trail

structure TimedWrite where
  call : LogWrite
  tvSec : ℤ
  now : ℤ
deriving DecidableEq, Repr

def TimedWrite.recorded (m : TimedWrite) : Bool :=
  match m.call.fmt with
  | none => false
  | some f => 0 ≤ f.ret

structure TimedWrite.Regular (m : TimedWrite) : Prop where
  whole : ∀ f ∈ m.call.fmt, f.ret ≤ f.buf.length
  opens : m.call.opens = true
  timed : m.tvSec ≠ 0

def recordSecs (ms : List TimedWrite) : List ℤ :=
  (ms.filter TimedWrite.recorded).map TimedWrite.tvSec

def run (cal : ℤ → Tm) (h : FileTimeRot) (ms : List TimedWrite) : Option FileTimeRot :=
  ms.foldlM (fun h m => (h.write cal m.call m.tvSec m.now).map Prod.snd) h

variable {cal : ℤ → Tm} {h : FileTimeRot} {file : List Char} {prev : ℤ}

structure Between (cal : ℤ → Tm) (file : List Char) (prev : ℤ) (h : FileTimeRot) : Prop where
  fp : h.fp = some file
  lastSec : h.lastSec = prev
  lastTm : h.lastTm = cal prev

theorem write_of_not_recorded {m : TimedWrite} (hm : m.recorded = false) :
    (h.write cal m.call m.tvSec m.now).map Prod.snd = some h := by
  rw [write]
  cases hfmt : m.call.fmt with
  | none => rfl
  | some f =>
    rw [TimedWrite.recorded, hfmt] at hm
    have hneg : f.ret < 0 := not_le.mp (of_decide_eq_false hm)
    simp only [if_pos hneg]
    rfl

theorem Between.detect (hb : Between cal file prev h) {tvSec : ℤ} (htimed : tvSec ≠ 0)
    (hle : prev ≤ tvSec) (now : ℤ) :
    h.detect cal tvSec now =
      (decide (periodAt cal h.rotateUnit h.rotateMod tvSec ≠
        periodAt cal h.rotateUnit h.rotateMod prev),
        { h with lastSec := tvSec, lastTm := cal tvSec }) := by
  obtain ⟨filepath, fp, rotateUnit, rotateMod, lastSec, lastTm, files, stored⟩ := h
  obtain ⟨hfp, hsec, htm⟩ := hb
  dsimp only at hfp hsec htm
  subst hfp hsec htm
  rw [FileTimeRot.detect, if_neg htimed]
  rcases hle.eq_or_lt with rfl | hlt
  · simp only [ge_iff_le, le_refl, if_true, ne_eq, not_true, decide_false]
  · rw [if_neg (not_le.mpr hlt)]
    simp only [Prod.mk.injEq, and_true]
    exact Bool.eq_iff_iff.mpr (needRot_iff.trans decide_eq_true_iff.symm)

theorem Between.write (hb : Between cal file prev h) {m : TimedWrite} (hm : m.Regular)
    (hrec : m.recorded = true) (hle : prev ≤ m.tvSec) :
    ∃ h', (h.write cal m.call m.tvSec m.now).map Prod.snd = some h' ∧
      h'.stored = h.stored ++ [⟨file, m.tvSec,
        decide (periodAt cal h.rotateUnit h.rotateMod m.tvSec ≠
          periodAt cal h.rotateUnit h.rotateMod prev)⟩] ∧
      h'.filepath = h.filepath ∧ h'.rotateUnit = h.rotateUnit ∧ h'.rotateMod = h.rotateMod ∧
      Between cal (if periodAt cal h.rotateUnit h.rotateMod m.tvSec ≠
          periodAt cal h.rotateUnit h.rotateMod prev
        then nameAt cal h.filepath h.rotateUnit m.tvSec else file) m.tvSec h' := by
  cases hfmt : m.call.fmt with
  | none => simp [TimedWrite.recorded, hfmt] at hrec
  | some f =>
    have hpos : ¬ f.ret < 0 := by simpa [TimedWrite.recorded, hfmt] using hrec
    have hwrite : f.fwrite m.call.accepted = some ((f.buf.take f.ret.toNat).take m.call.accepted) :=
      if_pos (hm.whole f hfmt)
    obtain ⟨filepath, fp, rotateUnit, rotateMod, lastSec, lastTm, files, stored⟩ := h
    obtain ⟨hfp, hsec, htm⟩ := hb
    dsimp only at hfp hsec htm
    subst hfp hsec htm
    have hbetween (files) : Between cal file lastSec
        ⟨filepath, some file, rotateUnit, rotateMod, lastSec, cal lastSec, files, stored⟩ :=
      ⟨rfl, rfl, rfl⟩
    have hdetect := fun files => (hbetween files).detect hm.timed hle m.now
    simp only [FileTimeRot.write, hfmt, if_neg hpos, hwrite, Option.bind_eq_bind,
      Option.bind_some, hdetect, decide_eq_true_eq, Option.pure_def, Option.map_some]
    by_cases hper : periodAt cal rotateUnit rotateMod m.tvSec =
        periodAt cal rotateUnit rotateMod lastSec
    · simp only [hper, ne_eq, not_true, if_false]
      exact ⟨_, rfl, rfl, rfl, rfl, rfl, rfl, rfl, rfl⟩
    · simp only [hper, ne_eq, not_false_eq_true, if_true, rotate, hm.opens]
      exact ⟨_, rfl, rfl, rfl, rfl, rfl, rfl, rfl, rfl⟩

theorem Between.run (hb : Between cal file prev h) {ms : List TimedWrite}
    (hms : ∀ m ∈ ms, m.Regular) (hsorted : (prev :: recordSecs ms).Pairwise (· ≤ ·)) :
    ∃ h', h.run cal ms = some h' ∧
      h'.stored = h.stored ++ trail (periodAt cal h.rotateUnit h.rotateMod)
        (nameAt cal h.filepath h.rotateUnit) file prev (recordSecs ms) := by
  induction ms generalizing h file prev with
  | nil => exact ⟨h, rfl, (List.append_nil _).symm⟩
  | cons m ms ih =>
    rw [FileTimeRot.run, List.foldlM_cons]
    obtain ⟨hm, hms⟩ := List.forall_mem_cons.mp hms
    by_cases hrec : m.recorded = true
    · have hsecs : recordSecs (m :: ms) = m.tvSec :: recordSecs ms := by
        rw [recordSecs, List.filter_cons_of_pos hrec, List.map_cons, recordSecs]
      rw [hsecs] at hsorted ⊢
      obtain ⟨hle, htail⟩ := List.pairwise_cons.mp hsorted
      obtain ⟨h', hw, hstored, hpath, hunit, hmod, hb'⟩ :=
        hb.write hm hrec (hle _ List.mem_cons_self)
      obtain ⟨h'', hrun, hstored'⟩ := ih hb' hms htail
      rw [hw]
      refine ⟨h'', hrun, ?_⟩
      rw [hstored', hstored, hpath, hunit, hmod, trail, List.append_assoc, List.singleton_append]
    · have hrec : m.recorded = false := Bool.eq_false_iff.mpr hrec
      have hsecs : recordSecs (m :: ms) = recordSecs ms := by
        rw [recordSecs, List.filter_cons_of_neg (by rw [hrec]; decide), recordSecs]
      rw [hsecs] at hsorted ⊢
      rw [write_of_not_recorded hrec]
      exact ih hb hms hsorted

def Fits (cal : ℤ → Tm) (filepath : List Char) (rotateUnit : RotateUnit) (secs : List ℤ) : Prop :=
  ∀ t ∈ secs, (datePath filepath rotateUnit (cal t)).length < MAX_PATH

def firstMinute (t : ℤ) : Tm := ⟨min t.toNat 59, 0, 0, 1, 0, 70⟩

def oneByteAt (t : ℤ) : TimedWrite := ⟨⟨some ⟨1, [76]⟩, 1, true⟩, t, t⟩

end FileTimeRot

end Mugglec
