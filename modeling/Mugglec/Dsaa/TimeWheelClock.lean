import Mugglec.Machinery.Steps
import Mugglec.Dsaa.TimeWheelTick

/-!
# Dsaa/TimeWheelClock — how far the clock moves the wheel

`update` measures the time since the last `update`, goes on by the whole units in it and measures
the next from now on.  What is left of a unit is lost.
-/

namespace Mugglec

open TimeWheel

variable {A : Type}

def TimeWheel.unitNs (W : TimeWheel A) : ℕ := W.unitMs * 1000000

theorem ite_one_eq_iff {p q : Prop} [Decidable p] [Decidable q] :
    ((if p then 1 else 0) = if q then 1 else 0) ↔ (q ↔ p) := by
  by_cases hp : p <;> by_cases hq : q <;> simp [hp, hq]

theorem ms_div_unit {unit δ : ℕ} (hunit : 0 < unit) (up : Prop) [Decidable up] :
    (δ / 1000000 + if up ∧ δ % 1000000 ≠ 0 then 1 else 0) / unit =
      δ / (unit * 1000000) +
        if up ∧ unit * 1000000 < δ % (unit * 1000000) + 1000000 then 1 else 0 := by
  have hms : δ / 1000000 = unit * (δ / (unit * 1000000)) + δ / 1000000 % unit := by
    rw [Nat.mul_comm unit 1000000, ← Nat.div_div_eq_div_mul, Nat.div_add_mod]
  have hmod : δ % (unit * 1000000) = δ % 1000000 + 1000000 * (δ / 1000000 % unit) := by
    rw [Nat.mul_comm unit 1000000, Nat.mod_mul]
  have hlt : δ / 1000000 % unit < unit := Nat.mod_lt _ hunit
  rw [hmod]
  set q := δ / (unit * 1000000)
  set c := δ / 1000000 % unit
  rw [hms, Nat.add_assoc, Nat.mul_add_div hunit]
  congr 1
  by_cases hup : up
  · simp only [hup, true_and]
    by_cases hrest : δ % 1000000 = 0
    · rw [if_neg (not_not.mpr hrest), if_neg (by rw [hrest]; omega), Nat.add_zero,
        Nat.div_eq_of_lt hlt]
    · rw [if_pos hrest]
      have := Nat.mod_lt δ (show 0 < 1000000 by decide)
      by_cases hlast : c + 1 = unit
      · rw [hlast, Nat.div_self hunit, if_pos (by omega)]
      · rw [Nat.div_eq_of_lt (by omega), if_neg (by omega)]
  · simp only [hup, false_and, if_false, Nat.add_zero]
    exact Nat.div_eq_of_lt hlt

theorem nSlot_eq {W : TimeWheel A} {t t' : ℕ} (hstart : W.tc.startTs = .ofNs t) (ht : t ≤ t')
    (hn : W.n < 2 ^ 32) (hunit : 0 < W.unitMs) (hlt : t' - t < W.n * W.unitNs) :
    W.nSlot (.ofNs t') = (t' - t) / W.unitNs +
      if t' % 1000000000 < t % 1000000000 ∧ W.unitNs < (t' - t) % W.unitNs + 1000000
      then 1 else 0 := by
  set k := (t' - t) / W.unitNs + if t' % 1000000000 < t % 1000000000 ∧
    W.unitNs < (t' - t) % W.unitNs + 1000000 then 1 else 0 with hk
  have hle : k ≤ W.n := by
    have hpos : 0 < W.unitNs := Nat.mul_pos hunit (by decide)
    have hquot : (t' - t) / W.unitNs < W.n := (Nat.div_lt_iff_lt_mul hpos).mpr hlt
    rw [hk]
    split_ifs <;> omega
  have hms : (W.tc.setEnd (.ofNs t')).intervalMs =
      TimeCounter.intervalMs ⟨.ofNs t, .ofNs t'⟩ := by
    rw [← hstart]
    rfl
  have hdiv : (W.tc.setEnd (.ofNs t')).intervalMs.tdiv W.unitMs = k := by
    rw [hms, TimeCounter.intervalMs_ofNs ht, ← Int.ofNat_tdiv, ms_div_unit hunit]
    rfl
  have hmod : ((k : ℤ) % 2 ^ 32).toNat = k := by
    rw [Int.emod_eq_of_lt (Int.natCast_nonneg k) (by exact_mod_cast hle.trans_lt hn),
      Int.toNat_natCast]
  simp only [nSlot, hdiv, hmod]
  exact if_neg (not_lt.mpr hle)

def SameClock (W W' : TimeWheel A) : Prop :=
  W'.n = W.n ∧ W'.unitMs = W.unitMs ∧ W'.tc = W.tc

variable {W W' W'' : TimeWheel A} {a : A} {f : List A → WheelAct} {rounds k : ℕ}

theorem SameClock.trans (h : SameClock W W') (h' : SameClock W' W'') : SameClock W W'' :=
  ⟨h'.1.trans h.1, h'.2.1.trans h.2.1, h'.2.2.trans h.2.2⟩

variable [DecidableEq A]

theorem sameClock_remove (h : W.remove a = some W') : SameClock W W' := by
  simp only [TimeWheel.remove, Option.bind_eq_bind, Option.bind_eq_some_iff] at h
  obtain ⟨-, -, -, -, -, -, heap, -, h⟩ := h
  cases h
  exact ⟨rfl, rfl, rfl⟩

theorem sameClock_insert (h : W.insert a = some W') : SameClock W W' := by
  obtain ⟨-, hn, -, -, hunit, htc⟩ := insertIdx_snd W
  simp only [TimeWheel.insert, Option.bind_eq_bind, Option.bind_eq_some_iff] at h
  obtain ⟨-, -, -, -, -, -, -, -, heap, -, h⟩ := h
  cases h
  exact ⟨hn, hunit, htc⟩

theorem sameClock_act {act : WheelAct} (h : W.act a act = some W') : SameClock W W' := by
  cases act with
  | leave =>
    cases h
    exact ⟨rfl, rfl, rfl⟩
  | remove => exact sameClock_remove h
  | refresh =>
    obtain ⟨W₁, hremove, hinsert⟩ := Option.bind_eq_some_iff.mp h
    exact (sameClock_remove hremove).trans (sameClock_insert hinsert)

theorem updateN_ok {calls : List (List A)} (h : W.updateN (acting f) rounds k = .ok (W', calls)) :
    SameClock W W' ∧ calls.length = k := by
  induction k generalizing W calls with
  | zero =>
    cases h
    exact ⟨⟨rfl, rfl, rfl⟩, rfl⟩
  | succ k ih =>
    rw [updateN] at h
    cases htick : W.tick (acting f) rounds with
    | error e =>
      rw [htick] at h
      exact absurd h (by simp [bind, Except.bind])
    | ok r =>
      cases hrest : r.1.updateN (acting f) rounds k with
      | error e =>
        simp only [htick, bind, Except.bind, hrest] at h
        cases h
      | ok r' =>
        simp only [htick, bind, Except.bind, hrest] at h
        cases h
        obtain ⟨hsame, hlen⟩ := ih hrest
        have hwalk := walk_rule (P := fun W' _ => SameClock W.advance W')
          (fun _ _ _ _ hcb hsame => hsame.trans (sameClock_act hcb)) htick ⟨rfl, rfl, rfl⟩
        exact ⟨hwalk.trans hsame, congrArg (· + 1) hlen⟩

theorem update_ok {now : Timespec} {calls : List (List A)}
    (h : W.update (acting f) rounds now = .ok (W', calls)) :
    calls.length = W.nSlot now ∧ W'.n = W.n ∧ W'.unitMs = W.unitMs ∧ W'.tc.startTs = now := by
  rw [TimeWheel.update] at h
  cases hn : updateN (acting f) rounds (W.nSlot now) { W with tc := W.tc.setEnd now } with
  | error e =>
    rw [hn] at h
    exact absurd h (by simp [bind, Except.bind])
  | ok r =>
    rw [hn] at h
    obtain ⟨⟨hslots, hunit, htc⟩, hlen⟩ := updateN_ok hn
    cases h
    refine ⟨hlen, hslots, hunit, ?_⟩
    simp only [TimeCounter.moveEndToStart, htc]
    rfl

inductive ClockCall (A : Type) where
  | insert (a : A)
  | remove (a : A)
  | update (rounds : ℕ) (f : List A → WheelAct) (now : ℕ)

structure ClockRun (A : Type) where
  wheel : TimeWheel A
  total : ℕ
  started : ℕ
  last : ℕ

namespace ClockRun

def next (s : ClockRun A) : ClockCall A → Option (ClockRun A)
  | .insert a => (s.wheel.insert a).map fun W => { s with wheel := W }
  | .remove a => (s.wheel.remove a).map fun W => { s with wheel := W }
  | .update rounds f now =>
    match s.wheel.update (acting f) rounds (.ofNs now) with
    | .ok (W, calls) => some { s with wheel := W, total := s.total + calls.length, last := now }
    | .error _ => none

def Timely (s : ClockRun A) : ClockCall A → Prop
  | .update _ _ now => s.last ≤ now ∧ now - s.last < s.wheel.n * s.wheel.unitNs
  | _ => True

instance (s : ClockRun A) (c : ClockCall A) : Decidable (s.Timely c) :=
  match c with
  | .update _ _ _ => inferInstanceAs (Decidable (_ ∧ _))
  | .insert _ | .remove _ => .isTrue trivial

def KeepsUp (s : ClockRun A) : Prop := s.total = (s.last - s.started) / s.wheel.unitNs

def NoLoss (s : ClockRun A) : ClockCall A → Prop
  | .update _ _ now =>
    s.wheel.unitNs ≤ (s.last - s.started) % s.wheel.unitNs + (now - s.last) % s.wheel.unitNs ↔
      now % 1000000000 < s.last % 1000000000 ∧
        s.wheel.unitNs < (now - s.last) % s.wheel.unitNs + 1000000
  | _ => True

instance (s : ClockRun A) (c : ClockCall A) : Decidable (s.NoLoss c) :=
  match c with
  | .update _ _ _ => inferInstanceAs (Decidable (_ ↔ _))
  | .insert _ | .remove _ => .isTrue trivial

structure Running (n unitMs : ℕ) (s : ClockRun A) : Prop where
  n : s.wheel.n = n
  unitMs : s.wheel.unitMs = unitMs
  start : s.wheel.tc.startTs = .ofNs s.last
  le : s.started ≤ s.last

variable {n unitMs : ℕ} {s s' : ClockRun A} {c : ClockCall A}

omit [DecidableEq A] in
theorem Running.of_sameClock (h : Running n unitMs s) {W : TimeWheel A}
    (hsame : SameClock s.wheel W) : Running n unitMs { s with wheel := W } :=
  ⟨hsame.1.trans h.n, hsame.2.1.trans h.unitMs, (congrArg _ hsame.2.2).trans h.start, h.le⟩

theorem Running.next (h : Running n unitMs s) (hc : s.Timely c) (hnext : s.next c = some s') :
    Running n unitMs s' ∧ s'.started = s.started ∧
      ((∃ rounds f now, c = .update rounds f now ∧ s'.last = now ∧
        s'.total = s.total + s.wheel.nSlot (.ofNs now)) ∨
      ((∀ rounds f now, c ≠ .update rounds f now) ∧ s'.last = s.last ∧ s'.total = s.total)) := by
  cases c with
  | insert a =>
    obtain ⟨W, hcall, rfl⟩ := Option.map_eq_some_iff.mp hnext
    exact ⟨h.of_sameClock (sameClock_insert hcall), rfl, .inr ⟨by simp, rfl, rfl⟩⟩
  | remove a =>
    obtain ⟨W, hcall, rfl⟩ := Option.map_eq_some_iff.mp hnext
    exact ⟨h.of_sameClock (sameClock_remove hcall), rfl, .inr ⟨by simp, rfl, rfl⟩⟩
  | update rounds f now =>
    rw [ClockRun.next] at hnext
    cases hcall : s.wheel.update (acting f) rounds (.ofNs now) with
    | error e =>
      rw [hcall] at hnext
      cases hnext
    | ok r =>
      rw [hcall] at hnext
      cases hnext
      obtain ⟨hlen, hn, hunit, hstart⟩ := update_ok hcall
      refine ⟨⟨hn.trans h.n, hunit.trans h.unitMs, hstart, h.le.trans hc.1⟩, rfl,
        .inl ⟨rounds, f, now, rfl, rfl, ?_⟩⟩
      rw [hlen]

theorem Running.keepsUp_iff (h : Running n unitMs s) (hn : n < 2 ^ 32) (hunit : 0 < unitMs)
    (hc : s.Timely c) (hnext : s.next c = some s') (hkeeps : s.KeepsUp) :
    s'.KeepsUp ↔ s.NoLoss c := by
  obtain ⟨h', hstarted, heffect⟩ := h.next hc hnext
  have hns : s'.wheel.unitNs = s.wheel.unitNs := by
    rw [unitNs, unitNs, h.unitMs, h'.unitMs]
  obtain ⟨rounds, f, now, rfl, rfl, htotal⟩ | ⟨hother, hlast, htotal⟩ := heffect
  · have hpos : 0 < s.wheel.unitNs := Nat.mul_pos (h.unitMs ▸ hunit) (by decide)
    have hsum : s'.last - s.started = (s.last - s.started) + (s'.last - s.last) := by
      have := h.le
      have := hc.1
      omega
    rw [KeepsUp, htotal, hstarted, hns, hsum, Nat.add_div hpos, hkeeps,
      nSlot_eq h.start hc.1 (h.n ▸ hn) (h.unitMs ▸ hunit) hc.2, ← Nat.add_assoc, NoLoss,
      Nat.add_left_cancel_iff, ite_one_eq_iff]
  · refine iff_of_true ?_ ?_
    · rw [KeepsUp, htotal, hstarted, hlast, hns]
      exact hkeeps
    · cases c with
      | update rounds f now => exact absurd rfl (hother rounds f now)
      | insert => trivial
      | remove => trivial

/-- **After every call the total is that of the time since `init`** exactly if no unit is lost at
any of them. -/
theorem keepsUp_always_iff {mode t₀ : ℕ} {nodes : A → WheelCell A} {mem : Bool} {W : TimeWheel A}
    (hn : n < 2 ^ 32) (hunit : 0 < unitMs)
    (hW : TimeWheel.init n unitMs mode (.ofNs t₀) nodes mem = some W) {cs : List (ClockCall A)}
    (hrun : Steps.execWhen ClockRun.next (fun s c => decide (Timely s c)) ⟨W, 0, t₀, t₀⟩ cs =
      some s) :
    Steps.Always ClockRun.next KeepsUp ⟨W, 0, t₀, t₀⟩ cs ↔
      Steps.EachStep ClockRun.next NoLoss ⟨W, 0, t₀, t₀⟩ cs := by
  rw [TimeWheel.init] at hW
  split_ifs at hW
  cases hW
  have hstep : ∀ (s : ClockRun A) (c : ClockCall A) s', Running n unitMs s → Timely s c →
      s.next c = some s' → KeepsUp s → (KeepsUp s' ↔ NoLoss s c) :=
    fun s c s' h hc hnext hkeeps => h.keepsUp_iff hn hunit hc hnext hkeeps
  refine Steps.always_iff_eachStep (fun s c s' h hc hnext => (h.next hc hnext).1) hstep _
    (fun _ _ => of_decide_eq_true) ⟨rfl, rfl, rfl, le_rfl⟩ ?_ hrun
  simp [KeepsUp]

def onTheUnit : List (ClockCall ℕ) :=
  [.update 1 (fun _ => .leave) 10000000, .update 1 (fun _ => .leave) 25000000]

theorem keepsUp_onTheUnit :
    (Steps.execWhen ClockRun.next (fun s c => decide (Timely s c)) ⟨emptyWheel 4, 0, 0, 0⟩
      onTheUnit).map (·.total) = some 2 ∧
    Steps.Always ClockRun.next KeepsUp ⟨emptyWheel 4, 0, 0, 0⟩ onTheUnit := by
  have hrun : (Steps.execWhen ClockRun.next (fun s c => decide (Timely s c))
      ⟨emptyWheel 4, 0, 0, 0⟩ onTheUnit).map (·.total) = some 2 := by
    decide
  obtain ⟨s, hs, -⟩ := Option.map_eq_some_iff.mp hrun
  have hinit : TimeWheel.init 4 10 insertModeCurrent (.ofNs 0) (fun _ => ⟨none, none, ()⟩) true =
    some (emptyWheel 4) := rfl
  exact ⟨hrun, (keepsUp_always_iff (by decide) (by decide) hinit hs).mpr (by decide)⟩

theorem loses_halves : ∃ s : ClockRun ℕ,
    Steps.execWhen ClockRun.next (fun s c => decide (Timely s c)) ⟨emptyWheel 4, 0, 0, 0⟩
      [.update 1 (fun _ => .leave) 5000000, .update 1 (fun _ => .leave) 10000000] = some s ∧
    s.total = 0 ∧ (s.last - s.started) / s.wheel.unitNs = 1 := by
  decide

end ClockRun

end Mugglec
