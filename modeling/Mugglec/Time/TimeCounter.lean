import Mathlib.Tactic

/-!
# Time/TimeCounter — the time counter of `time/time_counter.c`

Two readings of a clock, and the milliseconds between them.  Seconds and nanoseconds are subtracted
apart, and the nanoseconds' quotient is rounded toward zero, as C does: **where a second is borrowed
a millisecond that has begun counts as one** (`intervalMs_floors_iff`).
-/

namespace Mugglec

structure Timespec where
  sec : ℤ
  nsec : ℤ
deriving DecidableEq

def Timespec.ofNs (t : ℕ) : Timespec := ⟨t / 1000000000, t % 1000000000⟩

structure TimeCounter where
  startTs : Timespec
  endTs : Timespec

namespace TimeCounter

def start (now : Timespec) : TimeCounter := ⟨now, ⟨0, 0⟩⟩

def setEnd (tc : TimeCounter) (now : Timespec) : TimeCounter := { tc with endTs := now }

def intervalMs (tc : TimeCounter) : ℤ :=
  (tc.endTs.sec - tc.startTs.sec) * 1000 + (tc.endTs.nsec - tc.startTs.nsec).tdiv 1000000

def intervalNs (tc : TimeCounter) : ℤ :=
  (tc.endTs.sec - tc.startTs.sec) * 1000000000 + tc.endTs.nsec - tc.startTs.nsec

def moveEndToStart (tc : TimeCounter) : TimeCounter := { tc with startTs := tc.endTs }

theorem intervalMs_ofNs {t t' : ℕ} (h : t ≤ t') :
    intervalMs ⟨.ofNs t, .ofNs t'⟩ = (((t' - t) / 1000000 +
      if t' % 1000000000 < t % 1000000000 ∧ (t' - t) % 1000000 ≠ 0 then 1 else 0 : ℕ) : ℤ) := by
  simp only [intervalMs, Timespec.ofNs]
  by_cases hlt : t' % 1000000000 < t % 1000000000
  · have hneg : ((t' % 1000000000 : ℤ) - t % 1000000000).tdiv 1000000 =
        -(((t % 1000000000 - t' % 1000000000) / 1000000 : ℕ) : ℤ) := by
      rw [← neg_sub, Int.neg_tdiv, Int.tdiv_eq_ediv_of_nonneg (by omega)]
      omega
    rw [hneg]
    split_ifs <;> omega
  · rw [Int.tdiv_eq_ediv_of_nonneg (by omega), if_neg (fun hand => hlt hand.1)]
    omega

def nsResults (tc : TimeCounter) : List ℤ :=
  let sec := tc.endTs.sec - tc.startTs.sec
  [sec, sec * 1000000000, sec * 1000000000 + tc.endTs.nsec, tc.intervalNs]

/-- The results on the way to `muggle_time_counter_interval_ms`. -/
def msResults (tc : TimeCounter) : List ℤ :=
  let sec := tc.endTs.sec - tc.startTs.sec
  [sec, sec * 1000, tc.endTs.nsec - tc.startTs.nsec, tc.intervalMs]

structure Floors (tc : TimeCounter) : Prop where
  ns : ∀ v ∈ tc.nsResults, -2 ^ 63 ≤ v ∧ v < 2 ^ 63
  ms : ∀ v ∈ tc.msResults, -2 ^ 63 ≤ v ∧ v < 2 ^ 63
  floor : tc.intervalMs = tc.intervalNs / 1000000

theorem tdiv_eq_ediv_iff (n : ℤ) : n.tdiv 1000000 = n / 1000000 ↔ 0 ≤ n ∨ 1000000 ∣ n := by
  rw [Int.tdiv_eq_ediv]
  split_ifs with h
  · exact iff_of_true (Int.add_zero _) h
  · exact iff_of_false (by simp) h

theorem intervalMs_eq_iff (tc : TimeCounter) : tc.intervalMs = tc.intervalNs / 1000000 ↔
    tc.startTs.nsec ≤ tc.endTs.nsec ∨ 1000000 ∣ tc.endTs.nsec - tc.startTs.nsec := by
  have hsplit : tc.intervalNs / 1000000 =
      (tc.endTs.sec - tc.startTs.sec) * 1000 + (tc.endTs.nsec - tc.startTs.nsec) / 1000000 := by
    rw [intervalNs]
    omega
  rw [hsplit, intervalMs, Int.add_right_inj, tdiv_eq_ediv_iff, Int.sub_nonneg]

/-- **The interval in milliseconds is the floor of the one in nanoseconds** exactly if the latter
does not overflow and no second is borrowed for a part of a millisecond. -/
theorem intervalMs_floors_iff (tc : TimeCounter)
    (hstart : 0 ≤ tc.startTs.nsec ∧ tc.startTs.nsec < 1000000000)
    (hend : 0 ≤ tc.endTs.nsec ∧ tc.endTs.nsec < 1000000000)
    (hle : tc.startTs.sec < tc.endTs.sec ∨
      tc.startTs.sec = tc.endTs.sec ∧ tc.startTs.nsec ≤ tc.endTs.nsec) :
    tc.Floors ↔ (tc.endTs.sec - tc.startTs.sec) * 1000000000 + tc.endTs.nsec < 2 ^ 63 ∧
      (tc.startTs.nsec ≤ tc.endTs.nsec ∨ 1000000 ∣ tc.endTs.nsec - tc.startTs.nsec) := by
  rw [← intervalMs_eq_iff]
  constructor
  · exact fun h => ⟨(h.ns _ (by simp [nsResults])).2, h.floor⟩
  · rintro ⟨hfit, hfloor⟩
    refine ⟨?_, ?_, hfloor⟩
    · simp only [nsResults, intervalNs, List.forall_mem_cons]
      refine ⟨?_, ?_, ?_, ?_, List.forall_mem_nil _⟩ <;> omega
    · have hms := hfloor
      rw [intervalNs] at hms
      simp only [msResults, List.forall_mem_cons]
      refine ⟨?_, ?_, ?_, ?_, List.forall_mem_nil _⟩ <;> omega

theorem intervalMs_floors_halfSecond : Floors ⟨⟨5, 250000000⟩, ⟨6, 750000001⟩⟩ :=
  (intervalMs_floors_iff _ (by decide) (by decide) (by decide)).mpr (by decide)

/-- **One nanosecond is a millisecond** where the second changes. -/
theorem intervalMs_borrow :
    intervalMs ⟨⟨0, 999999999⟩, ⟨1, 0⟩⟩ = 1 ∧ intervalNs ⟨⟨0, 999999999⟩, ⟨1, 0⟩⟩ = 1 ∧
      ¬ Floors ⟨⟨0, 999999999⟩, ⟨1, 0⟩⟩ :=
  ⟨rfl, rfl, fun h => absurd h.floor (by decide)⟩

end TimeCounter

end Mugglec
