import Mugglec.Base.Utils
import Mugglec.Machinery.Packing

/-!
# Base/Str — counting the occurrences of a substring (`base/str.c`)

`muggle_str_count` searches from the left with `strstr`, steps behind what it has found and goes on,
up to the end of the range.
-/

namespace Mugglec

open Packing

variable {s sub : List UInt8} {pos p stop : ℕ}

def strstr (s sub : List UInt8) (pos : ℕ) : Option ℕ :=
  (List.range' pos (s.length + 1 - pos)).find? fun i => sub.isPrefixOf (s.drop i)

def countLoop (s sub : List UInt8) (endPos : ℕ) : ℕ → ℕ → ℕ → Option ℕ
  | 0, _, _ => none
  | rounds + 1, pos, cnt =>
    match strstr s sub pos with
    | none => some cnt
    | some pos =>
      if pos + sub.length > endPos then some cnt
      else if pos + sub.length ≥ endPos then some (cnt + 1)
      else countLoop s sub endPos rounds (pos + sub.length) (cnt + 1)

def strCount (str sub : Option (List UInt8)) (start stop : ℤ) (rounds : ℕ) : Option ℕ :=
  match str, sub with
  | some s, some sub =>
    let strLen := i32 (u32 s.length)
    if start < 0 ∨ stop < 0 then some 0
    else if start ≥ strLen then some 0
    else
      let stop := if stop = 0 then strLen else stop
      let stop := if stop > strLen then strLen else stop
      if stop ≤ start then some 0
      else countLoop s sub stop.toNat rounds start.toNat 0
  | _, _ => some 0

def OccursAt (sub s : List UInt8) (i : ℕ) : Prop := sub <+: s.drop i

theorem OccursAt.le (h : OccursAt sub s p) (hsub : sub ≠ []) : p ≤ s.length := by
  have hlen := h.length_le
  have hpos := List.length_pos_of_ne_nil hsub
  rw [List.length_drop] at hlen
  omega

theorem strstr_eq_some (h : strstr s sub pos = some p) :
    pos ≤ p ∧ OccursAt sub s p ∧ ∀ q, pos ≤ q → OccursAt sub s q → p ≤ q := by
  obtain ⟨hocc, hmem, hfirst⟩ := List.find?_range'_eq_some.mp h
  refine ⟨(List.mem_range'_1.mp hmem).1, List.isPrefixOf_iff_prefix.mp hocc, fun q hq hq' => ?_⟩
  by_contra hlt
  have hnot := hfirst q hq (by omega)
  rw [List.isPrefixOf_iff_prefix.mpr hq'] at hnot
  cases hnot

theorem strstr_eq_none (h : strstr s sub pos = none) (hsub : sub ≠ []) {q : ℕ} (hq : pos ≤ q) :
    ¬ OccursAt sub s q := by
  intro hocc
  have hle := hocc.le hsub
  have hnot := List.find?_eq_none.mp h q (List.mem_range'_1.mpr ⟨hq, by omega⟩)
  exact hnot (List.isPrefixOf_iff_prefix.mpr hocc)

theorem strstr_nil (hpos : pos ≤ s.length) : strstr s [] pos = some pos := by
  refine List.find?_range'_eq_some.mpr ⟨rfl, List.mem_range'_1.mpr ⟨le_rfl, by omega⟩, ?_⟩
  intro j hj hlt
  omega

def occurrenceCounts (s sub : List UInt8) (start stop : ℕ) : Set ℕ :=
  sizes (OccursAt sub s) sub.length start stop

theorem countLoop_eq (hsub : sub ≠ []) (hpos : pos < stop) (cnt : ℕ) :
    ∃ n, IsGreatest (occurrenceCounts s sub pos stop) n ∧
      ∀ rounds, stop - pos ≤ rounds → countLoop s sub stop rounds pos cnt = some (cnt + n) := by
  have hlen := List.length_pos_of_ne_nil hsub
  -- every round moves `pos` by the length of the substring at least
  induction hd : stop - pos using Nat.strong_induction_on generalizing pos cnt with
  | _ d ih =>
    have hone : ∀ rounds, d ≤ rounds → ∃ r, rounds = r + 1 := fun rounds hr =>
      Nat.exists_eq_add_one_of_ne_zero (by omega)
    cases hfind : strstr s sub pos with
    | none =>
      refine ⟨0, isGreatest_zero fun q hq hocc => absurd hocc (strstr_eq_none hfind hsub hq), ?_⟩
      intro rounds hr
      obtain ⟨r, rfl⟩ := hone rounds hr
      simp only [countLoop, hfind, Nat.add_zero]
    | some p =>
      obtain ⟨hle, hocc, hfirst⟩ := strstr_eq_some hfind
      rcases lt_or_ge stop (p + sub.length) with hbeyond | hinside
      · -- the first occurrence lies beyond the end
        refine ⟨0, isGreatest_zero fun q hq hocc' => ?_, fun rounds hr => ?_⟩
        · have := hfirst q hq hocc'
          omega
        · obtain ⟨r, rfl⟩ := hone rounds hr
          simp only [countLoop, hfind, if_pos hbeyond, Nat.add_zero]
      rcases eq_or_lt_of_le hinside with hend | hlt
      · -- it ends where the range does
        have hrest : IsGreatest (occurrenceCounts s sub (p + sub.length) stop) 0 :=
          isGreatest_zero fun q hq _ => by omega
        refine ⟨1, isGreatest_succ hlen hle hocc hinside hfirst hrest, fun rounds hr => ?_⟩
        obtain ⟨r, rfl⟩ := hone rounds hr
        simp only [countLoop, hfind, if_neg (not_lt.mpr hinside), if_pos hend.ge]
      · obtain ⟨n, hn, hloop⟩ := ih (stop - (p + sub.length)) (by omega) hlt (cnt + 1) rfl
        refine ⟨n + 1, isGreatest_succ hlen hle hocc hinside hfirst hn, fun rounds hr => ?_⟩
        obtain ⟨r, rfl⟩ := hone rounds hr
        simp only [countLoop, hfind, if_neg (not_lt.mpr hinside), if_neg (not_le.mpr hlt)]
        rw [hloop r (by omega)]
        congr 1
        omega

theorem countLoop_nil (hpos : pos < stop) (hstop : stop ≤ s.length) (rounds cnt : ℕ) :
    countLoop s [] stop rounds pos cnt = none := by
  induction rounds generalizing cnt with
  | zero => rfl
  | succ rounds ih =>
    simp only [countLoop, strstr_nil (hpos.le.trans hstop), List.length_nil, Nat.add_zero,
      if_neg hpos.not_gt, if_neg (not_le.mpr hpos)]
    exact ih (cnt + 1)

def rangeEnd (s : List UInt8) (stop : ℕ) : ℕ := if stop = 0 then s.length else min stop s.length

theorem rangeEnd_le (s : List UInt8) (stop : ℕ) : rangeEnd s stop ≤ s.length := by
  rw [rangeEnd]
  split_ifs
  · exact le_rfl
  · exact min_le_right ..

theorem strCount_eq (hs : s.length < 2 ^ 31) (start stop rounds : ℕ) :
    strCount (some s) (some sub) start stop rounds =
      if start < rangeEnd s stop then countLoop s sub (rangeEnd s stop) rounds start 0
      else some 0 := by
  have hlen : i32 (u32 s.length) = s.length := by
    rw [u32_of_lt (hs.trans (by norm_num)), i32_of_lt hs]
  have hle := rangeEnd_le s stop
  have hstop : (if (if (stop : ℤ) = 0 then (s.length : ℤ) else stop) > s.length then (s.length : ℤ)
      else if (stop : ℤ) = 0 then (s.length : ℤ) else stop) = rangeEnd s stop := by
    rw [rangeEnd]
    split_ifs <;> omega
  simp only [strCount, hlen, hstop]
  rw [if_neg (by omega)]
  by_cases hstart : start < rangeEnd s stop
  · rw [if_neg (by omega), if_neg (by omega), if_pos hstart, Int.toNat_natCast, Int.toNat_natCast]
  · rw [if_neg hstart]
    split_ifs <;> first | rfl | omega

/-- **A call ends, with the number of occurrences, exactly where the substring is not empty** or the
range is. -/
theorem strCount_counts_iff (s sub : List UInt8) (hs : s.length < 2 ^ 31) (start stop : ℕ) :
    (∃ n N, (∀ rounds ≥ N, strCount (some s) (some sub) start stop rounds = some n) ∧
      (sub ≠ [] → IsGreatest (occurrenceCounts s sub start (rangeEnd s stop)) n)) ↔
    (sub = [] → rangeEnd s stop ≤ start) := by
  constructor
  · rintro ⟨n, N, hcall, -⟩ rfl
    by_contra hlt
    have hnone := hcall N le_rfl
    rw [strCount_eq hs, if_pos (not_le.mp hlt),
      countLoop_nil (not_le.mp hlt) (rangeEnd_le s stop)] at hnone
    cases hnone
  · intro hcond
    by_cases hlt : start < rangeEnd s stop
    · have hsub : sub ≠ [] := fun hnil => absurd (hcond hnil) (not_le.mpr hlt)
      obtain ⟨n, hn, hloop⟩ := countLoop_eq (s := s) hsub hlt 0
      refine ⟨n, rangeEnd s stop - start, fun rounds hr => ?_, fun _ => hn⟩
      rw [strCount_eq hs, if_pos hlt, hloop rounds hr, Nat.zero_add]
    · refine ⟨0, 0, fun rounds _ => ?_, fun hsub => isGreatest_zero fun q hq _ => ?_⟩
      · rw [strCount_eq hs, if_neg hlt]
      · have := List.length_pos_of_ne_nil hsub
        omega

theorem strCount_counts_ooooo : ∃ n N,
    (∀ rounds ≥ N, strCount (some [111, 111, 111, 111, 111]) (some [111, 111]) 1 0 rounds =
      some n) ∧
    IsGreatest (occurrenceCounts [111, 111, 111, 111, 111] [111, 111] 1 5) n := by
  obtain ⟨n, N, hcall, hmax⟩ :=
    (strCount_counts_iff [111, 111, 111, 111, 111] [111, 111] (by decide) 1 0).mpr (by simp)
  exact ⟨n, N, hcall, hmax (by simp)⟩

theorem strCount_empty_sub :
    ¬ ∃ rounds n, strCount (some [97, 98]) (some []) 0 0 rounds = some n := by
  rintro ⟨rounds, n, hcall⟩
  have hloop : strCount (some [97, 98]) (some []) (0 : ℕ) (0 : ℕ) rounds = _ :=
    strCount_eq (by decide) 0 0 rounds
  rw [if_pos (by decide), countLoop_nil (by decide) (by decide)] at hloop
  exact absurd (hcall.symm.trans hloop) (by simp)

end Mugglec
