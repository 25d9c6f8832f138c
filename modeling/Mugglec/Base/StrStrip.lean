import Mugglec.Base.Utils

/-!
# Base/StrStrip — the first and the last character that is not white space (`base/str.c`)

`muggle_str_lstrip_idx` walks up from the first character and `muggle_str_rstrip_idx` down from the
last.  Both look at a character before they know that there is one.
-/

namespace Mugglec

def isspace (c : UInt8) : Bool := c = 32 ∨ 9 ≤ c ∧ c ≤ 13

def charAt (s : List UInt8) (idx : ℤ) : Option UInt8 :=
  if idx < 0 then none else (s ++ [0])[idx.toNat]?

def lstripLoop (s : List UInt8) (strLen idx : ℤ) : Option ℤ :=
  match charAt s idx with
  | none => none
  | some c =>
    if isspace c then
      if idx + 1 ≥ strLen then some (-1) else lstripLoop s strLen (idx + 1)
    else some idx
termination_by (strLen - idx).toNat

def rstripLoop (s : List UInt8) (idx : ℤ) : Option ℤ :=
  match charAt s idx with
  | none => none
  | some c =>
    if isspace c then
      if idx - 1 < 0 then some (-1) else rstripLoop s (idx - 1)
    else some idx
termination_by idx.toNat

def lstripIdx (str : Option (List UInt8)) : Option ℤ :=
  match str with
  | none => some (-1)
  | some s => lstripLoop s (i32 (u32 s.length)) 0

def rstripIdx (str : Option (List UInt8)) : Option ℤ :=
  match str with
  | none => some (-1)
  | some s => rstripLoop s (i32 (u32 s.length) - 1)

def inked (s : List UInt8) : Set ℕ := {i | ∃ c, s[i]? = some c ∧ isspace c = false}

variable {s : List UInt8} {i n : ℕ}

theorem charAt_of_lt (hi : i < s.length) : charAt s i = some s[i] := by
  rw [charAt, if_neg (by omega), Int.toNat_natCast, List.getElem?_append_left hi,
    List.getElem?_eq_getElem hi]

theorem mem_inked (hi : i < s.length) : i ∈ inked s ↔ isspace s[i] = false := by
  simp [inked, List.getElem?_eq_getElem hi]

theorem lt_of_mem_inked (h : i ∈ inked s) : i < s.length := by
  obtain ⟨c, hc, -⟩ := h
  exact (List.getElem?_eq_some_iff.mp hc).1

theorem lstripLoop_spec (hi : i < n) (hn : n ≤ s.length) :
    (lstripLoop s n i = some (-1) ∧ ∀ j, i ≤ j → j < n → j ∉ inked s) ∨
    ∃ j : ℕ, lstripLoop s n i = some (j : ℤ) ∧ j ∈ inked s ∧ ∀ k, i ≤ k → k ∈ inked s → j ≤ k := by
  induction hd : n - i generalizing i with
  | zero => omega
  | succ d ih =>
    have hlt : i < s.length := by omega
    rw [lstripLoop, charAt_of_lt hlt]
    cases hc : isspace s[i] with
    | false =>
      exact Or.inr ⟨i, by simp [hc], (mem_inked hlt).mpr hc, fun k hk _ => hk⟩
    | true =>
      have hblank : i ∉ inked s := by simp [mem_inked hlt, hc]
      by_cases hend : n ≤ i + 1
      · refine Or.inl ⟨by simp [hc]; omega, fun j hj hjn => ?_⟩
        rwa [show j = i by omega]
      · have hnext : ¬ ((i : ℤ) + 1 ≥ n) := by omega
        simp only [hc, if_true, if_neg hnext]
        rcases ih (i := i + 1) (by omega) (by omega) with ⟨hret, hall⟩ | ⟨j, hret, hj, hmin⟩
        · refine Or.inl ⟨hret, fun j hj hjn => ?_⟩
          rcases eq_or_lt_of_le hj with rfl | hlt'
          · exact hblank
          · exact hall j hlt' hjn
        · refine Or.inr ⟨j, hret, hj, fun k hk hmem => hmin k ?_ hmem⟩
          exact lt_of_le_of_ne hk fun h => hblank (h ▸ hmem)

theorem rstripLoop_spec (hi : i < s.length) :
    (rstripLoop s i = some (-1) ∧ ∀ j ≤ i, j ∉ inked s) ∨
    ∃ j : ℕ, rstripLoop s i = some (j : ℤ) ∧ j ∈ inked s ∧ ∀ k ≤ i, k ∈ inked s → k ≤ j := by
  induction i with
  | zero =>
    rw [rstripLoop, charAt_of_lt hi]
    cases hc : isspace s[0] with
    | false => exact Or.inr ⟨0, by simp [hc], (mem_inked hi).mpr hc, fun k hk _ => hk⟩
    | true =>
      refine Or.inl ⟨by simp [hc], fun j hj => ?_⟩
      rw [Nat.le_zero.mp hj, mem_inked hi, hc]
      decide
  | succ i ih =>
    rw [rstripLoop, charAt_of_lt hi]
    cases hc : isspace s[i + 1] with
    | false => exact Or.inr ⟨i + 1, by simp [hc], (mem_inked hi).mpr hc, fun k hk _ => hk⟩
    | true =>
      have hblank : i + 1 ∉ inked s := by simp [mem_inked hi, hc]
      have hnext : ((i + 1 : ℕ) : ℤ) - 1 = i := by omega
      simp only [hc, if_true, hnext, if_neg (show ¬ (i : ℤ) < 0 by omega)]
      rcases ih (by omega) with ⟨hret, hall⟩ | ⟨j, hret, hj, hmax⟩
      · refine Or.inl ⟨hret, fun j hj => ?_⟩
        rcases eq_or_lt_of_le hj with rfl | hlt
        · exact hblank
        · exact hall j (by omega)
      · refine Or.inr ⟨j, hret, hj, fun k hk hmem => hmax k ?_ hmem⟩
        have hne : k ≠ i + 1 := fun h => hblank (h ▸ hmem)
        omega

theorem i32_u32_length (hs : s.length < 2 ^ 31) : i32 (u32 s.length) = s.length := by
  rw [u32_of_lt (hs.trans (by norm_num)), i32_of_lt hs]

theorem lstripIdx_nil : lstripIdx (some []) = some 0 := by
  rw [lstripIdx, lstripLoop]
  rfl

theorem rstripIdx_nil : rstripIdx (some []) = none := by
  rw [rstripIdx, rstripLoop]
  rfl

def IsStripped (s : List UInt8) (l r : ℤ) : Prop :=
  (l = -1 ∧ r = -1 ∧ inked s = ∅) ∨
  ∃ i j : ℕ, l = i ∧ r = j ∧ IsLeast (inked s) i ∧ IsGreatest (inked s) j

theorem isStripped_of_ne_nil (hs : s.length < 2 ^ 31) (hne : s ≠ []) :
    ∃ l r, lstripIdx (some s) = some l ∧ rstripIdx (some s) = some r ∧ IsStripped s l r := by
  have hpos := List.length_pos_of_ne_nil hne
  have hlast : ((s.length : ℤ) - 1) = (s.length - 1 : ℕ) := by omega
  simp only [lstripIdx, rstripIdx, i32_u32_length hs, hlast]
  have hl := lstripLoop_spec hpos le_rfl
  rw [Nat.cast_zero] at hl
  rcases hl with ⟨hret, hall⟩ | ⟨i, hret, hi, hmin⟩ <;>
    rcases rstripLoop_spec (s := s) (show s.length - 1 < s.length by omega) with
      ⟨hret', hall'⟩ | ⟨j, hret', hj, hmax⟩
  · refine ⟨-1, -1, hret, hret', Or.inl ⟨rfl, rfl, Set.eq_empty_of_forall_notMem fun k hk => ?_⟩⟩
    exact hall k k.zero_le (lt_of_mem_inked hk) hk
  · exact absurd hj (hall j j.zero_le (lt_of_mem_inked hj))
  · exact absurd hi (hall' i (by have := lt_of_mem_inked hi; omega))
  · refine ⟨i, j, hret, hret', Or.inr ⟨i, j, rfl, rfl, ⟨hi, fun k hk => hmin k k.zero_le hk⟩, hj,
      fun k hk => hmax k ?_ hk⟩⟩
    have := lt_of_mem_inked hk
    omega

/-- **The calls stay inside the string and find its ends exactly where it is not empty.** -/
theorem stripIdx_iff (s : List UInt8) (hs : s.length < 2 ^ 31) :
    (∃ l r, lstripIdx (some s) = some l ∧ rstripIdx (some s) = some r ∧ IsStripped s l r ∧
      (l ≠ -1 → r ≠ -1 → l ≤ r)) ↔ s ≠ [] := by
  constructor
  · rintro ⟨l, r, -, hr, -⟩ rfl
    rw [rstripIdx_nil] at hr
    cases hr
  · intro hne
    obtain ⟨l, r, hl, hr, hstrip⟩ := isStripped_of_ne_nil hs hne
    refine ⟨l, r, hl, hr, hstrip, fun hl' _ => ?_⟩
    rcases hstrip with ⟨h, -⟩ | ⟨i, j, rfl, rfl, hi, hj⟩
    · exact absurd h hl'
    · exact Int.ofNat_le.mpr (hi.2 hj.1)

theorem stripIdx_spaces : ∃ l r,
    lstripIdx (some [32, 97, 32]) = some l ∧ rstripIdx (some [32, 97, 32]) = some r ∧
    IsStripped [32, 97, 32] l r := by
  obtain ⟨l, r, hl, hr, hstrip, -⟩ := (stripIdx_iff [32, 97, 32] (by decide)).mpr (by simp)
  exact ⟨l, r, hl, hr, hstrip⟩

theorem stripIdx_empty : lstripIdx (some []) = some 0 ∧ rstripIdx (some []) = none :=
  ⟨lstripIdx_nil, rstripIdx_nil⟩

end Mugglec
