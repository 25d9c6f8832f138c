import Mathlib.Tactic

/-!
# Base/Utils — machine words and powers of two (`base/utils.c`, `base/macro.h`)

A `uint32_t` is a natural below `2³²`; `u32` is the wrap-around of a result. `nextPowOf2` smears the
highest bit down by shifts of 1, 2, 4, 8 and 16, so the bits it fills are those within 31 places
below a set bit (`testBit_smear`): enough for a 32-bit argument (`nextPowOf2_isPowOf2`), and not for
a 64-bit one (`nextPowOf2_isLeast_iff`).
-/

namespace Mugglec

inductive Err
  | ok | unknown | memAlloc | memDuplicateFree | nullParam | invalidParam | acqLock | sysCall
  | beyondRange | full | cryptKeySize
deriving DecidableEq, Repr

def u32 (n : ℕ) : ℕ := n % 2 ^ 32

theorem u32_of_lt {n : ℕ} (h : n < 2 ^ 32) : u32 n = n := Nat.mod_eq_of_lt h

def i32 (n : ℕ) : ℤ := if n < 2 ^ 31 then n else n - 2 ^ 32

theorem i32_of_lt {n : ℕ} (h : n < 2 ^ 31) : i32 n = n := if_pos h

def isPowOf2 (x : ℕ) : Bool := x &&& ((x + (2 ^ 64 - 1)) % 2 ^ 64) = 0

def smear (x : ℕ) : ℕ :=
  let x := x ||| (x >>> 1)
  let x := x ||| (x >>> 2)
  let x := x ||| (x >>> 4)
  let x := x ||| (x >>> 8)
  x ||| (x >>> 16)

def nextPowOf2 (x : ℕ) : ℕ := if isPowOf2 x then x else (smear x + 1) % 2 ^ 64

def idxInPowOf2Ring (idx capacity : ℕ) : ℕ := idx &&& u32 (capacity + (2 ^ 32 - 1))

theorem idx_eq_mod {k : ℕ} (hk : k < 32) (idx : ℕ) : idxInPowOf2Ring idx (2 ^ k) = idx % 2 ^ k := by
  have hlt : 2 ^ k < 2 ^ 32 := Nat.pow_lt_pow_right (by omega) hk
  have hpos : 0 < 2 ^ k := Nat.two_pow_pos k
  have hmask : u32 (2 ^ k + (2 ^ 32 - 1)) = 2 ^ k - 1 := by
    rw [u32]
    omega
  rw [idxInPowOf2Ring, hmask, Nat.and_two_pow_sub_one_eq_mod]

def roundUpPowOf2Mul (x n : ℕ) : ℕ := (x + n - 1) &&& (2 ^ 64 - 1 - (n - 1))

def alignTrueSharing (n : ℕ) : ℕ := u32 ((u32 (n + 64 - 1) &&& (2 ^ 32 - 64)) + 128)

variable {x : ℕ}

theorem and_alignMask {k N : ℕ} (hk : k ≤ N) (hx : x < 2 ^ N) :
    x &&& (2 ^ N - 2 ^ k) = 2 ^ k * (x / 2 ^ k) := by
  have hmask : 2 ^ N - 2 ^ k = 2 ^ k * (2 ^ (N - k) - 1) := by
    rw [Nat.mul_sub, ← pow_add, Nat.add_sub_of_le hk, mul_one]
  rw [hmask]
  refine Nat.eq_of_testBit_eq fun i => ?_
  rw [Nat.testBit_and, Nat.testBit_two_pow_mul, Nat.testBit_two_pow_mul,
    Nat.testBit_two_pow_sub_one, Nat.testBit_div_two_pow]
  rcases lt_or_ge i k with hi | hi
  · simp [not_le.mpr hi]
  · rw [Nat.sub_add_cancel hi]
    rcases lt_or_ge i N with hN | hN
    · simp [hi, show i - k < N - k by omega]
    · have : x.testBit i = false :=
        Nat.testBit_lt_two_pow (hx.trans_le (Nat.pow_le_pow_right (by omega) hN))
      simp [this]

theorem roundUpPowOf2Mul_eq {k : ℕ} (hk : k ≤ 64) (hx : x + 2 ^ k - 1 < 2 ^ 64) :
    roundUpPowOf2Mul x (2 ^ k) = 2 ^ k * ((x + 2 ^ k - 1) / 2 ^ k) := by
  have hmask : 2 ^ 64 - 1 - (2 ^ k - 1) = 2 ^ 64 - 2 ^ k := by
    have := Nat.one_le_two_pow (n := k)
    omega
  rw [roundUpPowOf2Mul, hmask, and_alignMask hk hx]

def dsCapIsValid (capacity : ℕ) : Bool := capacity < 2 ^ 31

def freed {α : Type} (given : Bool) (q : Option α) : List α := if given then q.toList else []

theorem testBit_smear (x i : ℕ) :
    (smear x).testBit i = true ↔ ∃ j, i ≤ j ∧ j < i + 32 ∧ x.testBit j = true := by
  have key : ∀ (y n k : ℕ),
      (∀ i, y.testBit i = true ↔ ∃ j, i ≤ j ∧ j < i + n ∧ x.testBit j = true) →
      k ≤ n → ∀ i, (y ||| (y >>> k)).testBit i = true ↔
        ∃ j, i ≤ j ∧ j < i + (n + k) ∧ x.testBit j = true := by
    intro y n k hy hk i
    rw [Nat.testBit_or, Nat.testBit_shiftRight, Bool.or_eq_true, hy, hy]
    constructor
    · rintro (⟨j, h1, h2, h3⟩ | ⟨j, h1, h2, h3⟩)
      · exact ⟨j, h1, by omega, h3⟩
      · exact ⟨j, by omega, by omega, h3⟩
    · rintro ⟨j, h1, h2, h3⟩
      rcases lt_or_ge j (i + n) with h | h
      · exact Or.inl ⟨j, h1, h, h3⟩
      · exact Or.inr ⟨j, by omega, by omega, h3⟩
  have h0 : ∀ i, x.testBit i = true ↔ ∃ j, i ≤ j ∧ j < i + 1 ∧ x.testBit j = true := by
    intro i
    constructor
    · intro h
      exact ⟨i, le_refl i, Nat.lt_succ_self i, h⟩
    · rintro ⟨j, h1, h2, h3⟩
      rwa [show i = j by omega]
  have h1 := key _ 1 1 h0 (le_refl 1)
  have h2 := key _ 2 2 h1 (le_refl 2)
  have h4 := key _ 4 4 h2 (le_refl 4)
  have h8 := key _ 8 8 h4 (le_refl 8)
  exact key _ 16 16 h8 (le_refl 16) i

def NoGap (x : ℕ) : Prop := ∀ i ≤ x.log2, ∃ j, i ≤ j ∧ j < i + 32 ∧ x.testBit j = true

theorem noGap_of_lt (hx : x ≠ 0) (hlt : x < 2 ^ 32) : NoGap x := by
  have hlog : x.log2 < 32 := (Nat.log2_lt hx).mpr hlt
  exact fun i hi => ⟨x.log2, hi, by omega, Nat.testBit_log2 hx⟩

theorem le_log2_of_testBit (hx : x ≠ 0) {j : ℕ} (hj : x.testBit j = true) : j ≤ x.log2 :=
  (Nat.le_log2 hx).mpr (Nat.ge_two_pow_of_testBit hj)

theorem smear_eq_iff (hx : x ≠ 0) : smear x = 2 ^ (x.log2 + 1) - 1 ↔ NoGap x := by
  constructor
  · intro heq i hi
    rw [← testBit_smear, heq, Nat.testBit_two_pow_sub_one, decide_eq_true_iff]
    omega
  · intro hgap
    refine Nat.eq_of_testBit_eq fun i => ?_
    rw [Nat.testBit_two_pow_sub_one, Bool.eq_iff_iff, testBit_smear, decide_eq_true_iff]
    constructor
    · rintro ⟨j, h1, -, h3⟩
      have := le_log2_of_testBit hx h3
      omega
    · exact fun h => hgap i (by omega)

theorem smear_lt (hx : x ≠ 0) : smear x < 2 ^ (x.log2 + 1) := by
  refine Nat.lt_pow_two_of_testBit _ fun i hi => Bool.eq_false_iff.mpr fun hbit => ?_
  obtain ⟨j, h1, -, h3⟩ := (testBit_smear x i).mp hbit
  have := le_log2_of_testBit hx h3
  omega

theorem isPowOf2_iff (hx : x ≠ 0) (hlt : x < 2 ^ 64) : isPowOf2 x = true ↔ ∃ k, x = 2 ^ k := by
  have hdec : (x + (2 ^ 64 - 1)) % 2 ^ 64 = x - 1 := by
    omega
  rw [isPowOf2, hdec, decide_eq_true_iff]
  exact Nat.and_sub_one_eq_zero_iff_isPowerOfTwo hx

theorem log2_lt_iff_le (hx : x ≠ 0) (hpow : ¬ ∃ k, x = 2 ^ k) (m : ℕ) :
    x.log2 + 1 ≤ m ↔ x ≤ 2 ^ m := by
  rw [Nat.succ_le_iff, Nat.log2_lt hx, le_iff_lt_or_eq]
  exact ⟨Or.inl, fun h => h.resolve_right fun heq => hpow ⟨m, heq⟩⟩

theorem nextPowOf2_least (hx : x ≠ 0) (hlt : x < 2 ^ 32) :
    ∃ k, k ≤ 32 ∧ nextPowOf2 x = 2 ^ k ∧ ∀ m, k ≤ m ↔ x ≤ 2 ^ m := by
  have hlog : x.log2 < 32 := (Nat.log2_lt hx).mpr hlt
  have hiff := isPowOf2_iff hx (by omega)
  by_cases hpow : ∃ k, x = 2 ^ k
  · -- the test `x & (x - 1)` already says that it is one
    have htest := hiff.mpr hpow
    obtain ⟨k, rfl⟩ := hpow
    refine ⟨k, ((Nat.pow_lt_pow_iff_right (by omega)).mp hlt).le, ?_, fun m => ?_⟩
    · rw [nextPowOf2, if_pos htest]
    · exact (Nat.pow_le_pow_iff_right (by omega)).symm
  · refine ⟨x.log2 + 1, by omega, ?_, log2_lt_iff_le hx hpow⟩
    rw [nextPowOf2, if_neg (mt hiff.mp hpow), (smear_eq_iff hx).mpr (noGap_of_lt hx hlt),
      Nat.sub_add_cancel Nat.one_le_two_pow, Nat.mod_eq_of_lt]
    exact Nat.pow_lt_pow_right (by omega) (by omega)

/-- **The result is the least power of two** that is not below the argument exactly if the argument
is one itself or has no gap. -/
theorem nextPowOf2_isLeast_iff (h1 : 1 ≤ x) (h63 : x ≤ 2 ^ 63) :
    IsLeast {p | (∃ k, p = 2 ^ k) ∧ x ≤ p} (nextPowOf2 x) ↔ (∃ k, x = 2 ^ k) ∨ NoGap x := by
  have hx : x ≠ 0 := by omega
  have hiff := isPowOf2_iff hx (by omega)
  by_cases hpow : ∃ k, x = 2 ^ k
  · rw [nextPowOf2, if_pos (hiff.mpr hpow)]
    exact iff_of_true ⟨⟨hpow, le_rfl⟩, fun _ hp => hp.2⟩ (.inl hpow)
  · have hleast : IsLeast {p | (∃ k, p = 2 ^ k) ∧ x ≤ p} (2 ^ (x.log2 + 1)) := by
      refine ⟨⟨⟨_, rfl⟩, (log2_lt_iff_le hx hpow _).mp le_rfl⟩, ?_⟩
      rintro _ ⟨⟨m, rfl⟩, hm⟩
      exact Nat.pow_le_pow_right (by omega) ((log2_lt_iff_le hx hpow m).mpr hm)
    have hlog : x.log2 < 63 := by
      refine (Nat.log2_lt hx).mpr (lt_of_le_of_ne h63 ?_)
      exact fun heq => hpow ⟨63, heq⟩
    -- the sum does not wrap around
    have hlt : smear x + 1 < 2 ^ 64 :=
      calc smear x + 1 ≤ 2 ^ (x.log2 + 1) := smear_lt hx
        _ < 2 ^ 64 := Nat.pow_lt_pow_right (by omega) (by omega)
    have hnext : nextPowOf2 x = smear x + 1 := by
      rw [nextPowOf2, if_neg (mt hiff.mp hpow), Nat.mod_eq_of_lt hlt]
    have hpos : 0 < 2 ^ (x.log2 + 1) := Nat.two_pow_pos _
    rw [or_iff_right hpow, ← smear_eq_iff hx, hnext]
    constructor
    · intro h
      have := h.unique hleast
      omega
    · intro h
      rwa [show smear x + 1 = 2 ^ (x.log2 + 1) by omega]

theorem nextPowOf2_isLeast_twoBits :
    IsLeast {p | (∃ k, p = 2 ^ k) ∧ 2 ^ 40 + 2 ^ 20 ≤ p} (nextPowOf2 (2 ^ 40 + 2 ^ 20)) := by
  refine (nextPowOf2_isLeast_iff (by decide) (by decide)).mpr (.inr fun i hi => ?_)
  have hlog : (2 ^ 40 + 2 ^ 20).log2 = 40 := by decide
  rcases lt_or_ge i 9 with h | h
  · exact ⟨20, by omega, by omega, by decide⟩
  · exact ⟨40, by omega, by omega, by decide⟩

/-- **Bit 1 stays clear**: bit 33 is smeared down to bit 2 only. -/
theorem nextPowOf2_gap : nextPowOf2 (2 ^ 33 + 1) = 2 ^ 34 - 2 ∧
    ¬ IsLeast {p | (∃ k, p = 2 ^ k) ∧ 2 ^ 33 + 1 ≤ p} (nextPowOf2 (2 ^ 33 + 1)) := by
  have hval : nextPowOf2 (2 ^ 33 + 1) = 2 ^ 34 - 2 := by decide
  refine ⟨hval, fun h => ?_⟩
  obtain ⟨⟨⟨k, hk⟩, -⟩, -⟩ := h
  rw [hval] at hk
  rcases lt_or_ge k 34 with hlt | hge
  · have := Nat.pow_le_pow_right (n := 2) (by omega) (show k ≤ 33 by omega)
    omega
  · have := Nat.pow_le_pow_right (n := 2) (by omega) hge
    omega

theorem nextPowOf2_isPowOf2 (hx : x ≠ 0) (hlt : x < 2 ^ 32) :
    ∃ k, k ≤ 32 ∧ nextPowOf2 x = 2 ^ k := by
  obtain ⟨k, hk, hpow, -⟩ := nextPowOf2_least hx hlt
  exact ⟨k, hk, hpow⟩

theorem u32_nextPowOf2_least (hx : x ≠ 0) (hlt : x < 2 ^ 32) (hne : u32 (nextPowOf2 x) ≠ 0) :
    ∃ k, k < 32 ∧ u32 (nextPowOf2 x) = 2 ^ k ∧ ∀ m, k ≤ m ↔ x ≤ 2 ^ m := by
  obtain ⟨k, hk, hpow, hleast⟩ := nextPowOf2_least hx hlt
  rw [hpow] at hne ⊢
  have hk' : k < 32 := by
    refine lt_of_le_of_ne hk ?_
    rintro rfl
    exact hne (Nat.mod_self _)
  exact ⟨k, hk', u32_of_lt (Nat.pow_lt_pow_right (by omega) hk'), hleast⟩

theorem u32_nextPowOf2_eq (hx : x ≠ 0) (hlt : x < 2 ^ 32) :
    u32 (nextPowOf2 x) = if x ≤ 2 ^ 31 then 2 ^ Nat.clog 2 x else 0 := by
  obtain ⟨k, hk, hpow, hleast⟩ := nextPowOf2_least hx hlt
  obtain rfl : Nat.clog 2 x = k := eq_of_forall_ge_iff fun m => by
    rw [hleast, Nat.clog_le_iff_le_pow one_lt_two]
  rw [hpow]
  split_ifs with hle
  · have hclog : Nat.clog 2 x ≤ 31 := (hleast 31).mpr hle
    exact u32_of_lt (Nat.pow_lt_pow_right one_lt_two (by omega))
  · have hclog : ¬ Nat.clog 2 x ≤ 31 := fun hle' => hle ((hleast 31).mp hle')
    rw [show Nat.clog 2 x = 32 by omega]
    exact Nat.mod_self _

theorem u32_nextPowOf2 (hx : x ≠ 0) (hlt : x < 2 ^ 32) (hne : u32 (nextPowOf2 x) ≠ 0) :
    ∃ k, k < 32 ∧ u32 (nextPowOf2 x) = 2 ^ k := by
  obtain ⟨k, hk, hpow, -⟩ := u32_nextPowOf2_least hx hlt hne
  exact ⟨k, hk, hpow⟩

end Mugglec
