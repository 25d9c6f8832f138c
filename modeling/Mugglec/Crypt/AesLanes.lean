import Mugglec.Crypt.Aes

/-!
# Crypt/AesLanes — the word tricks of the optimised AES path, a byte at a time

The masks of `openssl_aes.c` keep the lanes of a word apart, so each of its functions acts on every
lane as **the same function acts on a word of one byte**.
-/

namespace Mugglec

open ByteLanes

section Circuit

variable {w n : ℕ} (hw : w = 8 * n) {i : ℕ} (hi : i < n)
include hw hi

theorem lane_mask (x : BitVec w) (c : Byte) : lane (x &&& repByte w c) i = lane x i &&& c := by
  rw [lane_and, lane_repByte (by omega)]

theorem lane_opensslRot {k : ℕ} (hk : k = 1 ∨ k = 2) (y : BitVec w) :
    lane (opensslRot k y) i = opensslRot k (lane y i) := by
  rcases hk with rfl | rfl <;>
    simp (disch := decide) only [opensslRot, lane_or, lane_mask_ushiftRight hw hi,
      lane_mask_shiftLeft hw hi, repByte_eight]

theorem lane_opensslSwap2 (x : BitVec w) : lane (opensslSwap2 x) i = opensslSwap2 (lane x i) := by
  simp (disch := decide) only [opensslSwap2, lane_or, lane_mask_ushiftRight hw hi,
    lane_mask_shiftLeft hw hi, repByte_eight]

theorem lane_opensslMul2 {m : Byte} (hm : ∀ j < 1, m.getLsbD j = false) (x a : BitVec w) :
    lane (opensslMul2 m x a) i = opensslMul2 m (lane x i) (lane a i) := by
  have hk : 1 ≤ 8 := by decide
  simp only [opensslMul2, lane_xor, lane_mask_ushiftRight hw hi _ hm, lane_mask hw hi, lane_and,
    repByte_eight]
  -- the mask clears the bit that the shift brings in from the lane below
  simp only [xor_and_distrib_right, and_right_comm _ _ m, lane_shiftLeft_mask hw hi _ hm hk]

theorem lane_opensslTwice {m : Byte} (hm : ∀ j < 1, m.getLsbD j = false) (a : BitVec w) :
    lane (opensslTwice m a) i = opensslTwice m (lane a i) := by
  have hk : 1 ≤ 8 := by decide
  simp only [opensslTwice, lane_xor, lane_or, lane_mask hw hi, lane_mask_ushiftRight hw hi _ hm,
    lane_shiftLeft_mask hw hi _ hm hk, repByte_eight]

theorem lane_opensslMul4 (x a : BitVec w) :
    lane (opensslMul4 x a) i = opensslMul4 (lane x i) (lane a i) := by
  simp (disch := decide) only [opensslMul4, lane_xor, lane_mask hw hi, xor_and_distrib_right,
    lane_shiftLeft_mask hw hi, lane_mask_ushiftRight hw hi, lane_opensslTwice hw hi,
    lane_opensslMul2 hw hi, lane_opensslSwap2 hw hi, repByte_eight]

theorem lane_opensslNorm (a : BitVec w) : lane (opensslNorm a) i = opensslNorm (lane a i) := by
  simp (disch := decide) only [opensslNorm, lane_xor, lane_or, lane_mask hw hi,
    xor_and_distrib_right, lane_shiftLeft_mask hw hi, lane_ushiftRight_mask,
    lane_mask_ushiftRight hw hi, lane_opensslTwice hw hi, repByte_eight]

omit hi in
theorem mask_eq_self {c : Byte} {x : BitVec w} (h : ∀ k < n, lane x k &&& c = lane x k) :
    x &&& repByte w c = x :=
  eq_of_lane_eq hw.le fun k hk => by rw [lane_mask hw hk, h k hk]

theorem lane_shiftLeft_of_mask {c : Byte} {k : ℕ} (hk : k ≤ 8)
    (hc : ∀ j < k, c.getLsbD (7 - j) = false) {x : BitVec w}
    (h : ∀ k < n, lane x k &&& c = lane x k) : lane (x <<< k) i = lane x i <<< k := by
  have hx := lane_mask_shiftLeft hw hi x hc hk
  rwa [mask_eq_self hw h, h i hi] at hx

end Circuit

theorem opensslMul2_mask (x a : Byte) (ha : a &&& 0x0F = a) :
    opensslMul2 0x0A x a &&& 0x0F = opensslMul2 0x0A x a := by
  rw [← ha]
  simp only [opensslMul2, repByte_eight]
  refine BitVec.eq_of_getLsbD_eq fun j hj => ?_
  interval_cases j <;> simp

section Circuit

variable {w n : ℕ} (hw : w = 8 * n) {i : ℕ} (hi : i < n)
include hw hi

theorem lane_opensslInv4 (a3 : BitVec w) : lane (opensslInv4 a3) i = opensslInv4 (lane a3 i) := by
  set a2 := a3 ^^^ ((a3 &&& repByte w 0x0C) >>> 2) with ha2
  set b := opensslMul2 0x0A a3 a2 with hb
  set c := (b ^^^ (opensslTwice 0x08 b >>> 2)) &&& repByte w 0x03 with hc
  set d := c ^^^ ((c &&& repByte w 0x02) >>> 1) with hd
  set e := opensslMul2 0x0A a2 (d ||| (d <<< 2)) with he
  have hlane : ∀ k < n, lane d k = lane c k ^^^ ((lane c k &&& 0x02) >>> 1) ∧
      lane c k = (lane b k ^^^ (opensslTwice 0x08 (lane b k) >>> 2)) &&& 0x03 := fun k hk => by
    constructor
    · simp (disch := decide) only [hd, lane_xor, lane_mask_ushiftRight hw hk]
    · simp (disch := decide) only [hc, lane_mask hw hk, lane_xor, xor_and_distrib_right,
        lane_ushiftRight_mask, lane_opensslTwice hw hk]
  have hdmask : ∀ k < n, lane d k &&& 0x03 = lane d k := fun k hk => by
    rw [(hlane k hk).1, (hlane k hk).2]
    refine BitVec.eq_of_getLsbD_eq fun j hj => ?_
    interval_cases j <;> simp
  have hspread : ∀ k < n, lane (d ||| (d <<< 2)) k = lane d k ||| (lane d k <<< 2) := fun k hk => by
    rw [lane_or, lane_shiftLeft_of_mask hw hk (by decide) (by decide) hdmask]
  have hemask : ∀ k < n, lane e k &&& 0x0F = lane e k := fun k hk => by
    rw [he, lane_opensslMul2 hw hk (by decide), hspread k hk, ← hdmask k hk]
    refine opensslMul2_mask _ _ (BitVec.eq_of_getLsbD_eq fun j hj => ?_)
    interval_cases j <;> simp
  have hresult : lane (opensslInv4 a3) i = lane e i ||| (lane e i <<< 4) := by
    rw [← lane_shiftLeft_of_mask hw hi (by decide) (by decide) hemask, ← lane_or]
    rfl
  rw [hresult, he, lane_opensslMul2 hw hi (by decide), hspread i hi, (hlane i hi).1, (hlane i hi).2,
    hb, lane_opensslMul2 hw hi (by decide), ha2]
  simp (disch := decide) only [lane_xor, lane_mask_ushiftRight hw hi, opensslInv4, repByte_eight]

theorem lane_opensslInv8 (x : BitVec w) : lane (opensslInv8 x) i = opensslInv8 (lane x i) := by
  simp (disch := decide) only [opensslInv8, lane_opensslMul4 hw hi, lane_opensslInv4 hw hi,
    lane_opensslNorm hw hi, lane_xor, lane_mask_ushiftRight hw hi, repByte_eight]

theorem lane_opensslDiagonals (x y : BitVec w) (rots : List (ℕ × Byte))
    (h : ∀ r ∈ rots, r.1 = 1 ∨ r.1 = 2) :
    lane (opensslDiagonals x y rots) i = opensslDiagonals (lane x i) (lane y i) rots := by
  induction rots generalizing x y with
  | nil => rfl
  | cons r rots ih =>
    obtain ⟨k, c⟩ := r
    rw [opensslDiagonals, ih _ _ fun r hr => h r (List.mem_cons_of_mem _ hr), lane_xor,
      lane_mask hw hi, lane_opensslRot hw hi (h (k, c) List.mem_cons_self), opensslDiagonals,
      repByte_eight]

theorem lane_opensslSub (x : BitVec w) : lane (opensslSub x) i = opensslSub (lane x i) := by
  simp (disch := decide) only [opensslSub, lane_xor, lane_repByte (show 8 * i + 8 ≤ w by omega),
    lane_opensslDiagonals hw hi, lane_opensslInv8 hw hi, lane_mask hw hi, repByte_eight]

theorem lane_opensslInvSub (x : BitVec w) :
    lane (opensslInvSub x) i = opensslInvSub (lane x i) := by
  simp (disch := decide) only [opensslInvSub, lane_xor, lane_repByte (show 8 * i + 8 ≤ w by omega),
    lane_opensslDiagonals hw hi, lane_opensslInv8 hw hi, lane_mask hw hi, repByte_eight]

theorem lane_opensslXtime (x : BitVec w) : lane (opensslXtime x) i = opensslXtime (lane x i) := by
  set b := x &&& repByte w 0x80 with hb
  have hlane : ∀ k < n, lane (b >>> 7) k = lane b k >>> 7 := fun k hk => by
    have h := lane_mask_ushiftRight hw hk (k := 7) x (c := 0x80) (by decide)
    rwa [← lane_mask hw hk] at h
  have hle : ∀ k < n, (lane (b >>> 7) k).toNat ≤ (lane b k).toNat := fun k hk => by
    rw [hlane k hk, BitVec.toNat_ushiftRight]
    exact Nat.shiftRight_le _ _
  have hlow : ∀ k < n, lane (x ^^^ b) k &&& 0x7F = lane (x ^^^ b) k := fun k hk => by
    rw [lane_xor, hb, lane_mask hw hk]
    refine BitVec.eq_of_getLsbD_eq fun j hj => ?_
    interval_cases j <;> simp
  have hresult : lane (opensslXtime x) i =
      ((lane b i - lane b i >>> 7) &&& (0x1B : Byte)) ^^^ (lane (x ^^^ b) i <<< 1) := by
    rw [← lane_shiftLeft_of_mask hw hi (by decide) (by decide) hlow, ← hlane i hi,
      ← lane_sub hw hle hi, ← lane_mask hw hi, ← lane_xor]
    rfl
  rw [hresult, lane_xor, hb, lane_mask hw hi]
  simp only [opensslXtime, repByte_eight]

end Circuit

theorem opensslSub_byteRow : ∀ k < 16, opensslSub (byteRow k) = tableRow aesSboxTable k := by
  decide

theorem opensslSub_byte (b : Byte) : opensslSub b = aesSbox b :=
  apply_eq_getD (fun x _ hi => lane_opensslSub (n := 16) rfl hi x) b opensslSub_byteRow

theorem opensslInvSub_byte (b : Byte) : opensslInvSub b = aesInvSbox b :=
  apply_eq_getD (fun x _ hi => lane_opensslInvSub (n := 16) rfl hi x) b (by decide)

theorem aesInvSbox_aesSbox (b : Byte) : aesInvSbox (aesSbox b) = b := by
  have hrows : ∀ k < 16, opensslInvSub (tableRow aesSboxTable k) = byteRow k := by decide
  have h := apply_eq_lane_byteRow (f := fun x => opensslInvSub (opensslSub x))
    (g := fun b => opensslInvSub (opensslSub b)) (fun x i hi => by
      rw [lane_opensslInvSub (n := 16) rfl hi, lane_opensslSub (n := 16) rfl hi]) b
  rwa [opensslSub_byteRow _ (by omega), hrows _ (by omega), lane_byteRow, opensslSub_byte,
    opensslInvSub_byte] at h

end Mugglec
