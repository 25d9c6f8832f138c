import Mathlib.Tactic

/-!
# Machinery/ByteLanes — a machine word seen as a row of bytes

`lane x i` is byte `i` of the word `x`, the lowest first.  A word is its lanes (`eq_of_lane_eq`), so
a word operation is known once its lanes are.
-/

namespace ByteLanes

variable {w : ℕ} {n i : ℕ}

def lane (x : BitVec w) (i : ℕ) : BitVec 8 := x.extractLsb' (8 * i) 8

def setLane (x : BitVec w) (i : ℕ) (b : BitVec 8) : BitVec w :=
  (x &&& ~~~((BitVec.setWidth w 0xff#8) <<< (8 * i))) ||| (b.setWidth w <<< (8 * i))

def ofBytes (w : ℕ) (l : List (BitVec 8)) : BitVec w :=
  l.foldr (fun b x => (x <<< 8) ||| b.setWidth w) 0

def toBytes (n : ℕ) (x : BitVec w) : List (BitVec 8) := (List.range n).map (lane x)

theorem getLsbD_lane (x : BitVec w) (i : ℕ) {j : ℕ} (hj : j < 8) :
    (lane x i).getLsbD j = x.getLsbD (8 * i + j) := by
  simp [lane, hj]

theorem eq_of_lane_eq (hw : w ≤ 8 * n) {x y : BitVec w} (h : ∀ i < n, lane x i = lane y i) :
    x = y := by
  refine BitVec.eq_of_getLsbD_eq fun j hj => ?_
  have hbit := congrArg (fun b => b.getLsbD (j % 8)) (h (j / 8) (by omega))
  simp only [getLsbD_lane _ _ (Nat.mod_lt j (by decide : 0 < 8)), Nat.div_add_mod] at hbit
  exact hbit

@[simp] theorem lane_xor (x y : BitVec w) (i : ℕ) : lane (x ^^^ y) i = lane x i ^^^ lane y i :=
  BitVec.extractLsb'_xor

@[simp] theorem lane_and (x y : BitVec w) (i : ℕ) : lane (x &&& y) i = lane x i &&& lane y i :=
  BitVec.extractLsb'_and

@[simp] theorem lane_or (x y : BitVec w) (i : ℕ) : lane (x ||| y) i = lane x i ||| lane y i :=
  BitVec.extractLsb'_or

@[simp] theorem lane_zero (i : ℕ) : lane (0 : BitVec w) i = 0 := BitVec.extractLsb'_zero

@[simp] theorem length_toBytes (n : ℕ) (x : BitVec w) : (toBytes n x).length = n := by
  simp [toBytes]

theorem lane_ofBytes (l : List (BitVec 8)) (hi : 8 * i + 8 ≤ w) :
    lane (ofBytes w l) i = l.getD i 0 := by
  induction l generalizing i with
  | nil => exact lane_zero i
  | cons b l ih =>
    refine BitVec.eq_of_getLsbD_eq fun j hj => ?_
    rw [getLsbD_lane _ _ hj]
    rcases i with - | i
    · simp [ofBytes, show j < w by omega, hj]
    · have hlow : b.getLsbD (8 * (i + 1) + j) = false := BitVec.getLsbD_of_ge _ _ (by omega)
      have hsub : 8 * (i + 1) + j - 8 = 8 * i + j := by omega
      have hrest := congrArg (fun c => c.getLsbD j) (ih (i := i) (by omega))
      simp only [getLsbD_lane _ _ hj] at hrest
      rw [ofBytes, List.foldr_cons, BitVec.getLsbD_or, BitVec.getLsbD_shiftLeft, hsub,
        BitVec.getLsbD_setWidth, hlow]
      simp only [show 8 * (i + 1) + j < w by omega, show ¬ 8 * (i + 1) + j < 8 by omega,
        decide_true, decide_false, Bool.not_false, Bool.true_and, Bool.and_false, Bool.or_false,
        List.getD_cons_succ]
      exact hrest

theorem toBytes_ofBytes (hw : 8 * n ≤ w) {l : List (BitVec 8)} (hl : l.length = n) :
    toBytes n (ofBytes w l) = l := by
  refine List.ext_getElem (by simp [hl]) fun i h1 h2 => ?_
  have hi : i < n := by simpa using h1
  simp [toBytes, lane_ofBytes l (show 8 * i + 8 ≤ w by omega), List.getD_eq_getElem?_getD, h2]

theorem lane_ofBytes_map_range (hw : 8 * n ≤ w) (f : ℕ → BitVec 8) (hi : i < n) :
    lane (ofBytes w ((List.range n).map f)) i = f i := by
  rw [lane_ofBytes _ (by omega)]
  simp [List.getD_eq_getElem?_getD, hi]

theorem ofBytes_toBytes (hw : w = 8 * n) (x : BitVec w) :
    ofBytes w (toBytes n x) = x :=
  eq_of_lane_eq hw.le fun _ hi => lane_ofBytes_map_range hw.ge _ hi

theorem lane_eq_setWidth (x : BitVec w) (i : ℕ) : lane x i = (x >>> (8 * i)).setWidth 8 := by
  refine BitVec.eq_of_getLsbD_eq fun j hj => ?_
  simp [lane, hj]

theorem lane_append {v : ℕ} (hi : BitVec w) (hv : v = 8 * n) (lo : BitVec v) (i : ℕ) :
    lane (hi ++ lo) i = if i < n then lane lo i else lane hi (i - n) := by
  refine BitVec.eq_of_getLsbD_eq fun j hj => ?_
  rw [getLsbD_lane _ _ hj, BitVec.getLsbD_append]
  split
  · rw [if_pos (by omega), getLsbD_lane _ _ hj]
  · rw [if_neg (by omega), getLsbD_lane _ _ hj]
    congr 1
    omega

theorem lane_extractLsb' (x : BitVec w) (k : ℕ) {v : ℕ} (hi : 8 * i + 8 ≤ v) :
    lane (x.extractLsb' (8 * k) v) i = lane x (k + i) := by
  refine BitVec.eq_of_getLsbD_eq fun j hj => ?_
  rw [getLsbD_lane _ _ hj, getLsbD_lane _ _ hj, BitVec.getLsbD_extractLsb']
  simp [show 8 * i + j < v by omega, show 8 * k + (8 * i + j) = 8 * (k + i) + j by omega]

theorem lane_ushiftRight_lanes (x : BitVec w) (k i : ℕ) :
    lane (x >>> (8 * k)) i = lane x (k + i) := by
  refine BitVec.eq_of_getLsbD_eq fun j hj => ?_
  rw [getLsbD_lane _ _ hj, getLsbD_lane _ _ hj, BitVec.getLsbD_ushiftRight]
  congr 1
  omega

theorem lane_shiftLeft_lanes (x : BitVec w) (k : ℕ) (hi : 8 * i + 8 ≤ w) :
    lane (x <<< (8 * k)) i = if i < k then 0 else lane x (i - k) := by
  refine BitVec.eq_of_getLsbD_eq fun j hj => ?_
  rw [getLsbD_lane _ _ hj, BitVec.getLsbD_shiftLeft]
  split
  · simp [show 8 * i + j < 8 * k by omega]
  · rw [getLsbD_lane _ _ hj, show 8 * i + j - 8 * k = 8 * (i - k) + j by omega]
    simp [show 8 * i + j < w by omega, show ¬ 8 * i + j < 8 * k by omega]

def repByte (w : ℕ) (c : BitVec 8) : BitVec w := ofBytes w (List.replicate (w / 8) c)

theorem lane_repByte {c : BitVec 8} (hi : 8 * i + 8 ≤ w) : lane (repByte w c) i = c := by
  rw [repByte, lane_ofBytes _ hi, List.getD_eq_getElem?_getD,
    List.getElem?_replicate_of_lt (by omega), Option.getD_some]

theorem getLsbD_repByte (hw : w = 8 * n) (c : BitVec 8) {p : ℕ} (hp : p < w) :
    (repByte w c).getLsbD p = c.getLsbD (p % 8) := by
  have hlane := getLsbD_lane (repByte w c) (p / 8) (Nat.mod_lt p (by decide : 0 < 8))
  rw [lane_repByte (by omega), Nat.div_add_mod] at hlane
  exact hlane.symm

@[simp] theorem repByte_eight (c : BitVec 8) : repByte 8 c = c := by
  refine eq_of_lane_eq (n := 1) (by decide) fun i hi => ?_
  rw [lane_repByte (by omega), show i = 0 by omega]
  exact BitVec.extractLsb'_eq_self.symm

theorem xor_and_distrib_right (x y z : BitVec w) : (x ^^^ y) &&& z = (x &&& z) ^^^ (y &&& z) :=
  BitVec.eq_of_getElem_eq (by simp [Bool.and_xor_distrib_right])

theorem and_right_comm (x y z : BitVec w) : x &&& y &&& z = x &&& z &&& y := by
  rw [BitVec.and_assoc, BitVec.and_comm y z, ← BitVec.and_assoc]

section Shifts

variable {n : ℕ} (hw : w = 8 * n) {i k : ℕ} (hi : i < n) {c : BitVec 8}
include hw hi

theorem lane_mask_ushiftRight (x : BitVec w) (hc : ∀ j < k, c.getLsbD j = false) :
    lane ((x &&& repByte w c) >>> k) i = (lane x i &&& c) >>> k := by
  refine BitVec.eq_of_getLsbD_eq fun j hj => ?_
  rw [getLsbD_lane _ _ hj, BitVec.getLsbD_ushiftRight, BitVec.getLsbD_ushiftRight,
    BitVec.getLsbD_and, BitVec.getLsbD_and]
  rcases lt_or_ge (k + j) 8 with h | h
  · rw [getLsbD_lane _ _ h, getLsbD_repByte hw c (by omega),
      show (k + (8 * i + j)) % 8 = k + j by omega, show k + (8 * i + j) = 8 * i + (k + j) by omega]
  · rw [BitVec.getLsbD_of_ge c _ h, Bool.and_false]
    rcases lt_or_ge (k + (8 * i + j)) w with hlt | hge
    · rw [getLsbD_repByte hw c hlt, hc _ ?_, Bool.and_false]
      by_contra hk
      have := Nat.mod_lt (k + (8 * i + j)) (by decide : 0 < 8)
      omega
    · rw [BitVec.getLsbD_of_ge _ _ hge, Bool.false_and]

theorem lane_mask_shiftLeft (x : BitVec w) (hc : ∀ j < k, c.getLsbD (7 - j) = false) (hk : k ≤ 8) :
    lane ((x &&& repByte w c) <<< k) i = (lane x i &&& c) <<< k := by
  refine BitVec.eq_of_getLsbD_eq fun j hj => ?_
  rw [getLsbD_lane _ _ hj, BitVec.getLsbD_shiftLeft, BitVec.getLsbD_shiftLeft,
    BitVec.getLsbD_and, BitVec.getLsbD_and]
  rcases lt_or_ge j k with h | h
  · simp only [h, hj, decide_true, Bool.not_true, Bool.and_false, Bool.false_and]
    rcases lt_or_ge (8 * i + j) k with h' | h'
    · simp [h']
    · rw [getLsbD_repByte hw c (by omega), show (8 * i + j - k) % 8 = 7 - (k - 1 - j) by omega,
        hc _ (by omega), Bool.and_false, Bool.and_false]
  · rw [getLsbD_lane _ _ (by omega), getLsbD_repByte hw c (by omega),
      show (8 * i + j - k) % 8 = j - k by omega, show 8 * i + j - k = 8 * i + (j - k) by omega]
    simp [show ¬ j < k by omega, show ¬ 8 * i + j < k by omega, show 8 * i + j < w by omega, hj]

theorem lane_shiftLeft_mask (x : BitVec w) (hc : ∀ j < k, c.getLsbD j = false) (hk : k ≤ 8) :
    lane (x <<< k) i &&& c = (lane x i <<< k) &&& c := by
  refine BitVec.eq_of_getLsbD_eq fun j hj => ?_
  rw [BitVec.getLsbD_and, BitVec.getLsbD_and, getLsbD_lane _ _ hj, BitVec.getLsbD_shiftLeft,
    BitVec.getLsbD_shiftLeft]
  rcases lt_or_ge j k with h | h
  · rw [hc j h, Bool.and_false, Bool.and_false]
  · rw [getLsbD_lane _ _ (by omega), show 8 * i + j - k = 8 * i + (j - k) by omega]
    simp [show ¬ j < k by omega, show ¬ 8 * i + j < k by omega, show 8 * i + j < w by omega, hj]

omit hw hi in
theorem lane_ushiftRight_mask (x : BitVec w) (hc : ∀ j < k, c.getLsbD (7 - j) = false) :
    lane (x >>> k) i &&& c = (lane x i >>> k) &&& c := by
  refine BitVec.eq_of_getLsbD_eq fun j hj => ?_
  rw [BitVec.getLsbD_and, BitVec.getLsbD_and, getLsbD_lane _ _ hj, BitVec.getLsbD_ushiftRight,
    BitVec.getLsbD_ushiftRight]
  rcases lt_or_ge (k + j) 8 with h | h
  · rw [getLsbD_lane _ _ h, show k + (8 * i + j) = 8 * i + (k + j) by omega]
  · have := hc (7 - j) (by omega)
    rw [show 7 - (7 - j) = j by omega] at this
    rw [this, Bool.and_false, Bool.and_false]

end Shifts

theorem toNat_eq_sum (hw : w = 8 * n) (x : BitVec w) :
    x.toNat = ∑ i ∈ Finset.range n, (lane x i).toNat * 256 ^ i := by
  have hsum : ∀ k, ∑ i ∈ Finset.range k, (lane x i).toNat * 256 ^ i = x.toNat % 256 ^ k := by
    intro k
    induction k with
    | zero => simp [Nat.mod_one]
    | succ k ih =>
      have hlane : (lane x k).toNat = x.toNat / 256 ^ k % 256 := by
        rw [lane, BitVec.extractLsb'_toNat, Nat.shiftRight_eq_div_pow, pow_mul]
        norm_num
      rw [Finset.sum_range_succ, ih, hlane, Nat.mod_pow_succ, mul_comm]
  have hpow : 2 ^ w = 256 ^ n := by
    rw [hw, pow_mul]
    norm_num
  rw [hsum, Nat.mod_eq_of_lt (hpow ▸ x.isLt)]

theorem lane_sub (hw : w = 8 * n) {x y : BitVec w}
    (h : ∀ i < n, (lane y i).toNat ≤ (lane x i).toNat) (hi : i < n) :
    lane (x - y) i = lane x i - lane y i := by
  set z : BitVec w := ofBytes w ((List.range n).map fun k => lane x k - lane y k) with hz
  have hlane : ∀ k < n, lane z k = lane x k - lane y k := fun k hk =>
    lane_ofBytes_map_range hw.ge _ hk
  have hsum : z.toNat + y.toNat = x.toNat := by
    rw [toNat_eq_sum hw z, toNat_eq_sum hw y, toNat_eq_sum hw x, ← Finset.sum_add_distrib]
    refine Finset.sum_congr rfl fun k hk => ?_
    have hk' := Finset.mem_range.mp hk
    rw [hlane k hk', BitVec.toNat_sub_of_le (h k hk'), ← add_mul, Nat.sub_add_cancel (h k hk')]
  have hxy : x - y = z := by
    refine BitVec.eq_of_toNat_eq ?_
    rw [BitVec.toNat_sub_of_le (by rw [BitVec.le_def]; omega)]
    omega
  rw [hxy, hlane i hi]

section Rows

def byteRow (k : ℕ) : BitVec 128 :=
  ofBytes 128 ((List.range 16).map fun i => BitVec.ofNat 8 (16 * k + i))

def tableRow (table : List (BitVec 8)) (k : ℕ) : BitVec 128 :=
  ofBytes 128 ((table.drop (16 * k)).take 16)

theorem lane_byteRow (b : BitVec 8) : lane (byteRow (b.toNat / 16)) (b.toNat % 16) = b := by
  rw [byteRow, lane_ofBytes_map_range (n := 16) le_rfl _ (Nat.mod_lt _ (by decide)),
    Nat.div_add_mod, BitVec.ofNat_toNat, BitVec.setWidth_eq]

variable {f : BitVec 128 → BitVec 128} {g : BitVec 8 → BitVec 8}
  (hlane : ∀ x, ∀ i < 16, lane (f x) i = g (lane x i)) (b : BitVec 8)
include hlane

/-- What acts lane by lane is known from **sixteen words, which hold all the bytes**. -/
theorem apply_eq_lane_byteRow : g b = lane (f (byteRow (b.toNat / 16))) (b.toNat % 16) := by
  rw [hlane _ _ (Nat.mod_lt _ (by decide)), lane_byteRow]

theorem apply_eq_getD {table : List (BitVec 8)}
    (hrows : ∀ k < 16, f (byteRow k) = tableRow table k) : g b = table.getD b.toNat 0 := by
  have hi : b.toNat % 16 < 16 := Nat.mod_lt _ (by decide)
  rw [apply_eq_lane_byteRow hlane, hrows _ (by omega), tableRow, lane_ofBytes _ (by omega),
    List.getD_eq_getElem?_getD, List.getElem?_take_of_lt hi, List.getElem?_drop, Nat.div_add_mod,
    List.getD_eq_getElem?_getD]

end Rows

end ByteLanes
