import Mugglec.Crypt.Des
import Mugglec.Machinery.Feistel

/-!
# Crypt/DesInverse — one block of DES, and of triple DES, comes back

Both paths are a Feistel network between two permutations that undo each other, so **the subkeys in
the other order decipher**, whatever they are.
-/

namespace Mugglec

open ByteLanes

theorem getLsbD_moveBits {w : ℕ} (x : BitVec w) (moves : List (ℕ × ℕ)) {j : ℕ} (hj : j < w) :
    (moveBits x moves).getLsbD j = moves.any fun m => decide (m.2 = j) && x.getLsbD m.1 := by
  induction moves with
  | nil => simp [moveBits]
  | cons m moves ih =>
    rw [moveBits, List.foldr_cons, BitVec.getLsbD_or, List.any_cons]
    refine congrArg₂ _ ?_ ih
    rcases lt_trichotomy m.2 j with h | h | h
    · have hbit : (1#w).getLsbD (j - m.2) = false := by
        rw [BitVec.getLsbD_one]
        simp [show j - m.2 ≠ 0 by omega]
      simp [moveBit, h.ne, hbit]
    · subst h
      simp [moveBit, hj]
    · simp [moveBit, h.ne', h]

def moveSource (moves : List (ℕ × ℕ)) (j : ℕ) : ℕ := ((moves.find? (·.2 = j)).map (·.1)).getD 0

theorem getLsbD_moveBits_eq {w : ℕ} (x : BitVec w) {moves : List (ℕ × ℕ)}
    (hnd : (moves.map Prod.snd).Nodup) {j : ℕ} (hj : j < w) (hmem : j ∈ moves.map Prod.snd) :
    (moveBits x moves).getLsbD j = x.getLsbD (moveSource moves j) := by
  rw [getLsbD_moveBits x moves hj]
  induction moves with
  | nil => simp at hmem
  | cons m moves ih =>
    rw [List.map_cons, List.nodup_cons] at hnd
    by_cases h : m.2 = j
    · have hrest : (moves.any fun m => decide (m.2 = j) && x.getLsbD m.1) = false := by
        refine List.any_eq_false.mpr fun m' hm' => ?_
        have hne : m'.2 ≠ j := fun h' => hnd.1 (h ▸ h' ▸ List.mem_map_of_mem hm')
        simp [hne]
      simp [moveSource, h, hrest]
    · have hmem' : j ∈ moves.map Prod.snd := by
        simpa [Ne.symm h] using hmem
      rw [List.any_cons, ih hnd.2 hmem']
      simp [moveSource, h]

theorem getLsbD_halves (l h : BitVec 32) {j : ℕ} :
    (halves l h).getLsbD j = if j < 32 then l.getLsbD j else h.getLsbD (j - 32) :=
  BitVec.getLsbD_append

@[simp] theorem loHalf_halves (l h : BitVec 32) : loHalf (halves l h) = l := by
  refine BitVec.eq_of_getLsbD_eq fun j hj => ?_
  simp [loHalf, getLsbD_halves, hj]

@[simp] theorem hiHalf_halves (l h : BitVec 32) : hiHalf (halves l h) = h := by
  refine BitVec.eq_of_getLsbD_eq fun j hj => ?_
  simp [hiHalf, getLsbD_halves, hj]

@[simp] theorem halves_loHalf_hiHalf (x : BitVec 64) : halves (loHalf x) (hiHalf x) = x := by
  refine BitVec.eq_of_getLsbD_eq fun j hj => ?_
  rcases lt_or_ge j 32 with h | h
  · simp [getLsbD_halves, loHalf, h]
  · simp [getLsbD_halves, hiHalf, show ¬ j < 32 by omega, show j - 32 < 32 by omega,
      show 32 + (j - 32) = j by omega]

def movesTo (l h : List (ℕ × ℕ)) (x : BitVec 64) : BitVec 64 :=
  halves ((moveBits x l).setWidth 32) ((moveBits x h).setWidth 32)

def sourceIn (l h : List (ℕ × ℕ)) (j : ℕ) : ℕ :=
  if j < 32 then moveSource l j else moveSource h (j - 32)

theorem getLsbD_movesTo {l h : List (ℕ × ℕ)} (hl : l.map Prod.snd = List.range 32)
    (hh : h.map Prod.snd = List.range 32) (x : BitVec 64) {j : ℕ} (hj : j < 64) :
    (movesTo l h x).getLsbD j = x.getLsbD (sourceIn l h j) := by
  rw [movesTo, getLsbD_halves, sourceIn]
  split
  · next hlt =>
    rw [BitVec.getLsbD_setWidth, getLsbD_moveBits_eq x (hl ▸ List.nodup_range) hj
      (hl ▸ List.mem_range.mpr hlt)]
    simp [hlt]
  · next hge =>
    have hlt : j - 32 < 32 := by omega
    rw [BitVec.getLsbD_setWidth, getLsbD_moveBits_eq x (hh ▸ List.nodup_range) (by omega)
      (hh ▸ List.mem_range.mpr hlt)]
    simp [hlt]

variable (optimised : Bool) (ks ks1 ks2 ks3 : List (BitVec 64)) (x : BitVec 64)

theorem desFp_desIp : desFp (desIp x) = x := by
  have htable : ∀ j < 64, sourceIn desFpL desFpH j < 64 ∧
      sourceIn desIpL desIpH (sourceIn desFpL desFpH j) = j := by decide
  refine BitVec.eq_of_getLsbD_eq fun j hj => ?_
  refine (getLsbD_movesTo (l := desFpL) (h := desFpH) rfl rfl (desIp x) hj).trans ?_
  refine (getLsbD_movesTo (l := desIpL) (h := desIpH) rfl rfl x (htable j hj).1).trans ?_
  rw [(htable j hj).2]

theorem desIp_desFp : desIp (desFp x) = x := by
  have htable : ∀ j < 64, sourceIn desIpL desIpH j < 64 ∧
      sourceIn desFpL desFpH (sourceIn desIpL desIpH j) = j := by decide
  refine BitVec.eq_of_getLsbD_eq fun j hj => ?_
  refine (getLsbD_movesTo (l := desIpL) (h := desIpH) rfl rfl (desFp x) hj).trans ?_
  refine (getLsbD_movesTo (l := desFpL) (h := desFpH) rfl rfl x (htable j hj).1).trans ?_
  rw [(htable j hj).2]

/-- The halves at the beginning of the loops of the plain path -/
def desEnter (input : BitVec 64) : BitVec 32 × BitVec 32 :=
  (loHalf (desIp input), hiHalf (desIp input))

/-- The end of the plain path: the halves change places. -/
def desLeave (lh : BitVec 32 × BitVec 32) : BitVec 64 := desFp (halves lh.2 lh.1)

@[simp] theorem desEnter_desLeave (lh : BitVec 32 × BitVec 32) :
    desEnter (desLeave lh) = lh.swap := by
  simp [desEnter, desLeave, desIp_desFp, Prod.swap]

@[simp] theorem desLeave_swap_desEnter : desLeave (desEnter x).swap = x := by
  simp [desEnter, desLeave, desFp_desIp]

/-- **The plain path around any round function and any subkeys.** -/
structure DesPath where
  f : BitVec 32 → BitVec 64 → BitVec 32
  subkeys : BitVec 64 → List (BitVec 64)

namespace DesPath

variable (P : DesPath)

def rounds : List (BitVec 64) → BitVec 32 × BitVec 32 → BitVec 32 × BitVec 32 :=
  Feistel.rounds (· ^^^ ·) P.f

def crypt (ks : List (BitVec 64)) (input : BitVec 64) : BitVec 64 :=
  desLeave (P.rounds ks (desEnter input))

def tdesCrypt (ks1 ks2 ks3 : List (BitVec 64)) (input : BitVec 64) : BitVec 64 :=
  desLeave (P.rounds ks3 (P.rounds ks2 (P.rounds ks1 (desEnter input))))

def plain : DesPath := ⟨desF, desPlainSubkeys .encrypt⟩

theorem rounds_append (ks ks' : List (BitVec 64)) (p : BitVec 32 × BitVec 32) :
    P.rounds (ks ++ ks') p = P.rounds ks' (P.rounds ks p) :=
  List.foldl_append

theorem rounds_reverse (p : BitVec 32 × BitVec 32) :
    P.rounds ks.reverse (P.rounds ks p).swap = p.swap :=
  Feistel.rounds_reverse_swap P.f xor_xor_cancel ks p

theorem crypt_reverse : P.crypt ks.reverse (P.crypt ks x) = x := by
  simp only [crypt, desEnter_desLeave, rounds_reverse, desLeave_swap_desEnter]

theorem tdesCrypt_eq : P.tdesCrypt ks1 ks2 ks3 = P.crypt (ks1 ++ ks2 ++ ks3) := by
  funext x
  simp only [tdesCrypt, crypt, rounds_append]

theorem tdesCrypt_reverse :
    P.tdesCrypt ks3.reverse ks2.reverse ks1.reverse (P.tdesCrypt ks1 ks2 ks3 x) = x := by
  have hback := P.crypt_reverse (ks1 ++ ks2 ++ ks3) x
  rwa [List.reverse_append, List.reverse_append, ← List.append_assoc, ← tdesCrypt_eq,
    ← tdesCrypt_eq] at hback

end DesPath

theorem opensslPermOp_permOp {n : ℕ} {m : BitVec 32} (hm : (m <<< n) >>> n = m) (a b : BitVec 32) :
    opensslPermOp (opensslPermOp a b n m).1 (opensslPermOp a b n m).2 n m = (a, b) := by
  set t := ((a >>> n) ^^^ b) &&& m with ht
  have hshift : (t <<< n) >>> n = t := by
    refine BitVec.eq_of_getLsbD_eq fun j hj => ?_
    have hbit := congrArg (fun y => y.getLsbD j) hm
    simp only [BitVec.getLsbD_ushiftRight, BitVec.getLsbD_shiftLeft] at hbit
    simp only [ht, BitVec.getLsbD_ushiftRight, BitVec.getLsbD_shiftLeft, BitVec.getLsbD_and]
    grind
  have hsame : (((a ^^^ (t <<< n)) >>> n) ^^^ (b ^^^ t)) &&& m = t := by
    have hcancel : (a >>> n ^^^ t) ^^^ (b ^^^ t) = a >>> n ^^^ b := by
      rw [BitVec.xor_assoc, ← BitVec.xor_assoc t b t, BitVec.xor_comm t b, xor_xor_cancel]
    rw [BitVec.ushiftRight_xor_distrib, hshift, hcancel]
  simp only [opensslPermOp, ← ht, hsame, xor_xor_cancel]

theorem opensslDesFp_desIp (l r : BitVec 32) :
    opensslDesFp (opensslDesIp l r).2 (opensslDesIp l r).1 = (r, l) := by
  simp only [opensslDesIp, opensslDesFp]
  rw [opensslPermOp_permOp (by decide), opensslPermOp_permOp (by decide),
    opensslPermOp_permOp (by decide), opensslPermOp_permOp (by decide),
    opensslPermOp_permOp (by decide)]

theorem opensslDesIp_desFp (l r : BitVec 32) :
    opensslDesIp (opensslDesFp l r).2 (opensslDesFp l r).1 = (r, l) := by
  simp only [opensslDesIp, opensslDesFp]
  rw [opensslPermOp_permOp (by decide), opensslPermOp_permOp (by decide),
    opensslPermOp_permOp (by decide), opensslPermOp_permOp (by decide),
    opensslPermOp_permOp (by decide)]

theorem opensslRotate_eq (v : BitVec 32) {n : ℕ} (hn : n < 32) :
    opensslRotate v n = v.rotateRight n := by
  rw [opensslRotate, BitVec.add_eq_or_of_and_eq_zero, BitVec.rotateRight_def,
    Nat.mod_eq_of_lt hn]
  refine BitVec.eq_of_getLsbD_eq fun j hj => ?_
  rw [BitVec.getLsbD_and, BitVec.getLsbD_ushiftRight, BitVec.getLsbD_shiftLeft]
  rcases lt_or_ge (n + j) 32 with h | h
  · simp [show j < 32 - n by omega]
  · simp [BitVec.getLsbD_of_ge v _ h]

theorem opensslRotate_rotate (v : BitVec 32) {m n : ℕ} (hm : 0 < m) (hn : 0 < n) (h : m + n = 32) :
    opensslRotate (opensslRotate v m) n = v := by
  rw [opensslRotate_eq v (by omega), opensslRotate_eq _ (by omega)]
  refine BitVec.eq_of_getLsbD_eq fun j hj => ?_
  rw [BitVec.getLsbD_rotateRight, BitVec.getLsbD_rotateRight, BitVec.getLsbD_rotateRight,
    Nat.mod_eq_of_lt (by omega : n < 32), Nat.mod_eq_of_lt (by omega : m < 32)]
  rcases lt_or_ge j (32 - n) with hlt | hge
  · simp [hlt, show ¬ n + j < 32 - m by omega, show n + j < 32 by omega,
      show n + j - (32 - m) = j by omega]
  · simp [show ¬ j < 32 - n by omega, hj, show j - (32 - n) < 32 - m by omega,
      show m + (j - (32 - n)) = j by omega]

theorem opensslDesRounds_reverse (l r : BitVec 32) :
    opensslDesRounds ks.reverse (opensslDesRounds ks l r).2 (opensslDesRounds ks l r).1 =
      (r, l) := by
  set p := (opensslRotate l 29, opensslRotate r 29) with hp
  have hback := Feistel.rounds_reverse_swap opensslDesF xor_xor_cancel ks p
  have hrounds : ∀ ks q, ks.foldl opensslDesRound q = Feistel.rounds (· ^^^ ·) opensslDesF ks q :=
    fun _ _ => rfl
  rw [Prod.swap] at hback
  simp only [opensslDesRounds, ← hp, hrounds,
    opensslRotate_rotate _ (by decide : 0 < 3) (by decide : 0 < 29) (by decide), hback]
  simp only [hp, Prod.swap, opensslRotate_rotate _ (by decide : 0 < 29) (by decide : 0 < 3)]

theorem opensslEncrypt1_reverse : opensslEncrypt1 ks.reverse (opensslEncrypt1 ks x) = x := by
  simp only [opensslEncrypt1, loHalf_halves, hiHalf_halves, opensslDesIp_desFp,
    opensslDesRounds_reverse, opensslDesFp_desIp, halves_loHalf_hiHalf]

theorem opensslEncrypt2_reverse : opensslEncrypt2 ks.reverse (opensslEncrypt2 ks x) = x := by
  simp only [opensslEncrypt2, loHalf_halves, hiHalf_halves, opensslDesRounds_reverse,
    halves_loHalf_hiHalf]

theorem opensslTdesCrypt_reverse :
    opensslTdesCrypt ks3.reverse ks2.reverse ks1.reverse (opensslTdesCrypt ks1 ks2 ks3 x) = x := by
  simp only [opensslTdesCrypt, loHalf_halves, hiHalf_halves, opensslDesIp_desFp,
    halves_loHalf_hiHalf, opensslEncrypt2_reverse, opensslDesFp_desIp]

theorem desSetKeyInner_decrypt (key : BitVec 64) :
    desSetKeyInner optimised .decrypt key = (desSetKeyInner optimised .encrypt key).reverse := by
  cases optimised <;> rfl

theorem desCrypt_reverse : desCrypt optimised ks.reverse (desCrypt optimised ks x) = x := by
  cases optimised
  · exact DesPath.plain.crypt_reverse ks x
  · exact opensslEncrypt1_reverse ks x

theorem tdesCrypt_reverse :
    tdesCrypt optimised ks3.reverse ks2.reverse ks1.reverse (tdesCrypt optimised ks1 ks2 ks3 x) =
      x := by
  cases optimised
  · exact DesPath.plain.tdesCrypt_reverse ks1 ks2 ks3 x
  · exact opensslTdesCrypt_reverse ks1 ks2 ks3 x

end Mugglec
