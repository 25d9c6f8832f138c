import Mathlib.Data.FinEnum
import Mugglec.Crypt.AesLanes
import Mugglec.Machinery.Rijndael

/-!
# Crypt/AesRounds — both AES paths are the one cipher

The optimised path keeps the state **column by column** in two words, the plain one **row by row**
in sixteen bytes.  Read as a square of bytes, every step of either is the step of `Rijndael`.
-/

namespace Mugglec

open Function ByteLanes Rijndael

def aesSboxPerm : Equiv.Perm Byte where
  toFun := aesSbox
  invFun := aesInvSbox
  left_inv := aesInvSbox_aesSbox
  right_inv := LeftInverse.rightInverse_of_surjective aesInvSbox_aesSbox
    (Finite.surjective_of_injective (LeftInverse.injective aesInvSbox_aesSbox))

theorem and_highBit (b : Byte) : b &&& 0x80 = if b.getLsbD 7 then 0x80 else 0 :=
  BitVec.and_twoPow b 7

theorem opensslXtime_byte (b : Byte) : opensslXtime b = xtime b := by
  simp only [opensslXtime, repByte_eight, and_highBit, xtime, BitVec.shiftLeft_xor_distrib]
  cases b.getLsbD 7
  · simp
  · rw [BitVec.xor_comm]
    simp

def columnsState (x : BitVec 128) : State := fun r c => lane x (4 * c + r)

theorem columnsState_injective : Injective columnsState := by
  intro x y h
  refine eq_of_lane_eq (n := 16) (by decide) fun i hi => ?_
  have hlane := congrFun (congrFun h ⟨i % 4, by omega⟩) ⟨i / 4, by omega⟩
  simpa only [columnsState, Nat.div_add_mod] using hlane

def wordColumn (d : BitVec 64) (b : ℕ) : Column := fun r => lane d (4 * b + r)

theorem lane_pairWords (lo hi : BitVec 64) (i : ℕ) :
    lane (pairWords lo hi) i = if i < 8 then lane lo i else lane hi (i - 8) :=
  lane_append hi (n := 8) rfl lo i

variable {i : ℕ} (x : BitVec 128)

theorem lane_loWord (hi : i < 8) : lane (loWord x) i = lane x i := by
  rw [loWord, lane_extractLsb' x 0 (by omega), Nat.zero_add]

theorem lane_hiWord (hi : i < 8) : lane (hiWord x) i = lane x (8 + i) :=
  lane_extractLsb' x 8 (by omega)

theorem columnsState_onWords {f : BitVec 64 → BitVec 64} {g : Column → Column}
    (h : ∀ d, ∀ b < 2, wordColumn (f d) b = g (wordColumn d b)) (x : BitVec 128) :
    columnsState (onWords f x) = fun r c => g (fun k => columnsState x k c) r := by
  have hlo : ∀ b < 2, wordColumn (loWord x) b = fun k : Fin 4 => lane x (4 * b + k) := fun b hb =>
    funext fun k => lane_loWord x (by omega)
  have hhi : ∀ b < 2, wordColumn (hiWord x) b = fun k : Fin 4 => lane x (4 * (b + 2) + k) :=
    fun b hb => funext fun k => by
      rw [wordColumn, lane_hiWord x (by omega)]
      congr 1
      omega
  funext r c
  rw [columnsState, onWords, lane_pairWords]
  split
  case isTrue hc =>
    have hcol := congrFun (h (loWord x) c (by omega)) r
    rwa [hlo c (by omega)] at hcol
  case isFalse hc =>
    have hcol := congrFun (h (hiWord x) (c - 2) (by omega)) r
    rw [hhi (c - 2) (by omega), wordColumn, show c.val - 2 + 2 = c by omega] at hcol
    rwa [show 4 * c.val + r - 8 = 4 * (c.val - 2) + r by omega]

theorem columnsState_opensslSub :
    columnsState (onWords opensslSub x) = subBytes aesSboxPerm (columnsState x) :=
  columnsState_onWords (g := fun v r => aesSboxPerm (v r)) (fun d b hb => funext fun r => by
    rw [wordColumn, lane_opensslSub (n := 8) rfl (by omega), opensslSub_byte]
    rfl) x

theorem columnsState_opensslInvSub :
    columnsState (onWords opensslInvSub x) = (subBytes aesSboxPerm).symm (columnsState x) :=
  columnsState_onWords (g := fun v r => aesSboxPerm.symm (v r)) (fun d b hb => funext fun r => by
    rw [wordColumn, lane_opensslInvSub (n := 8) rfl (by omega), opensslInvSub_byte]
    rfl) x

theorem columnsState_opensslShiftRow :
    columnsState (opensslShiftRow x) = shiftRows (columnsState x) := by
  funext r c
  have hi : 4 * c.val + r < 16 := by omega
  show lane (opensslShiftRow x) (4 * c + r) = lane x (4 * ↑(c + r) + r)
  rw [opensslShiftRow, lane_ofBytes_map_range (by decide) _ hi, Fin.val_add]
  congr 1
  omega

theorem columnsState_opensslInvShiftRow :
    columnsState (opensslInvShiftRow x) = shiftRows.symm (columnsState x) := by
  funext r c
  have hi : 4 * c.val + r < 16 := by omega
  show lane (opensslInvShiftRow x) (4 * c + r) = lane x (4 * ↑(c - r) + r)
  rw [opensslInvShiftRow, lane_ofBytes_map_range (by decide) _ hi, Fin.val_sub]
  congr 1
  omega

theorem lane_exchange (d down up : BitVec 64) (k : ℕ) (hi : i < 8) :
    lane (((d &&& down) >>> (8 * k)) ||| ((d &&& up) <<< (8 * k))) i =
      (lane d (k + i) &&& lane down (k + i)) |||
        (if i < k then 0 else lane d (i - k) &&& lane up (i - k)) := by
  rw [lane_or, lane_ushiftRight_lanes, lane_shiftLeft_lanes _ _ (by omega), lane_and, lane_and]

theorem and_ff (b : Byte) : b &&& 255#8 = b := BitVec.and_allOnes

variable (d : BitVec 64)

theorem lane_opensslSwap16 (hi : i < 8) : lane (opensslSwap16 d) i = lane d (i ^^^ 2) := by
  rw [opensslSwap16, show 16 = 8 * 2 from rfl, lane_exchange d _ _ 2 hi]
  interval_cases i <;> simp [lane, and_ff]

theorem lane_opensslSwap8 (hi : i < 8) : lane (opensslSwap8 d) i = lane d (i ^^^ 1) := by
  have h := lane_exchange d 0xFF00FF00FF00FF00 0x00FF00FF00FF00FF 1 hi
  refine Eq.trans h ?_
  interval_cases i <;> simp [lane, and_ff]

theorem lane_opensslNextByte (hi : i < 8) :
    lane (opensslNextByte d) i = lane d (i / 4 * 4 + (i + 1) % 4) := by
  rw [opensslNextByte, lane_ofBytes _ (by omega)]
  interval_cases i <;> rfl

theorem wordColumn_opensslMixWord {b : ℕ} (hb : b < 2) :
    wordColumn (opensslMixWord d).1 b = mixColumn (wordColumn d b) := by
  funext r
  simp only [wordColumn, opensslMixWord, mixColumn, mixByte]
  interval_cases b <;> fin_cases r <;>
    simp (disch := omega) [lane_opensslSwap16, lane_opensslSwap8, lane_opensslNextByte,
      lane_opensslXtime (n := 8) rfl, opensslXtime_byte, BitVec.xor_assoc, BitVec.xor_comm,
      Rijndael.xor_left_comm, Rijndael.xor_left_cancel]

theorem opensslInvMixWord_eq : opensslInvMixWord d =
      let s1 := opensslXtime (opensslXtime d)
      let s2 := s1 ^^^ opensslSwap16 s1
      (opensslMixWord d).1 ^^^ s2 ^^^ (opensslXtime s2 ^^^ opensslSwap8 (opensslXtime s2)) := rfl

theorem lane_opensslInvMixWord (hi : i < 8) : lane (opensslInvMixWord d) i =
      lane (opensslMixWord d).1 i ^^^
      (xtime (xtime (lane d i)) ^^^ xtime (xtime (lane d (i ^^^ 2)))) ^^^
      (xtime (xtime (xtime (lane d i))) ^^^ xtime (xtime (xtime (lane d (i ^^^ 2)))) ^^^
        (xtime (xtime (xtime (lane d (i ^^^ 1)))) ^^^
          xtime (xtime (xtime (lane d (i ^^^ 1 ^^^ 2)))))) := by
  have h1 : i ^^^ 1 < 8 := Nat.xor_lt_two_pow (n := 3) hi (by decide)
  have h2 : i ^^^ 2 < 8 := Nat.xor_lt_two_pow (n := 3) hi (by decide)
  have h12 : i ^^^ 1 ^^^ 2 < 8 := Nat.xor_lt_two_pow (n := 3) h1 (by decide)
  simp only [opensslInvMixWord_eq, lane_xor, lane_opensslSwap16 _ hi, lane_opensslSwap8 _ hi,
    lane_opensslSwap16 _ h1, lane_opensslXtime (n := 8) rfl hi, lane_opensslXtime (n := 8) rfl h1,
    lane_opensslXtime (n := 8) rfl h2, lane_opensslXtime (n := 8) rfl h12, opensslXtime_byte,
    xtime_xor]

theorem wordColumn_opensslInvMixWord {b : ℕ} (hb : b < 2) :
    wordColumn (opensslInvMixWord d) b = mixColumn (evenColumn (wordColumn d b)) := by
  funext r
  have hmix : lane (opensslMixWord d).1 (4 * b + r) = mixColumn (wordColumn d b) r :=
    congrFun (wordColumn_opensslMixWord d hb) r
  rw [mixColumn_evenColumn, unmixByte_eq, wordColumn, lane_opensslInvMixWord d (by omega), hmix]
  -- on an odd row the byte next to the row's own lies before it
  interval_cases b <;> fin_cases r <;>
    first | rfl | exact congrArg _ (congrArg _ (BitVec.xor_comm _ _))

theorem columnsState_opensslMixColumns :
    columnsState (opensslMixColumns x) = mixColumns (columnsState x) :=
  columnsState_onWords (fun d _ hb => wordColumn_opensslMixWord d hb) x

theorem columnsState_opensslInvMixColumns :
    columnsState (opensslInvMixColumns x) = mixColumns.symm (columnsState x) :=
  columnsState_onWords (g := fun v => mixColumn (evenColumn v))
    (fun d _ hb => wordColumn_opensslInvMixWord d hb) x

theorem opensslAddRoundKey_eq (w : ℕ → BitVec 64) :
    opensslAddRoundKey x w = x ^^^ pairWords (w 0) (w 1) := by
  refine eq_of_lane_eq (n := 16) (by decide) fun i hi => ?_
  simp only [opensslAddRoundKey, lane_pairWords, lane_xor]
  split
  case isTrue h => rw [lane_loWord x h]
  case isFalse h => rw [lane_hiWord x (by omega), show 8 + (i - 8) = i by omega]

theorem columnsState_opensslAddRoundKey (w : ℕ → BitVec 64) :
    columnsState (opensslAddRoundKey x w) =
      addRoundKey (columnsState (pairWords (w 0) (w 1))) (columnsState x) := by
  funext r c
  rw [opensslAddRoundKey_eq, columnsState, lane_xor]
  rfl

def AesSubkeys.lowFirst (sk : AesSubkeys) : ℕ → Column := fun i r => lane (sk.word i) r

theorem columnsState_rk (sk : AesSubkeys) (i : ℕ) :
    columnsState (pairWords (sk.rk (i * 2 + 0)) (sk.rk (i * 2 + 1))) = roundKeys sk.lowFirst i := by
  funext r c
  simp only [columnsState, lane_pairWords, AesSubkeys.rk, lane_append _ (n := 4) rfl, roundKeys,
    AesSubkeys.lowFirst]
  split_ifs <;> congr 2 <;> omega

section OptimisedCipher

variable (sk : AesSubkeys)

theorem columnsState_opensslRound (i : ℕ) :
    columnsState (opensslRound sk.rk x i) =
      round aesSboxPerm (roundKeys sk.lowFirst i) (columnsState x) := by
  rw [opensslRound, columnsState_opensslAddRoundKey, columnsState_rk,
    columnsState_opensslMixColumns, columnsState_opensslShiftRow, columnsState_opensslSub]
  rfl

theorem columnsState_foldl_opensslRound (l : List ℕ) :
    columnsState (l.foldl (opensslRound sk.rk) x) =
      rounds aesSboxPerm (roundKeys sk.lowFirst) l (columnsState x) := by
  rw [rounds_apply]
  exact (List.foldl_hom columnsState fun x i => (columnsState_opensslRound x sk i).symm).symm

theorem columnsState_opensslAesEncrypt : columnsState (opensslAesEncrypt x sk) =
      cipher aesSboxPerm (roundKeys sk.lowFirst) sk.rounds (columnsState x) := by
  have hfirst := columnsState_rk sk 0
  simp only [Nat.zero_mul, Nat.zero_add] at hfirst
  rw [opensslAesEncrypt, opensslCipher, columnsState_opensslAddRoundKey, columnsState_rk,
    columnsState_opensslShiftRow, columnsState_opensslSub, columnsState_foldl_opensslRound,
    columnsState_opensslAddRoundKey, hfirst]
  rfl

theorem columnsState_opensslInvRound (i : ℕ) :
    columnsState (opensslInvRound sk.rk x i) =
      mixColumns.symm ((addRoundKey (roundKeys sk.lowFirst i)).symm
        ((subShift aesSboxPerm).symm (columnsState x))) := by
  rw [opensslInvRound, columnsState_opensslInvMixColumns, columnsState_opensslAddRoundKey,
    columnsState_rk, columnsState_opensslInvSub, columnsState_opensslInvShiftRow]
  rfl

theorem subShift_symm_foldl_opensslInvRound (l : List ℕ) :
    (subShift aesSboxPerm).symm (columnsState (l.reverse.foldl (opensslInvRound sk.rk) x)) =
      (rounds aesSboxPerm (roundKeys sk.lowFirst) l).symm
        ((subShift aesSboxPerm).symm (columnsState x)) := by
  rw [rounds_symm_apply, ← subShift_symm_foldl]
  exact congrArg _
    (List.foldl_hom columnsState fun x i => (columnsState_opensslInvRound x sk i).symm).symm

theorem columnsState_opensslAesDecrypt : columnsState (opensslAesDecrypt x sk) =
      (cipher aesSboxPerm (roundKeys sk.lowFirst) sk.rounds).symm (columnsState x) := by
  have hfirst := columnsState_rk sk 0
  simp only [Nat.zero_mul, Nat.zero_add] at hfirst
  rw [opensslAesDecrypt, opensslInvCipher, columnsState_opensslAddRoundKey, hfirst,
    columnsState_opensslInvSub, columnsState_opensslInvShiftRow]
  refine congrArg (addRoundKey (roundKeys sk.lowFirst 0))
    ((subShift_symm_foldl_opensslInvRound _ sk _).trans ?_)
  rw [columnsState_opensslAddRoundKey, columnsState_rk]
  rfl

end OptimisedCipher

def rowsState (x : BitVec 128) : State := fun r c => lane x (4 * r + c)

theorem lane_aesPick {places : List ℕ} (hlen : places.length = 16) (hi : i < 16) :
    lane (aesPick x places) i = lane x (places.getD i 0) := by
  rw [aesPick, lane_ofBytes _ (by omega)]
  simp [List.getD_eq_getElem?_getD, hlen, hi]

theorem rowsState_aesPick {places : List ℕ} (hlen : places.length = 16) {g : Fin 4 → Fin 4 → ℕ}
    (hplaces : ∀ r c : Fin 4, places.getD (4 * r.val + c.val) 0 = g r c) :
    rowsState (aesPick x places) = fun r c => lane x (g r c) := by
  funext r c
  rw [rowsState, lane_aesPick x hlen (by omega), hplaces]

theorem rowsState_aesTranspose : rowsState (aesTranspose x) = columnsState x :=
  rowsState_aesPick x rfl (by decide)

theorem columnsState_aesTranspose : columnsState (aesTranspose x) = rowsState x := by
  have hplaces : ∀ r c : Fin 4, [0, 4, 8, 12, 1, 5, 9, 13, 2, 6, 10, 14, 3, 7, 11, 15].getD
      (4 * c.val + r.val) 0 = 4 * r.val + c.val := by decide
  funext r c
  rw [columnsState, aesTranspose, lane_aesPick x rfl (by omega), hplaces]
  rfl

theorem rowsState_map {f : Byte → Byte} :
    rowsState (ofBytes 128 ((toBytes 16 x).map f)) = fun r c => f (rowsState x r c) := by
  funext r c
  rw [rowsState, toBytes, List.map_map, lane_ofBytes_map_range (by decide) _ (by omega)]
  rfl

theorem rowsState_aesSubBytes :
    rowsState (aesSubBytes x) = subBytes aesSboxPerm (rowsState x) := rowsState_map x

theorem rowsState_aesInvSubBytes :
    rowsState (aesInvSubBytes x) = (subBytes aesSboxPerm).symm (rowsState x) := rowsState_map x

theorem rowsState_aesShiftRows : rowsState (aesShiftRows x) = shiftRows (rowsState x) :=
  rowsState_aesPick x rfl (g := fun r c => 4 * r.val + (c + r).val) (by decide)

theorem rowsState_aesInvShiftRows : rowsState (aesInvShiftRows x) = shiftRows.symm (rowsState x) :=
  rowsState_aesPick x rfl (g := fun r c => 4 * r.val + (c - r).val) (by decide)

theorem galoisMulLoop_succ (k : ℕ) (a b r : Byte) :
    galoisMulLoop (k + 1) a b r = if a = 0 then r else
      galoisMulLoop k (a >>> 1) (xtime b) (if a &&& 0x01 ≠ 0 then r ^^^ b else r) := by
  simp only [galoisMulLoop, and_highBit, xtime]
  cases b.getLsbD 7 <;> simp

theorem galoisMul_eq (b : Byte) :
    galoisMul 0x01 b = b ∧ galoisMul 0x02 b = xtime b ∧ galoisMul 0x03 b = xtime b ^^^ b ∧
      galoisMul 0x09 b = xtime (xtime (xtime b)) ^^^ b ∧
      galoisMul 0x0b b = xtime (xtime (xtime b)) ^^^ xtime b ^^^ b ∧
      galoisMul 0x0d b = xtime (xtime (xtime b)) ^^^ xtime (xtime b) ^^^ b ∧
      galoisMul 0x0e b = xtime (xtime (xtime b)) ^^^ xtime (xtime b) ^^^ xtime b := by
  simp [galoisMul, galoisMulLoop_succ, BitVec.xor_comm, BitVec.xor_assoc]

theorem rowsState_aesMixBy {table : List Byte}
    (h : ∀ r k : Fin 4, table.getD (4 * r.val + (r + k).val) 0 = table.getD k.val 0)
    (x : BitVec 128) (r c : Fin 4) :
    rowsState (aesMixBy table x) r c =
      galoisMul (table.getD 0 0) (rowsState x r c) ^^^
      galoisMul (table.getD 1 0) (rowsState x (r + 1) c) ^^^
      galoisMul (table.getD 2 0) (rowsState x (r + 2) c) ^^^
      galoisMul (table.getD 3 0) (rowsState x (r + 3) c) := by
  rw [rowsState, aesMixBy, lane_ofBytes_map_range (by decide) _ (by omega)]
  simp only [show (4 * r.val + c.val) / 4 * 4 = 4 * r.val by omega,
    show (4 * r.val + c.val) % 4 = c.val by omega]
  refine (xor_cycle
    (fun k => galoisMul (table.getD (4 * r.val + k.val) 0) (rowsState x k c)) r).trans ?_
  have h0 := h r 0
  rw [add_zero] at h0
  simp only [h0, h r 1, h r 2, h r 3]
  rfl

theorem rowsState_aesMixColumn : rowsState (aesMixColumn x) = mixColumns (rowsState x) := by
  funext r c
  obtain ⟨h2, h3⟩ : _ ∧ _ := ⟨fun b => (galoisMul_eq b).2.1, fun b => (galoisMul_eq b).2.2.1⟩
  have h1 := fun b => (galoisMul_eq b).1
  refine (rowsState_aesMixBy (by decide) x r c).trans ?_
  show galoisMul 0x02 _ ^^^ galoisMul 0x03 _ ^^^ galoisMul 0x01 _ ^^^ galoisMul 0x01 _ = _
  rw [h2, h3, h1, h1]
  rfl

theorem rowsState_aesInvMixColumn :
    rowsState (aesInvMixColumn x) = mixColumns.symm (rowsState x) := by
  funext r c
  refine (rowsState_aesMixBy (by decide) x r c).trans
    (Eq.trans ?_ (mixColumn_evenColumn _ r).symm)
  obtain ⟨-, -, -, -, -, -, he⟩ := galoisMul_eq (rowsState x r c)
  obtain ⟨-, -, -, -, hb, -, -⟩ := galoisMul_eq (rowsState x (r + 1) c)
  obtain ⟨-, -, -, -, -, hd, -⟩ := galoisMul_eq (rowsState x (r + 2) c)
  obtain ⟨-, -, -, h9, -, -, -⟩ := galoisMul_eq (rowsState x (r + 3) c)
  show galoisMul 0x0e _ ^^^ galoisMul 0x0b _ ^^^ galoisMul 0x0d _ ^^^ galoisMul 0x09 _ = _
  rw [he, hb, hd, h9]
  rfl

def AesSubkeys.highFirst (sk : AesSubkeys) : ℕ → Column := fun i r => lane (sk.word i) (3 - r)

section PlainCipher

variable (sk : AesSubkeys)

theorem rowsState_aesAddRoundKey (i : ℕ) :
    rowsState (aesAddRoundKey x (sk.roundKey i)) =
      addRoundKey (roundKeys sk.highFirst i) (rowsState x) := by
  funext r c
  rw [rowsState, aesAddRoundKey, lane_ofBytes_map_range (by decide) _ (by omega)]
  rw [show 24 - 8 * ((4 * r.val + c.val) / 4) = 8 * (3 - r.val) by omega,
    show (4 * r.val + c.val) % 4 = c.val by omega, ← lane_eq_setWidth]
  rfl

theorem rowsState_aesRound (i : ℕ) :
    rowsState (aesRound sk x i) = round aesSboxPerm (roundKeys sk.highFirst i) (rowsState x) := by
  rw [aesRound, rowsState_aesAddRoundKey, rowsState_aesMixColumn, rowsState_aesShiftRows,
    rowsState_aesSubBytes]
  rfl

theorem rowsState_aesInvRound (i : ℕ) :
    rowsState (aesInvRound sk x i) =
      (round aesSboxPerm (roundKeys sk.highFirst i)).symm (rowsState x) := by
  rw [aesInvRound, rowsState_aesInvSubBytes, rowsState_aesInvShiftRows, rowsState_aesInvMixColumn,
    rowsState_aesAddRoundKey]
  rfl

theorem rowsState_foldl_aesRound (l : List ℕ) :
    rowsState (l.foldl (aesRound sk) x) =
      rounds aesSboxPerm (roundKeys sk.highFirst) l (rowsState x) := by
  rw [rounds_apply]
  exact (List.foldl_hom rowsState fun x i => (rowsState_aesRound x sk i).symm).symm

theorem rowsState_foldl_aesInvRound (l : List ℕ) :
    rowsState (l.reverse.foldl (aesInvRound sk) x) =
      (rounds aesSboxPerm (roundKeys sk.highFirst) l).symm (rowsState x) := by
  rw [rounds_symm_apply]
  exact (List.foldl_hom rowsState fun x i => (rowsState_aesInvRound x sk i).symm).symm

theorem rowsState_aesLastRound (i : ℕ) :
    rowsState (aesLastRound sk x i) =
      addRoundKey (roundKeys sk.highFirst i) (subShift aesSboxPerm (rowsState x)) := by
  rw [aesLastRound, rowsState_aesAddRoundKey, rowsState_aesShiftRows, rowsState_aesSubBytes]
  rfl

theorem rowsState_aesInvLastRound (i : ℕ) :
    rowsState (aesInvLastRound sk x i) =
      (subShift aesSboxPerm).symm
        ((addRoundKey (roundKeys sk.highFirst i)).symm (rowsState x)) := by
  rw [aesInvLastRound, rowsState_aesInvSubBytes, rowsState_aesInvShiftRows,
    rowsState_aesAddRoundKey]
  rfl

theorem aesEncrypt_eq (h : sk.roundsValid = true) (x : BitVec 128) :
    aesEncrypt x sk = (.ok, aesLastRound sk ((List.range' 1 (sk.rounds - 1)).foldl (aesRound sk)
      (aesAddRoundKey x (sk.roundKey 0))) sk.rounds) := by
  rw [aesEncrypt, if_neg (by simp [h])]
  simp only [AesSubkeys.roundsValid, decide_eq_true_eq] at h
  rcases h with h | h | h <;> simp [h, List.range']

theorem aesDecrypt_eq (h : sk.roundsValid = true) (x : BitVec 128) :
    aesDecrypt x sk = (.ok, aesAddRoundKey ((List.range' 1 (sk.rounds - 1)).reverse.foldl
      (aesInvRound sk) (aesInvLastRound sk x sk.rounds)) (sk.roundKey 0)) := by
  rw [aesDecrypt, if_neg (by simp [h])]
  simp only [AesSubkeys.roundsValid, decide_eq_true_eq] at h
  rcases h with h | h | h <;> simp [h, List.range']

theorem rowsState_aesEncrypt (h : sk.roundsValid = true) (x : BitVec 128) :
    rowsState (aesEncrypt x sk).2 =
      cipher aesSboxPerm (roundKeys sk.highFirst) sk.rounds (rowsState x) := by
  rw [aesEncrypt_eq sk h, rowsState_aesLastRound, rowsState_foldl_aesRound,
    rowsState_aesAddRoundKey]
  rfl

theorem rowsState_aesDecrypt (h : sk.roundsValid = true) (x : BitVec 128) :
    rowsState (aesDecrypt x sk).2 =
      (cipher aesSboxPerm (roundKeys sk.highFirst) sk.rounds).symm (rowsState x) := by
  rw [aesDecrypt_eq sk h, rowsState_aesAddRoundKey, rowsState_foldl_aesInvRound,
    rowsState_aesInvLastRound]
  rfl

end PlainCipher

def AesSubkeys.columns (build : AesBuild) (sk : AesSubkeys) : ℕ → Column :=
  match build with
  | .optimised => sk.lowFirst
  | .plain _ => sk.highFirst

theorem columnsState_aesCrypt (build : AesBuild) (sk : AesSubkeys) (h : sk.roundsValid = true)
    (x : BitVec 128) :
    columnsState (aesCrypt build .encrypt x sk).2 =
        cipher aesSboxPerm (roundKeys (sk.columns build)) sk.rounds (columnsState x) ∧
      columnsState (aesCrypt build .decrypt x sk).2 =
        (cipher aesSboxPerm (roundKeys (sk.columns build)) sk.rounds).symm (columnsState x) := by
  rcases build with - | rcon
  · exact ⟨columnsState_opensslAesEncrypt x sk, columnsState_opensslAesDecrypt x sk⟩
  · refine ⟨?_, ?_⟩
    · refine (columnsState_aesTranspose _).trans ((rowsState_aesEncrypt sk h _).trans ?_)
      rw [rowsState_aesTranspose]
      rfl
    · refine (columnsState_aesTranspose _).trans ((rowsState_aesDecrypt sk h _).trans ?_)
      rw [rowsState_aesTranspose]
      rfl

theorem aesTranspose_aesTranspose : aesTranspose (aesTranspose x) = x :=
  columnsState_injective (by rw [columnsState_aesTranspose, rowsState_aesTranspose])

theorem rowsState_injective : Function.Injective rowsState := by
  intro x y h
  rw [← columnsState_aesTranspose, ← columnsState_aesTranspose] at h
  rw [← aesTranspose_aesTranspose x, columnsState_injective h, aesTranspose_aesTranspose]

/-- **On the plain path each direction undoes the other**, for the rounds of the three key sizes and
whatever is in the subkeys. -/
theorem aesEncrypt_aesDecrypt_inverse (bits : ℕ) (hbits : bits = 128 ∨ bits = 192 ∨ bits = 256)
    (sk : AesSubkeys) (hrounds : sk.rounds = bits / 32 + 6) (block : BitVec 128) :
    ((aesEncrypt block sk).1 = .ok ∧ (aesDecrypt block sk).1 = .ok) ∧
    (aesDecrypt (aesEncrypt block sk).2 sk).2 = block ∧
    (aesEncrypt (aesDecrypt block sk).2 sk).2 = block := by
  have h : sk.roundsValid = true := by
    rw [AesSubkeys.roundsValid, decide_eq_true_eq]
    omega
  refine ⟨⟨by rw [aesEncrypt_eq sk h], by rw [aesDecrypt_eq sk h]⟩, ?_, ?_⟩
  · refine rowsState_injective ?_
    rw [rowsState_aesDecrypt sk h, rowsState_aesEncrypt sk h, Equiv.symm_apply_apply]
  · refine rowsState_injective ?_
    rw [rowsState_aesEncrypt sk h, rowsState_aesDecrypt sk h, Equiv.apply_symm_apply]

theorem aesEncrypt_aesDecrypt_inverse_zero :
    (aesEncrypt (aesDecrypt 1 ⟨[], 14⟩).2 ⟨[], 14⟩).2 = 1 :=
  (aesEncrypt_aesDecrypt_inverse 256 (by decide) ⟨[], 14⟩ rfl 1).2.2

theorem aesCrypt_decrypt_encrypt (build : AesBuild) (x : BitVec 128) (sk : AesSubkeys) :
    (aesCrypt build .decrypt (aesCrypt build .encrypt x sk).2 sk).2 = x := by
  rcases build with - | rcon
  · refine columnsState_injective ((columnsState_opensslAesDecrypt _ sk).trans ?_)
    rw [aesCrypt, columnsState_opensslAesEncrypt, Equiv.symm_apply_apply]
  · rcases h : sk.roundsValid with - | -
    · simp [aesCrypt, aesEncrypt, aesDecrypt, h, aesTranspose_aesTranspose]
    · refine columnsState_injective ?_
      rw [(columnsState_aesCrypt _ sk h _).2, (columnsState_aesCrypt _ sk h _).1,
        Equiv.symm_apply_apply]

end Mugglec
