import Mugglec.Crypt.AesRounds
import Mugglec.Machinery.Growth

/-!
# Crypt/AesKeys — both AES key expansions solve the one schedule

The plain expansion writes a word a turn, highest byte first; the optimised one writes two at once,
lowest byte first, and makes its round constants as it goes.  The columns of either satisfy the
equations of `Rijndael.IsSchedule`, and those have one solution.
-/

namespace Mugglec

open Function ByteLanes Rijndael Growth

def keyColumns (key : List Byte) : ℕ → Column := fun i r => key.getD (4 * i + r) 0

section Plain

variable (rcon : List (BitVec 32)) (nk : ℕ)

def aesNextWord (w : List (BitVec 32)) (i : ℕ) : BitVec 32 :=
  let temp := w.getD (i - 1) 0
  w.getD (i - nk) 0 ^^^
    (if i % nk = 0 then aesSubWord (aesRotWord temp) ^^^ rcon.getD ((i - 1) / nk) 0
    else if nk > 6 ∧ i % nk = 4 then aesSubWord temp
    else temp)

@[simp] theorem length_aesKeyWords (key : List Byte) : (aesKeyWords key nk).length = nk := by
  simp [aesKeyWords]

theorem aesKeyExpansion_eq (key : List Byte) (nr : ℕ) :
    aesKeyExpansion rcon key nr nk =
      grow (aesNextWord rcon nk) (aesKeyWords key nk) (4 * (nr + 1) - nk) := by
  rw [grow, length_aesKeyWords]
  rfl

theorem lane_aesSubWord (x : BitVec 32) {i : ℕ} (hi : i < 4) :
    lane (aesSubWord x) i = aesSbox (lane x i) := by
  rw [aesSubWord, toBytes, List.map_map, lane_ofBytes_map_range (by decide) _ hi]
  rfl

theorem lane_aesRotWord (x : BitVec 32) (r : Fin 4) :
    lane (aesRotWord x) (3 - r) = lane x (3 - (r + 1 : Fin 4).val) := by
  rw [aesRotWord, lane_ofBytes _ (by omega)]
  fin_cases r <;> rfl

theorem lane_aesRconComment : ∀ k < 15, ∀ r : Fin 4,
    lane (aesRconComment.getD k 0) (3 - r.val) = Rijndael.rcon k r := by
  decide

theorem lane_wordOfBytes (b0 b1 b2 b3 : Byte) (r : Fin 4) :
    lane ((b0.setWidth 32 <<< 24) ||| (b1.setWidth 32 <<< 16) ||| (b2.setWidth 32 <<< 8) |||
      b3.setWidth 32) (3 - r) = [b0, b1, b2, b3].getD r 0 := by
  have hword : (b0.setWidth 32 <<< 24) ||| (b1.setWidth 32 <<< 16) ||| (b2.setWidth 32 <<< 8) |||
      b3.setWidth 32 = ofBytes 32 [b3, b2, b1, b0] := by
    simp [ofBytes, BitVec.shiftLeft_or_distrib, ← BitVec.shiftLeft_add]
  rw [hword, lane_ofBytes _ (by omega)]
  fin_cases r <;> rfl

theorem lane_aesKeyWords (key : List Byte) {i : ℕ} (hi : i < nk) (r : Fin 4) :
    lane ((aesKeyWords key nk).getD i 0) (3 - r) = keyColumns key i r := by
  rw [aesKeyWords, List.getD_eq_getElem?_getD, List.getElem?_map, List.getElem?_range hi]
  refine (lane_wordOfBytes _ _ _ _ r).trans ?_
  fin_cases r <;> rfl

end Plain

theorem isSchedule_aesKeyExpansion (key : List Byte) {nk nr : ℕ} (hnk : 0 < nk)
    (hrcon : (4 * (nr + 1) - 2) / nk < 15) (hle : nk ≤ 4 * (nr + 1)) :
    IsSchedule aesSboxPerm nk (4 * (nr + 1)) (keyColumns key)
      (AesSubkeys.highFirst ⟨aesKeyExpansion aesRconComment key nr nk, nr⟩) := by
  set w := aesKeyExpansion aesRconComment key nr nk with hw
  rw [aesKeyExpansion_eq] at hw
  constructor
  · intro i hi
    funext r
    show lane (w.getD i 0) (3 - r) = keyColumns key i r
    rw [hw, getD_grow_of_lt _ _ _ _ (by rwa [length_aesKeyWords]), lane_aesKeyWords nk key hi]
  · intro i hge hlt r
    have hnext : w.getD i 0 = aesNextWord aesRconComment nk w i := by
      rw [hw]
      refine getD_grow (fun a b hab => ?_) (by simpa using hge) (by simp; omega)
      simp only [aesNextWord, hab (i - 1) (by omega), hab (i - nk) (by omega)]
    show lane (w.getD i 0) (3 - r) = lane (w.getD (i - nk) 0) (3 - r) ^^^ keyCore aesSboxPerm nk i
      (fun r => lane (w.getD (i - 1) 0) (3 - r)) r
    rw [hnext, aesNextWord, lane_xor, keyCore]
    congr 1
    split_ifs with h0 h4
    · rw [lane_xor, lane_aesSubWord _ (by omega), lane_aesRotWord, lane_aesRconComment]
      · rfl
      · exact (Nat.div_le_div_right (by omega)).trans_lt hrcon
    · rw [lane_aesSubWord _ (by omega)]
      rfl
    · rfl

section Optimised

variable (nk n : ℕ)

def opensslNextPair (w : List (BitVec 64)) (i : ℕ) : BitVec 64 :=
  let temp := (w.getD (i - 1) 0).extractLsb' 32 32
  let temp :=
    if i % n = 0 then opensslSub (opensslRotWord temp) ^^^ opensslXtime^[(i - 1) / n] 1
    else if nk > 6 ∧ i % n = 2 then opensslSub temp
    else temp
  let prev := w.getD (i - n) 0
  let w0 := prev.extractLsb' 0 32 ^^^ temp
  (prev.extractLsb' 32 32 ^^^ w0) ++ w0

variable (w : List (BitVec 64))

theorem opensslKeyStep_eq {i : ℕ} (hi : 0 < i) :
    opensslKeyStep nk n ⟨w, w.getD (i - 1) 0, opensslXtime^[(i - 1) / n] 1⟩ i =
      ⟨w ++ [opensslNextPair nk n w i], opensslNextPair nk n w i, opensslXtime^[i / n] 1⟩ := by
  have hrcon : i / n = (i - 1) / n + if i % n = 0 then 1 else 0 := by
    have hstep := Nat.succ_div (a := i - 1) (b := n)
    simpa only [Nat.sub_add_cancel hi, Nat.dvd_iff_mod_eq_zero] using hstep
  rw [hrcon]
  simp only [opensslKeyStep, opensslNextPair]
  split_ifs <;> simp only [iterate_succ_apply', add_zero]

variable {n}

theorem foldl_opensslKeyStep (hn : 0 < n) {w : List (BitVec 64)} (hw : w.length = n) (m : ℕ) :
    (List.range' n m).foldl (opensslKeyStep nk n) ⟨w, w.getD (n - 1) 0, 1⟩ =
      ⟨grow (opensslNextPair nk n) w m, (grow (opensslNextPair nk n) w m).getD (n + m - 1) 0,
        opensslXtime^[(n + m - 1) / n] 1⟩ := by
  induction m with
  | zero =>
    have hdiv : (n - 1) / n = 0 := Nat.div_eq_of_lt (by omega)
    simp [grow, hdiv]
  | succ m ih =>
    have hlast : (grow (opensslNextPair nk n) w (m + 1)).getD (n + (m + 1) - 1) 0 =
        opensslNextPair nk n (grow (opensslNextPair nk n) w m) (n + m) := by
      rw [grow_succ, hw, List.getD_append_right _ _ _ _ (by rw [length_grow]; omega), length_grow,
        show n + (m + 1) - 1 - (w.length + m) = 0 by omega]
      rfl
    rw [List.range'_concat, List.foldl_append, ih, List.foldl_cons, List.foldl_nil, one_mul,
      opensslKeyStep_eq nk n _ (by omega), hlast, grow_succ, hw,
      show n + (m + 1) - 1 = n + m by omega]

omit nk in
theorem getD_flatMap_halves (pairs : List (BitVec 64)) (j : ℕ) :
    (pairs.flatMap fun d => [d.extractLsb' 0 32, d.extractLsb' 32 32]).getD (2 * j) 0 =
        (pairs.getD j 0).extractLsb' 0 32 ∧
      (pairs.flatMap fun d => [d.extractLsb' 0 32, d.extractLsb' 32 32]).getD (2 * j + 1) 0 =
        (pairs.getD j 0).extractLsb' 32 32 := by
  induction pairs generalizing j with
  | nil => simp
  | cons d pairs ih =>
    rcases j with - | j
    · exact ⟨rfl, rfl⟩
    · exact ih j

theorem lane_opensslRotWord (x : BitVec 32) (r : Fin 4) :
    lane (opensslRotWord x) r = lane x (r + 1 : Fin 4) := by
  rw [opensslRotWord, lane_ofBytes _ (by omega)]
  fin_cases r <;> rfl

theorem lane_opensslSub_word (x : BitVec 32) {i : ℕ} (hi : i < 4) :
    lane (opensslSub x) i = aesSbox (lane x i) := by
  rw [lane_opensslSub (n := 4) rfl hi, opensslSub_byte]

theorem lane_iterate_opensslXtime (k : ℕ) (r : Fin 4) :
    lane (opensslXtime^[k] (1 : BitVec 32)) r = Rijndael.rcon k r := by
  have hzero : ∀ k, xtime^[k] 0 = 0 := fun k => iterate_fixed (by decide) k
  have hlane : lane (opensslXtime^[k] (1 : BitVec 32)) r = xtime^[k] (lane (1 : BitVec 32) r) := by
    induction k with
    | zero => rfl
    | succ k ih =>
      rw [iterate_succ_apply', iterate_succ_apply',
        lane_opensslXtime (n := 4) rfl (by omega), opensslXtime_byte, ih]
  rw [hlane, Rijndael.rcon]
  fin_cases r
  · rfl
  · exact hzero k
  · exact hzero k
  · exact hzero k

theorem lane_inputBlocks (key : List Byte) {len j k : ℕ} (hj : j < len) (hk : k < 8) :
    lane ((inputBlocks 64 8 len key).getD j 0) k = key.getD (8 * j + k) 0 := by
  induction len generalizing key j with
  | zero => omega
  | succ len ih =>
    rcases j with - | j
    · rw [inputBlocks, List.getD_cons_zero, lane_ofBytes _ (by omega)]
      simp [List.getD_eq_getElem?_getD, hk]
    · rw [inputBlocks, List.getD_cons_succ, ih _ (by omega)]
      simp only [List.getD_eq_getElem?_getD, List.getElem?_drop]
      congr 2
      omega

theorem lane_opensslNextPair_low {i : ℕ} (r : Fin 4) :
    lane (opensslNextPair (2 * n) n w i) r = lane (w.getD (i - n) 0) r ^^^
      keyCore aesSboxPerm (2 * n) (2 * i) (fun r => lane (w.getD (i - 1) 0) (4 + r)) r := by
  have hhigh : ∀ r : Fin 4, lane ((w.getD (i - 1) 0).extractLsb' 32 32) r =
      lane (w.getD (i - 1) 0) (4 + r) := fun r => lane_extractLsb' _ 4 (by omega)
  have hlow : lane ((w.getD (i - n) 0).extractLsb' 0 32) r = lane (w.getD (i - n) 0) (0 + r) :=
    lane_extractLsb' _ 0 (by omega)
  have hdiv : (2 * i - 1) / (2 * n) = (i - 1) / n := by
    rw [← Nat.div_div_eq_div_mul]
    congr 1
    omega
  have hmod : 2 * i % (2 * n) = 2 * (i % n) := Nat.mul_mod_mul_left 2 i n
  have h0 : 2 * (i % n) = 0 ↔ i % n = 0 := by omega
  have h4 : 2 * (i % n) = 4 ↔ i % n = 2 := by omega
  rw [opensslNextPair, lane_append _ (n := 4) rfl, if_pos r.isLt, lane_xor, hlow, zero_add,
    keyCore, hmod, hdiv]
  congr 1
  simp only [h0, h4, gt_iff_lt]
  split_ifs
  · rw [lane_xor, lane_opensslSub_word _ (by omega), lane_opensslRotWord, hhigh,
      lane_iterate_opensslXtime]
    rfl
  · rw [lane_opensslSub_word _ (by omega), hhigh]
    rfl
  · exact hhigh r

theorem lane_opensslNextPair_high (i : ℕ) (r : Fin 4) :
    lane (opensslNextPair nk n w i) (4 + r) = lane (w.getD (i - n) 0) (4 + r) ^^^
      lane (opensslNextPair nk n w i) r := by
  have hhigh : lane ((w.getD (i - n) 0).extractLsb' 32 32) r = lane (w.getD (i - n) 0) (4 + r) :=
    lane_extractLsb' _ 4 (by omega)
  have h4 : ¬ 4 + r.val < 4 := by omega
  simp only [opensslNextPair, lane_append _ (n := 4) rfl, h4, r.isLt, if_true, if_false,
    Nat.add_sub_cancel_left, lane_xor, hhigh]

def pairColumns (w : List (BitVec 64)) : ℕ → Column := fun i r =>
  lane (w.getD (i / 2) 0) (4 * (i % 2) + r)

omit nk in
theorem lowFirst_flatMap (nr : ℕ) :
    AesSubkeys.lowFirst ⟨w.flatMap fun d => [d.extractLsb' 0 32, d.extractLsb' 32 32], nr⟩ =
      pairColumns w := by
  funext i r
  rw [AesSubkeys.lowFirst, AesSubkeys.word, pairColumns]
  rcases Nat.even_or_odd' i with ⟨j, rfl | rfl⟩
  · rw [(getD_flatMap_halves w j).1, Nat.mul_div_cancel_left j two_pos, Nat.mul_mod_right]
    exact lane_extractLsb' _ 0 (by omega)
  · rw [(getD_flatMap_halves w j).2, show (2 * j + 1) / 2 = j by omega,
      show (2 * j + 1) % 2 = 1 by omega]
    exact lane_extractLsb' _ 4 (by omega)

omit nk in
theorem pairColumns_core {w : List (BitVec 64)} {i : ℕ} (hn : 0 < n) (hge : 2 * n ≤ i)
    (h : w.getD (i / 2) 0 = opensslNextPair (2 * n) n w (i / 2)) (r : Fin 4) :
    pairColumns w i r = pairColumns w (i - 2 * n) r ^^^
      keyCore aesSboxPerm (2 * n) i (pairColumns w (i - 1)) r := by
  rcases Nat.even_or_odd' i with ⟨j, rfl | rfl⟩
  · rw [Nat.mul_div_cancel_left j two_pos] at h
    have hprev : pairColumns w (2 * j - 1) = fun r : Fin 4 => lane (w.getD (j - 1) 0) (4 + r) :=
      funext fun r => by
        rw [pairColumns, show (2 * j - 1) / 2 = j - 1 by omega, show (2 * j - 1) % 2 = 1 by omega]
    rw [hprev, pairColumns, pairColumns, show (2 * j - 2 * n) / 2 = j - n by omega,
      Nat.mul_div_cancel_left j two_pos, h, Nat.mul_mod_right,
      show (2 * j - 2 * n) % 2 = 0 by omega, mul_zero, zero_add, lane_opensslNextPair_low]
  · have hj : (2 * j + 1) / 2 = j := by omega
    have hpar : (2 * j + 1) % (2 * n) % 2 = 1 := by
      rw [Nat.mod_mul_right_mod]
      omega
    -- an odd column takes the one before it as it is
    have hcore : keyCore aesSboxPerm (2 * n) (2 * j + 1) (pairColumns w (2 * j)) r =
        lane (w.getD j 0) r := by
      rw [keyCore, if_neg (by omega), if_neg (by omega), pairColumns,
        Nat.mul_div_cancel_left j two_pos, Nat.mul_mod_right, mul_zero, zero_add]
    rw [hj] at h
    rw [Nat.add_sub_cancel, hcore, pairColumns, pairColumns, hj,
      show (2 * j + 1 - 2 * n) / 2 = j - n by omega, show (2 * j + 1) % 2 = 1 by omega,
      show (2 * j + 1 - 2 * n) % 2 = 1 by omega, h, mul_one, lane_opensslNextPair_high]

end Optimised

theorem isSchedule_opensslKeyExpansion (key : List Byte) {n nr : ℕ} (hn : 0 < n)
    (hle : n ≤ (nr + 1) * 2) :
    IsSchedule aesSboxPerm (2 * n) (4 * (nr + 1)) (keyColumns key)
      (pairColumns (opensslKeyExpansion key nr (2 * n))) := by
  set w := opensslKeyExpansion key nr (2 * n) with hw
  have hgrow :
      w = grow (opensslNextPair (2 * n) n) (inputBlocks 64 8 n key) ((nr + 1) * 2 - n) := by
    rw [hw, opensslKeyExpansion]
    simp only [show 2 * n / 2 = n by omega]
    rw [foldl_opensslKeyStep (2 * n) hn (length_inputBlocks 8 n key)]
  constructor
  · intro i hi
    funext r
    rw [pairColumns, hgrow, getD_grow_of_lt _ _ _ _ (by rw [length_inputBlocks]; omega),
      lane_inputBlocks key (by omega) (by omega), keyColumns]
    congr 1
    omega
  · intro i hge hlt r
    refine pairColumns_core hn hge ?_ r
    rw [hgrow]
    refine getD_grow (fun a b hab => ?_) (by rw [length_inputBlocks]; omega)
      (by rw [length_inputBlocks]; omega)
    simp only [opensslNextPair, hab (i / 2 - 1) (by omega), hab (i / 2 - n) (by omega)]

theorem aesCrypt_eq_of_columns {rcon : List (BitVec 32)} {sko skp : AesSubkeys}
    (ho : sko.roundsValid = true) (hrounds : skp.rounds = sko.rounds)
    (hcolumns : ∀ i < 4 * (sko.rounds + 1), sko.lowFirst i = skp.highFirst i) (op : CryptOp)
    (x : BitVec 128) : aesCrypt (.plain rcon) op x skp = aesCrypt .optimised op x sko := by
  have hp : skp.roundsValid = true := by simpa [AesSubkeys.roundsValid, hrounds] using ho
  have hcipher : cipher aesSboxPerm (roundKeys (sko.columns .optimised)) sko.rounds =
      cipher aesSboxPerm (roundKeys (skp.columns (.plain rcon))) skp.rounds := by
    rw [hrounds]
    refine cipher_congr aesSboxPerm fun i hi => ?_
    funext r c
    exact congrFun (hcolumns (4 * i + c) (by omega)) r
  have hcode : (aesCrypt (.plain rcon) op x skp).1 = .ok := by
    cases op
    · simp [aesCrypt, aesDecrypt_eq skp hp]
    · simp [aesCrypt, aesEncrypt_eq skp hp]
  have hcrypt := columnsState_aesCrypt .optimised sko ho x
  rw [hcipher] at hcrypt
  obtain ⟨hpe, hpd⟩ := columnsState_aesCrypt (.plain rcon) skp hp x
  cases op
  · exact Prod.ext hcode (columnsState_injective (hpd.trans hcrypt.2.symm))
  · exact Prod.ext hcode (columnsState_injective (hpe.trans hcrypt.1.symm))

theorem aesSubkeys_agree (key : List Byte) {bits : ℤ} (h : bits = 128 ∨ bits = 192 ∨ bits = 256) :
    ∃ sko skp, aesSubkeys .optimised key bits = .ok sko ∧
      aesSubkeys (.plain aesRconComment) key bits = .ok skp ∧ sko.roundsValid = true ∧
      skp.rounds = sko.rounds ∧ ∀ i < 4 * (sko.rounds + 1), sko.lowFirst i = skp.highFirst i := by
  have hsizes : ∀ n nr, 0 < n → n ≤ (nr + 1) * 2 → (4 * (nr + 1) - 2) / (2 * n) < 15 →
      ∀ i < 4 * (nr + 1),
        AesSubkeys.lowFirst ⟨(opensslKeyExpansion key nr (2 * n)).flatMap
          fun d => [d.extractLsb' 0 32, d.extractLsb' 32 32], nr⟩ i =
        AesSubkeys.highFirst ⟨aesKeyExpansion aesRconComment key nr (2 * n), nr⟩ i := by
    intro n nr hn hle hrcon
    rw [lowFirst_flatMap]
    exact (isSchedule_opensslKeyExpansion key hn hle).unique (by omega)
      (isSchedule_aesKeyExpansion key (by omega) hrcon (by omega))
  rcases h with rfl | rfl | rfl
  · exact ⟨_, _, rfl, rfl, rfl, rfl, hsizes 2 10 (by decide) (by decide) (by decide)⟩
  · exact ⟨_, _, rfl, rfl, rfl, rfl, hsizes 3 12 (by decide) (by decide) (by decide)⟩
  · exact ⟨_, _, rfl, rfl, rfl, rfl, hsizes 4 14 (by decide) (by decide) (by decide)⟩

def aesBlock (build : AesBuild) (op : CryptOp) (key : List Byte) (bits : ℤ) (block : BitVec 128) :
    Except Err (Err × BitVec 128) := do
  let ctx ← aesSetKey build op.code CipherMode.ecb.code (some key) bits true
  .ok (aesCrypt build op block ctx.sk)

theorem aesBlock_eq {build : AesBuild} {key : List Byte} {bits : ℤ} {sk : AesSubkeys}
    (h : aesSubkeys build key bits = .ok sk) (op : CryptOp) (block : BitVec 128) :
    aesBlock build op key bits block = .ok (aesCrypt build op block sk) := by
  have hset : aesSetKey build op.code CipherMode.ecb.code (some key) bits true =
      .ok ⟨op, .ecb, sk⟩ := aesSetKey_eq_ok.mpr ⟨by simp, rfl, h⟩
  rw [aesBlock, hset]
  rfl

def AesSwitchInert (declared : Bool) (bits : ℤ) (key : List Byte) (block : BitVec 128) : Prop :=
  ∃ plain, plainBuild declared = some plain ∧ ∀ op, ∃ out,
    aesBlock plain op key bits block = .ok (.ok, out) ∧
      aesBlock .optimised op key bits block = .ok (.ok, out)

/-- The switch is inert **exactly when `s_aes_rcon` is declared**: nothing else is in the way. -/
theorem aesSwitchInert_iff {bits : ℤ} (h : bits = 128 ∨ bits = 192 ∨ bits = 256) (declared : Bool)
    (key : List Byte) (block : BitVec 128) :
    AesSwitchInert declared bits key block ↔ declared = true := by
  constructor
  · rintro ⟨plain, hplain, -⟩
    by_contra hne
    rw [Bool.not_eq_true] at hne
    simp [hne, plainBuild, sAesRcon] at hplain
  · rintro rfl
    obtain ⟨sko, skp, ho, hp, hvalid, hrounds, hcolumns⟩ := aesSubkeys_agree key h
    refine ⟨.plain aesRconComment, rfl, fun op => ⟨(aesCrypt .optimised op block sko).2, ?_, ?_⟩⟩
    · rw [aesBlock_eq hp, aesCrypt_eq_of_columns hvalid hrounds hcolumns]
      cases op <;> rfl
    · rw [aesBlock_eq ho]
      cases op <;> rfl

theorem aesSwitchInert_zeroKey :
    AesSwitchInert true 128 (List.replicate 16 0) 0 ↔ true = true :=
  aesSwitchInert_iff (.inl rfl) true (List.replicate 16 0) 0

theorem not_aesSwitchInert_zeroKey : ¬ AesSwitchInert false 128 (List.replicate 16 0) 0 := by
  rintro ⟨plain, hplain, -⟩
  cases hplain

end Mugglec
