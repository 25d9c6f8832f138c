import Mugglec.Crypt.DesDepartures
import Mugglec.Crypt.DesInverse

/-!
# Crypt/TripleDes — the three stages of triple DES

`muggle_des_crypt` exchanges the halves behind its last round.  The plain `muggle_tdes_crypt` runs
three times sixteen rounds and exchanges them once, at the very end, so **its middle stage begins
and ends with the halves in each other's place**.  The path is still undone by the subkeys in the
other order, whatever its round function; it is the composition of three single ones only where the
middle stage does not tell the halves apart (`MiddleSymmetric`).  The optimised path always is.
-/

namespace Mugglec

namespace DesPath

variable (P : DesPath)

def setKeyInner (op : CryptOp) (key : BitVec 64) : List (BitVec 64) :=
  match op with
  | .decrypt => (P.subkeys key).reverse
  | .encrypt => P.subkeys key

/-- `muggle_des_set_key` and one block -/
def block (op : CryptOp) (key : BitVec 64) : BitVec 64 → BitVec 64 := P.crypt (P.setKeyInner op key)

/-- `muggle_tdes_set_key` for ECB and one block -/
def tdesBlock (op : CryptOp) (key1 key2 key3 : BitVec 64) : BitVec 64 → BitVec 64 :=
  match op with
  | .encrypt => P.tdesCrypt (P.setKeyInner op key1) (P.setKeyInner op.inv key2)
      (P.setKeyInner op key3)
  | .decrypt => P.tdesCrypt (P.setKeyInner op key3) (P.setKeyInner op.inv key2)
      (P.setKeyInner op key1)

theorem block_decrypt (key b : BitVec 64) : P.block .decrypt key (P.block .encrypt key b) = b :=
  P.crypt_reverse (P.subkeys key) b

theorem tdesBlock_decrypt (key1 key2 key3 b : BitVec 64) :
    P.tdesBlock .decrypt key1 key2 key3 (P.tdesBlock .encrypt key1 key2 key3 b) = b := by
  have hback := P.tdesCrypt_reverse (P.subkeys key1) (P.subkeys key2).reverse (P.subkeys key3) b
  rwa [List.reverse_reverse] at hback

theorem exists_desSetKey (op : CryptOp) (key : BitVec 64) :
    ∃ ctx, desSetKey false op.code CipherMode.ecb.code (some key) true = .ok ctx ∧
      ctx.crypt false = plain.block op key := by
  cases op <;> exact ⟨_, rfl, rfl⟩

theorem exists_tdesSetKey (op : CryptOp) (key1 key2 key3 : BitVec 64) :
    ∃ ctx, tdesSetKey false op.code CipherMode.ecb.code (some key1) (some key2) (some key3) true =
        .ok ctx ∧ ctx.crypt false = plain.tdesBlock op key1 key2 key3 := by
  cases op
  · exact ⟨_, rfl, rfl⟩
  · exact ⟨_, rfl, rfl⟩

end DesPath

/-- **Decryption undoes encryption** for single and triple DES, whatever the round function and the
subkeys are. -/
theorem plainDes_inverse :
    (∀ (P : DesPath) (key b : BitVec 64), P.block .decrypt key (P.block .encrypt key b) = b) ∧
    (∀ (P : DesPath) (key1 key2 key3 b : BitVec 64),
      P.tdesBlock .decrypt key1 key2 key3 (P.tdesBlock .encrypt key1 key2 key3 b) = b) ∧
    (∀ (op : CryptOp) (key : BitVec 64),
      ∃ ctx, desSetKey false op.code CipherMode.ecb.code (some key) true = .ok ctx ∧
        ctx.crypt false = DesPath.plain.block op key) ∧
    ∀ (op : CryptOp) (key1 key2 key3 : BitVec 64),
      ∃ ctx, tdesSetKey false op.code CipherMode.ecb.code (some key1) (some key2) (some key3) true =
          .ok ctx ∧ ctx.crypt false = DesPath.plain.tdesBlock op key1 key2 key3 :=
  ⟨DesPath.block_decrypt, DesPath.tdesBlock_decrypt, DesPath.exists_desSetKey,
    DesPath.exists_tdesSetKey⟩

theorem opensslTdesCrypt_eq (ks1 ks2 ks3 : List (BitVec 64)) (b : BitVec 64) :
    opensslTdesCrypt ks1 ks2 ks3 b =
      opensslEncrypt1 ks3 (opensslEncrypt1 ks2 (opensslEncrypt1 ks1 b)) := by
  -- between two stages the final permutation of the one cancels the initial one of the next
  simp only [opensslTdesCrypt, opensslEncrypt1, opensslEncrypt2, loHalf_halves, hiHalf_halves,
    opensslDesIp_desFp]

/-- **The optimised triple DES is three times single DES**, in both directions. -/
theorem opensslTdes_composes (key1 key2 key3 : BitVec 64) :
    (∃ ctx, tdesSetKey true CryptOp.encrypt.code CipherMode.ecb.code (some key1) (some key2)
        (some key3) true = .ok ctx ∧
      ∀ b, ctx.crypt true b = desBlock true .encrypt key3
        (desBlock true .decrypt key2 (desBlock true .encrypt key1 b))) ∧
    ∃ ctx, tdesSetKey true CryptOp.decrypt.code CipherMode.ecb.code (some key1) (some key2)
        (some key3) true = .ok ctx ∧
      ∀ b, ctx.crypt true b = desBlock true .decrypt key1
        (desBlock true .encrypt key2 (desBlock true .decrypt key3 b)) :=
  ⟨⟨_, rfl, opensslTdesCrypt_eq _ _ _⟩, _, rfl, opensslTdesCrypt_eq _ _ _⟩

theorem opensslTdesCrypt_reverse_middle (ks : List (BitVec 64)) :
    opensslTdesCrypt ks ks.reverse ks = opensslEncrypt1 ks := by
  funext b
  rw [opensslTdesCrypt_eq, opensslEncrypt1_reverse]

theorem exists_oneKey (op : CryptOp) (mode : CipherMode) (key : BitVec 64) :
    ∃ ctx tctx, desSetKey true op.code mode.code (some key) true = .ok ctx ∧
      tdesSetKey true op.code mode.code (some key) (some key) (some key) true = .ok tctx ∧
      tctx.op = ctx.op ∧ tctx.mode = ctx.mode ∧ tctx.crypt true = ctx.crypt true := by
  cases op <;> cases mode <;>
    exact ⟨_, _, rfl, rfl, rfl, rfl, opensslTdesCrypt_reverse_middle _⟩

/-- **With one key for all three, triple DES is single DES** in every mode of the optimised path. -/
theorem opensslTdes_oneKey (op : CryptOp) (mode : CipherMode) (key : BitVec 64) :
    ∃ ctx tctx, desSetKey true op.code mode.code (some key) true = .ok ctx ∧
      tdesSetKey true op.code mode.code (some key) (some key) (some key) true = .ok tctx ∧
      tdesEcb true (some tctx) = desEcb true (some ctx) ∧
      tdesCbc true (some tctx) = desCbc true (some ctx) ∧
      tdesCfb64 true (some tctx) = desCfb64 true (some ctx) ∧
      tdesOfb64 true (some tctx) = desOfb64 true (some ctx) ∧
      tdesCtr true (some tctx) = desCtr true (some ctx) := by
  obtain ⟨ctx, tctx, hctx, htctx, hop, hmode, hcrypt⟩ := exists_oneKey op mode key
  refine ⟨ctx, tctx, hctx, htctx, ?_, ?_, ?_, ?_, ?_⟩
  -- a call reads the operation, the mode and the cipher of its context, and nothing else
  all_goals
    funext
    simp only [tdesEcb, desEcb, ecbCall, tdesCbc, desCbc, cbcCall, tdesCfb64, desCfb64, cfbCall,
      tdesOfb64, desOfb64, ofbCall, tdesCtr, desCtr, ctrCall, checkSome, bind, Except.bind, hop,
      hmode, hcrypt]

end Mugglec
