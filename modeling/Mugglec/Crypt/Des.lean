import Mugglec.Crypt.OpensslDes
import Mugglec.Crypt.BlockModes

/-!
# Crypt/Des — `muggle_des_*` and `muggle_tdes_*`

The build switch `MUGGLE_CRYPT_OPTIMIZATION` (`optimised`) picks the subkeys and the block cipher of
`openssl_des.c` or of `internal_des.c`.  Decryption is the same cipher with **the subkeys in the
other order**; triple DES runs it three times, the middle key the other way round.
-/

namespace Mugglec

def desBlockSize : ℕ := 8

structure DesContext where
  op : CryptOp
  mode : CipherMode
  sk : List (BitVec 64)
  deriving DecidableEq, Repr

def desSetKeyInner (optimised : Bool) (op : CryptOp) (key : BitVec 64) : List (BitVec 64) :=
  if optimised then opensslDesGenSubkeys op key else desPlainSubkeys op key

def desCrypt (optimised : Bool) (ks : List (BitVec 64)) (input : BitVec 64) : BitVec 64 :=
  if optimised then opensslEncrypt1 ks input else desPlainCrypt ks input

def desSetKey (optimised : Bool) (op mode : ℤ) (key : Option (BitVec 64)) (ctx : Bool) :
    Except Err DesContext := do
  let op ← checkSome (CryptOp.ofInt op) .invalidParam
  let key ← checkSome key .nullParam
  checkRet ctx .nullParam
  match CipherMode.ofInt mode with
  | some .ecb => .ok ⟨op, .ecb, desSetKeyInner optimised op key⟩
  | some .cbc => .ok ⟨op, .cbc, desSetKeyInner optimised op key⟩
  | some .cfb => .ok ⟨op, .cfb, desSetKeyInner optimised .encrypt key⟩
  | some .ofb => .ok ⟨op, .ofb, desSetKeyInner optimised .encrypt key⟩
  | some .ctr => .ok ⟨op, .ctr, desSetKeyInner optimised .encrypt key⟩
  | none => .error .invalidParam

def DesContext.crypt (optimised : Bool) (ctx : DesContext) : BitVec 64 → BitVec 64 :=
  desCrypt optimised ctx.sk

section

variable (optimised : Bool)

def desEcb := ecbCall desBlockSize DesContext.mode (DesContext.crypt optimised)

def desCbc := cbcCall desBlockSize DesContext.mode DesContext.op (DesContext.crypt optimised)

def desCfb64 := cfbCall desBlockSize DesContext.mode DesContext.op (DesContext.crypt optimised)

def desOfb64 := ofbCall desBlockSize DesContext.mode (DesContext.crypt optimised)

def desCtr := ctrCall desBlockSize DesContext.mode (DesContext.crypt optimised)

end

structure TdesContext where
  op : CryptOp
  mode : CipherMode
  ctx1 : DesContext
  ctx2 : DesContext
  ctx3 : DesContext
  deriving DecidableEq, Repr

def tdesCrypt (optimised : Bool) (ks1 ks2 ks3 : List (BitVec 64)) (input : BitVec 64) : BitVec 64 :=
  if optimised then opensslTdesCrypt ks1 ks2 ks3 input else tdesPlainCrypt ks1 ks2 ks3 input

def CryptOp.inv : CryptOp → CryptOp
  | .encrypt => .decrypt
  | .decrypt => .encrypt

def tdesSetKeys (optimised : Bool) (op : CryptOp) (mode : CipherMode)
    (first : CryptOp × BitVec 64) (second : CryptOp × BitVec 64) (third : CryptOp × BitVec 64) :
    Except Err TdesContext := do
  let ctx1 ← desSetKey optimised first.1.code CipherMode.ecb.code (some first.2) true
  let ctx2 ← desSetKey optimised second.1.code CipherMode.ecb.code (some second.2) true
  let ctx3 ← desSetKey optimised third.1.code CipherMode.ecb.code (some third.2) true
  .ok ⟨op, mode, ctx1, ctx2, ctx3⟩

def tdesSetBlockKeys (optimised : Bool) (op : CryptOp) (mode : CipherMode)
    (key1 key2 key3 : BitVec 64) : Except Err TdesContext :=
  match op with
  | .encrypt => tdesSetKeys optimised op mode (op, key1) (op.inv, key2) (op, key3)
  | .decrypt => tdesSetKeys optimised op mode (op, key3) (op.inv, key2) (op, key1)

def tdesSetStreamKeys (optimised : Bool) (op : CryptOp) (mode : CipherMode)
    (key1 key2 key3 : BitVec 64) : Except Err TdesContext :=
  tdesSetKeys optimised op mode (.encrypt, key1) (.decrypt, key2) (.encrypt, key3)

def tdesSetKey (optimised : Bool) (op mode : ℤ) (key1 key2 key3 : Option (BitVec 64)) (ctx : Bool) :
    Except Err TdesContext := do
  let op ← checkSome (CryptOp.ofInt op) .invalidParam
  let key1 ← checkSome key1 .nullParam
  let key2 ← checkSome key2 .nullParam
  let key3 ← checkSome key3 .nullParam
  checkRet ctx .nullParam
  match CipherMode.ofInt mode with
  | some .ecb => tdesSetBlockKeys optimised op .ecb key1 key2 key3
  | some .cbc => tdesSetBlockKeys optimised op .cbc key1 key2 key3
  | some .cfb => tdesSetStreamKeys optimised op .cfb key1 key2 key3
  | some .ofb => tdesSetStreamKeys optimised op .ofb key1 key2 key3
  | some .ctr => tdesSetStreamKeys optimised op .ctr key1 key2 key3
  | none => .error .invalidParam

def TdesContext.crypt (optimised : Bool) (ctx : TdesContext) : BitVec 64 → BitVec 64 :=
  tdesCrypt optimised ctx.ctx1.sk ctx.ctx2.sk ctx.ctx3.sk

section

variable (optimised : Bool)

def tdesEcb := ecbCall desBlockSize TdesContext.mode (TdesContext.crypt optimised)

def tdesCbc := cbcCall desBlockSize TdesContext.mode TdesContext.op (TdesContext.crypt optimised)

def tdesCfb64 := cfbCall desBlockSize TdesContext.mode TdesContext.op (TdesContext.crypt optimised)

def tdesOfb64 := ofbCall desBlockSize TdesContext.mode (TdesContext.crypt optimised)

def tdesCtr := ctrCall desBlockSize TdesContext.mode (TdesContext.crypt optimised)

end

end Mugglec
