import Mugglec.Crypt.OpensslAes
import Mugglec.Crypt.BlockModes

/-!
# Crypt/Aes — `muggle_aes_*`

The build switch `MUGGLE_CRYPT_OPTIMIZATION` picks the key expansion and the block cipher of
`openssl_aes.c` or of `internal_aes.c`; the modes are the same text over either.
-/

namespace Mugglec

open ByteLanes Transducer

def aesBlockSize : ℕ := 16

inductive AesBuild
  | optimised
  | plain (sAesRcon : List (BitVec 32))

def sAesRcon (declared : Bool) : Option (List (BitVec 32)) :=
  if declared then some aesRconComment else none

def plainBuild (declared : Bool) : Option AesBuild := (sAesRcon declared).map .plain

structure AesContext where
  op : CryptOp
  mode : CipherMode
  sk : AesSubkeys
  deriving DecidableEq, Repr

def aesTranspose (block : BitVec 128) : BitVec 128 :=
  aesPick block [0, 4, 8, 12, 1, 5, 9, 13, 2, 6, 10, 14, 3, 7, 11, 15]

def aesCrypt (build : AesBuild) (op : CryptOp) (input : BitVec 128) (sk : AesSubkeys) :
    Err × BitVec 128 :=
  match build with
  | .optimised =>
    match op with
    | .encrypt => (.ok, opensslAesEncrypt input sk)
    | .decrypt => (.ok, opensslAesDecrypt input sk)
  | .plain _ =>
    let state := aesTranspose input
    let (ret, state) := match op with
      | .encrypt => aesEncrypt state sk
      | .decrypt => aesDecrypt state sk
    (ret, aesTranspose state)

/-- A turn of the second loop of the plain `muggle_aes_set_key`. -/
def aesKeyStep (rcon : List (BitVec 32)) (nk : ℕ) (rdKey : List (BitVec 32)) (i : ℕ) :
    List (BitVec 32) :=
  let temp := rdKey.getD (i - 1) 0
  let temp :=
    if i % nk = 0 then aesSubWord (aesRotWord temp) ^^^ rcon.getD ((i - 1) / nk) 0
    else if nk > 6 ∧ i % nk = 4 then aesSubWord temp
    else temp
  rdKey ++ [rdKey.getD (i - nk) 0 ^^^ temp]

def aesKeyWords (key : List Byte) (nk : ℕ) : List (BitVec 32) :=
  (List.range nk).map fun i =>
    ((key.getD (4 * i + 0) 0).setWidth 32 <<< 24) |||
    ((key.getD (4 * i + 1) 0).setWidth 32 <<< 16) |||
    ((key.getD (4 * i + 2) 0).setWidth 32 <<< 8) ||| (key.getD (4 * i + 3) 0).setWidth 32

/-- The loops of the plain `muggle_aes_set_key`. -/
def aesKeyExpansion (rcon : List (BitVec 32)) (key : List Byte) (nr nk : ℕ) : List (BitVec 32) :=
  (List.range' nk (4 * (nr + 1) - nk)).foldl (aesKeyStep rcon nk) (aesKeyWords key nk)

/-- The plain `muggle_aes_set_key`, past the checks. -/
def aesPlainSetKey (rcon : List (BitVec 32)) (key : List Byte) (bits : ℤ) :
    Except Err AesSubkeys := do
  let (nr, nk) ←
    if bits = 128 then .ok (10, 4)
    else if bits = 192 then .ok (12, 6)
    else if bits = 256 then .ok (14, 8)
    else .error .cryptKeySize
  .ok ⟨aesKeyExpansion rcon key nr nk, nr⟩

/-- The rest of `muggle_aes_set_key`, past the checks. -/
def aesSubkeys (build : AesBuild) (key : List Byte) (bits : ℤ) : Except Err AesSubkeys :=
  match build with
  | .optimised => opensslAesSetKey key bits
  | .plain rcon => aesPlainSetKey rcon key bits

def aesSetKey (build : AesBuild) (op mode : ℤ) (key : Option (List Byte)) (bits : ℤ) (ctx : Bool) :
    Except Err AesContext := do
  let op ← checkSome (CryptOp.ofInt op) .invalidParam
  let mode ← checkSome (CipherMode.ofInt mode) .invalidParam
  let key ← checkSome key .nullParam
  checkRet ctx .nullParam
  let sk ← aesSubkeys build key bits
  .ok ⟨op, mode, sk⟩

theorem aesSetKey_eq_ok {build : AesBuild} {o m : ℤ} {key : List Byte} {bits : ℤ}
    {ctx : AesContext} :
    aesSetKey build o m (some key) bits true = .ok ctx ↔
      CryptOp.ofInt o = some ctx.op ∧ CipherMode.ofInt m = some ctx.mode ∧
        aesSubkeys build key bits = .ok ctx.sk := by
  rcases ctx with ⟨op, mode, sk⟩
  simp [aesSetKey]

def AesContext.crypt (build : AesBuild) (op : CryptOp) (ctx : AesContext) (input : BitVec 128) :
    BitVec 128 :=
  (aesCrypt build op input ctx.sk).2

def aesEcb (build : AesBuild) (ctx : Option AesContext) (input : Option (List Byte))
    (output : Bool) : Except Err (List Byte) :=
  ecbCall aesBlockSize AesContext.mode (fun ctx => ctx.crypt build ctx.op) ctx input output

def aesCbc (build : AesBuild) (ctx : Option AesContext) (input : Option (List Byte))
    (iv : Option (BitVec 128)) (output : Bool) : Except Err (BitVec 128 × List Byte) :=
  cbcCall aesBlockSize AesContext.mode AesContext.op (fun ctx => ctx.crypt build ctx.op) ctx input
    iv output

/-- `muggle_aes_cfb128`: `iv_offset` is read without a check. -/
def aesCfb128 (build : AesBuild) (ctx : Option AesContext) (input : Option (List Byte))
    (iv : Option (BitVec 128)) (ivOffset : ℕ) (output : Bool) :
    Except Err (FeedbackState 128 × List Byte) := do
  let ctx ← checkSome ctx .nullParam
  checkRet (ctx.mode = .cfb) .invalidParam
  let input ← checkSome input .nullParam
  let iv ← checkSome iv .nullParam
  checkRet (ivOffset < aesBlockSize) .invalidParam
  checkRet output .nullParam
  .ok (run (cfbStep aesBlockSize ctx.op (ctx.crypt build .encrypt)) ⟨iv, ivOffset⟩ input)

/-- `muggle_aes_ofb128`: `iv_offset` is read without a check. -/
def aesOfb128 (build : AesBuild) (ctx : Option AesContext) (input : Option (List Byte))
    (iv : Option (BitVec 128)) (ivOffset : ℕ) (output : Bool) :
    Except Err (FeedbackState 128 × List Byte) := do
  let ctx ← checkSome ctx .nullParam
  checkRet (ctx.mode = .ofb) .invalidParam
  let input ← checkSome input .nullParam
  let iv ← checkSome iv .nullParam
  checkRet (ivOffset < aesBlockSize) .invalidParam
  checkRet output .nullParam
  .ok (run (ofbStep aesBlockSize (ctx.crypt build .encrypt)) ⟨iv, ivOffset⟩ input)

def aesAdvance (nonce : BitVec 64 × BitVec 64) : BitVec 64 × BitVec 64 :=
  let n0 := nonce.1 + 1
  if n0 = 0 then (n0, nonce.2 + 1) else (n0, nonce.2)

def aesCounterBlock (nonce : BitVec 64 × BitVec 64) : BitVec 128 := pairWords nonce.1 nonce.2

def aesCtr (build : AesBuild) (ctx : Option AesContext) (input : Option (List Byte))
    (nonce : BitVec 64 × BitVec 64) (nonceOffset : Option ℕ) (streamBlock : Option (BitVec 128))
    (output : Bool) (counters : List (BitVec 128)) :
    Except Err (CtrState (BitVec 64 × BitVec 64) 128 × List Byte) := do
  let ctx ← checkSome ctx .nullParam
  checkRet (ctx.mode = .ctr) .invalidParam
  let input ← checkSome input .nullParam
  let nonceOffset ← checkSome nonceOffset .nullParam
  checkRet (nonceOffset < aesBlockSize) .invalidParam
  let streamBlock ← checkSome streamBlock .nullParam
  checkRet output .nullParam
  .ok (run (ctrStep aesBlockSize (ctx.crypt build .encrypt) aesAdvance aesCounterBlock)
    ⟨nonce, nonceOffset, streamBlock, counters⟩ input)

end Mugglec
