import Mugglec.Crypt.CipherApi
import Mugglec.Crypt.AesRounds
import Mugglec.Crypt.DesInverse

/-!
# Crypt/CipherModes — AES, DES and triple DES in every mode

The interfaces of `aes.h`, `des.h` and `tdes.h`, in either build, with the evidence that their calls
are the loops of `BlockModes`.
-/

namespace Mugglec

open Transducer

def aesApi (build : AesBuild) : CipherApi 128 where
  Key := List Byte × ℤ
  Ctx := AesContext
  Nonce := BitVec 64 × BitVec 64
  blockSize := aesBlockSize
  setKey op mode key := aesSetKey build op mode (some key.1) key.2 true
  ecb ctx input := aesEcb build (some ctx) (some input) true
  cbc ctx iv input := aesCbc build (some ctx) (some input) (some iv) true
  cfb ctx s input := aesCfb128 build (some ctx) (some input) (some s.iv) s.offset true
  ofb ctx s input := aesOfb128 build (some ctx) (some input) (some s.iv) s.offset true
  ctr ctx s input := aesCtr build (some ctx) (some input) s.nonce (some s.offset)
    (some s.streamBlock) true s.counters

theorem toNat_pairWords (lo hi : BitVec 64) :
    (pairWords lo hi).toNat = 2 ^ 64 * hi.toNat + lo.toNat := by
  rw [pairWords, BitVec.toNat_append, Nat.shiftLeft_eq, mul_comm]
  exact (Nat.two_pow_add_eq_or_of_lt lo.isLt _).symm

theorem aesCounterBlock_advance (x : BitVec 64 × BitVec 64) :
    aesCounterBlock (aesAdvance x) = aesCounterBlock x + 1 := by
  obtain ⟨n0, n1⟩ := x
  have h0 := n0.isLt
  have h1 := n1.isLt
  refine BitVec.eq_of_toNat_eq ?_
  simp only [aesAdvance, aesCounterBlock]
  split
  case isTrue h =>
    have hmax : (n0.toNat + 1) % 2 ^ 64 = 0 := congrArg BitVec.toNat h
    rw [BitVec.toNat_add, toNat_pairWords, toNat_pairWords, BitVec.toNat_add, BitVec.toNat_add]
    simp only [show (1 : BitVec 64).toNat = 1 from rfl, show (1 : BitVec 128).toNat = 1 from rfl]
    omega
  case isFalse h =>
    have hmax : (n0.toNat + 1) % 2 ^ 64 ≠ 0 := fun hz => h (BitVec.eq_of_toNat_eq hz)
    rw [BitVec.toNat_add, toNat_pairWords, toNat_pairWords, BitVec.toNat_add]
    simp only [show (1 : BitVec 64).toNat = 1 from rfl, show (1 : BitVec 128).toNat = 1 from rfl]
    omega

variable {mode : CipherMode} {optimised : Bool} {key : BitVec 64 × BitVec 64 × BitVec 64}

theorem aesKeyed {build : AesBuild} {key : List Byte × ℤ} {e d : AesContext}
    (h : (aesApi build).Keyed mode key e d) :
    e.op = .encrypt ∧ d.op = .decrypt ∧ d.sk = e.sk := by
  obtain ⟨hope, -, hske⟩ := aesSetKey_eq_ok.mp h.encrypt
  obtain ⟨hopd, -, hskd⟩ := aesSetKey_eq_ok.mp h.decrypt
  refine ⟨?_, ?_, Except.ok.inj (hskd.symm.trans hske)⟩
  · simpa [eq_comm] using hope
  · simpa [eq_comm] using hopd

theorem aesCtr_eq (build : AesBuild) {ctx : AesContext} {s : CtrState (BitVec 64 × BitVec 64) 128}
    {input : List Byte} (hmode : ctx.mode = .ctr) (hs : s.offset < aesBlockSize) :
    aesCtr build (some ctx) (some input) s.nonce (some s.offset) (some s.streamBlock) true
        s.counters =
      .ok (run (ctrStep aesBlockSize (ctx.crypt build .encrypt) aesAdvance aesCounterBlock) s
        input) := by
  simp [aesCtr, hmode, hs]

def aesLoops (build : AesBuild) : (aesApi build).Loops where
  op := AesContext.op
  mode := AesContext.mode
  crypt ctx := AesContext.crypt build ctx.op ctx
  keystream := AesContext.crypt build .encrypt
  advance := aesAdvance
  counterBlock := aesCounterBlock
  blockSize_pos := (by decide : 0 < aesBlockSize)
  width := rfl
  counterBlock_advance := aesCounterBlock_advance
  op_of_setKey h := (aesSetKey_eq_ok.mp h).1
  mode_of_setKey h := (aesSetKey_eq_ok.mp h).2.1
  accepted mode key e h :=
    ⟨⟨.decrypt, mode, e.sk⟩, aesSetKey_eq_ok.mpr ⟨rfl, by simp, (aesSetKey_eq_ok.mp h).2.2⟩⟩
  crypt_crypt {_ _ e d} _ hk x := by
    obtain ⟨he, hd, hsk⟩ := aesKeyed hk
    show (aesCrypt build d.op (aesCrypt build e.op x e.sk).2 d.sk).2 = x
    rw [he, hd, hsk, aesCrypt_decrypt_encrypt]
  keystream_eq {_ _ e d} _ hk := by
    obtain ⟨-, -, hsk⟩ := aesKeyed hk
    show (fun x => (aesCrypt build .encrypt x d.sk).2) = fun x => (aesCrypt build .encrypt x e.sk).2
    rw [hsk]
  ecb_eq hmode hdvd hlt := ecbCall_eq hmode ((wholeBlocks_iff (k := 4) (by decide)).mpr ⟨hdvd, hlt⟩)
  cbc_eq iv _ hmode hdvd hlt :=
    cbcCall_eq hmode ((wholeBlocks_iff (k := 4) (by decide)).mpr ⟨hdvd, hlt⟩) iv
  cfb_eq hmode hs := cfbCall_eq hmode hs
  ofb_eq hmode hs := ofbCall_eq hmode hs
  ctr_eq hmode hs := aesCtr_eq build hmode hs

def desApi (optimised : Bool) : CipherApi 64 where
  Key := BitVec 64
  Ctx := DesContext
  Nonce := BitVec 64
  blockSize := desBlockSize
  setKey op mode key := desSetKey optimised op mode (some key) true
  ecb ctx input := desEcb optimised (some ctx) (some input) true
  cbc ctx iv input := desCbc optimised (some ctx) (some input) (some iv) true
  cfb ctx s input := desCfb64 optimised (some ctx) (some input) (some s.iv) (some s.offset) true
  ofb ctx s input := desOfb64 optimised (some ctx) (some input) (some s.iv) (some s.offset) true
  ctr ctx s input := desCtr optimised (some ctx) (some input) (some s.nonce) (some s.offset)
    (some s.streamBlock) true s.counters

def CipherMode.keyOp (mode : CipherMode) (op : CryptOp) : CryptOp :=
  match mode with
  | .ecb | .cbc => op
  | .cfb | .ofb | .ctr => .encrypt

theorem desSetKey_eq (optimised : Bool) (o m : ℤ) (key : BitVec 64) :
    desSetKey optimised o m (some key) true =
      (checkSome (CryptOp.ofInt o) .invalidParam >>= fun op =>
        checkSome (CipherMode.ofInt m) .invalidParam >>= fun mode =>
          .ok ⟨op, mode, desSetKeyInner optimised (mode.keyOp op) key⟩) := by
  rw [desSetKey]
  rcases CryptOp.ofInt o with - | op
  · rfl
  · rcases CipherMode.ofInt m with - | mode
    · rfl
    · cases mode <;> rfl

theorem desSetKey_eq_ok {o m : ℤ} {key : BitVec 64} {ctx : DesContext} :
    desSetKey optimised o m (some key) true = .ok ctx ↔
      CryptOp.ofInt o = some ctx.op ∧ CipherMode.ofInt m = some ctx.mode ∧
        desSetKeyInner optimised (ctx.mode.keyOp ctx.op) key = ctx.sk := by
  rcases ctx with ⟨op, mode, sk⟩
  simp only [desSetKey_eq, bind_eq_ok, checkSome_eq_ok, Except.ok.injEq, DesContext.mk.injEq]
  constructor
  · rintro ⟨_, ho, _, hm, rfl, rfl, hsk⟩
    exact ⟨ho, hm, hsk⟩
  · rintro ⟨ho, hm, hsk⟩
    exact ⟨op, ho, mode, hm, rfl, rfl, hsk⟩

theorem desKeyed {key : BitVec 64} {e d : DesContext} (h : (desApi optimised).Keyed mode key e d) :
    e.sk = desSetKeyInner optimised (mode.keyOp .encrypt) key ∧
      d.sk = desSetKeyInner optimised (mode.keyOp .decrypt) key := by
  obtain ⟨hope, hmodee, hske⟩ := desSetKey_eq_ok.mp h.encrypt
  obtain ⟨hopd, hmoded, hskd⟩ := desSetKey_eq_ok.mp h.decrypt
  simp only [CryptOp.ofInt_code, CipherMode.ofInt_code, Option.some.injEq]
    at hope hmodee hopd hmoded
  rw [← hske, ← hskd, ← hope, ← hmodee, ← hopd, ← hmoded]
  exact ⟨rfl, rfl⟩

theorem keyOp_of_block (hm : mode = .ecb ∨ mode = .cbc) (op : CryptOp) :
    mode.keyOp op = op := by
  rcases hm with rfl | rfl <;> rfl

theorem keyOp_of_stream (hm : mode = .cfb ∨ mode = .ofb ∨ mode = .ctr) (op : CryptOp) :
    mode.keyOp op = .encrypt := by
  rcases hm with rfl | rfl | rfl <;> rfl

theorem desCrypt_of_keyed {key : BitVec 64} {e d : DesContext} (hm : mode = .ecb ∨ mode = .cbc)
    (h : (desApi optimised).Keyed mode key e d) (x : BitVec 64) :
    desCrypt optimised d.sk (desCrypt optimised e.sk x) = x := by
  obtain ⟨he, hd⟩ := desKeyed h
  rw [he, hd, keyOp_of_block hm, keyOp_of_block hm, desSetKeyInner_decrypt, desCrypt_reverse]

theorem desKeystream_of_keyed {key : BitVec 64} {e d : DesContext}
    (hm : mode = .cfb ∨ mode = .ofb ∨ mode = .ctr) (h : (desApi optimised).Keyed mode key e d) :
    DesContext.crypt optimised d = DesContext.crypt optimised e := by
  obtain ⟨he, hd⟩ := desKeyed h
  rw [DesContext.crypt, DesContext.crypt, he, hd, keyOp_of_stream hm, keyOp_of_stream hm]

def desLoops (optimised : Bool) : (desApi optimised).Loops where
  op := DesContext.op
  mode := DesContext.mode
  crypt := DesContext.crypt optimised
  keystream := DesContext.crypt optimised
  advance := fun x : BitVec 64 => x + 1
  counterBlock := id
  blockSize_pos := (by decide : 0 < desBlockSize)
  width := rfl
  counterBlock_advance _ := rfl
  op_of_setKey h := (desSetKey_eq_ok.mp h).1
  mode_of_setKey h := (desSetKey_eq_ok.mp h).2.1
  accepted mode key e _ :=
    ⟨⟨.decrypt, mode, desSetKeyInner optimised (mode.keyOp .decrypt) key⟩,
      desSetKey_eq_ok.mpr ⟨rfl, by simp, rfl⟩⟩
  crypt_crypt hm hk := desCrypt_of_keyed hm hk
  keystream_eq hm hk := desKeystream_of_keyed hm hk
  ecb_eq hmode hdvd hlt := ecbCall_eq hmode ((wholeBlocks_iff (k := 3) (by decide)).mpr ⟨hdvd, hlt⟩)
  cbc_eq iv _ hmode hdvd hlt :=
    cbcCall_eq hmode ((wholeBlocks_iff (k := 3) (by decide)).mpr ⟨hdvd, hlt⟩) iv
  cfb_eq hmode hs := cfbCall_eq hmode hs
  ofb_eq hmode hs := ofbCall_eq hmode hs
  ctr_eq hmode hs := ctrCall_eq hmode hs

def tdesApi (optimised : Bool) : CipherApi 64 where
  Key := BitVec 64 × BitVec 64 × BitVec 64
  Ctx := TdesContext
  Nonce := BitVec 64
  blockSize := desBlockSize
  setKey op mode key :=
    tdesSetKey optimised op mode (some key.1) (some key.2.1) (some key.2.2) true
  ecb ctx input := tdesEcb optimised (some ctx) (some input) true
  cbc ctx iv input := tdesCbc optimised (some ctx) (some input) (some iv) true
  cfb ctx s input := tdesCfb64 optimised (some ctx) (some input) (some s.iv) (some s.offset) true
  ofb ctx s input := tdesOfb64 optimised (some ctx) (some input) (some s.iv) (some s.offset) true
  ctr ctx s input := tdesCtr optimised (some ctx) (some input) (some s.nonce) (some s.offset)
    (some s.streamBlock) true s.counters

def tdesLaidOut (optimised : Bool) (op : CryptOp) (mode : CipherMode) (key1 key2 key3 : BitVec 64) :
    TdesContext :=
  let des o key := DesContext.mk o .ecb (desSetKeyInner optimised o key)
  match mode.keyOp op with
  | .encrypt => ⟨op, mode, des .encrypt key1, des .decrypt key2, des .encrypt key3⟩
  | .decrypt => ⟨op, mode, des .decrypt key3, des .encrypt key2, des .decrypt key1⟩

theorem tdesSetKey_eq (optimised : Bool) (o m : ℤ) (key1 key2 key3 : BitVec 64) :
    tdesSetKey optimised o m (some key1) (some key2) (some key3) true =
      (checkSome (CryptOp.ofInt o) .invalidParam >>= fun op =>
        checkSome (CipherMode.ofInt m) .invalidParam >>= fun mode =>
          .ok (tdesLaidOut optimised op mode key1 key2 key3)) := by
  rw [tdesSetKey]
  rcases CryptOp.ofInt o with - | op
  · rfl
  · rcases CipherMode.ofInt m with - | mode
    · rfl
    · cases mode <;> cases op <;> rfl

theorem tdesSetKey_eq_ok {o m : ℤ} {key1 key2 key3 : BitVec 64} {ctx : TdesContext} :
    tdesSetKey optimised o m (some key1) (some key2) (some key3) true = .ok ctx ↔
      ∃ op mode, CryptOp.ofInt o = some op ∧ CipherMode.ofInt m = some mode ∧
        tdesLaidOut optimised op mode key1 key2 key3 = ctx := by
  simp only [tdesSetKey_eq, bind_eq_ok, checkSome_eq_ok, Except.ok.injEq]
  constructor
  · rintro ⟨op, ho, mode, hm, hctx⟩
    exact ⟨op, mode, ho, hm, hctx⟩
  · rintro ⟨op, mode, ho, hm, hctx⟩
    exact ⟨op, ho, mode, hm, hctx⟩

theorem tdesLaidOut_op (optimised : Bool) (op : CryptOp) (mode : CipherMode)
    (key1 key2 key3 : BitVec 64) :
    (tdesLaidOut optimised op mode key1 key2 key3).op = op ∧
      (tdesLaidOut optimised op mode key1 key2 key3).mode = mode := by
  cases mode <;> cases op <;> exact ⟨rfl, rfl⟩

theorem tdesKeyed {e d : TdesContext} (h : (tdesApi optimised).Keyed mode key e d) :
    e = tdesLaidOut optimised .encrypt mode key.1 key.2.1 key.2.2 ∧
      d = tdesLaidOut optimised .decrypt mode key.1 key.2.1 key.2.2 := by
  obtain ⟨op, m, ho, hm, rfl⟩ := tdesSetKey_eq_ok.mp h.encrypt
  obtain ⟨op', m', ho', hm', rfl⟩ := tdesSetKey_eq_ok.mp h.decrypt
  simp only [CryptOp.ofInt_code, CipherMode.ofInt_code, Option.some.injEq] at ho hm ho' hm'
  subst ho hm ho' hm'
  exact ⟨rfl, rfl⟩

theorem tdesCrypt_of_keyed {e d : TdesContext} (hm : mode = .ecb ∨ mode = .cbc)
    (h : (tdesApi optimised).Keyed mode key e d) (x : BitVec 64) :
    TdesContext.crypt optimised d (TdesContext.crypt optimised e x) = x := by
  obtain ⟨rfl, rfl⟩ := tdesKeyed h
  -- the keys come in the other order, and each laid out the other way
  have hback := tdesCrypt_reverse optimised (desSetKeyInner optimised .encrypt key.1)
    (desSetKeyInner optimised .decrypt key.2.1) (desSetKeyInner optimised .encrypt key.2.2) x
  simp only [TdesContext.crypt, tdesLaidOut, keyOp_of_block hm]
  simpa only [desSetKeyInner_decrypt, List.reverse_reverse] using hback

theorem tdesKeystream_of_keyed {e d : TdesContext} (hm : mode = .cfb ∨ mode = .ofb ∨ mode = .ctr)
    (h : (tdesApi optimised).Keyed mode key e d) :
    TdesContext.crypt optimised d = TdesContext.crypt optimised e := by
  obtain ⟨rfl, rfl⟩ := tdesKeyed h
  simp only [TdesContext.crypt, tdesLaidOut, keyOp_of_stream hm]

def tdesLoops (optimised : Bool) : (tdesApi optimised).Loops where
  op := TdesContext.op
  mode := TdesContext.mode
  crypt := TdesContext.crypt optimised
  keystream := TdesContext.crypt optimised
  advance := fun x : BitVec 64 => x + 1
  counterBlock := id
  blockSize_pos := (by decide : 0 < desBlockSize)
  width := rfl
  counterBlock_advance _ := rfl
  op_of_setKey h := by
    obtain ⟨op, mode, ho, -, rfl⟩ := tdesSetKey_eq_ok.mp h
    rw [ho, (tdesLaidOut_op _ _ _ _ _ _).1]
  mode_of_setKey h := by
    obtain ⟨op, mode, -, hm, rfl⟩ := tdesSetKey_eq_ok.mp h
    rw [hm, (tdesLaidOut_op _ _ _ _ _ _).2]
  accepted mode key e _ := ⟨_, tdesSetKey_eq_ok.mpr ⟨.decrypt, mode, rfl, by simp, rfl⟩⟩
  crypt_crypt hm hk := tdesCrypt_of_keyed hm hk
  keystream_eq hm hk := tdesKeystream_of_keyed hm hk
  ecb_eq hmode hdvd hlt := ecbCall_eq hmode ((wholeBlocks_iff (k := 3) (by decide)).mpr ⟨hdvd, hlt⟩)
  cbc_eq iv _ hmode hdvd hlt :=
    cbcCall_eq hmode ((wholeBlocks_iff (k := 3) (by decide)).mpr ⟨hdvd, hlt⟩) iv
  cfb_eq hmode hs := cfbCall_eq hmode hs
  ofb_eq hmode hs := ofbCall_eq hmode hs
  ctr_eq hmode hs := ctrCall_eq hmode hs

/-- **Decrypting gives the message back**, in every mode of every cipher and in either build. -/
theorem cipher_roundTrips (build : AesBuild) (optimised : Bool) :
    (aesApi build).RoundTrips ∧ (desApi optimised).RoundTrips ∧ (tdesApi optimised).RoundTrips :=
  ⟨(aesLoops build).roundTrips, (desLoops optimised).roundTrips, (tdesLoops optimised).roundTrips⟩

/-- **Chunk by chunk or at once** is the same, in CBC, CFB, OFB and CTR. -/
theorem cipher_chunked (build : AesBuild) (optimised : Bool) :
    (aesApi build).Chunked ∧ (desApi optimised).Chunked ∧ (tdesApi optimised).Chunked :=
  ⟨(aesLoops build).chunked, (desLoops optimised).chunked, (tdesLoops optimised).chunked⟩

/-- **No counter block comes twice.** -/
theorem cipher_countersDistinct (build : AesBuild) (optimised : Bool) :
    (aesApi build).CountersDistinct ∧ (desApi optimised).CountersDistinct ∧
      (tdesApi optimised).CountersDistinct :=
  ⟨(aesLoops build).countersDistinct, (desLoops optimised).countersDistinct,
    (tdesLoops optimised).countersDistinct⟩

end Mugglec
