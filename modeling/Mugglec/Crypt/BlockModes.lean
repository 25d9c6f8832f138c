import Mugglec.Crypt.CryptUtils
import Mugglec.Machinery.Transducer

/-!
# Crypt/BlockModes — the five block cipher modes, over any block cipher

The loops of `muggle_*_ecb`, `_cbc`, `_cfb*`, `_ofb*` and `_ctr` are the same for the three ciphers:
only the block size, the block cipher and the counter differ.  Each loop is a transducer — of blocks
for CBC, of bytes for CFB, OFB and CTR — whose state is what the caller carries from call to call.
-/

namespace Mugglec

open ByteLanes Transducer

variable {w : ℕ}

def ecbLoop (n : ℕ) (crypt : BitVec w → BitVec w) (input : List Byte) : List Byte :=
  outputBytes n ((inputBlocks w n (input.length / n) input).map crypt)

def cbcStep (op : CryptOp) (crypt : BitVec w → BitVec w) (iv input : BitVec w) :
    BitVec w × BitVec w :=
  match op with
  | .encrypt => (crypt (iv ^^^ input), crypt (iv ^^^ input))
  | .decrypt => (input, crypt input ^^^ iv)

def cbcLoop (n : ℕ) (op : CryptOp) (crypt : BitVec w → BitVec w) (iv : BitVec w)
    (input : List Byte) : BitVec w × List Byte :=
  let r := run (cbcStep op crypt) iv (inputBlocks w n (input.length / n) input)
  (r.1, outputBytes n r.2)

structure FeedbackState (w : ℕ) where
  iv : BitVec w
  offset : ℕ
  deriving DecidableEq, Repr

def nextOffset (n offset : ℕ) : ℕ := (offset + 1) &&& (n - 1)

def cfbStep (n : ℕ) (op : CryptOp) (crypt : BitVec w → BitVec w) (s : FeedbackState w)
    (input : Byte) : FeedbackState w × Byte :=
  let iv := if s.offset = 0 then crypt s.iv else s.iv
  let output := input ^^^ lane iv s.offset
  let fed := match op with
    | .encrypt => output
    | .decrypt => input
  (⟨setLane iv s.offset fed, nextOffset n s.offset⟩, output)

def ofbStep (n : ℕ) (crypt : BitVec w → BitVec w) (s : FeedbackState w) (input : Byte) :
    FeedbackState w × Byte :=
  let iv := if s.offset = 0 then crypt s.iv else s.iv
  (⟨iv, nextOffset n s.offset⟩, input ^^^ lane iv s.offset)

structure CtrState (N : Type) (w : ℕ) where
  nonce : N
  offset : ℕ
  streamBlock : BitVec w
  counters : List (BitVec w)
  deriving DecidableEq, Repr

variable {N : Type} {n : ℕ} {counterBlock : N → BitVec w}

def ctrStep (n : ℕ) (crypt : BitVec w → BitVec w) (advance : N → N) (counterBlock : N → BitVec w)
    (s : CtrState N w) (input : Byte) : CtrState N w × Byte :=
  let t := if s.offset = 0 then
      { s with
        nonce := advance s.nonce
        streamBlock := crypt (counterBlock (advance s.nonce))
        counters := s.counters ++ [counterBlock (advance s.nonce)] }
    else s
  ({ t with offset := nextOffset n s.offset }, input ^^^ lane t.streamBlock s.offset)

section Calls

variable {C : Type} (n : ℕ) (mode : C → CipherMode) (op : C → CryptOp)
  (crypt : C → BitVec w → BitVec w)

def ecbCall (ctx : Option C) (input : Option (List Byte)) (output : Bool) :
    Except Err (List Byte) := do
  let ctx ← checkSome ctx .nullParam
  checkRet (mode ctx = .ecb) .invalidParam
  let input ← checkSome input .nullParam
  checkRet (wholeBlocks n input.length) .invalidParam
  checkRet output .nullParam
  .ok (ecbLoop n (crypt ctx) input)

def cbcCall (ctx : Option C) (input : Option (List Byte)) (iv : Option (BitVec w)) (output : Bool) :
    Except Err (BitVec w × List Byte) := do
  let ctx ← checkSome ctx .nullParam
  checkRet (mode ctx = .cbc) .invalidParam
  let input ← checkSome input .nullParam
  checkRet (wholeBlocks n input.length) .invalidParam
  let iv ← checkSome iv .nullParam
  checkRet output .nullParam
  .ok (cbcLoop n (op ctx) (crypt ctx) iv input)

def cfbCall (ctx : Option C) (input : Option (List Byte)) (iv : Option (BitVec w))
    (ivOffset : Option ℕ) (output : Bool) : Except Err (FeedbackState w × List Byte) := do
  let ctx ← checkSome ctx .nullParam
  checkRet (mode ctx = .cfb) .invalidParam
  let input ← checkSome input .nullParam
  let iv ← checkSome iv .nullParam
  let ivOffset ← checkSome ivOffset .nullParam
  checkRet (ivOffset < n) .invalidParam
  checkRet output .nullParam
  .ok (run (cfbStep n (op ctx) (crypt ctx)) ⟨iv, ivOffset⟩ input)

def ofbCall (ctx : Option C) (input : Option (List Byte)) (iv : Option (BitVec w))
    (ivOffset : Option ℕ) (output : Bool) : Except Err (FeedbackState w × List Byte) := do
  let ctx ← checkSome ctx .nullParam
  checkRet (mode ctx = .ofb) .invalidParam
  let input ← checkSome input .nullParam
  let iv ← checkSome iv .nullParam
  let ivOffset ← checkSome ivOffset .nullParam
  checkRet (ivOffset < n) .invalidParam
  checkRet output .nullParam
  .ok (run (ofbStep n (crypt ctx)) ⟨iv, ivOffset⟩ input)

def ctrCall (ctx : Option C) (input : Option (List Byte)) (nonce : Option (BitVec w))
    (nonceOffset : Option ℕ) (streamBlock : Option (BitVec w)) (output : Bool)
    (counters : List (BitVec w)) : Except Err (CtrState (BitVec w) w × List Byte) := do
  let ctx ← checkSome ctx .nullParam
  checkRet (mode ctx = .ctr) .invalidParam
  let input ← checkSome input .nullParam
  let nonce ← checkSome nonce .nullParam
  let nonceOffset ← checkSome nonceOffset .nullParam
  checkRet (nonceOffset < n) .invalidParam
  let streamBlock ← checkSome streamBlock .nullParam
  checkRet output .nullParam
  .ok (run (ctrStep n (crypt ctx) (· + 1) id) ⟨nonce, nonceOffset, streamBlock, counters⟩ input)

variable {n mode op crypt} {c : C} {input : List Byte}

theorem ecbCall_eq (hmode : mode c = .ecb) (hlen : wholeBlocks n input.length = true) :
    ecbCall n mode crypt (some c) (some input) true = .ok (ecbLoop n (crypt c) input) := by
  simp [ecbCall, hmode, hlen]

theorem cbcCall_eq (hmode : mode c = .cbc) (hlen : wholeBlocks n input.length = true)
    (iv : BitVec w) :
    cbcCall n mode op crypt (some c) (some input) (some iv) true =
      .ok (cbcLoop n (op c) (crypt c) iv input) := by
  simp [cbcCall, hmode, hlen]

theorem cfbCall_eq (hmode : mode c = .cfb) {s : FeedbackState w} (hs : s.offset < n) :
    cfbCall n mode op crypt (some c) (some input) (some s.iv) (some s.offset) true =
      .ok (run (cfbStep n (op c) (crypt c)) s input) := by
  simp [cfbCall, hmode, hs]

theorem ofbCall_eq (hmode : mode c = .ofb) {s : FeedbackState w} (hs : s.offset < n) :
    ofbCall n mode crypt (some c) (some input) (some s.iv) (some s.offset) true =
      .ok (run (ofbStep n (crypt c)) s input) := by
  simp [ofbCall, hmode, hs]

theorem ctrCall_eq (hmode : mode c = .ctr) {s : CtrState (BitVec w) w} (hs : s.offset < n) :
    ctrCall n mode crypt (some c) (some input) (some s.nonce) (some s.offset) (some s.streamBlock)
        true s.counters = .ok (run (ctrStep n (crypt c) (· + 1) id) s input) := by
  simp [ctrCall, hmode, hs]

end Calls

theorem nextOffset_lt (hn : 0 < n) (offset : ℕ) : nextOffset n offset < n :=
  Nat.and_le_right.trans_lt (Nat.sub_lt hn one_pos)

theorem xor_xor_cancel {v : ℕ} (x y : BitVec v) : x ^^^ y ^^^ y = x := by
  rw [BitVec.xor_assoc, BitVec.xor_self, BitVec.xor_zero]

theorem cbcStep_undo {there back : BitVec w → BitVec w} (h : ∀ x, back (there x) = x)
    (iv x : BitVec w) :
    cbcStep .decrypt back iv (cbcStep .encrypt there iv x).2 =
      ((cbcStep .encrypt there iv x).1, x) := by
  simp only [cbcStep, h]
  rw [BitVec.xor_comm iv x, xor_xor_cancel]

theorem cfbStep_undo (n : ℕ) (crypt : BitVec w → BitVec w) (s : FeedbackState w) (b : Byte) :
    cfbStep n .decrypt crypt s (cfbStep n .encrypt crypt s b).2 =
      ((cfbStep n .encrypt crypt s b).1, b) := by
  simp only [cfbStep, xor_xor_cancel]

theorem ofbStep_undo (n : ℕ) (crypt : BitVec w → BitVec w) (s : FeedbackState w) (b : Byte) :
    ofbStep n crypt s (ofbStep n crypt s b).2 = ((ofbStep n crypt s b).1, b) := by
  simp only [ofbStep, xor_xor_cancel]

theorem ctrStep_undo (n : ℕ) (crypt : BitVec w → BitVec w) (advance : N → N)
    (counterBlock : N → BitVec w) (s : CtrState N w) (b : Byte) :
    ctrStep n crypt advance counterBlock s (ctrStep n crypt advance counterBlock s b).2 =
      ((ctrStep n crypt advance counterBlock s b).1, b) := by
  simp only [ctrStep, xor_xor_cancel]

theorem ecbLoop_ecbLoop (hn : 0 < n) (hw : w = 8 * n) {there back : BitVec w → BitVec w}
    (h : ∀ x, back (there x) = x) {m : List Byte} (hm : n ∣ m.length) :
    (ecbLoop n there m).length = m.length ∧ ecbLoop n back (ecbLoop n there m) = m := by
  obtain ⟨len, hlen⟩ := hm
  have hmlen : m.length = len * n := by rw [hlen, mul_comm]
  have hdiv : len * n / n = len := Nat.mul_div_cancel _ hn
  have hout : ∀ f : BitVec w → BitVec w,
      (outputBytes n ((inputBlocks w n len m).map f)).length = len * n := fun f => by simp
  have hback := inputBlocks_outputBytes hw ((inputBlocks w n len m).map there)
  rw [List.length_map, length_inputBlocks] at hback
  simp only [ecbLoop, hmlen, hdiv, hout, true_and, hback, List.map_map]
  have hid : back ∘ there = id := funext h
  rw [hid, List.map_id, outputBytes_inputBlocks hw hmlen]

theorem cbcLoop_cbcLoop (hn : 0 < n) (hw : w = 8 * n) {there back : BitVec w → BitVec w}
    (h : ∀ x, back (there x) = x) (iv : BitVec w) {m : List Byte} (hm : n ∣ m.length) :
    (cbcLoop n .encrypt there iv m).2.length = m.length ∧
      cbcLoop n .decrypt back iv (cbcLoop n .encrypt there iv m).2 =
        ((cbcLoop n .encrypt there iv m).1, m) := by
  obtain ⟨len, hlen⟩ := hm
  have hmlen : m.length = len * n := by rw [hlen, mul_comm]
  have hdiv : len * n / n = len := Nat.mul_div_cancel _ hn
  set r := run (cbcStep .encrypt there) iv (inputBlocks w n len m) with hr
  have hrlen : r.2.length = len := by rw [hr, length_run, length_inputBlocks]
  have hback := inputBlocks_outputBytes hw r.2
  rw [hrlen] at hback
  have hundo := run_run_of_undo (cbcStep_undo h) iv (inputBlocks w n len m)
  rw [← hr] at hundo
  simp only [cbcLoop, hmlen, hdiv, ← hr, length_outputBytes, hrlen, true_and, hback, hundo]
  rw [outputBytes_inputBlocks hw hmlen]

theorem cbcLoop_append (hn : 0 < n) (op : CryptOp) (crypt : BitVec w → BitVec w) (iv : BitVec w)
    {a b : List Byte} (ha : n ∣ a.length) (hb : n ∣ b.length) :
    cbcLoop n op crypt iv (a ++ b) =
      ((cbcLoop n op crypt (cbcLoop n op crypt iv a).1 b).1,
        (cbcLoop n op crypt iv a).2 ++ (cbcLoop n op crypt (cbcLoop n op crypt iv a).1 b).2) := by
  obtain ⟨k, hk⟩ := ha
  obtain ⟨l, hl⟩ := hb
  have hak : a.length = k * n := by rw [hk, mul_comm]
  have hlen : (k * n + l * n) / n = k + l := by rw [← add_mul, Nat.mul_div_cancel _ hn]
  simp only [cbcLoop, List.length_append, hak, show b.length = l * n by rw [hl, mul_comm], hlen,
    Nat.mul_div_cancel _ hn, inputBlocks_append l hak, run_append]
  simp [outputBytes]

def Counted (counterBlock : N → BitVec w) (start : BitVec w) (s : CtrState N w) : Prop :=
  ∃ k, counterBlock s.nonce = start + BitVec.ofNat w k ∧
    s.counters = (List.range k).map fun i => start + BitVec.ofNat w (i + 1)

theorem Counted.step {crypt : BitVec w → BitVec w} {advance : N → N}
    (hadv : ∀ x, counterBlock (advance x) = counterBlock x + 1) {start : BitVec w}
    {s : CtrState N w} (h : Counted counterBlock start s) (b : Byte) :
    Counted counterBlock start (ctrStep n crypt advance counterBlock s b).1 := by
  obtain ⟨k, hnonce, hlog⟩ := h
  by_cases h0 : s.offset = 0
  · refine ⟨k + 1, ?_, ?_⟩
    · simp [ctrStep, h0, hadv, hnonce, BitVec.ofNat_add, BitVec.add_assoc]
    · simp [ctrStep, h0, hadv, hnonce, hlog, List.range_succ, BitVec.ofNat_add, BitVec.add_assoc]
  · exact ⟨k, by simpa [ctrStep, h0] using hnonce, by simpa [ctrStep, h0] using hlog⟩

theorem Counted.nodup {start : BitVec w} {s : CtrState N w} (h : Counted counterBlock start s)
    (hlt : s.counters.length < 2 ^ w) : s.counters.Nodup := by
  obtain ⟨k, -, hlog⟩ := h
  rw [hlog, List.length_map, List.length_range] at hlt
  rw [hlog]
  refine List.Nodup.map_on (fun i hi j hj hij => ?_) List.nodup_range
  have hi' := List.mem_range.mp hi
  have hj' := List.mem_range.mp hj
  have heq := congrArg BitVec.toNat ((BitVec.add_right_inj start).mp hij)
  rw [BitVec.toNat_ofNat, BitVec.toNat_ofNat, Nat.mod_eq_of_lt (by omega),
    Nat.mod_eq_of_lt (by omega)] at heq
  omega

end Mugglec
