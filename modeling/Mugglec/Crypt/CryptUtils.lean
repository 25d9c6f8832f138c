import Mugglec.Base.Utils
import Mugglec.Machinery.ByteLanes

/-!
# Crypt/CryptUtils — operations, modes and blocks

What `aes.c`, `des.c` and `tdes.c` share: the operation and the block cipher mode a context is set
up with, the checks in front of every call, and the walk over a buffer a block at a time.
-/

namespace Mugglec

open ByteLanes

abbrev Byte := BitVec 8

inductive CryptOp
  | decrypt | encrypt
  deriving DecidableEq, Repr

inductive CipherMode
  | ecb | cbc | cfb | ofb | ctr
  deriving DecidableEq, Repr

def CryptOp.code : CryptOp → ℤ
  | .decrypt => 0
  | .encrypt => 1

def CipherMode.code : CipherMode → ℤ
  | .ecb => 0
  | .cbc => 1
  | .cfb => 2
  | .ofb => 3
  | .ctr => 4

def CryptOp.ofInt (op : ℤ) : Option CryptOp :=
  if op = 0 then some .decrypt else if op = 1 then some .encrypt else none

def CipherMode.ofInt (mode : ℤ) : Option CipherMode :=
  if mode = 0 then some .ecb
  else if mode = 1 then some .cbc
  else if mode = 2 then some .cfb
  else if mode = 3 then some .ofb
  else if mode = 4 then some .ctr
  else none

@[simp] theorem CryptOp.ofInt_code (op : CryptOp) : CryptOp.ofInt op.code = some op := by
  cases op <;> rfl

@[simp] theorem CipherMode.ofInt_code (mode : CipherMode) :
    CipherMode.ofInt mode.code = some mode := by
  cases mode <;> rfl

def checkRet (x : Bool) (err : Err) : Except Err Unit := if x then .ok () else .error err

def checkSome {α : Type} (p : Option α) (err : Err) : Except Err α :=
  match p with
  | some a => .ok a
  | none => .error err

@[simp] theorem checkRet_eq_ok {x : Bool} {err : Err} {u : Unit} :
    checkRet x err = .ok u ↔ x = true := by
  cases x <;> simp [checkRet]

@[simp] theorem checkSome_eq_ok {α : Type} {p : Option α} {err : Err} {a : α} :
    checkSome p err = .ok a ↔ p = some a := by
  cases p <;> simp [checkSome]

@[simp] theorem bind_eq_ok {α β : Type} {x : Except Err α} {f : α → Except Err β} {b : β} :
    (x >>= f) = .ok b ↔ ∃ a, x = .ok a ∧ f a = .ok b := by
  cases x <;> simp [bind, Except.bind]

def wholeBlocks (n numBytes : ℕ) : Bool := (u32 (numBytes + n - 1) &&& (2 ^ 32 - n)) = numBytes

theorem wholeBlocks_iff {k numBytes : ℕ} (hk : k ≤ 32) :
    wholeBlocks (2 ^ k) numBytes = true ↔ 2 ^ k ∣ numBytes ∧ numBytes < 2 ^ 32 := by
  have hpos : 0 < 2 ^ k := by positivity
  have hlt : ∀ x, u32 x < 2 ^ 32 := fun x => Nat.mod_lt _ (by positivity)
  rw [wholeBlocks, and_alignMask hk (hlt _), decide_eq_true_eq]
  constructor
  · intro h
    refine ⟨⟨_, h.symm⟩, ?_⟩
    rw [← h]
    exact (Nat.mul_div_le _ _).trans_lt (hlt _)
  · rintro ⟨⟨q, rfl⟩, hq⟩
    -- the largest multiple below `2 ^ 32` leaves room for the `n - 1` the macro adds
    have hroom : 2 ^ k * q + 2 ^ k ≤ 2 ^ 32 := by
      obtain ⟨r, hr⟩ := pow_dvd_pow 2 hk
      rw [hr] at hq ⊢
      have := Nat.lt_of_mul_lt_mul_left hq
      calc 2 ^ k * q + 2 ^ k = 2 ^ k * (q + 1) := by ring
        _ ≤ 2 ^ k * r := Nat.mul_le_mul_left _ this
    have hdiv : (2 ^ k * q + 2 ^ k - 1) / 2 ^ k = q := by
      have hsub : 2 ^ k * q + 2 ^ k - 1 = 2 ^ k * q + (2 ^ k - 1) := by omega
      rw [hsub, Nat.mul_add_div hpos, Nat.div_eq_of_lt (Nat.sub_lt hpos one_pos), add_zero]
    rw [u32_of_lt (by omega), hdiv]

variable {w : ℕ}

def inputBlocks (w n : ℕ) : ℕ → List Byte → List (BitVec w)
  | 0, _ => []
  | len + 1, input => ofBytes w (input.take n) :: inputBlocks w n len (input.drop n)

def outputBytes (n : ℕ) (blocks : List (BitVec w)) : List Byte := blocks.flatMap (toBytes n)

@[simp] theorem length_inputBlocks (n len : ℕ) (input : List Byte) :
    (inputBlocks w n len input).length = len := by
  induction len generalizing input with
  | zero => rfl
  | succ len ih => simp [inputBlocks, ih]

@[simp] theorem length_outputBytes (n : ℕ) (blocks : List (BitVec w)) :
    (outputBytes n blocks).length = blocks.length * n := by
  simp [outputBytes]

theorem inputBlocks_outputBytes {n : ℕ} (hw : w = 8 * n) (blocks : List (BitVec w)) :
    inputBlocks w n blocks.length (outputBytes n blocks) = blocks := by
  induction blocks with
  | nil => rfl
  | cons x blocks ih =>
    have hx := length_toBytes n x
    rw [outputBytes, List.flatMap_cons, List.length_cons, inputBlocks,
      List.take_left' hx, List.drop_left' hx, ofBytes_toBytes hw]
    exact congrArg _ ih

theorem outputBytes_inputBlocks {n : ℕ} (hw : w = 8 * n) {len : ℕ} {input : List Byte}
    (h : input.length = len * n) : outputBytes n (inputBlocks w n len input) = input := by
  induction len generalizing input with
  | zero => exact (List.eq_nil_of_length_eq_zero (by omega)).symm
  | succ len ih =>
    have hlen : input.length = len * n + n := by rw [h]; ring
    have hdrop : (input.drop n).length = len * n := by rw [List.length_drop]; omega
    have hrest := ih hdrop
    rw [outputBytes] at hrest ⊢
    rw [inputBlocks, List.flatMap_cons, hrest,
      toBytes_ofBytes hw.ge (by rw [List.length_take]; omega), List.take_append_drop]

theorem inputBlocks_append {n k : ℕ} (len : ℕ) {a : List Byte} (ha : a.length = k * n)
    (b : List Byte) :
    inputBlocks w n (k + len) (a ++ b) = inputBlocks w n k a ++ inputBlocks w n len b := by
  induction k generalizing a with
  | zero =>
    obtain rfl : a = [] := List.eq_nil_of_length_eq_zero (by omega)
    simp [inputBlocks]
  | succ k ih =>
    have hlen : a.length = k * n + n := by rw [ha]; ring
    have hn : n ≤ a.length := by omega
    rw [Nat.succ_add, inputBlocks, inputBlocks, List.take_append_of_le_length hn,
      List.drop_append_of_le_length hn, ih (by rw [List.length_drop]; omega), List.cons_append]

end Mugglec
