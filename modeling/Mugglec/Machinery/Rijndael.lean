import Mathlib.Tactic
import Mathlib.Algebra.Group.Fin.Basic

/-!
# Machinery/Rijndael — the AES cipher on a square of bytes

The state is a `Fin 4 → Fin 4 → Byte`, row and column.  Each step of a round is a **permutation of
the states**, so the cipher is one too and the inverse cipher is its `symm`.
-/

namespace Rijndael

abbrev Column := Fin 4 → BitVec 8

abbrev State := Fin 4 → Fin 4 → BitVec 8

theorem xor_left_comm {w : ℕ} (a b c : BitVec w) : a ^^^ (b ^^^ c) = b ^^^ (a ^^^ c) := by
  rw [← BitVec.xor_assoc, BitVec.xor_comm a b, BitVec.xor_assoc]

theorem xor_left_cancel {w : ℕ} (a b : BitVec w) : a ^^^ (a ^^^ b) = b := by
  rw [← BitVec.xor_assoc, BitVec.xor_self, BitVec.zero_xor]

theorem xor_cycle {w : ℕ} (p : Fin 4 → BitVec w) (r : Fin 4) :
    p 0 ^^^ p 1 ^^^ p 2 ^^^ p 3 = p r ^^^ p (r + 1) ^^^ p (r + 2) ^^^ p (r + 3) := by
  have hturn : ∀ a b c d : BitVec w, a ^^^ b ^^^ c ^^^ d = b ^^^ c ^^^ d ^^^ a := fun a b c d => by
    rw [BitVec.xor_comm _ a, ← BitVec.xor_assoc, ← BitVec.xor_assoc]
  fin_cases r
  · rfl
  · exact hturn _ _ _ _
  · exact (hturn _ _ _ _).trans (hturn _ _ _ _)
  · exact (hturn _ _ _ _).symm

def xtime (b : BitVec 8) : BitVec 8 := (b <<< 1) ^^^ (if b.getLsbD 7 then 0x1b else 0)

theorem xtime_xor (a b : BitVec 8) : xtime (a ^^^ b) = xtime a ^^^ xtime b := by
  simp only [xtime, BitVec.shiftLeft_xor_distrib, BitVec.getLsbD_xor]
  cases a.getLsbD 7 <;> cases b.getLsbD 7 <;>
    simp [BitVec.xor_assoc, BitVec.xor_comm, xor_left_comm]

def mixByte (a b c d : BitVec 8) : BitVec 8 := xtime a ^^^ (xtime b ^^^ b) ^^^ c ^^^ d

def evenByte (a c : BitVec 8) : BitVec 8 := a ^^^ xtime (xtime a) ^^^ xtime (xtime c)

theorem mixByte_mixByte (a b c d : BitVec 8) :
    mixByte (mixByte a b c d) (mixByte b c d a) (mixByte c d a b) (mixByte d a b c) =
      evenByte a c := by
  simp only [mixByte, evenByte, xtime_xor, BitVec.xor_assoc, BitVec.xor_comm, xor_left_comm,
    xor_left_cancel]

theorem evenByte_evenByte (a c : BitVec 8) : evenByte (evenByte a c) (evenByte c a) = a := by
  simp only [evenByte, xtime_xor, BitVec.xor_assoc, BitVec.xor_comm, xor_left_comm, xor_left_cancel,
    BitVec.xor_self, BitVec.xor_zero]

def unmixByte (a b c d : BitVec 8) : BitVec 8 :=
  (xtime (xtime (xtime a)) ^^^ xtime (xtime a) ^^^ xtime a) ^^^
  (xtime (xtime (xtime b)) ^^^ xtime b ^^^ b) ^^^
  (xtime (xtime (xtime c)) ^^^ xtime (xtime c) ^^^ c) ^^^
  (xtime (xtime (xtime d)) ^^^ d)

theorem mixByte_evenByte (a b c d : BitVec 8) :
    mixByte (evenByte a c) (evenByte b d) (evenByte c a) (evenByte d b) = unmixByte a b c d := by
  simp only [mixByte, evenByte, unmixByte, xtime_xor, BitVec.xor_assoc, BitVec.xor_comm,
    xor_left_comm, xor_left_cancel]

theorem unmixByte_eq (a b c d : BitVec 8) :
    unmixByte a b c d = mixByte a b c d ^^^ (xtime (xtime a) ^^^ xtime (xtime c)) ^^^
      (xtime (xtime (xtime a)) ^^^ xtime (xtime (xtime c)) ^^^
        (xtime (xtime (xtime b)) ^^^ xtime (xtime (xtime d)))) := by
  simp only [mixByte, unmixByte, BitVec.xor_assoc, BitVec.xor_comm, xor_left_comm]

def mixColumn (v : Column) : Column := fun r => mixByte (v r) (v (r + 1)) (v (r + 2)) (v (r + 3))

def evenColumn (v : Column) : Column := fun r => evenByte (v r) (v (r + 2))

theorem mixColumn_mixColumn (v : Column) : mixColumn (mixColumn v) = evenColumn v := by
  funext r
  fin_cases r <;> exact mixByte_mixByte _ _ _ _

theorem evenColumn_evenColumn (v : Column) : evenColumn (evenColumn v) = v := by
  funext r
  fin_cases r <;> exact evenByte_evenByte _ _

theorem mixColumn_evenColumn_mixColumn (v : Column) : mixColumn (evenColumn (mixColumn v)) = v := by
  rw [← mixColumn_mixColumn, mixColumn_mixColumn v, mixColumn_mixColumn, evenColumn_evenColumn]

theorem mixColumn_mixColumn_evenColumn (v : Column) : mixColumn (mixColumn (evenColumn v)) = v := by
  rw [mixColumn_mixColumn, evenColumn_evenColumn]

theorem mixColumn_evenColumn (v : Column) (r : Fin 4) :
    mixColumn (evenColumn v) r = unmixByte (v r) (v (r + 1)) (v (r + 2)) (v (r + 3)) := by
  fin_cases r <;> exact mixByte_evenByte _ _ _ _

def subBytes (S : Equiv.Perm (BitVec 8)) : Equiv.Perm State where
  toFun m r c := S (m r c)
  invFun m r c := S.symm (m r c)
  left_inv m := by simp
  right_inv m := by simp

def shiftRows : Equiv.Perm State where
  toFun m r c := m r (c + r)
  invFun m r c := m r (c - r)
  left_inv m := by simp
  right_inv m := by simp

def mixColumns : Equiv.Perm State where
  toFun m r c := mixColumn (fun k => m k c) r
  invFun m r c := mixColumn (evenColumn fun k => m k c) r
  left_inv m := by
    funext r c
    exact congrFun (mixColumn_evenColumn_mixColumn fun k => m k c) r
  right_inv m := by
    funext r c
    exact congrFun (mixColumn_mixColumn_evenColumn fun k => m k c) r

def addRoundKey (k : State) : Equiv.Perm State :=
  Function.Involutive.toPerm (fun m r c => m r c ^^^ k r c) fun m => by
    funext r c
    show m r c ^^^ k r c ^^^ k r c = m r c
    rw [BitVec.xor_assoc, BitVec.xor_self, BitVec.xor_zero]

section Cipher

variable (S : Equiv.Perm (BitVec 8)) (ks : ℕ → State)

def subShift : Equiv.Perm State := (subBytes S).trans shiftRows

def round (k : State) : Equiv.Perm State := (subShift S).trans (mixColumns.trans (addRoundKey k))

def rounds : List ℕ → Equiv.Perm State
  | [] => Equiv.refl _
  | i :: l => (round S (ks i)).trans (rounds l)

def cipher (nr : ℕ) : Equiv.Perm State :=
  (addRoundKey (ks 0)).trans ((rounds S ks (List.range' 1 (nr - 1))).trans
    ((subShift S).trans (addRoundKey (ks nr))))

theorem rounds_apply (l : List ℕ) (m : State) :
    rounds S ks l m = l.foldl (fun m i => round S (ks i) m) m := by
  induction l generalizing m with
  | nil => rfl
  | cons i l ih => exact ih _

theorem rounds_symm_apply (l : List ℕ) (m : State) :
    (rounds S ks l).symm m = l.reverse.foldl (fun m i => (round S (ks i)).symm m) m := by
  induction l generalizing m with
  | nil => rfl
  | cons i l ih =>
    rw [List.reverse_cons, List.foldl_append, ← ih]
    rfl

theorem subShift_symm_foldl (l : List ℕ) (m : State) :
    (subShift S).symm (l.foldl (fun m i => mixColumns.symm
      ((addRoundKey (ks i)).symm ((subShift S).symm m))) m) =
      l.foldl (fun m i => (round S (ks i)).symm m) ((subShift S).symm m) :=
  (List.foldl_hom (subShift S).symm fun _ _ => rfl).symm

variable {ks} {ks' : ℕ → State}

theorem rounds_congr {l : List ℕ} (h : ∀ i ∈ l, ks i = ks' i) : rounds S ks l = rounds S ks' l := by
  induction l with
  | nil => rfl
  | cons i l ih =>
    rw [rounds, rounds, h i List.mem_cons_self, ih fun k hk => h k (List.mem_cons_of_mem i hk)]

theorem cipher_congr {nr : ℕ} (h : ∀ i ≤ nr, ks i = ks' i) : cipher S ks nr = cipher S ks' nr := by
  rw [cipher, cipher, h 0 (Nat.zero_le nr), h nr le_rfl,
    rounds_congr S fun i hi => h i (by rw [List.mem_range'_1] at hi; omega)]

end Cipher

def rcon (k : ℕ) : Column := fun r => if r = 0 then xtime^[k] 1 else 0

def keyCore (S : Equiv.Perm (BitVec 8)) (nk i : ℕ) (v : Column) : Column := fun r =>
  if i % nk = 0 then S (v (r + 1)) ^^^ rcon ((i - 1) / nk) r
  else if 6 < nk ∧ i % nk = 4 then S (v r)
  else v r

structure IsSchedule (S : Equiv.Perm (BitVec 8)) (nk n : ℕ) (key : ℕ → Column)
    (ws : ℕ → Column) : Prop where
  key_eq : ∀ i < nk, ws i = key i
  core_eq : ∀ i, nk ≤ i → i < n → ∀ r, ws i r = ws (i - nk) r ^^^ keyCore S nk i (ws (i - 1)) r

def roundKeys (ws : ℕ → Column) : ℕ → State := fun i r c => ws (4 * i + c) r

theorem IsSchedule.unique {S : Equiv.Perm (BitVec 8)} {nk n : ℕ} {key ws ws' : ℕ → Column}
    (hnk : 0 < nk) (h : IsSchedule S nk n key ws) (h' : IsSchedule S nk n key ws') :
    ∀ i < n, ws i = ws' i := by
  intro i
  induction i using Nat.strong_induction_on with
  | _ i ih =>
    intro hi
    rcases lt_or_ge i nk with hlt | hge
    · rw [h.key_eq i hlt, h'.key_eq i hlt]
    · funext r
      rw [h.core_eq i hge hi r, h'.core_eq i hge hi r, ih (i - nk) (by omega) (by omega),
        ih (i - 1) (by omega) (by omega)]

end Rijndael
