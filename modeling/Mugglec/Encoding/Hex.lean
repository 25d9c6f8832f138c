import Mathlib.Tactic

/-!
# Encoding/Hex — bytes as hexadecimal digits (`encoding/hex.c`)

A digit is read as a byte, and the byte 255 says that it is none: no digit has that value
(`hexToByte_eq_255`).
-/

namespace Mugglec

def hexToByte (c : UInt8) : UInt8 :=
  if 48 ≤ c ∧ c ≤ 57 then c - 48
  else if 65 ≤ c ∧ c ≤ 70 then c - 65 + 10
  else if 97 ≤ c ∧ c ≤ 102 then c - 97 + 10
  else 255

def hexToBytes : List UInt8 → List UInt8 → ℤ × List UInt8
  | h :: l :: hex, bytes =>
    let h := hexToByte h
    let l := hexToByte l
    if h = 255 ∨ l = 255 then (-1, bytes) else hexToBytes hex (bytes ++ [h <<< 4 ||| l])
  | _, bytes => (0, bytes)

def sHex (i : UInt8) : UInt8 := if i < 10 then 48 + i else 55 + i

def hexFromBytes (bytes : List UInt8) : List UInt8 :=
  bytes.flatMap fun b : UInt8 => [sHex ((b >>> 4) &&& 15), sHex (b &&& 15)]

def isHexDigit (c : UInt8) : Bool :=
  48 ≤ c ∧ c ≤ 57 ∨ 65 ≤ c ∧ c ≤ 70 ∨ 97 ≤ c ∧ c ≤ 102

def toupper (c : UInt8) : UInt8 := if 97 ≤ c ∧ c ≤ 122 then c - 32 else c

theorem hexToByte_eq_255 (c : UInt8) : hexToByte c = 255 ↔ isHexDigit c = false := by
  grind [hexToByte, isHexDigit]

theorem sHex_hexToByte (c : UInt8) (hc : isHexDigit c = true) :
    hexToByte c < 16 ∧ sHex (hexToByte c) = toupper c := by
  grind [hexToByte, isHexDigit, sHex, toupper]

theorem hexToByte_sHex (i : UInt8) (hi : i < 16) :
    hexToByte (sHex i) = i ∧ hexToByte (sHex i) ≠ 255 := by
  grind [hexToByte, sHex]

theorem and_fifteen_lt (b : UInt8) : b &&& 15 < 16 := by
  rw [UInt8.lt_iff_toNat_lt, UInt8.toNat_and]
  exact Nat.lt_succ_of_le Nat.and_le_right

theorem and_fifteen_of_lt {b : UInt8} (hb : b < 16) : b &&& 15 = b :=
  UInt8.toNat_inj.mp ((UInt8.toNat_and b 15).trans
    (Nat.and_two_pow_sub_one_of_lt_two_pow (n := 4) hb))

theorem byte_of_halves (b : UInt8) : ((b >>> 4) &&& 15) <<< 4 ||| (b &&& 15) = b := by
  refine UInt8.toBitVec_inj.mp (BitVec.eq_of_getLsbD_eq fun j hj => ?_)
  interval_cases j <;> simp

theorem halves_of_byte {h l : UInt8} (hh : h < 16) (hl : l < 16) :
    (((h <<< 4 ||| l) >>> 4) &&& 15) = h ∧ ((h <<< 4 ||| l) &&& 15) = l := by
  rw [← and_fifteen_of_lt hh, ← and_fifteen_of_lt hl]
  constructor <;> refine UInt8.toBitVec_inj.mp (BitVec.eq_of_getLsbD_eq fun j hj => ?_) <;>
    interval_cases j <;> simp

theorem hexToBytes_cons {h l : UInt8} (hh : hexToByte h ≠ 255) (hl : hexToByte l ≠ 255)
    (hex bytes : List UInt8) : hexToBytes (h :: l :: hex) bytes =
      hexToBytes hex (bytes ++ [hexToByte h <<< 4 ||| hexToByte l]) := by
  rw [hexToBytes]
  exact if_neg (by simp [hh, hl])

theorem hexToBytes_hexFromBytes (bytes done : List UInt8) :
    hexToBytes (hexFromBytes bytes) done = (0, done ++ bytes) := by
  induction bytes generalizing done with
  | nil => simp [hexFromBytes, hexToBytes]
  | cons b bytes ih =>
    obtain ⟨hhigh, hne⟩ := hexToByte_sHex _ (and_fifteen_lt (b >>> 4))
    obtain ⟨hlow, hne'⟩ := hexToByte_sHex _ (and_fifteen_lt b)
    have hcons : hexFromBytes (b :: bytes) =
        sHex ((b >>> 4) &&& 15) :: sHex (b &&& 15) :: hexFromBytes bytes := rfl
    rw [hcons, hexToBytes_cons hne hne', ih, hhigh, hlow, byte_of_halves,
      List.append_assoc]
    rfl

theorem hexToBytes_cases (hex done : List UInt8) (heven : Even hex.length) :
    ((∀ c ∈ hex, isHexDigit c) ∧ ∃ bytes, hexToBytes hex done = (0, done ++ bytes) ∧
      hexFromBytes bytes = hex.map toupper) ∨
    ((¬ ∀ c ∈ hex, isHexDigit c) ∧ (hexToBytes hex done).1 = -1) := by
  match hex with
  | [] => exact Or.inl ⟨by simp, [], by simp [hexToBytes], rfl⟩
  | [_] => exact absurd heven (by simp)
  | h :: l :: hex =>
    cases hh : isHexDigit h with
    | false =>
      exact Or.inr ⟨by simp [hh], by simp [hexToBytes, (hexToByte_eq_255 h).mpr hh]⟩
    | true =>
    cases hl : isHexDigit l with
    | false =>
      exact Or.inr ⟨by simp [hl], by simp [hexToBytes, (hexToByte_eq_255 l).mpr hl]⟩
    | true =>
      have hne : ∀ {c}, isHexDigit c = true → hexToByte c ≠ 255 := fun {c} hc h => by
        rw [(hexToByte_eq_255 c).mp h] at hc
        cases hc
      rw [hexToBytes_cons (hne hh) (hne hl)]
      have heven' : Even hex.length := by
        simpa [Nat.even_add_one] using heven
      rcases hexToBytes_cases hex (done ++ [hexToByte h <<< 4 ||| hexToByte l]) heven' with
        ⟨hall, bytes, hread, hwrite⟩ | ⟨hsome, hret⟩
      · obtain ⟨hlt, hup⟩ := sHex_hexToByte h hh
        obtain ⟨hlt', hup'⟩ := sHex_hexToByte l hl
        obtain ⟨hhigh, hlow⟩ := halves_of_byte hlt hlt'
        refine Or.inl ⟨by simpa [hh, hl] using hall,
          (hexToByte h <<< 4 ||| hexToByte l) :: bytes, ?_, ?_⟩
        · rw [hread, List.append_assoc]
          rfl
        · have hcons : ∀ b, hexFromBytes (b :: bytes) =
              sHex ((b >>> 4) &&& 15) :: sHex (b &&& 15) :: hexFromBytes bytes := fun _ => rfl
          rw [hcons, hhigh, hlow, hup, hup', hwrite]
          rfl
      · exact Or.inr ⟨by simpa [hh, hl] using hsome, hret⟩

/-- **What is written is read back, and what is read is written back in upper case.** -/
theorem hex_roundTrip (bytes hex : List UInt8) (heven : Even hex.length) :
    hexToBytes (hexFromBytes bytes) [] = (0, bytes) ∧
    ((hexToBytes hex []).1 = 0 ↔ ∀ c ∈ hex, isHexDigit c) ∧
    ((hexToBytes hex []).1 = 0 → hexFromBytes (hexToBytes hex []).2 = hex.map toupper) := by
  refine ⟨hexToBytes_hexFromBytes bytes [], ?_⟩
  rcases hexToBytes_cases hex [] heven with ⟨hall, read, hread, hwrite⟩ | ⟨hsome, hret⟩
  · rw [hread]
    exact ⟨iff_of_true rfl hall, fun _ => hwrite⟩
  · rw [hret]
    exact ⟨iff_of_false (by decide) hsome, fun h => absurd h (by decide)⟩

/-- `"3af0"` is the text of the bytes 58 and 240, in lower case. -/
theorem hex_roundTrip_3af0 : (hexToBytes [51, 97, 102, 48] []).1 = 0 ∧
    hexFromBytes (hexToBytes [51, 97, 102, 48] []).2 = [51, 65, 70, 48] := by
  obtain ⟨-, hiff, hwrite⟩ := hex_roundTrip [] [51, 97, 102, 48] (by decide)
  have hret := hiff.mpr (by simp [isHexDigit])
  exact ⟨hret, (hwrite hret).trans (by simp [toupper])⟩

end Mugglec
