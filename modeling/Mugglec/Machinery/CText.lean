import Mathlib.Data.Nat.Digits.Lemmas
import Mathlib.Tactic

/-!
# Machinery/CText — what `snprintf` writes

A text is the characters before the terminating null.  `decimal n` is `%d` of a number that is not
negative, `decimal2 n` is `%02d`, and `snprintf size text` is what a buffer of `size` characters
holds afterwards: **as much of the text as leaves room for the null**.
-/

namespace CText

open Function

def nul : Char := Char.ofNat 0

def decimal (n : ℕ) : List Char :=
  if n = 0 then ['0'] else (Nat.digits 10 n).reverse.map Nat.digitChar

def decimal2 (n : ℕ) : List Char := if n < 10 then '0' :: decimal n else decimal n

def snprintf (size : ℕ) (text : List Char) : List Char := text.take (size - 1)

theorem snprintf_of_lt {size : ℕ} {text : List Char} (h : text.length < size) :
    snprintf size text = text := List.take_of_length_le (by omega)

def value (text : List Char) : ℕ := Nat.ofDigits 10 (text.reverse.map fun c => c.toNat - 48)

theorem value_digitChar : ∀ d < 10, (Nat.digitChar d).toNat - 48 = d := by decide

theorem value_decimal (n : ℕ) : value (decimal n) = n := by
  rw [decimal]
  split_ifs with hn
  · rw [hn]
    rfl
  · have hdigits : (Nat.digits 10 n).map (fun d => (Nat.digitChar d).toNat - 48) =
        Nat.digits 10 n := by
      conv_rhs => rw [← List.map_id (Nat.digits 10 n)]
      exact List.map_congr_left fun d hd => value_digitChar d (Nat.digits_lt_base (by decide) hd)
    simp only [value, List.map_reverse, List.reverse_reverse, List.map_map]
    exact (congrArg (Nat.ofDigits 10) hdigits).trans (Nat.ofDigits_digits 10 n)

theorem decimal_injective : Injective decimal :=
  LeftInverse.injective value_decimal

theorem length_decimal {n : ℕ} (hn : n ≠ 0) : (decimal n).length = Nat.log 10 n + 1 := by
  rw [decimal, if_neg hn, List.length_map, List.length_reverse,
    Nat.length_digits 10 n (by decide) hn]

theorem length_decimal_pos (n : ℕ) : 0 < (decimal n).length := by
  by_cases hn : n = 0
  · rw [hn]
    decide
  · rw [length_decimal hn]
    exact Nat.succ_pos _

theorem length_decimal_mono {m n : ℕ} (hm : m ≠ 0) (hle : m ≤ n) :
    (decimal m).length ≤ (decimal n).length := by
  rw [length_decimal hm, length_decimal (by omega)]
  exact Nat.add_le_add_right (Nat.log_mono_right hle) 1

theorem decimal_of_le {n : ℕ} (hn : 10 ≤ n) :
    decimal n = decimal (n / 10) ++ [Nat.digitChar (n % 10)] := by
  have hdiv : n / 10 ≠ 0 := by omega
  rw [decimal, decimal, if_neg (by omega), if_neg hdiv, Nat.digits_def' (by omega) (by omega)]
  simp

end CText
