import Mathlib.Tactic

/-!
# Machinery/Window — the cells of a memory, read and written a window at a time

A memory is a function of the address.  `load m a n` is the `n` cells from `a` on, `store m a xs`
copies `xs` to `a`; the two obey the laws of `memcpy`: what was stored is loaded back, and a window
that does not meet the stored one is unchanged.
-/

namespace Window

variable {α : Type*}

def load (m : ℤ → α) (a : ℤ) (n : ℕ) : List α := (List.range n).map fun i : ℕ => m (a + i)

def store (m : ℤ → α) (a : ℤ) (xs : List α) : ℤ → α :=
  fun i => if a ≤ i then (xs[(i - a).toNat]?).getD (m i) else m i

variable (m : ℤ → α)

@[simp] theorem length_load (a : ℤ) (n : ℕ) : (load m a n).length = n := by
  simp [load]

@[simp] theorem load_zero (a : ℤ) : load m a 0 = [] := rfl

theorem load_add (a : ℤ) (n k : ℕ) : load m a (n + k) = load m a n ++ load m (a + n) k := by
  simp only [load, List.range_add, List.map_append, List.map_map]
  refine congrArg _ (List.map_congr_left fun i _ => ?_)
  simp [add_assoc]

theorem load_toNat_split {a b c : ℤ} (hab : a ≤ b) (hbc : b ≤ c) :
    load m a (c - a).toNat = load m a (b - a).toNat ++ load m b (c - b).toNat := by
  have hn : (c - a).toNat = (b - a).toNat + (c - b).toNat := by omega
  have hb : a + ((b - a).toNat : ℤ) = b := by omega
  rw [hn, load_add, hb]

theorem load_congr {m m' : ℤ → α} {a : ℤ} {n : ℕ} (h : ∀ i, a ≤ i → i < a + n → m i = m' i) :
    load m a n = load m' a n := by
  refine List.map_congr_left fun i hi => ?_
  have := List.mem_range.mp hi
  exact h _ (by omega) (by omega)

theorem store_apply_of_lt {a i : ℤ} (xs : List α) (h : i < a) : store m a xs i = m i :=
  if_neg (not_le.mpr h)

theorem store_apply_of_ge {a i : ℤ} (xs : List α) (h : a + xs.length ≤ i) :
    store m a xs i = m i := by
  have hlen : xs.length ≤ (i - a).toNat := by omega
  rw [store, List.getElem?_eq_none hlen]
  simp

theorem load_store_self (a : ℤ) (xs : List α) : load (store m a xs) a xs.length = xs := by
  refine List.ext_getElem (by simp) fun i h1 h2 => ?_
  simp [load, store, h2]

theorem load_store_of_disjoint {a b : ℤ} {n : ℕ} {xs : List α}
    (h : a + n ≤ b ∨ b + xs.length ≤ a) : load (store m b xs) a n = load m a n := by
  refine load_congr fun i hi hi' => ?_
  rcases h with h | h
  · exact store_apply_of_lt m xs (by omega)
  · exact store_apply_of_ge m xs (by omega)

section Words

def bytes32 (n : ℕ) : List UInt8 :=
  [UInt8.ofNat n, UInt8.ofNat (n / 2 ^ 8), UInt8.ofNat (n / 2 ^ 16), UInt8.ofNat (n / 2 ^ 24)]

def word32 (bs : List UInt8) : ℕ := bs.foldr (fun b n => b.toNat + 2 ^ 8 * n) 0

theorem word32_bytes32 {n : ℕ} (h : n < 2 ^ 32) : word32 (bytes32 n) = n := by
  simp only [bytes32, word32, List.foldr_cons, List.foldr_nil, UInt8.toNat_ofNat']
  omega

def load32 (m : ℤ → UInt8) (a : ℤ) : ℕ := word32 (load m a 4)

def store32 (m : ℤ → UInt8) (a : ℤ) (n : ℕ) : ℤ → UInt8 := store m a (bytes32 n)

theorem load32_store32_self (m : ℤ → UInt8) (a : ℤ) {n : ℕ} (h : n < 2 ^ 32) :
    load32 (store32 m a n) a = n :=
  (congrArg word32 (load_store_self m a (bytes32 n))).trans (word32_bytes32 h)

theorem store32_apply_of_lt (m : ℤ → UInt8) {a i : ℤ} (n : ℕ) (h : i < a) :
    store32 m a n i = m i := store_apply_of_lt m _ h

theorem store32_apply_of_ge (m : ℤ → UInt8) {a i : ℤ} (n : ℕ) (h : a + 4 ≤ i) :
    store32 m a n i = m i := store_apply_of_ge m _ h

theorem load32_congr {m m' : ℤ → UInt8} {a : ℤ} (h : ∀ i, a ≤ i → i < a + 4 → m i = m' i) :
    load32 m a = load32 m' a := congrArg word32 (load_congr h)

end Words

end Window
