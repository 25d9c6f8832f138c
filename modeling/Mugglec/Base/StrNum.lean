import Mugglec.Base.StrStrip
import Mathlib.Data.List.TakeWhile

/-!
# Base/StrNum — the number a string stands for (`base/str.c`)

`muggle_str_toi` and `muggle_str_tou` leave the reading to `strtol` and `strtoul` and look at what
they return.
-/

namespace Mugglec

def digitVal (c : UInt8) : ℕ :=
  if 48 ≤ c ∧ c ≤ 57 then c.toNat - 48
  else if 65 ≤ c ∧ c ≤ 90 then c.toNat - 55
  else if 97 ≤ c ∧ c ≤ 122 then c.toNat - 87
  else 36

def isDigit (base : ℕ) (c : UInt8) : Bool := digitVal c < base

def magnitude (base : ℕ) (digits : List UInt8) : ℕ :=
  digits.foldl (fun n c => n * base + digitVal c) 0

def splitSign : List UInt8 → Bool × List UInt8
  | c :: t => if c = 45 then (true, t) else if c = 43 then (false, t) else (false, c :: t)
  | [] => (false, [])

def hasHexPrefix : List UInt8 → Bool
  | z :: x :: d :: _ => z = 48 ∧ (x = 120 ∨ x = 88) ∧ isDigit 16 d
  | _ => false

def splitBase (base : ℕ) (t : List UInt8) : ℕ × List UInt8 :=
  if (base = 0 ∨ base = 16) ∧ hasHexPrefix t then (16, t.drop 2)
  else if base = 0 then (if t.head? = some 48 then 8 else 10, t)
  else (base, t)

def scan (base : ℕ) (s : List UInt8) : Option (Bool × ℕ × List UInt8) :=
  let (neg, t) := splitSign (s.dropWhile isspace)
  let (b, t) := splitBase base t
  let digits := t.takeWhile (isDigit b)
  if digits = [] then none else some (neg, magnitude b digits, t.dropWhile (isDigit b))

def signed (neg : Bool) (m : ℕ) : ℤ := if neg then -m else m

def strtol (base : ℕ) (s : List UInt8) : Option (ℤ × Bool × List UInt8) :=
  (scan base s).map fun (neg, m, rest) =>
    let v := signed neg m
    if v > 2 ^ 63 - 1 then (2 ^ 63 - 1, true, rest)
    else if v < -2 ^ 63 then (-2 ^ 63, true, rest)
    else (v, false, rest)

def strtoul (base : ℕ) (s : List UInt8) : Option (ℕ × List UInt8) :=
  (scan base s).map fun (neg, m, rest) =>
    if m > 2 ^ 64 - 1 then (2 ^ 64 - 1, rest)
    else (if neg then (2 ^ 64 - m) % 2 ^ 64 else m, rest)

def strToi (str : Option (List UInt8)) (base : ℕ) : Option ℤ :=
  match str.bind (strtol base) with
  | none => none
  | some (ret, erange, rest) =>
    if rest ≠ [] then
      if lstripIdx (some rest) ≠ some (-1) then none else some (i32 (ret % 2 ^ 32).toNat)
    else if (ret = 2 ^ 63 - 1 ∨ ret = -2 ^ 63) ∧ erange then none
    else if ret > 2 ^ 31 - 1 ∨ ret < -2 ^ 31 then none
    else some (i32 (ret % 2 ^ 32).toNat)

def strTou (str : Option (List UInt8)) (base : ℕ) : Option ℕ :=
  match str.bind (strtoul base) with
  | none => none
  | some (ret, rest) =>
    if rest ≠ [] ∧ lstripIdx (some rest) ≠ some (-1) then none
    else if ret = 2 ^ 64 - 1 then none
    else some (u32 ret)

inductive Numeral : ℕ → List UInt8 → ℕ → Prop
  | digits {base : ℕ} {ds : List UInt8} (hbase : 2 ≤ base) (hne : ds ≠ [])
      (hds : ∀ c ∈ ds, isDigit base c) : Numeral base ds (magnitude base ds)
  | hex {base : ℕ} {x : UInt8} {ds : List UInt8} (hbase : base = 0 ∨ base = 16)
      (hx : x = 120 ∨ x = 88) (hne : ds ≠ []) (hds : ∀ c ∈ ds, isDigit 16 c) :
      Numeral base (48 :: x :: ds) (magnitude 16 ds)
  | octal {ds : List UInt8} (hds : ∀ c ∈ ds, isDigit 8 c) : Numeral 0 (48 :: ds) (magnitude 8 ds)
  | decimal {c : UInt8} {ds : List UInt8} (hc : c ≠ 48) (hds : ∀ d ∈ c :: ds, isDigit 10 d) :
      Numeral 0 (c :: ds) (magnitude 10 (c :: ds))

def Blank (t : List UInt8) : Prop := ∀ c ∈ t, isspace c

instance : DecidablePred Blank := fun t => inferInstanceAs (Decidable (∀ c ∈ t, isspace c))

def Denotes (base : ℕ) (s : List UInt8) (v : ℤ) : Prop :=
  ∃ (lead sign num tail : List UInt8) (m : ℕ), s = lead ++ (sign ++ (num ++ tail)) ∧
    Blank lead ∧ Blank tail ∧ (sign = [] ∨ sign = [43] ∨ sign = [45]) ∧
    Numeral base num m ∧ v = signed (sign = [45]) m

variable {base b m : ℕ} {c : UInt8} {s t num tail ds : List UInt8}

theorem digitVal_of_isspace (h : isspace c) : digitVal c = 36 := by
  simp only [isspace, decide_eq_true_eq, UInt8.le_iff_toNat_le, ← UInt8.toNat_inj] at h
  simp only [digitVal, UInt8.le_iff_toNat_le, UInt8.reduceToNat] at h ⊢
  split_ifs <;> omega

theorem isDigit_of_isspace (hb : b ≤ 36) (h : isspace c) : isDigit b c = false := by
  simp only [isDigit, digitVal_of_isspace h, decide_eq_false_iff_not]
  omega

theorem isDigit_mono (hb : b ≤ m) (h : isDigit b c) : isDigit m c := by
  simp only [isDigit, decide_eq_true_eq] at h ⊢
  omega

theorem span_digits (hb : b ≤ 36) (hds : ∀ c ∈ ds, isDigit b c) (htail : Blank tail) :
    (ds ++ tail).takeWhile (isDigit b) = ds ∧ (ds ++ tail).dropWhile (isDigit b) = tail := by
  have hstop : tail.takeWhile (isDigit b) = [] ∧ tail.dropWhile (isDigit b) = tail := by
    cases tail with
    | nil => exact ⟨rfl, rfl⟩
    | cons c t => simp [isDigit_of_isspace hb (htail c List.mem_cons_self)]
  rw [List.takeWhile_append_of_pos hds, List.dropWhile_append_of_pos hds, hstop.1, hstop.2,
    List.append_nil]
  exact ⟨rfl, rfl⟩

theorem hasHexPrefix_eq_false (h : ∀ c ∈ t, isDigit 16 c ∨ isspace c) : hasHexPrefix t = false := by
  match t with
  | [] => rfl
  | [_] => rfl
  | [_, _] => rfl
  | z :: x :: d :: t =>
    have hx : ¬ (x = 120 ∨ x = 88) := by
      have := h x (by simp)
      rintro (rfl | rfl) <;> exact absurd this (by decide)
    simp [hasHexPrefix, hx]

theorem Numeral.splitBase_append (h : Numeral base num m) (htail : Blank tail) (hb : base ≤ 36) :
    ∃ b ds, splitBase base (num ++ tail) = (b, ds ++ tail) ∧ b ≤ 36 ∧ ds ≠ [] ∧
      (∀ c ∈ ds, isDigit b c) ∧ magnitude b ds = m := by
  have hplain : ∀ {ds b}, b ≤ 16 → (∀ c ∈ ds, isDigit b c) → hasHexPrefix (ds ++ tail) = false :=
    fun hb hds => hasHexPrefix_eq_false fun c hc => (List.mem_append.mp hc).imp
      (fun h => isDigit_mono hb (hds c h)) (htail c)
  cases h with
  | digits hbase hne hds =>
    refine ⟨base, num, ?_, hb, hne, hds, rfl⟩
    by_cases h16 : base = 16
    · subst h16
      simp [splitBase, hplain le_rfl hds]
    · simp [splitBase, h16, show base ≠ 0 by omega]
  | @hex _ x ds hbase hx hne hds =>
    refine ⟨16, ds, ?_, by decide, hne, hds, rfl⟩
    obtain ⟨d, ds, rfl⟩ := List.exists_cons_of_ne_nil hne
    have hd := hds d List.mem_cons_self
    simp [splitBase, hasHexPrefix, hbase, hx, hd]
  | @octal ds hds =>
    have hds' : ∀ c ∈ 48 :: ds, isDigit 8 c := List.forall_mem_cons.mpr ⟨rfl, hds⟩
    refine ⟨8, 48 :: ds, ?_, by decide, by simp, hds', rfl⟩
    simp only [splitBase, hplain (by decide) hds']
    rfl
  | @decimal c ds hc hds =>
    refine ⟨10, c :: ds, ?_, by decide, by simp, hds, rfl⟩
    simp only [splitBase, hplain (by decide) hds]
    simp [hc]

theorem Numeral.exists_head (h : Numeral base num m) (hb : base ≤ 36) :
    ∃ c t, num = c :: t ∧ isDigit 36 c := by
  cases h with
  | digits hbase hne hds =>
    obtain ⟨c, t, rfl⟩ := List.exists_cons_of_ne_nil hne
    exact ⟨c, t, rfl, isDigit_mono hb (hds c List.mem_cons_self)⟩
  | hex | octal => exact ⟨48, _, rfl, rfl⟩
  | @decimal c ds _ hds => exact ⟨c, ds, rfl, isDigit_mono (by decide) (hds c List.mem_cons_self)⟩

theorem scan_of_denotes {v : ℤ} (h : Denotes base s v) (hb : base ≤ 36) :
    ∃ neg m rest, scan base s = some (neg, m, rest) ∧ Blank rest ∧ v = signed neg m := by
  obtain ⟨lead, sign, num, tail, m, rfl, hlead, htail, hsign, hnum, hv⟩ := h
  obtain ⟨c, t, rfl, hc⟩ := hnum.exists_head hb
  obtain ⟨b, ds, hsplit, hb', hne, hds, hm⟩ := hnum.splitBase_append htail hb
  have hspace : isspace c = false := by
    cases hcs : isspace c with
    | false => rfl
    | true => rw [isDigit_of_isspace le_rfl hcs] at hc; cases hc
  have hdrop : (lead ++ (sign ++ (c :: t ++ tail))).dropWhile isspace =
      sign ++ (c :: t ++ tail) := by
    rw [List.dropWhile_append_of_pos hlead]
    rcases hsign with rfl | rfl | rfl
    · simp [hspace]
    · rfl
    · rfl
  have hsig : splitSign (sign ++ (c :: t ++ tail)) = (decide (sign = [45]), c :: t ++ tail) := by
    have h45 : c ≠ 45 := by rintro rfl; cases hc
    have h43 : c ≠ 43 := by rintro rfl; cases hc
    rcases hsign with rfl | rfl | rfl <;> simp [splitSign, h45, h43]
  refine ⟨decide (sign = [45]), m, tail, ?_, htail, hv⟩
  obtain ⟨htake, hrest⟩ := span_digits hb' hds htail
  simp only [scan, hdrop, hsig, hsplit, htake, hrest, hne, if_false, hm]

theorem numeral_of_splitBase (hbase : base = 0 ∨ 2 ≤ base) (hsplit : splitBase base s = (b, t))
    (hds : t.takeWhile (isDigit b) ≠ []) :
    ∃ num, s = num ++ t.dropWhile (isDigit b) ∧
      Numeral base num (magnitude b (t.takeWhile (isDigit b))) := by
  have hall : ∀ {b : ℕ} {t : List UInt8}, ∀ c ∈ t.takeWhile (isDigit b), isDigit b c :=
    fun c hc => List.mem_takeWhile_imp hc
  rw [splitBase] at hsplit
  split_ifs at hsplit with hhex hzero h48
  · cases hsplit
    match s, hhex.2 with
    | z :: x :: d :: u, hpre =>
      simp only [hasHexPrefix, decide_eq_true_eq] at hpre
      obtain ⟨rfl, hx, -⟩ := hpre
      refine ⟨48 :: x :: (d :: u).takeWhile (isDigit 16), ?_, .hex hhex.1 hx hds hall⟩
      simp [List.takeWhile_append_dropWhile]
  · cases hsplit
    subst hzero
    obtain ⟨u, rfl⟩ : ∃ u, s = 48 :: u := List.head?_eq_some_iff.mp h48
    refine ⟨48 :: u.takeWhile (isDigit 8), ?_, .octal hall⟩
    simp [isDigit, digitVal]
  · cases hsplit
    subst hzero
    refine ⟨_, List.takeWhile_append_dropWhile.symm, ?_⟩
    obtain ⟨c, ds, htake⟩ := List.exists_cons_of_ne_nil hds
    rw [htake]
    refine .decimal (fun hc => h48 ?_) (htake ▸ hall)
    rw [← List.takeWhile_append_dropWhile (p := isDigit 10) (l := s), htake, hc]
    rfl
  · cases hsplit
    exact ⟨_, List.takeWhile_append_dropWhile.symm, .digits (by omega) hds hall⟩

theorem denotes_of_scan {neg : Bool} {rest : List UInt8} (hbase : base = 0 ∨ 2 ≤ base)
    (h : scan base s = some (neg, m, rest)) (hrest : Blank rest) :
    Denotes base s (signed neg m) := by
  obtain ⟨neg', t, hsig⟩ : ∃ neg t, splitSign (s.dropWhile isspace) = (neg, t) := ⟨_, _, rfl⟩
  obtain ⟨b, u, hsplit⟩ : ∃ b u, splitBase base t = (b, u) := ⟨_, _, rfl⟩
  simp only [scan, hsig, hsplit] at h
  split_ifs at h with hds
  obtain ⟨rfl, rfl, rfl⟩ : neg' = neg ∧ _ ∧ _ := by simpa using h
  obtain ⟨num, hnum, hm⟩ := numeral_of_splitBase hbase hsplit hds
  have hsign : ∃ sign, s.dropWhile isspace = sign ++ t ∧ (sign = [] ∨ sign = [43] ∨ sign = [45]) ∧
      neg' = decide (sign = [45]) := by
    generalize s.dropWhile isspace = r at hsig
    match r with
    | [] =>
      cases hsig
      exact ⟨[], rfl, Or.inl rfl, rfl⟩
    | c :: r =>
      rw [splitSign] at hsig
      split_ifs at hsig with h45 h43 <;> cases hsig
      · exact ⟨[45], by rw [h45]; rfl, by simp, rfl⟩
      · exact ⟨[43], by rw [h43]; rfl, by simp, rfl⟩
      · exact ⟨[], rfl, by simp, rfl⟩
  obtain ⟨sign, hs, hmem, hneg⟩ := hsign
  refine ⟨s.takeWhile isspace, sign, num, _, _, ?_, fun c hc => List.mem_takeWhile_imp hc, hrest,
    hmem, hm, by rw [hneg]⟩
  rw [← hnum, ← hs, List.takeWhile_append_dropWhile]

theorem denotes_iff {v : ℤ} (hbase : base = 0 ∨ 2 ≤ base ∧ base ≤ 36) :
    Denotes base s v ↔
      ∃ neg m rest, scan base s = some (neg, m, rest) ∧ Blank rest ∧ v = signed neg m := by
  constructor
  · exact fun h => scan_of_denotes h (by omega)
  · rintro ⟨neg, m, rest, hscan, hrest, rfl⟩
    exact denotes_of_scan (hbase.imp_right And.left) hscan hrest

theorem lstripIdx_of_blank (hne : s ≠ []) (hs : Blank s) : lstripIdx (some s) = some (-1) := by
  have hpos := List.length_pos_of_ne_nil hne
  have hlen : i32 (u32 s.length) ≤ s.length := by
    simp only [i32, u32]
    split_ifs <;> omega
  have hink : inked s = ∅ := by
    refine Set.eq_empty_of_forall_notMem ?_
    rintro i ⟨c, hc, hspace⟩
    rw [hs c (List.mem_of_getElem? hc)] at hspace
    cases hspace
  rw [lstripIdx]
  rcases le_or_gt (i32 (u32 s.length)) 0 with hle | hgt
  · have hfirst := charAt_of_lt hpos
    rw [Nat.cast_zero] at hfirst
    rw [lstripLoop, hfirst]
    simp only [hs s[0] (List.getElem_mem hpos), if_true]
    rw [if_pos (by omega)]
  · obtain ⟨n, hn⟩ := Int.eq_ofNat_of_zero_le hgt.le
    rw [hn] at hlen hgt ⊢
    rcases lstripLoop_spec (s := s) (i := 0) (n := n) (by omega) (by omega) with h | ⟨j, -, hj, -⟩
    · exact h.1
    · exact absurd hj (by simp [hink])

def Converts {α : Type} (call : Option α) (val : α → ℤ) (base : ℕ) (s : List UInt8) (lo hi : ℤ) :
    Prop :=
  ∀ a, call = some a ↔ Denotes base s (val a) ∧ lo ≤ val a ∧ val a ≤ hi

variable {neg : Bool} {rest : List UInt8} (hscan : scan base s = some (neg, m, rest))

include hscan in
theorem denotes_iff_of_scan (hbase : base = 0 ∨ 2 ≤ base ∧ base ≤ 36) (v : ℤ) :
    Denotes base s v ↔ Blank rest ∧ v = signed neg m := by
  rw [denotes_iff hbase, hscan]
  constructor
  · rintro ⟨neg, m, rest, h, hrest, hv⟩
    cases h
    exact ⟨hrest, hv⟩
  · exact fun h => ⟨neg, m, rest, rfl, h⟩

theorem i32_emod {v : ℤ} (hlo : -2 ^ 31 ≤ v) (hhi : v ≤ 2 ^ 31 - 1) :
    i32 (v % 2 ^ 32).toNat = v := by
  rw [i32]
  split_ifs <;> omega

include hscan in
theorem strToi_eq : ∃ w,
    (-2 ^ 31 ≤ signed neg m → signed neg m ≤ 2 ^ 31 - 1 → w = signed neg m) ∧
    strToi (some s) base =
      if rest = [] then
        if -2 ^ 31 ≤ signed neg m ∧ signed neg m ≤ 2 ^ 31 - 1 then some (signed neg m) else none
      else if lstripIdx (some rest) = some (-1) then some w else none := by
  have hlong : ∃ ret erange, strtol base s = some (ret, erange, rest) ∧
      ((ret = signed neg m ∧ erange = false) ∨
        (ret = 2 ^ 63 - 1 ∧ erange = true ∧ ret < signed neg m) ∨
        (ret = -2 ^ 63 ∧ erange = true ∧ signed neg m < ret)) := by
    simp only [strtol, hscan, Option.map_some]
    split_ifs with hhi hlo
    · exact ⟨_, _, rfl, Or.inr (Or.inl ⟨rfl, rfl, hhi⟩)⟩
    · exact ⟨_, _, rfl, Or.inr (Or.inr ⟨rfl, rfl, hlo⟩)⟩
    · exact ⟨_, _, rfl, Or.inl ⟨rfl, rfl⟩⟩
  obtain ⟨ret, erange, hcall, hret⟩ := hlong
  refine ⟨i32 (ret % 2 ^ 32).toNat, fun hlo hhi => ?_, ?_⟩
  · rw [show ret = signed neg m by omega, i32_emod hlo hhi]
  · simp only [strToi, Option.bind_some, hcall, ne_eq, ite_not]
    by_cases hrest : rest = []
    · simp only [if_pos hrest]
      rcases hret with ⟨rfl, rfl⟩ | ⟨rfl, rfl, hlt⟩ | ⟨rfl, rfl, hlt⟩
      · simp only [Bool.false_eq_true, and_false, if_false]
        split_ifs with hout hin hin
        · omega
        · rfl
        · rw [i32_emod hin.1 hin.2]
        · omega
      · rw [if_pos (by simp), if_neg (by omega)]
      · rw [if_pos (by simp), if_neg (by omega)]
    · simp only [if_neg hrest]

include hscan in
theorem converts_toi_iff (hbase : base = 0 ∨ 2 ≤ base ∧ base ≤ 36) :
    Converts (strToi (some s) base) id base s (-2 ^ 31) (2 ^ 31 - 1) ↔
      (lstripIdx (some rest) = some (-1) → Blank rest ∧
        -2 ^ 31 ≤ signed neg m ∧ signed neg m ≤ 2 ^ 31 - 1) := by
  obtain ⟨w, hw, hcall⟩ := strToi_eq hscan
  simp only [Converts, denotes_iff_of_scan hscan hbase, hcall, id]
  by_cases hrest : rest = []
  · subst hrest
    simp only [lstripIdx_nil, if_true]
    refine iff_of_true (fun v => ?_) (by simp)
    split_ifs with hin
    · constructor
      · rintro ⟨⟩
        exact ⟨⟨by simp [Blank], rfl⟩, hin⟩
      · rintro ⟨⟨-, rfl⟩, -⟩
        rfl
    · refine iff_of_false (by simp) ?_
      rintro ⟨⟨-, rfl⟩, hin'⟩
      exact hin hin'
  · rw [if_neg hrest]
    split_ifs with hstrip
    · constructor
      · intro h _
        obtain ⟨⟨hblank, hv⟩, hin⟩ := (h w).mp rfl
        exact ⟨hblank, hv ▸ hin⟩
      · intro h v
        obtain ⟨hblank, hlo, hhi⟩ := h hstrip
        rw [hw hlo hhi, Option.some.injEq]
        exact ⟨fun hv => ⟨⟨hblank, hv.symm⟩, hv ▸ ⟨hlo, hhi⟩⟩, fun hv => hv.1.2.symm⟩
    · refine iff_of_true (fun v => iff_of_false (by simp) ?_) (fun h => absurd h hstrip)
      exact fun h => hstrip (lstripIdx_of_blank hrest h.1.1)

include hscan in
theorem converts_tou_iff (hbase : base = 0 ∨ 2 ≤ base ∧ base ≤ 36)
    (hstrip : lstripIdx (some rest) = some (-1) → Blank rest) :
    Converts (strTou (some s) base) Nat.cast base s 0 (2 ^ 32 - 1) ↔
      (Blank rest → (0 ≤ signed neg m ∧ signed neg m ≤ 2 ^ 32 - 1) ∨ signed neg m = -1 ∨
        2 ^ 64 - 1 ≤ signed neg m ∨ signed neg m ≤ -2 ^ 64) := by
  have hulong : ∃ ret, strtoul base s = some (ret, rest) ∧
      (0 ≤ signed neg m → signed neg m ≤ 2 ^ 32 - 1 → (ret : ℤ) = signed neg m) ∧
      (ret = 2 ^ 64 - 1 ↔ signed neg m = -1 ∨ 2 ^ 64 - 1 ≤ signed neg m ∨
        signed neg m ≤ -2 ^ 64) := by
    simp only [strtoul, hscan, Option.map_some]
    have hpos : signed false m = m := rfl
    have hneg : signed true m = -m := rfl
    cases neg <;> split_ifs <;> first | exact ⟨_, rfl, by omega, by omega⟩ | contradiction
  obtain ⟨ret, hcall, hfits, hmax⟩ := hulong
  have htail : (rest ≠ [] ∧ lstripIdx (some rest) ≠ some (-1)) ↔ ¬ Blank rest := by
    constructor
    · exact fun h hblank => h.2 (lstripIdx_of_blank h.1 hblank)
    · exact fun h => ⟨by rintro rfl; exact h (by simp [Blank]), fun hs => h (hstrip hs)⟩
  simp only [Converts, denotes_iff_of_scan hscan hbase, strTou, Option.bind_some, hcall]
  by_cases hblank : Blank rest
  · simp only [if_neg (mt htail.mp (not_not_intro hblank)), hblank, true_and, true_implies]
    split_ifs with hret
    · refine iff_of_true (fun a => iff_of_false (by simp) ?_) (Or.inr (hmax.mp hret))
      have := hmax.mp hret
      omega
    · rw [or_iff_left (mt hmax.mpr hret)]
      constructor
      · intro h
        obtain ⟨hv, hin⟩ := (h (u32 ret)).mp rfl
        rwa [hv] at hin
      · intro hin a
        have := hfits hin.1 hin.2
        rw [u32_of_lt (by omega), Option.some.injEq]
        omega
  · simp [if_pos (htail.mpr hblank), hblank]

/-- **Both calls convert exactly the numbers in range** if and only if `strtol`, `strtoul` and the
text behind the number are as the calls take them to be. -/
theorem strToi_strTou_converts_iff (s : List UInt8) (base : ℕ)
    (hbase : base = 0 ∨ 2 ≤ base ∧ base ≤ 36) :
    (Converts (strToi (some s) base) id base s (-2 ^ 31) (2 ^ 31 - 1) ∧
      Converts (strTou (some s) base) Nat.cast base s 0 (2 ^ 32 - 1)) ↔
    ∀ neg m rest, scan base s = some (neg, m, rest) →
      (lstripIdx (some rest) = some (-1) → Blank rest ∧
        -2 ^ 31 ≤ signed neg m ∧ signed neg m ≤ 2 ^ 31 - 1) ∧
      (Blank rest → (0 ≤ signed neg m ∧ signed neg m ≤ 2 ^ 32 - 1) ∨ signed neg m = -1 ∨
        2 ^ 64 - 1 ≤ signed neg m ∨ signed neg m ≤ -2 ^ 64) := by
  cases hscan : scan base s with
  | none =>
    have hnot : ∀ v, ¬ Denotes base s v := by
      intro v hv
      obtain ⟨neg, m, rest, h, -⟩ := (denotes_iff hbase).mp hv
      rw [hscan] at h
      cases h
    simp [Converts, hnot, strToi, strTou, strtol, strtoul, hscan]
  | some r =>
    obtain ⟨neg, m, rest⟩ := r
    constructor
    · rintro ⟨htoi, htou⟩ neg m rest ⟨⟩
      have htoi' := (converts_toi_iff hscan hbase).mp htoi
      exact ⟨htoi', (converts_tou_iff hscan hbase fun h => (htoi' h).1).mp htou⟩
    · intro h
      obtain ⟨htoi, htou⟩ := h neg m rest rfl
      exact ⟨(converts_toi_iff hscan hbase).mpr htoi,
        (converts_tou_iff hscan hbase fun h => (htoi h).1).mpr htou⟩

theorem strToi_strTou_converts_7f :
    Converts (strToi (some [32, 55, 102, 32]) 16) id 16 [32, 55, 102, 32] (-2 ^ 31) (2 ^ 31 - 1) ∧
      Converts (strTou (some [32, 55, 102, 32]) 16) Nat.cast 16 [32, 55, 102, 32] 0
        (2 ^ 32 - 1) := by
  refine (strToi_strTou_converts_iff _ 16 (by decide)).mpr ?_
  rintro neg m rest ⟨⟩
  have hblank : Blank [32] := by simp [Blank, isspace]
  exact ⟨fun _ => ⟨hblank, by decide⟩, fun _ => Or.inl (by decide)⟩

theorem strToi_strTou_out_of_range :
    strToi (some [52, 50, 57, 52, 57, 54, 55, 50, 57, 54, 32]) 10 = some 0 ∧
    strTou (some [45, 50]) 10 = some (2 ^ 32 - 2) := by
  constructor
  · have hscan : scan 10 [52, 50, 57, 52, 57, 54, 55, 50, 57, 54, 32] =
        some (false, 4294967296, [32]) := by decide
    have hstrip := lstripIdx_of_blank (s := [32]) (by simp) (by simp [Blank, isspace])
    simp [strToi, strtol, hscan, hstrip, signed, i32]
  · decide

end Mugglec
