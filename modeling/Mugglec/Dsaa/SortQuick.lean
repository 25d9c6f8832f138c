import Mugglec.Dsaa.SortMerge

/-!
# Dsaa/SortQuick — quick sort, with its unguarded scans

After the median of three a part of the array that is longer than the cutoff begins with an element
`x` that is not greater than the pivot `p`, and ends with `p` and an element `z` that is not less.
-/

namespace Mugglec

namespace Sorting

open StableSort Comparator

variable {α : Type} {cmp : α → α → ℤ} {x y z p : α} {pre mid low post : List α} {i j n : ℕ}

theorem load_at (h : i = pre.length) : load (pre ++ x :: post) i = .ok x := h ▸ load_mid

theorem load_second (hj : j = pre.length + 1 + mid.length) :
    load (pre ++ x :: (mid ++ y :: post)) j = .ok y := by
  rw [← List.cons_append, ← List.append_assoc]
  exact load_at (by simp; omega)

theorem swap_eq (hi : i = pre.length) (hj : j = pre.length + 1 + mid.length) :
    swap (pre ++ x :: (mid ++ y :: post)) i j = .ok (pre ++ y :: (mid ++ x :: post)) := by
  have hstore : store (pre ++ y :: (mid ++ y :: post)) j x =
      .ok (pre ++ y :: (mid ++ x :: post)) := by
    rw [hj, ← List.cons_append, ← List.append_assoc, add_assoc, add_comm 1, ← List.length_cons,
      ← List.length_append, store_mid]
    simp
  rw [swap, load_at hi, ok_bind, load_second hj, ok_bind, hi, store_mid, ok_bind, hstore]

theorem swap_self (hi : i = pre.length) : swap (pre ++ x :: post) i i = .ok (pre ++ x :: post) := by
  rw [swap, load_at hi, ok_bind, ok_bind, hi, store_mid, ok_bind, store_mid]

section Median

variable [Std.TransCmp (ordering cmp)]

variable (cmp) in
theorem order_spec (pre mid post : List α) (x y : α)
    (hi : i = pre.length) (hj : j = pre.length + 1 + mid.length) : ∃ x' y',
    order cmp (pre ++ x :: (mid ++ y :: post)) i j = .ok (pre ++ x' :: (mid ++ y' :: post)) ∧
    cmp x' y' ≤ 0 ∧ cmp x' x ≤ 0 ∧ cmp x' y ≤ 0 ∧ [x', y'].Perm [x, y] := by
  rw [order, load_at hi, ok_bind, load_second hj, ok_bind]
  by_cases hgt : cmp x y > 0
  · have hlt := (pos_iff.mp hgt).le
    refine ⟨y, x, ?_, hlt, hlt, Comparator.eq_self.le, List.Perm.swap x y []⟩
    rw [if_pos hgt, swap_eq hi hj]
  · exact ⟨x, y, if_neg hgt, not_lt.mp hgt, Comparator.eq_self.le, not_lt.mp hgt, List.Perm.refl _⟩

theorem exists_split_at {l : List α} {k : ℕ} (h : k < l.length) :
    ∃ l₁ x l₂, l = l₁ ++ x :: l₂ ∧ l₁.length = k :=
  ⟨l.take k, l[k], l.drop (k + 1), by simp, by rw [List.length_take]; omega⟩

variable (cmp) in
theorem median3_spec (pre seg post : List α)
    {right : ℕ} (hend : pre.length + seg.length = right + 1) (hseg : 4 ≤ seg.length)
    (hfits : 2 * right < 2 ^ 64) : ∃ x M p z,
    median3 cmp (pre ++ seg ++ post) pre.length right =
      .ok (p, pre ++ x :: (M ++ p :: z :: post)) ∧
    cmp x p ≤ 0 ∧ cmp p z ≤ 0 ∧ (x :: (M ++ [p, z])).Perm seg := by
  have hcenter : u64 (pre.length + right) / 2 = (pre.length + right) / 2 :=
    congrArg (· / 2) (Nat.mod_eq_of_lt (by omega))
  have hlast : usub right 1 = right - 1 := usub_one (by omega) (by omega)
  -- the three elements, and the last but one
  obtain ⟨_, x, r₁, rfl, hx⟩ := exists_split_at (l := seg) (k := 0) (by omega)
  obtain rfl := List.length_eq_zero_iff.mp hx
  simp only [List.nil_append, List.length_cons] at *
  obtain ⟨m₁, c, r₂, rfl, hm₁⟩ := exists_split_at (l := r₁)
    (k := (pre.length + right) / 2 - pre.length - 1) (by omega)
  simp only [List.length_append, List.length_cons] at *
  obtain ⟨m₂, w, r₃, rfl, hm₂⟩ := exists_split_at (l := r₂) (k := r₂.length - 2) (by omega)
  simp only [List.length_append, List.length_cons] at *
  obtain ⟨z, rfl⟩ := List.length_eq_one_iff.mp (show r₃.length = 1 by omega)
  simp only [List.length_singleton] at *
  obtain ⟨x₁, c₁, heq₁, hle₁, -, -, hperm₁⟩ := order_spec cmp pre m₁ (m₂ ++ w :: z :: post) x c
    (i := pre.length) (j := (pre.length + right) / 2) rfl (by omega)
  obtain ⟨x₂, z₁, heq₂, hle₂, hx₂, -, hperm₂⟩ := order_spec cmp pre (m₁ ++ c₁ :: (m₂ ++ [w])) post
    x₁ z (i := pre.length) (j := right) rfl (by simp; omega)
  obtain ⟨c₂, z₂, heq₃, hle₃, hc₂, hz₂, hperm₃⟩ := order_spec cmp (pre ++ x₂ :: m₁) (m₂ ++ [w]) post
    c₁ z₁ (i := (pre.length + right) / 2) (j := right) (by simp; omega) (by simp; omega)
  have heq₄ : swap (pre ++ x₂ :: m₁ ++ c₂ :: (m₂ ++ w :: (z₂ :: post))) ((pre.length + right) / 2)
      (right - 1) = .ok (pre ++ x₂ :: m₁ ++ w :: (m₂ ++ c₂ :: (z₂ :: post))) :=
    swap_eq (by simp; omega) (by simp; omega)
  have hload : load (pre ++ x₂ :: (m₁ ++ w :: m₂) ++ c₂ :: (z₂ :: post)) (right - 1) = .ok c₂ :=
    load_at (by simp; omega)
  refine ⟨x₂, m₁ ++ w :: m₂, c₂, z₂, ?_, ?_, hle₃, ?_⟩
  · rw [median3, hcenter, hlast]
    simp only [List.append_assoc, List.cons_append, List.nil_append] at *
    rw [heq₁, ok_bind, heq₂, ok_bind, heq₃, ok_bind, heq₄, ok_bind, hload, ok_bind]
    rfl
  · have hx₁ : cmp x₂ c₁ ≤ 0 := nonpos_trans hx₂ hle₁
    have hmem : c₂ = c₁ ∨ c₂ = z₁ := by simpa using hperm₃.mem_iff.mp (List.mem_cons_self ..)
    rcases hmem with rfl | rfl
    · exact hx₁
    · exact hle₂
  · classical
    rw [List.perm_iff_count] at hperm₁ hperm₂ hperm₃ ⊢
    intro a
    have h₁ := hperm₁ a
    have h₂ := hperm₂ a
    have h₃ := hperm₃ a
    simp only [List.count_cons, List.count_append, List.count_nil] at h₁ h₂ h₃ ⊢
    omega

end Median

theorem scanUp_eq (low M post : List α) (x : α) (hi : i + 1 = low.length)
    (hM : ∀ y ∈ M, cmp y p < 0) (hx : 0 ≤ cmp x p) (hn : M.length < n) :
    scanUp cmp p (low ++ (M ++ x :: post)) n i = .ok (low.length + M.length) := by
  induction M generalizing low i n with
  | nil =>
    obtain ⟨n, rfl⟩ := Nat.exists_eq_succ_of_ne_zero (Nat.ne_of_gt hn)
    rw [scanUp, List.nil_append, load_at hi, ok_bind, if_neg (not_lt.mpr hx), hi]
    rfl
  | cons y M ih =>
    obtain ⟨n, rfl⟩ := Nat.exists_eq_succ_of_ne_zero (Nat.ne_of_gt (Nat.zero_lt_of_lt hn))
    have hrec := ih (low ++ [y]) (i := i + 1) (n := n) (by simp [hi])
      (fun y hy => hM y (List.mem_cons_of_mem _ hy)) (by simpa using hn)
    rw [scanUp, List.cons_append, load_at hi, ok_bind, if_pos (hM y (List.mem_cons_self ..))]
    simpa [add_assoc, add_comm 1] using hrec

theorem scanDown_eq (low M post : List α) (x : α) (hj : j = low.length + 1 + M.length)
    (hlt : j < 2 ^ 64) (hM : ∀ y ∈ M, 0 < cmp y p) (hx : cmp x p ≤ 0) (hn : M.length < n) :
    scanDown cmp p (low ++ x :: (M ++ post)) n j = .ok low.length := by
  induction M using List.reverseRecOn generalizing j n post with
  | nil =>
    obtain ⟨n, rfl⟩ := Nat.exists_eq_succ_of_ne_zero (Nat.ne_of_gt hn)
    have hprev : usub j 1 = low.length := by
      rw [usub_one (by omega) hlt, hj]
      rfl
    rw [scanDown, load_at hprev, ok_bind, if_neg (not_lt.mpr hx), hprev]
    rfl
  | append_singleton M y ih =>
    obtain ⟨n, rfl⟩ := Nat.exists_eq_succ_of_ne_zero (Nat.ne_of_gt (Nat.zero_lt_of_lt hn))
    simp only [List.length_append, List.length_singleton] at hj hn
    have hprev : usub j 1 = low.length + 1 + M.length := by
      rw [usub_one (by omega) hlt]
      omega
    have hload : load (low ++ x :: M ++ y :: post) (usub j 1) = .ok y := load_at (by simp; omega)
    have hrec := ih (y :: post) hprev (by omega)
      (fun z hz => hM z (List.mem_append_left _ hz)) (n := n) (by omega)
    simp only [List.append_assoc, List.cons_append, List.nil_append] at hload hrec ⊢
    rw [scanDown, hload, ok_bind, if_pos (hM y (by simp)), hrec]

theorem split_first (P : α → Prop) [DecidablePred P] (M : List α) :
    (∀ y ∈ M, P y) ∨ ∃ M₁ x M₂, M = M₁ ++ x :: M₂ ∧ (∀ y ∈ M₁, P y) ∧ ¬ P x := by
  induction M with
  | nil => exact .inl (by simp)
  | cons a M ih =>
    by_cases ha : P a
    · rcases ih with hall | ⟨M₁, x, M₂, rfl, hM₁, hx⟩
      · exact .inl (by simpa [ha] using hall)
      · exact .inr ⟨a :: M₁, x, M₂, rfl, by simpa [ha] using hM₁, hx⟩
    · exact .inr ⟨[], a, M, rfl, by simp, ha⟩

theorem split_last (P : α → Prop) [DecidablePred P] (M : List α) :
    (∀ y ∈ M, P y) ∨ ∃ M₁ x M₂, M = M₁ ++ x :: M₂ ∧ (∀ y ∈ M₂, P y) ∧ ¬ P x := by
  rcases split_first P M.reverse with hall | ⟨M₁, x, M₂, hM, hM₁, hx⟩
  · exact .inl (by simpa using hall)
  · refine .inr ⟨M₂.reverse, x, M₁.reverse, ?_, by simpa using hM₁, hx⟩
    simpa using congrArg List.reverse hM

def StopsDown (cmp : α → α → ℤ) (p : α) (low : List α) : Prop := ∃ l x, low = l ++ [x] ∧ cmp x p ≤ 0

def StopsUp (cmp : α → α → ℤ) (p : α) (high : List α) : Prop :=
  ∃ x r, high = x :: r ∧ 0 ≤ cmp x p

variable {M high : List α}

theorem StopsDown.append (h : StopsDown cmp p low) (hM : ∀ y ∈ M, cmp y p ≤ 0) :
    StopsDown cmp p (low ++ M) := by
  induction M using List.reverseRecOn with
  | nil => simpa using h
  | append_singleton M y => exact ⟨low ++ M, y, by simp, hM y (by simp)⟩

theorem StopsDown.scanDown (h : StopsDown cmp p low) (hj : j = low.length + M.length)
    (hlt : j < 2 ^ 64) (hM : ∀ y ∈ M, 0 < cmp y p) (hn : M.length < n) :
    Sorting.scanDown cmp p (low ++ (M ++ high)) n j = .ok (low.length - 1) := by
  obtain ⟨l, x, rfl, hx⟩ := h
  have hscan := scanDown_eq l M high x (by simpa using hj) hlt hM hx hn
  simpa using hscan

theorem StopsUp.scanUp (h : StopsUp cmp p high) (hi : i + 1 = low.length)
    (hM : ∀ y ∈ M, cmp y p < 0) (hn : M.length < n) :
    Sorting.scanUp cmp p (low ++ (M ++ high)) n i = .ok (low.length + M.length) := by
  obtain ⟨x, r, rfl, hx⟩ := h
  exact scanUp_eq low M r x hi hM hx hn

theorem scans_spec (hlow : StopsDown cmp p low) (hhigh : StopsUp cmp p high)
    (hi : i + 1 = low.length) (hj : j = low.length + M.length) (hlt : j < 2 ^ 64)
    (hn : M.length < n) :
    ∃ A i' j', scanUp cmp p (low ++ (M ++ high)) n i = .ok i' ∧
      scanDown cmp p (low ++ (M ++ high)) n j = .ok j' ∧
      i' = low.length + A.length ∧ (∀ a ∈ A, cmp a p < 0) ∧
      ((∃ C, M = A ++ C ∧ (∀ c ∈ C, 0 ≤ cmp c p) ∧ i ≤ j' ∧ j' ≤ i') ∨
        ∃ x M' y C, M = A ++ x :: (M' ++ y :: C) ∧ 0 ≤ cmp x p ∧ cmp y p ≤ 0 ∧
          (∀ c ∈ C, 0 < cmp c p) ∧ j' = i' + 1 + M'.length) := by
  rcases split_first (fun y => cmp y p < 0) M with hM | ⟨A, x, M₂, rfl, hA, hx⟩
  · -- nothing stops the scan upwards before its end
    have hdown : scanDown cmp p (low ++ M ++ ([] ++ high)) n j = .ok ((low ++ M).length - 1) :=
      (hlow.append fun y hy => (hM y hy).le).scanDown (by simp [hj]) hlt (by simp)
        (Nat.zero_lt_of_lt hn)
    simp only [List.append_assoc, List.nil_append, List.length_append] at hdown
    exact ⟨M, _, _, hhigh.scanUp hi hM hn, hdown, rfl, hM,
      .inl ⟨[], by simp, by simp, by omega, by omega⟩⟩
  · have hlow' := hlow.append fun y hy => (hA y hy).le
    simp only [List.length_append, List.length_cons] at hj hn
    have hup := scanUp_eq low A (M₂ ++ high) x hi hA (not_lt.mp hx) (n := n) (by omega)
    rcases split_last (fun y => 0 < cmp y p) M₂ with hC | ⟨M', y, C, rfl, hC, hy⟩
    · -- the scan downwards passes `x` unless it compares equal
      have hdown : ∃ j', scanDown cmp p (low ++ (A ++ x :: M₂ ++ high)) n j = .ok j' ∧ i ≤ j' ∧
          j' ≤ low.length + A.length := by
        by_cases hgt : 0 < cmp x p
        · have hscan : scanDown cmp p (low ++ A ++ (x :: M₂ ++ high)) n j =
              .ok ((low ++ A).length - 1) :=
            hlow'.scanDown (by simp; omega) hlt (by simpa [hgt] using hC) (by simp; omega)
          simp only [List.append_assoc, List.cons_append, List.length_append] at hscan ⊢
          exact ⟨_, hscan, by omega, by omega⟩
        · have hscan := scanDown_eq (low ++ A) M₂ high x (n := n) (j := j) (by simp; omega) hlt hC
            (not_lt.mp hgt) (by omega)
          simp only [List.append_assoc, List.cons_append, List.length_append] at hscan ⊢
          exact ⟨_, hscan, by omega, le_refl _⟩
      obtain ⟨j', hdown, hge, hle⟩ := hdown
      simp only [List.append_assoc, List.cons_append] at hup hdown ⊢
      refine ⟨A, _, j', hup, hdown, rfl, hA, .inl ⟨x :: M₂, rfl, ?_, hge, hle⟩⟩
      simpa [not_lt.mp hx] using fun c hc => (hC c hc).le
    · have hdown := scanDown_eq (low ++ A ++ x :: M') C high y (n := n) (j := j)
        (by simp at hj ⊢; omega) hlt hC (not_lt.mp hy) (by simp at hn; omega)
      simp only [List.append_assoc, List.cons_append] at hup hdown ⊢
      refine ⟨A, _, _, hup, hdown, rfl, hA,
        .inr ⟨x, M', y, C, rfl, not_lt.mp hx, not_lt.mp hy, hC, ?_⟩⟩
      simp
      omega

def ScanStop.Between (left right i j : ℕ) (s : ScanStop) : Prop :=
  s.left = left ∧ s.right = right ∧ i ≤ s.i ∧ s.i ≤ j ∧ i ≤ s.j ∧ s.j ≤ j

theorem partition_spec (left right : ℕ) (low M high : List α) (hlow : StopsDown cmp p low)
    (hhigh : StopsUp cmp p high) (hi : i + 1 = low.length) (hj : j = low.length + M.length)
    (hlt : j < 2 ^ 64) (hn : M.length < n) : ∃ A C stops,
    partition cmp p left right n i j (low ++ (M ++ high)) =
      .ok (low.length + A.length, low ++ (A ++ (C ++ high)), stops) ∧
    (∀ a ∈ A, cmp a p ≤ 0) ∧ (∀ c ∈ C, 0 ≤ cmp c p) ∧ (A ++ C).Perm M ∧
    ∀ s ∈ stops, ScanStop.Between left right i j s := by
  induction n generalizing low M high i j with
  | zero => exact absurd hn (Nat.not_lt_zero _)
  | succ n ih =>
    have hbound : M.length < (low ++ (M ++ high)).length + 1 := by
      simp only [List.length_append]
      omega
    obtain ⟨A, i', j', hup, hdown, rfl, hA, hmeet⟩ := scans_spec hlow hhigh hi hj hlt hbound
    have hA' : ∀ a ∈ A, cmp a p ≤ 0 := fun a ha => (hA a ha).le
    rw [partition, hup, ok_bind, hdown, ok_bind]
    rcases hmeet with ⟨C, rfl, hC, hge, hle⟩ | ⟨x, M', y, C, rfl, hx, hy, hC, rfl⟩
    · refine ⟨A, C, [⟨left, right, low.length + A.length, j'⟩], ?_, hA', hC, List.Perm.refl _, ?_⟩
      · rw [if_neg (not_lt.mpr hle), List.append_assoc]
        rfl
      · simp only [List.length_append] at hj
        intro s hs
        obtain rfl := List.mem_singleton.mp hs
        refine ⟨rfl, rfl, ?_⟩
        dsimp only
        omega
    · -- `x` and `y` change places, and the loop goes on between them
      simp only [List.length_append, List.length_cons] at hj hn
      have hswap : swap (low ++ A ++ x :: (M' ++ y :: (C ++ high))) (low.length + A.length)
          (low.length + A.length + 1 + M'.length) =
          .ok (low ++ A ++ y :: (M' ++ x :: (C ++ high))) := swap_eq (by simp) (by simp)
      have hlow' : StopsDown cmp p (low ++ A ++ [y]) := ⟨low ++ A, y, rfl, hy⟩
      obtain ⟨A₁, C₁, stops, heq, hA₁, hC₁, hperm, hstops⟩ := ih (low ++ A ++ [y]) M'
        (x :: (C ++ high)) hlow' ⟨x, C ++ high, rfl, hx⟩
        (i := low.length + A.length) (j := low.length + A.length + 1 + M'.length)
        (by simp only [List.length_append, List.length_singleton])
        (by simp only [List.length_append, List.length_singleton]) (by omega) (by omega)
      refine ⟨A ++ y :: A₁, C₁ ++ x :: C, ⟨left, right, low.length + A.length,
        low.length + A.length + 1 + M'.length⟩ :: stops, ?_, ?_, ?_, ?_, ?_⟩
      · simp only [List.append_assoc, List.cons_append, List.nil_append] at hswap heq ⊢
        rw [if_pos (by omega), hswap, ok_bind, heq]
        simp only [List.length_append, List.length_cons, List.length_nil, ok_bind]
        rw [show low.length + (A.length + (A₁.length + 1)) =
          low.length + (A.length + (0 + 1)) + A₁.length by omega]
        rfl
      · intro a ha
        rcases List.mem_append.mp ha with ha | ha
        · exact hA' a ha
        · rcases List.mem_cons.mp ha with rfl | ha
          · exact hy
          · exact hA₁ a ha
      · intro c hc
        rcases List.mem_append.mp hc with hc | hc
        · exact hC₁ c hc
        · rcases List.mem_cons.mp hc with rfl | hc
          · exact hx
          · exact (hC c hc).le
      · classical
        rw [List.perm_iff_count] at hperm ⊢
        intro a
        have hcount := hperm a
        simp only [List.count_cons, List.count_append] at hcount ⊢
        omega
      · intro s hs
        rcases List.mem_cons.mp hs with rfl | hs
        · refine ⟨rfl, rfl, ?_⟩
          dsimp only
          omega
        · obtain ⟨hl, hr, hs⟩ := hstops s hs
          exact ⟨hl, hr, by omega⟩

theorem swap_pivot (low C post : List α) (p z : α) : ∃ D,
    swap (low ++ (C ++ p :: z :: post)) low.length (low.length + C.length) =
      .ok (low ++ p :: (D ++ post)) ∧ D.Perm (C ++ [z]) := by
  cases C with
  | nil => exact ⟨[z], swap_self rfl, List.Perm.refl _⟩
  | cons c C =>
    have hswap : swap (low ++ c :: (C ++ p :: (z :: post))) low.length
        (low.length + (C.length + 1)) = .ok (low ++ p :: (C ++ c :: (z :: post))) :=
      swap_eq rfl (by omega)
    refine ⟨C ++ [c, z], ?_, ?_⟩
    · simpa using hswap
    · exact List.perm_middle

def ScanStop.Inside (count : ℕ) (s : ScanStop) : Prop :=
  s.left ≤ s.i ∧ s.i ≤ s.right ∧ s.left ≤ s.j ∧ s.j ≤ s.right ∧ s.right < count

section Recursion

variable [Std.TransCmp (ordering cmp)]

theorem sorted_around {A D : List α} (hA : Sorted cmp A) (hD : Sorted cmp D)
    (hAp : ∀ a ∈ A, cmp a p ≤ 0) (hpD : ∀ d ∈ D, cmp p d ≤ 0) : Sorted cmp (A ++ p :: D) := by
  refine List.pairwise_append.mpr ⟨hA, List.pairwise_cons.mpr ⟨hpD, hD⟩, fun a ha d hd => ?_⟩
  rcases List.mem_cons.mp hd with rfl | hd
  · exact hAp a ha
  · exact nonpos_trans (hAp a ha) (hpD d hd)

variable (cmp) in
theorem split_spec {right : ℕ} (pre seg post : List α)
    (hend : pre.length + seg.length = right + 1) (hseg : 4 ≤ seg.length)
    (hfits : 2 * right < 2 ^ 64) : ∃ p ptr₁ ptr₂ A D stops,
    median3 cmp (pre ++ (seg ++ post)) pre.length right = .ok (p, ptr₁) ∧
    partition cmp p pre.length right (ptr₁.length + 1) pre.length (usub right 1) ptr₁ =
      .ok (pre.length + A.length, ptr₂, stops) ∧
    swap ptr₂ (pre.length + A.length) (usub right 1) = .ok (pre ++ (A ++ p :: (D ++ post))) ∧
    A ≠ [] ∧ D ≠ [] ∧ (∀ a ∈ A, cmp a p ≤ 0) ∧ (∀ d ∈ D, cmp p d ≤ 0) ∧
    (A ++ p :: D).Perm seg ∧
    ∀ s ∈ stops, ScanStop.Between pre.length right pre.length (right - 1) s := by
  have hlast : usub right 1 = right - 1 := usub_one (by omega) (by omega)
  obtain ⟨x, M, p, z, hmedian, hxp, hpz, hperm⟩ := median3_spec cmp pre seg post hend hseg hfits
  have hlen := hperm.length_eq
  simp only [List.length_cons, List.length_append, List.length_nil] at hlen
  obtain ⟨A, C, stops, hpartition, hA, hC, hperm', hstops⟩ := partition_spec pre.length right
    (i := pre.length) (j := right - 1) (n := (pre ++ x :: (M ++ p :: z :: post)).length + 1)
    (pre ++ [x]) M (p :: z :: post) ⟨pre, x, rfl, hxp⟩ ⟨p, z :: post, rfl, Comparator.eq_self.ge⟩
    (by simp) (by simp; omega) (by omega) (by simp; omega)
  obtain ⟨D, hswap, hD⟩ := swap_pivot (pre ++ x :: A) C post p z
  have hlen' := hperm'.length_eq
  rw [List.length_append] at hlen'
  have hplace : (pre ++ x :: A).length + C.length = right - 1 := by simp; omega
  rw [hplace] at hswap
  refine ⟨p, pre ++ x :: (M ++ p :: z :: post), pre ++ x :: (A ++ (C ++ p :: z :: post)), x :: A, D,
    stops, ?_, ?_, ?_, List.cons_ne_nil _ _, ?_, ?_, ?_, ?_, hstops⟩
  · rw [← List.append_assoc, hmedian]
  · simp only [List.append_assoc, List.singleton_append] at hpartition
    rw [hlast, hpartition]
    simp [add_assoc, add_comm 1]
  · simpa [hlast] using hswap
  · rintro rfl
    simpa using hD.length_eq
  · simpa [hxp] using hA
  · intro d hd
    rcases List.mem_append.mp (hD.mem_iff.mp hd) with hd | hd
    · exact nonpos_iff.mpr (hC d hd)
    · rwa [List.mem_singleton.mp hd]
  · have hparts : (A ++ p :: D).Perm (M ++ [p, z]) := calc
      (A ++ p :: D).Perm (A ++ p :: (C ++ [z])) := (hD.cons p).append_left A
      _ |>.Perm (A ++ (C ++ p :: [z])) := List.perm_middle.symm.append_left A
      _ = (A ++ C) ++ [p, z] := by simp
      _ |>.Perm (M ++ [p, z]) := hperm'.append_right _
    exact (hparts.cons x).trans hperm

variable (cmp) in
theorem quickSortRecursive_spec {depth right count : ℕ} (pre seg post : List α) (hne : seg ≠ [])
    (hend : pre.length + seg.length = right + 1) (hcount : (pre ++ (seg ++ post)).length = count)
    (hfits : 2 * count < 2 ^ 64) (hdepth : seg.length ≤ depth) : ∃ seg' stops,
    quickSortRecursive cmp depth pre.length right (pre ++ (seg ++ post)) =
      .ok (pre ++ (seg' ++ post), stops) ∧
    Sorted cmp seg' ∧ seg'.Perm seg ∧ ∀ s ∈ stops, ScanStop.Inside count s := by
  have hpos := List.length_pos_iff.mpr hne
  induction depth generalizing pre seg post right with
  | zero => omega
  | succ depth ih =>
    simp only [List.length_append] at hcount
    have hcutoff : u64 (pre.length + QUICK_SORT_CUTOFF) = pre.length + 10 :=
      Nat.mod_eq_of_lt (by rw [QUICK_SORT_CUTOFF]; omega)
    rw [quickSortRecursive, hcutoff]
    by_cases hle : pre.length + 10 ≤ right
    · obtain ⟨p, ptr₁, ptr₂, A, D, stops, hmedian, hpartition, hswap, hA, hD, hAp, hpD, hperm,
        hstops⟩ := split_spec cmp pre seg post hend (by omega) (by omega)
      have hlen := hperm.length_eq
      have hA' := List.length_pos_iff.mpr hA
      have hD' := List.length_pos_iff.mpr hD
      rw [List.length_append, List.length_cons] at hlen
      have hprev : usub (pre.length + A.length) 1 = pre.length + A.length - 1 :=
        usub_one (by omega) (by omega)
      obtain ⟨A₁, stops₁, heq₁, hsorted₁, hperm₁, hstops₁⟩ := ih pre A (p :: (D ++ post)) hA
        (show _ = pre.length + A.length - 1 + 1 by omega) (by simp; omega) (by omega) (by omega)
      obtain ⟨D₁, stops₂, heq₂, hsorted₂, hperm₂, hstops₂⟩ := ih (pre ++ A₁ ++ [p]) D post hD
        (show _ = right + 1 by simp [hperm₁.length_eq]; omega) (by simp [hperm₁.length_eq]; omega)
        (by omega) (by omega)
      refine ⟨A₁ ++ p :: D₁, stops ++ stops₁ ++ stops₂, ?_,
        sorted_around hsorted₁ hsorted₂ (fun a ha => hAp a (hperm₁.mem_iff.mp ha))
          (fun d hd => hpD d (hperm₂.mem_iff.mp hd)),
        (hperm₁.append (hperm₂.cons p)).trans hperm, ?_⟩
      · simp only [List.length_append, List.length_singleton, List.append_assoc,
          List.singleton_append, hperm₁.length_eq, ← add_assoc] at heq₂
        rw [if_pos hle, hmedian, ok_bind]
        dsimp only
        rw [hpartition, ok_bind]
        dsimp only
        rw [hswap, ok_bind, hprev, heq₁, ok_bind]
        dsimp only
        rw [heq₂, List.append_assoc]
        rfl
      · intro s hs
        rcases List.mem_append.mp hs with hs | hs
        · rcases List.mem_append.mp hs with hs | hs
          · obtain ⟨hl, hr, hs⟩ := hstops s hs
            exact ⟨by omega, by omega, by omega, by omega, by omega⟩
          · exact hstops₁ s hs
        · exact hstops₂ s hs
    · have hsize : usub (u64 (right + 1)) pre.length = seg.length := by
        simp only [usub, u64]
        omega
      refine ⟨insertAll cmp [] seg, [], ?_, sorted_insertAll List.Pairwise.nil seg,
        (stable_insertAll [] seg).perm, by simp⟩
      rw [if_neg hle, hsize, ← List.append_assoc, insertionSort_part, List.append_assoc]
      rfl

omit [Std.TransCmp (ordering cmp)] in
variable (cmp) in
theorem quickSort_eq (a : PtrArray α) (hne : a.elems ≠ []) (depth : ℕ) : ∃ right,
    a.elems.length = right + 1 ∧ quickSort cmp depth a.elems =
      quickSortRecursive cmp depth ([] : List α).length right ([] ++ (a.elems ++ [])) := by
  have hpos := List.length_pos_iff.mpr hne
  have hfits := a.fits
  refine ⟨a.elems.length - 1, by omega, ?_⟩
  rw [quickSort, usub_one hpos (by omega), List.append_nil]
  rfl

theorem quickSort_sorts (a : PtrArray α) (hne : a.elems ≠ []) {depth : ℕ}
    (hdepth : a.elems.length ≤ depth) : ∃ out stops,
    quickSort cmp depth a.elems = .ok (out, stops) ∧ Sorted cmp out ∧ out.Perm a.elems ∧
    ∀ s ∈ stops, ScanStop.Inside a.elems.length s := by
  have hfits := a.fits
  obtain ⟨right, hright, heq⟩ := quickSort_eq cmp a hne depth
  obtain ⟨out, stops, heq', hsorted, hperm, hstops⟩ := quickSortRecursive_spec cmp [] a.elems [] hne
    ((Nat.zero_add _).trans hright) rfl (by simp; omega) hdepth
  simp only [List.nil_append, List.append_nil] at heq' hstops
  exact ⟨out, stops, by simpa using heq.trans (by simpa using heq'), hsorted, hperm, hstops⟩

end Recursion

theorem quickSort_sorts_twelve : ∃ out stops,
    quickSort byHalf 12 [7, 6, 1, 9, 8, 0, 2, 3, 11, 10, 5, 4] = .ok (out, stops) ∧
    Sorted byHalf out ∧ out.Perm [7, 6, 1, 9, 8, 0, 2, 3, 11, 10, 5, 4] ∧
    ∀ s ∈ stops, ScanStop.Inside 12 s :=
  quickSort_sorts ⟨[7, 6, 1, 9, 8, 0, 2, 3, 11, 10, 5, 4], by decide⟩ (by decide) (by decide)

end Sorting

end Mugglec
