import Mathlib.Tactic

/-!
# Machinery/FileStore — files by their names

A store maps a name to the content of the file, or to nothing where there is no file.  `rename` does
nothing if there is no file to rename, and takes the place of the file at the new name if there is
one.
-/

namespace FileStore

open Function

variable {P C : Type*} [DecidableEq P]

def rename (fs : P → Option C) (src dst : P) : P → Option C :=
  match fs src with
  | none => fs
  | some c => update (update fs src none) dst (some c)

def remove (fs : P → Option C) (p : P) : P → Option C := update fs p none

def shiftUp (slot : ℕ → P) : ℕ → (P → Option C) → P → Option C
  | 0, fs => fs
  | m + 1, fs => shiftUp slot m (rename fs (slot (m + 1)) (slot (m + 2)))

variable {fs : P → Option C} {src dst p : P}

theorem rename_dst (h : (fs src).isSome) : rename fs src dst dst = fs src := by
  obtain ⟨c, hc⟩ := Option.isSome_iff_exists.mp h
  rw [rename, hc]
  exact update_self ..

theorem rename_src (hne : src ≠ dst) : rename fs src dst src = none := by
  cases hc : fs src with
  | none => rw [rename, hc]; exact hc
  | some c =>
    rw [rename, hc]
    exact (update_of_ne hne ..).trans (update_self ..)

theorem rename_of_ne (hsrc : p ≠ src) (hdst : p ≠ dst) : rename fs src dst p = fs p := by
  cases hc : fs src with
  | none => rw [rename, hc]
  | some c =>
    rw [rename, hc]
    exact (update_of_ne hdst ..).trans (update_of_ne hsrc ..)

theorem isSome_of_rename (h : (rename fs src dst p).isSome) : (fs p).isSome ∨ p = dst := by
  by_cases hdst : p = dst
  · exact .inr hdst
  · left
    cases hc : fs src with
    | none => rwa [rename, hc] at h
    | some c =>
      rw [rename, hc] at h
      simp only [update_of_ne hdst] at h
      by_cases hsrc : p = src
      · simp [hsrc] at h
      · rwa [update_of_ne hsrc] at h

theorem isSome_of_remove (h : (remove fs src p).isSome) : (fs p).isSome := by
  by_cases hp : p = src
  · simp [remove, hp] at h
  · rwa [remove, update_of_ne hp] at h

section Shift

variable {slot : ℕ → P} {m : ℕ}

theorem shiftUp_of_ne (hp : ∀ i, 1 ≤ i → i ≤ m + 1 → p ≠ slot i) :
    shiftUp slot m fs p = fs p := by
  induction m generalizing fs with
  | zero => rfl
  | succ m ih =>
    rw [shiftUp, ih fun i h1 hi => hp i h1 (by omega)]
    exact rename_of_ne (hp _ (by omega) (by omega)) (hp _ (by omega) (by omega))

theorem isSome_of_shiftUp (h : (shiftUp slot m fs p).isSome) :
    (fs p).isSome ∨ ∃ i, 1 ≤ i ∧ i ≤ m + 1 ∧ p = slot i := by
  induction m generalizing fs with
  | zero => exact .inl h
  | succ m ih =>
    rcases ih h with h | ⟨i, h1, hi, hp⟩
    · rcases isSome_of_rename h with h | hp
      · exact .inl h
      · exact .inr ⟨m + 2, by omega, le_rfl, hp⟩
    · exact .inr ⟨i, h1, by omega, hp⟩

theorem shiftUp_slot (hinj : ∀ i j, 1 ≤ i → i < j → j ≤ m + 1 → slot i ≠ slot j)
    {i : ℕ} (htop : i < m ∨ fs (slot (m + 1)) = none ∨ (fs (slot m)).isSome) (h1 : 1 ≤ i)
    (hi : i ≤ m) :
    shiftUp slot m fs (slot (i + 1)) = fs (slot i) := by
  induction m generalizing fs with
  | zero => omega
  | succ m ih =>
    have hne : slot (m + 1) ≠ slot (m + 2) := hinj _ _ (by omega) (by omega) le_rfl
    have hfree : rename fs (slot (m + 1)) (slot (m + 2)) (slot (m + 1)) = none := rename_src hne
    rw [shiftUp]
    rcases hi.lt_or_eq with hi | rfl
    · rw [ih (fun i j hi hj hle => hinj i j hi hj (by omega)) (.inr (.inl hfree)) (by omega)]
      exact rename_of_ne (hinj _ _ h1 (by omega) (by omega)) (hinj _ _ h1 (by omega) (by omega))
    · -- the uppermost file is out of the way of the later renames
      rw [shiftUp_of_ne fun j hj hle => (hinj _ _ hj (by omega) le_rfl).symm]
      cases hsrc : fs (slot (m + 1)) with
      | some c => rw [rename_dst (by rw [hsrc]; rfl), hsrc]
      | none =>
        rw [rename, hsrc]
        exact (htop.resolve_left (lt_irrefl _)).resolve_right (by rw [hsrc]; simp)

end Shift

end FileStore
