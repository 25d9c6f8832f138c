import Mugglec.Os.PathBuffer

/-!
# Os/PathStack — `normpath` is a stack of components

Between the separators `muggle_path_normpath` keeps a stack of components, in the buffer itself.  A
`..` takes the last one off, whatever it is, or is added where there is none or another `..`.
-/

namespace Mugglec

open CBuffer CText

def dots : List Char := ['.', '.']

def components (path : List Char) : List (List Char) := path.splitOn '/'

def named (c : List Char) : Bool := c ≠ [] ∧ c ≠ ['.'] ∧ c ≠ dots

def actDots : List (List Char) → Option (Option (List (List Char)))
  | [] => some none
  | top :: below =>
    if top = dots then some none else if top = [] ∧ below = [] then none else some (some below)

def act (kept : List (List Char)) (c : List Char) : Option (Option (List (List Char))) :=
  if c = dots then actDots kept else if dots <:+: c then none else some none

def Plain (c : List Char) : Prop := ∀ x ∈ c, x ≠ nul ∧ isSep x = false

def Stacked : List (List Char) → Prop
  | [] => True
  | c :: kept => (Plain c ∧ act kept c = some none) ∧ Stacked kept

def Rooted (kept : List (List Char)) : Prop := kept.getLast? = some []

variable {kept below : List (List Char)} {c u out : List Char} {abs : Bool}

theorem act_eq_none (h : act kept c = some none) :
    (c = dots → kept = [] ∨ ∃ below, kept = dots :: below) ∧ (c ≠ dots → ¬ dots <:+: c) := by
  rw [act] at h
  constructor
  · rintro rfl
    rw [if_pos rfl] at h
    rcases kept with _ | ⟨top, below⟩
    · exact Or.inl rfl
    · rw [actDots] at h
      split_ifs at h with htop
      · exact Or.inr ⟨below, by rw [htop]⟩
      · cases h
  · rintro hc hin
    rw [if_neg hc, if_pos hin] at h
    cases h

theorem act_eq_some (h : act kept c = some (some below)) :
    c = dots ∧ ∃ top, kept = top :: below ∧ top ≠ dots ∧ ¬ (top = [] ∧ below = []) := by
  rw [act] at h
  split_ifs at h with hc
  · rcases kept with _ | ⟨top, below⟩
    · cases h
    · rw [actDots] at h
      split_ifs at h with htop hroot
      · cases h
      · cases h
        exact ⟨hc, top, rfl, htop, hroot⟩
  · cases h

theorem Stacked.eq_dots (h : Stacked (dots :: kept)) : ∀ c ∈ kept, c = dots := by
  induction kept with
  | nil => simp
  | cons c kept ih =>
    obtain ⟨⟨-, hact⟩, hkept⟩ := h
    rcases (act_eq_none hact).1 rfl with h | ⟨below, h⟩
    · cases h
    · cases h
      simpa using ih hkept

theorem Stacked.dots_notMem (h : Stacked kept) (hroot : Rooted kept) : dots ∉ kept := by
  induction kept with
  | nil => simp
  | cons c kept ih =>
    rcases List.eq_nil_or_concat' kept with rfl | ⟨bs, b, hb⟩
    · rw [Rooted] at hroot
      cases hroot
      decide
    have hroot' : Rooted kept := by
      rwa [Rooted, hb, ← List.cons_append, List.getLast?_concat, ← List.getLast?_concat, ← hb]
        at hroot
    have hc : c ≠ dots := by
      rintro rfl
      have hb' : b = [] := by simpa [Rooted, hb] using hroot'
      have := h.eq_dots b (by simp [hb])
      rw [hb'] at this
      cases this
    simpa [hc.symm] using ih h.2 hroot'

end Mugglec
