import Mathlib.Data.List.TakeWhile
import Mugglec.Os.PathStack

/-!
# Os/PathNorm — the place a normalised path names

Lexical resolution skips an empty component and a `.`, so that a `..` takes a name.  The stack of
`normpath` has such components on it.
-/

namespace Mugglec

open CBuffer CText

inductive Location
  | root (names : List (List Char))
  | relative (ups : ℕ) (names : List (List Char))
deriving DecidableEq

namespace Location

def up : Location → Location
  | root names => root names.tail
  | relative ups [] => relative (ups + 1) []
  | relative ups (_ :: names) => relative ups names

def down (c : List Char) : Location → Location
  | root names => root (c :: names)
  | relative ups names => relative ups (c :: names)

def enter (l : Location) (c : List Char) : Location :=
  if c = [] ∨ c = ['.'] then l else if c = dots then l.up else l.down c

def start (abs : Bool) : Location := if abs then root [] else relative 0 []

def absolute : Location → Bool
  | root _ => true
  | relative _ _ => false

def depth : Location → ℤ
  | root names => names.length
  | relative ups names => names.length - ups

def place (abs : Bool) (kept : List (List Char)) : Location :=
  kept.foldr (fun c l => l.enter c) (start abs)

variable {l : Location} {c : List Char} {kept : List (List Char)} {abs : Bool}

theorem absolute_enter (l : Location) (c : List Char) : (l.enter c).absolute = l.absolute := by
  rw [enter]
  split_ifs
  · rfl
  all_goals rcases l with _ | ⟨_, _ | _⟩ <;> rfl

theorem absolute_start (abs : Bool) : (start abs).absolute = abs := by cases abs <;> rfl

theorem absolute_place (kept : List (List Char)) : (place abs kept).absolute = abs := by
  induction kept with
  | nil => exact absolute_start abs
  | cons c kept ih => exact (absolute_enter ..).trans ih

theorem enter_of_not_named (hc : c ≠ dots) (h : named c = false) : l.enter c = l := by
  refine if_pos ?_
  simp only [named, hc, ne_eq, not_false_eq_true, and_true, decide_eq_false_iff_not] at h
  tauto

theorem enter_of_named (h : named c = true) : l.enter c = l.down c := by
  simp only [named, ne_eq, decide_eq_true_eq] at h
  rw [enter, if_neg (by tauto), if_neg h.2.2]

theorem enter_dots : l.enter dots = l.up := by
  rw [enter, if_neg (by decide), if_pos rfl]

theorem up_down : (l.down c).up = l := by cases l <;> rfl

theorem depth_down : (l.down c).depth = l.depth + 1 := by
  cases l <;> simp only [down, depth, List.length_cons] <;> omega

theorem depth_up (h : l.absolute = false) : l.up.depth = l.depth - 1 := by
  rcases l with _ | ⟨ups, _ | ⟨c, names⟩⟩
  · cases h
  all_goals
    simp only [up, depth, List.length_cons, List.length_nil]
    omega

theorem place_root (h : dots ∉ kept) : place true kept = root (kept.filter named) := by
  induction kept with
  | nil => rfl
  | cons c kept ih =>
    rw [List.mem_cons, not_or] at h
    have hplace : place true (c :: kept) = (place true kept).enter c := rfl
    cases hc : named c with
    | false => rw [hplace, enter_of_not_named (Ne.symm h.1) hc, ih h.2, List.filter_cons, hc]; rfl
    | true => rw [hplace, enter_of_named hc, ih h.2, List.filter_cons, hc]; rfl

end Location

def resolve (path : List Char) : Location :=
  (components path).foldl Location.enter (Location.start (path.head? = some '/'))

structure NormWalk where
  kept : List (List Char)
  spoiled : Bool

def NormWalk.step (abs : Bool) (w : NormWalk) (c : List Char) : Option NormWalk :=
  (act w.kept c).map fun
    | none => ⟨c :: w.kept, w.spoiled⟩
    | some below =>
      ⟨below, (w.spoiled || !named (w.kept.headD [])) && (!abs || below.any named)⟩

variable {kept below : List (List Char)} {c out : List Char} {abs : Bool}

def Follows (abs : Bool) (w : NormWalk) (l : Location) : Prop :=
  l.absolute = abs ∧
    if w.spoiled then l.depth < (Location.place abs w.kept).depth
    else l = Location.place abs w.kept

variable {w w' : NormWalk} {l : Location}

open Location

theorem Follows.push (h : Follows abs w l) (hc : c = dots → abs = false) :
    Follows abs ⟨c :: w.kept, w.spoiled⟩ (l.enter c) := by
  refine ⟨(absolute_enter ..).trans h.1, ?_⟩
  obtain ⟨habs, hl⟩ := h
  have hplace : place abs (c :: w.kept) = (place abs w.kept).enter c := rfl
  cases hs : w.spoiled with
  | false =>
    rw [hs] at hl
    exact congrArg (·.enter c) hl
  | true =>
    rw [hs] at hl
    change (l.enter c).depth < (place abs (c :: w.kept)).depth
    rw [hplace]
    replace hl : l.depth < (place abs w.kept).depth := hl
    by_cases hdots : c = dots
    · rw [hdots, enter_dots, enter_dots, depth_up (habs.trans (hc hdots)),
        depth_up ((absolute_place _).trans (hc hdots))]
      omega
    · cases hn : named c with
      | false => rwa [enter_of_not_named hdots hn, enter_of_not_named hdots hn]
      | true =>
        rw [enter_of_named hn, enter_of_named hn, depth_down, depth_down]
        omega

theorem Follows.pop_root {top : List Char} {spoiled : Bool} (hdots : dots ∉ top :: below)
    (h : Follows true ⟨top :: below, spoiled⟩ l) :
    Follows true ⟨below, (spoiled || !named top) && below.any named⟩ l.up := by
  obtain ⟨habs, hl⟩ := h
  rcases l with ns | _
  swap
  · cases habs
  have hany : below.any named = true ↔ below.filter named ≠ [] := by simp [List.filter_eq_nil_iff]
  refine ⟨rfl, ?_⟩
  rw [place_root hdots, List.filter_cons] at hl
  rw [place_root fun h => hdots (List.mem_cons_of_mem _ h)]
  generalize below.filter named = rest at hl hany ⊢
  simp only [up, depth, root.injEq, Int.ofNat_lt] at hl ⊢
  have hle : ns.length ≤ (if named top then top :: rest else rest).length := by
    split at hl
    · exact hl.le
    · rw [hl]
  rcases eq_or_ne rest [] with rfl | hrest
  · rw [Bool.eq_false_iff.mpr (mt hany.mp (not_not.mpr rfl)), Bool.and_false]
    have hone : ns.length ≤ 1 := hle.trans (by split <;> simp)
    exact List.eq_nil_of_length_eq_zero (by rw [List.length_tail]; omega)
  · rw [hany.mpr hrest, Bool.and_true]
    have hpos := List.length_pos_of_ne_nil hrest
    cases hn : named top with
    | false =>
      rw [hn] at hle
      replace hle : ns.length ≤ rest.length := hle
      simp only [Bool.not_false, Bool.or_true, if_true, List.length_tail]
      omega
    | true =>
      rw [hn] at hl
      cases spoiled with
      | false => exact congrArg List.tail hl
      | true =>
        replace hl : ns.length < rest.length + 1 := hl
        simp only [Bool.true_or, if_true, List.length_tail]
        omega

theorem Follows.pop_relative {top : List Char} {spoiled : Bool} (htop : top ≠ dots)
    (h : Follows false ⟨top :: below, spoiled⟩ l) :
    Follows false ⟨below, spoiled || !named top⟩ l.up := by
  obtain ⟨habs, hl⟩ := h
  refine ⟨enter_dots (l := l) ▸ (absolute_enter ..).trans habs, ?_⟩
  have hplace : place false (top :: below) = (place false below).enter top := rfl
  have hup := depth_up habs
  rw [hplace] at hl
  cases hn : named top with
  | false =>
    rw [enter_of_not_named htop hn] at hl
    have hle : l.depth ≤ (place false below).depth := by
      cases spoiled
      · exact (congrArg depth hl).le
      · exact le_of_lt hl
    simp only [Bool.not_false, Bool.or_true, if_true]
    omega
  | true =>
    rw [enter_of_named hn] at hl
    cases spoiled
    · exact (congrArg up hl).trans up_down
    · have hl : l.depth < ((place false below).down top).depth := hl
      rw [depth_down] at hl
      simp only [Bool.true_or, if_true]
      omega

theorem Follows.step (hkept : Stacked w.kept) (hroot : Rooted w.kept ↔ abs = true)
    (h : Follows abs w l) (hstep : w.step abs c = some w') : Follows abs w' (l.enter c) := by
  obtain ⟨a, hact, rfl⟩ := Option.map_eq_some_iff.mp hstep
  cases a with
  | none =>
    refine h.push fun hc => Bool.eq_false_iff.mpr fun habs => ?_
    have hnot := hkept.dots_notMem (hroot.mpr habs)
    rcases (act_eq_none hact).1 hc with h | ⟨below, h⟩
    · rw [Rooted, h] at hroot
      cases hroot.mpr habs
    · exact hnot (h ▸ List.mem_cons_self ..)
  | some below =>
    obtain ⟨rfl, top, htop, hne, -⟩ := act_eq_some hact
    obtain ⟨kept, spoiled⟩ := w
    cases htop
    rw [enter_dots]
    cases abs with
    | true => exact h.pop_root (hkept.dots_notMem (hroot.mpr rfl))
    | false =>
      have := h.pop_relative hne
      rwa [← Bool.and_true (_ || _)] at this

theorem NormWalk.exists_step (abs : Bool) {a : Option (List (List Char))}
    (hact : act w.kept c = some a) :
    ∃ w', w.step abs c = some w' ∧ w'.kept = a.getD (c :: w.kept) := by
  refine ⟨_, congrArg _ hact, ?_⟩
  cases a <;> rfl

namespace Stacked

variable (h : Stacked (c :: kept))
include h

end Stacked

end Mugglec
