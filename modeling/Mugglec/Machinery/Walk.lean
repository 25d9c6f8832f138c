import Mathlib.Tactic

/-!
# Machinery/Walk — walking along labelled edges

`child a l` is the node an edge labelled `l` leads to from `a`, if there is one.  A word `p` is
walked letter by letter, `p.foldlM child a`, and gets lost at the first letter without an edge.
-/

namespace Walk

variable {N L : Type*}

structure Forest (child : N → L → Option N) (root : N) : Prop where
  edge_unique : ∀ {a b c l m}, child a l = some c → child b m = some c → a = b ∧ l = m
  root_free : ∀ a l, child a l ≠ some root

variable {child child' : N → L → Option N} {root a b : N} {l : L} {p q : List L}

theorem walk_concat_eq_some :
    (p ++ [l]).foldlM child a = some b ↔ ∃ c, p.foldlM child a = some c ∧ child c l = some b := by
  rw [List.foldlM_append]
  cases p.foldlM child a <;> simp

theorem Forest.word_unique (h : Forest child root) (hp : p.foldlM child root = some a)
    (hq : q.foldlM child root = some a) : p = q := by
  induction p using List.reverseRecOn generalizing a q with
  | nil =>
    obtain rfl : root = a := by simpa using hp
    rcases q.eq_nil_or_concat' with rfl | ⟨q, l, rfl⟩
    · rfl
    · obtain ⟨b, -, hb⟩ := walk_concat_eq_some.mp hq
      exact absurd hb (h.root_free b l)
  | append_singleton p l ih =>
    obtain ⟨b, hb, hl⟩ := walk_concat_eq_some.mp hp
    rcases q.eq_nil_or_concat' with rfl | ⟨q, m, rfl⟩
    · obtain rfl : root = a := by simpa using hq
      exact absurd hl (h.root_free b l)
    · obtain ⟨c, hc, hm⟩ := walk_concat_eq_some.mp hq
      obtain ⟨rfl, rfl⟩ := h.edge_unique hl hm
      rw [ih hb hc]

structure Grows (child child' : N → L → Option N) (a : N) (l : L) (b : N) : Prop where
  missing : child a l = none
  edge : child' a l = some b
  others : ∀ c m, (c, m) ≠ (a, l) → child' c m = child c m
  unused : ∀ c m, child c m ≠ some b
  leaf : ∀ m, child b m = none

namespace Grows

variable (h : Grows child child' a l b)
include h

theorem keeps {c d : N} {m : L} (hd : child c m = some d) : child' c m = some d := by
  refine (h.others c m ?_).trans hd
  rintro heq
  obtain ⟨rfl, rfl⟩ := Prod.mk.inj heq
  exact absurd (hd.symm.trans h.missing) (by simp)

theorem cases {c d : N} {m : L} (hd : child' c m = some d) :
    child c m = some d ∨ (c = a ∧ m = l ∧ d = b) := by
  by_cases hcm : (c, m) = (a, l)
  · obtain ⟨rfl, rfl⟩ := Prod.mk.inj hcm
    exact .inr ⟨rfl, rfl, Option.some.inj (hd.symm.trans h.edge)⟩
  · exact .inl (h.others c m hcm ▸ hd)

theorem forest (hf : Forest child root) (hroot : b ≠ root) : Forest child' root where
  edge_unique hc hd := by
    rcases h.cases hc with hc | ⟨rfl, rfl, rfl⟩
    · rcases h.cases hd with hd | ⟨rfl, rfl, rfl⟩
      · exact hf.edge_unique hc hd
      · exact absurd hc (h.unused _ _)
    · rcases h.cases hd with hd | ⟨rfl, rfl, -⟩
      · exact absurd hd (h.unused _ _)
      · exact ⟨rfl, rfl⟩
  root_free c m hc := by
    rcases h.cases hc with hc | ⟨rfl, rfl, rfl⟩
    · exact hf.root_free c m hc
    · exact hroot rfl

theorem walk_keeps {s c : N} (hp : p.foldlM child s = some c) : p.foldlM child' s = some c := by
  induction p using List.reverseRecOn generalizing c with
  | nil => exact hp
  | append_singleton p m ih =>
    obtain ⟨d, hd, hm⟩ := walk_concat_eq_some.mp hp
    exact walk_concat_eq_some.mpr ⟨d, ih hd, h.keeps hm⟩

theorem walk_cases {s c : N} (hp : p.foldlM child' s = some c) :
    p.foldlM child s = some c ∨ c = b := by
  induction p using List.reverseRecOn generalizing c with
  | nil => exact .inl hp
  | append_singleton p m ih =>
    obtain ⟨d, hd, hm⟩ := walk_concat_eq_some.mp hp
    rcases h.cases hm with hm | ⟨-, -, rfl⟩
    · rcases ih hd with hd | rfl
      · exact .inl (walk_concat_eq_some.mpr ⟨d, hd, hm⟩)
      · exact absurd (hm.symm.trans (h.leaf m)) (by simp)
    · exact .inr rfl

end Grows

end Walk
