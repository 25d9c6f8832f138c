import Mugglec.Machinery.LinkedList

/-!
# Machinery/SentinelList — doubly linked lists between two sentinels

A list whose first and last cells are there for good, so that every cell in between has neighbours
on both sides.
-/

namespace LinkedList

open Function

variable {P : Type*} {next prev next' prev' : P → Option P} {hd tl c : P} {l l₁ l₂ : List P}

def before (hd : P) (l₁ : List P) : P := l₁.getLastD hd

def after (l₂ : List P) (tl : P) : P := l₂.headD tl

@[simp] theorem before_nil : before hd [] = hd := rfl

@[simp] theorem before_concat : before hd (l₁ ++ [c]) = c := by simp [before]

@[simp] theorem after_nil : after [] tl = tl := rfl

@[simp] theorem after_cons : after (c :: l₂) tl = c := rfl

theorem before_mem (hd tl : P) (l₁ l₂ : List P) : before hd l₁ ∈ hd :: (l₁ ++ l₂) ++ [tl] := by
  rcases l₁.eq_nil_or_concat' with rfl | ⟨l₁, c, rfl⟩ <;> simp

theorem after_mem (hd tl : P) (l₁ l₂ : List P) : after l₂ tl ∈ hd :: (l₁ ++ l₂) ++ [tl] := by
  cases l₂ <;> simp

theorem exists_around (hd tl : P) (l₁ l₂ : List P) : ∃ xs ys,
    hd :: l₁ = xs ++ [before hd l₁] ∧ l₂ ++ [tl] = after l₂ tl :: ys := by
  obtain ⟨xs, hxs⟩ : ∃ xs, hd :: l₁ = xs ++ [before hd l₁] := by
    rcases l₁.eq_nil_or_concat' with rfl | ⟨l₁, c, rfl⟩
    · exact ⟨[], rfl⟩
    · exact ⟨hd :: l₁, by simp⟩
  obtain ⟨ys, hys⟩ : ∃ ys, l₂ ++ [tl] = after l₂ tl :: ys := by
    cases l₂ with
    | nil => exact ⟨[], rfl⟩
    | cons c l₂ => exact ⟨l₂ ++ [tl], rfl⟩
  exact ⟨xs, ys, hxs, hys⟩

structure IsBetween (next prev : P → Option P) (hd tl : P) (l : List P) : Prop where
  path : IsPath next prev (hd :: l ++ [tl])
  nodup : (hd :: l ++ [tl]).Nodup

theorem exists_split_at (hd tl : P) (l₁ l₂ : List P) : ∃ xs ys,
    hd :: (l₁ ++ l₂) ++ [tl] = xs ++ before hd l₁ :: after l₂ tl :: ys ∧
      ∀ c, hd :: (l₁ ++ c :: l₂) ++ [tl] = xs ++ before hd l₁ :: c :: after l₂ tl :: ys := by
  obtain ⟨xs, ys, hxs, hys⟩ := exists_around hd tl l₁ l₂
  refine ⟨xs, ys, ?_, fun c => ?_⟩
  · rw [← List.cons_append, List.append_assoc, hxs, hys, List.append_assoc, List.singleton_append]
  · rw [← List.cons_append, List.append_assoc, hxs, List.cons_append, hys, List.append_assoc,
      List.singleton_append]

namespace IsBetween

theorem congr (h : IsBetween next prev hd tl l) (hn : ∀ x ∈ hd :: l ++ [tl], next' x = next x)
    (hp : ∀ x ∈ hd :: l ++ [tl], prev' x = prev x) : IsBetween next' prev' hd tl l :=
  ⟨h.path.congr hn hp, h.nodup⟩

theorem joined (h : IsBetween next prev hd tl (l₁ ++ l₂)) :
    Joined next prev (before hd l₁) (after l₂ tl) := by
  obtain ⟨xs, ys, hsplit, -⟩ := exists_split_at hd tl l₁ l₂
  have hpath := h.path
  rw [hsplit] at hpath
  exact (isPath_append_cons_cons.mp hpath).2.1

theorem next_head (h : IsBetween next prev hd tl l) : next hd = some (after l tl) :=
  (show IsBetween next prev hd tl ([] ++ l) from h).joined.1

theorem prev_tail (h : IsBetween next prev hd tl l) : prev tl = some (before hd l) := by
  rw [← List.append_nil l] at h
  exact h.joined.2

theorem next_eq (h : IsBetween next prev hd tl (l₁ ++ c :: l₂)) :
    next c = some (after l₂ tl) := by
  rw [List.append_cons] at h
  have hjoined := h.joined.1
  rwa [before_concat] at hjoined

theorem prev_eq (h : IsBetween next prev hd tl (l₁ ++ c :: l₂)) :
    prev c = some (before hd l₁) := h.joined.2

theorem notMem (h : IsBetween next prev hd tl (l₁ ++ c :: l₂)) : c ∉ hd :: (l₁ ++ l₂) ++ [tl] := by
  obtain ⟨xs, ys, hsplit, hold⟩ := exists_split_at hd tl l₁ l₂
  have hnodup := h.nodup
  rw [hold, List.append_cons, List.nodup_middle, List.append_assoc, List.singleton_append,
    List.nodup_cons] at hnodup
  rw [hsplit]
  exact hnodup.1

variable [DecidableEq P]

theorem insert (h : IsBetween next prev hd tl (l₁ ++ l₂)) (hc : c ∉ hd :: (l₁ ++ l₂) ++ [tl]) :
    IsBetween
      (Function.update (Function.update next c (some (after l₂ tl))) (before hd l₁) (some c))
      (Function.update (Function.update prev c (some (before hd l₁))) (after l₂ tl) (some c))
      hd tl (l₁ ++ c :: l₂) := by
  obtain ⟨xs, ys, hsplit, hnew⟩ := exists_split_at hd tl l₁ l₂
  have hpath := h.path
  have hnodup := h.nodup
  rw [hsplit] at hpath hnodup hc
  have hnodup' : (xs ++ before hd l₁ :: c :: after l₂ tl :: ys).Nodup := by
    rw [List.append_cons, List.nodup_middle, List.append_assoc, List.singleton_append]
    exact List.nodup_cons.mpr ⟨hc, hnodup⟩
  constructor
  · rw [hnew]
    exact hpath.insert hnodup'
  · rw [hnew]
    exact hnodup'

theorem unlink (h : IsBetween next prev hd tl (l₁ ++ c :: l₂)) :
    IsBetween (Function.update next (before hd l₁) (some (after l₂ tl)))
      (Function.update prev (after l₂ tl) (some (before hd l₁))) hd tl (l₁ ++ l₂) := by
  obtain ⟨xs, ys, hsplit, hold⟩ := exists_split_at hd tl l₁ l₂
  have hpath := h.path
  have hnodup := h.nodup
  rw [hold] at hpath hnodup
  constructor
  · rw [hsplit]
    exact hpath.unlink hnodup
  · rw [hsplit]
    exact hnodup.sublist (List.Sublist.append_left (by simp) xs)

end IsBetween

variable {ι : Type*} {S : Set ι} {hds tls : ι → P} {ls : ι → List P} {i j : ι}

structure AreBetween (S : Set ι) (next prev : P → Option P) (hds tls : ι → P) (ls : ι → List P) :
    Prop where
  each : ∀ i ∈ S, IsBetween next prev (hds i) (tls i) (ls i)
  disjoint : ∀ i ∈ S, ∀ j ∈ S, ∀ x ∈ hds i :: ls i ++ [tls i], x ∈ hds j :: ls j ++ [tls j] → i = j

namespace AreBetween

variable [DecidableEq ι]

theorem update (h : AreBetween S next prev hds tls ls) (hi : i ∈ S)
    (hlist : IsBetween next' prev' (hds i) (tls i) l)
    (hcells : ∀ x ∈ hds i :: l ++ [tls i], x ∈ hds i :: ls i ++ [tls i] ∨
      ∀ j ∈ S, x ∉ hds j :: ls j ++ [tls j])
    (hframe : ∀ j ∈ S, j ≠ i → ∀ x ∈ hds j :: ls j ++ [tls j],
      next' x = next x ∧ prev' x = prev x) :
    AreBetween S next' prev' hds tls (Function.update ls i l) := by
  have hother : ∀ j ∈ S, j ≠ i → ∀ x ∈ hds j :: ls j ++ [tls j], x ∉ hds i :: l ++ [tls i] := by
    intro j hj hne x hx hmem
    rcases hcells x hmem with hold | hnew
    · exact hne (h.disjoint j hj i hi x hx hold)
    · exact hnew j hj hx
  constructor
  · intro j hj
    by_cases hne : j = i
    · subst hne
      rwa [update_self]
    · rw [update_of_ne hne]
      exact (h.each j hj).congr (fun x hx => (hframe j hj hne x hx).1)
        fun x hx => (hframe j hj hne x hx).2
  · intro j hj k hk x hxj hxk
    by_cases hji : j = i <;> by_cases hki : k = i
    · exact hji.trans hki.symm
    · subst hji
      rw [update_self] at hxj
      rw [update_of_ne hki] at hxk
      exact absurd hxj (hother k hk hki x hxk)
    · subst hki
      rw [update_self] at hxk
      rw [update_of_ne hji] at hxj
      exact absurd hxk (hother j hj hji x hxj)
    · rw [update_of_ne hji] at hxj
      rw [update_of_ne hki] at hxk
      exact h.disjoint j hj k hk x hxj hxk

variable [DecidableEq P]

omit [DecidableEq ι] in
theorem update_frame (h : AreBetween S next prev hds tls ls) (hi : i ∈ S) (hj : j ∈ S)
    (hne : j ≠ i) {x y : P} (hx : x ∈ hds i :: ls i ++ [tls i])
    (hy : y ∈ hds j :: ls j ++ [tls j]) (f : P → Option P) (v : Option P) :
    Function.update f x v y = f y := by
  have hxy : y ≠ x := by
    rintro rfl
    exact hne (h.disjoint j hj i hi y hy hx)
  exact update_of_ne hxy v f

theorem insert (h : AreBetween S next prev hds tls ls) (hi : i ∈ S) (hl : ls i = l₁ ++ l₂)
    (hc : ∀ j ∈ S, c ∉ hds j :: ls j ++ [tls j]) :
    AreBetween S
      (Function.update (Function.update next c (some (after l₂ (tls i)))) (before (hds i) l₁)
        (some c))
      (Function.update (Function.update prev c (some (before (hds i) l₁))) (after l₂ (tls i))
        (some c))
      hds tls (Function.update ls i (l₁ ++ c :: l₂)) := by
  have hlist := h.each i hi
  have hci := hc i hi
  have hbefore := before_mem (hds i) (tls i) l₁ l₂
  have hafter := after_mem (hds i) (tls i) l₁ l₂
  rw [← hl] at hbefore hafter
  rw [hl] at hlist hci
  refine h.update hi (hlist.insert hci) (fun x hx => ?_) fun j hj hne x hx => ?_
  · rw [hl]
    by_cases hxc : x = c
    · exact .inr (hxc ▸ hc)
    · refine .inl ?_
      simp only [List.cons_append, List.append_assoc, List.mem_cons, List.mem_append] at hx ⊢
      tauto
  · have hxc : x ≠ c := by
      rintro rfl
      exact hc j hj hx
    rw [h.update_frame hi hj hne hbefore hx, h.update_frame hi hj hne hafter hx]
    exact ⟨update_of_ne hxc _ _, update_of_ne hxc _ _⟩

theorem unlink (h : AreBetween S next prev hds tls ls) (hi : i ∈ S) (hl : ls i = l₁ ++ c :: l₂) :
    AreBetween S (Function.update next (before (hds i) l₁) (some (after l₂ (tls i))))
      (Function.update prev (after l₂ (tls i)) (some (before (hds i) l₁))) hds tls
      (Function.update ls i (l₁ ++ l₂)) := by
  have hlist := h.each i hi
  rw [hl] at hlist
  have hsub : ∀ x ∈ hds i :: (l₁ ++ l₂) ++ [tls i], x ∈ hds i :: ls i ++ [tls i] := by
    intro x hx
    rw [hl]
    simp only [List.cons_append, List.append_assoc, List.mem_cons, List.mem_append] at hx ⊢
    tauto
  have hbefore := hsub _ (before_mem (hds i) (tls i) l₁ l₂)
  have hafter := hsub _ (after_mem (hds i) (tls i) l₁ l₂)
  refine h.update hi hlist.unlink (fun x hx => .inl (hsub x hx)) fun j hj hne x hx => ?_
  exact ⟨h.update_frame hi hj hne hbefore hx _ _, h.update_frame hi hj hne hafter hx _ _⟩

end AreBetween

end LinkedList
