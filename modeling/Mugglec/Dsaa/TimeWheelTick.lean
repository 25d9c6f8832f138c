import Mugglec.Dsaa.TimeWheelSlots

/-!
# Dsaa/TimeWheelTick — a tick whose callback edits the wheel

A callback that gets a node may leave it, remove it, or remove it and insert it again, as a
refreshed timeout does.  The walk goes on by the node's link to the next, read after the call.
-/

namespace Mugglec

open Function LinkedList

inductive WheelAct where
  | leave
  | remove
  | refresh
deriving DecidableEq

namespace TimeWheel

variable {A : Type} [DecidableEq A]

def act (W : TimeWheel A) (a : A) : WheelAct → Option (TimeWheel A)
  | .leave => some W
  | .remove => W.remove a
  | .refresh => (W.remove a).bind (·.insert a)

def acting (f : List A → WheelAct) : Callback A := fun calls a W => W.act a (f (calls ++ [a]))

def Visits (W : TimeWheel A) (f : List A → WheelAct) (l : List A) : Prop :=
  ∃ rounds W' calls, W.tick (acting f) rounds = .ok (W', calls) ∧ calls.Perm l

def Sound (f : List A → WheelAct) (l : List A) (idx target k : ℕ) : Prop :=
  f (l.take (k + 1)) = .refresh →
    target = idx ∧ ∀ j < k, f (l.take (j + 1)) = .remove

instance (f : List A → WheelAct) (l : List A) (idx target k : ℕ) :
    Decidable (Sound f l idx target k) := inferInstanceAs (Decidable (_ → _))

variable {W W' : TimeWheel A} {cb : Callback A} {slots : ℕ → List A} {f : List A → WheelAct}
  {l visited kept rest : List A} {idx target rounds i : ℕ} {a b : A}

theorem walk_rule {P : TimeWheel A → List A → Prop}
    (hcall : ∀ W calls a W', cb calls a W = some W' → P W calls → P W' (calls ++ [a]))
    {p : Option (WheelPtr A)} {calls calls' : List A}
    (h : walk cb idx rounds p W calls = .ok (W', calls')) (hP : P W calls) : P W' calls' := by
  induction rounds generalizing p W calls with
  | zero => exact absurd h (by simp [walk])
  | succ rounds ih =>
    rcases p with _ | i | i | a
    · exact absurd h (by simp [walk])
    · exact absurd h (by simp [walk])
    · rw [walk] at h
      split_ifs at h
      · cases h
        exact hP
      · simp
    · rw [walk] at h
      cases hcb : cb calls a W with
      | none =>
        rw [hcb] at h
        cases h
      | some W₁ =>
        rw [hcb] at h
        exact ih h (hcall W calls a W₁ hcb hP)

theorem prefix_of_walk_node {calls calls' : List A}
    (h : walk cb idx rounds (some (.node b)) W calls = .ok (W', calls')) :
    calls ++ [b] <+: calls' := by
  cases rounds with
  | zero => exact absurd h (by simp [walk])
  | succ rounds =>
    rw [walk] at h
    cases hcb : cb calls b W with
    | none =>
      rw [hcb] at h
      cases h
    | some W₁ =>
      rw [hcb] at h
      exact walk_rule (P := fun _ calls' => calls ++ [b] <+: calls')
        (fun _ _ _ _ _ hpre => hpre.trans (List.prefix_append ..)) h (List.prefix_refl _)

theorem exists_walk_node {W₁ : TimeWheel A} {calls : List A} {p : Option (WheelPtr A)}
    (hcb : cb calls a W = some W₁) (hp : nextOf W₁.heap (.node a) = p) :
    (∃ rounds W' calls', walk cb idx rounds (some (.node a)) W calls = .ok (W', calls') ∧
      calls'.Perm l) ↔
    ∃ rounds W' calls', walk cb idx rounds p W₁ (calls ++ [a]) = .ok (W', calls') ∧
      calls'.Perm l := by
  have hround : ∀ rounds, walk cb idx (rounds + 1) (some (.node a)) W calls =
      walk cb idx rounds p W₁ (calls ++ [a]) := by
    intro rounds
    rw [walk, if_neg (by simp), ← hp]
    simp only [hcb]
  constructor
  · rintro ⟨_ | rounds, W', calls', hwalk, hperm⟩
    · exact absurd hwalk (by simp [walk])
    · exact ⟨rounds, W', calls', hround rounds ▸ hwalk, hperm⟩
  · rintro ⟨rounds, W', calls', hwalk, hperm⟩
    exact ⟨rounds + 1, W', calls', (hround rounds).trans hwalk, hperm⟩

structure Midway (f : List A → WheelAct) (slots : ℕ → List A) (l : List A) (idx target : ℕ)
    (visited kept rest : List A) (W : TimeWheel A) : Prop where
  list : visited ++ rest = l
  holds : W.Holds (Function.update slots idx (kept ++ rest))
  sub : kept ⊆ visited
  kept_nil : kept = [] ↔ ∀ j < visited.length, f (l.take (j + 1)) = .remove
  target : kept = [] → W.insertIdx.1 = target

namespace Midway

variable (h : Midway f slots l idx target visited kept (a :: rest) W)
include h

omit [DecidableEq A] in
theorem take_eq : l.take (visited.length + 1) = visited ++ [a] := by
  rw [← h.list, List.append_cons, List.take_left' (by simp)]

omit [DecidableEq A] in
theorem step {kept' : List A} {W' : TimeWheel A}
    (holds : W'.Holds (Function.update slots idx (kept' ++ rest)))
    (hsub : kept' ⊆ visited ++ [a])
    (hnil : kept' = [] ↔ kept = [] ∧ f (visited ++ [a]) = .remove)
    (htarget : kept' = [] → W'.insertIdx.1 = target) :
    Midway f slots l idx target (visited ++ [a]) kept' rest W' := by
  refine ⟨(List.append_cons ..).symm.trans h.list, holds, hsub, ?_, htarget⟩
  rw [hnil, h.kept_nil, List.length_append, ← h.take_eq]
  constructor
  · rintro ⟨hall, hlast⟩ j hj
    rcases Nat.lt_succ_iff_lt_or_eq.mp hj with hlt | rfl
    · exact hall j hlt
    · exact hlast
  · exact fun hall => ⟨fun j hj => hall j (Nat.lt_succ_of_lt hj), hall _ (Nat.lt_succ_self _)⟩

omit [DecidableEq A] in
theorem sound_of_ne (hact : f (visited ++ [a]) ≠ .refresh) :
    Sound f l idx target visited.length := fun heq => absurd (h.take_eq ▸ heq) hact

omit [DecidableEq A] in
theorem refresh_sound_iff (hact : f (visited ++ [a]) = .refresh) :
    Sound f l idx target visited.length ↔ target = idx ∧ kept = [] := by
  rw [Sound, h.take_eq, h.kept_nil]
  exact ⟨fun himp => himp hact, fun hand _ => hand⟩

theorem leave (hidx : idx < W.n) (hact : f (visited ++ [a]) = .leave) : ∃ W',
    acting f visited a W = some W' ∧ W'.n = W.n ∧
      nextOf W'.heap (.node a) = some (after (rest.map .node) (.tail idx)) ∧
      Midway f slots l idx target (visited ++ [a]) (kept ++ [a]) rest W' := by
  have hnext := h.holds.next_node hidx (update_self ..)
  refine ⟨W, by rw [acting, hact]; rfl, rfl, hnext, h.step ?_ ?_ ?_ ?_⟩
  · rw [← List.append_cons]
    exact h.holds
  · exact List.append_subset.mpr ⟨List.subset_append_of_subset_left _ h.sub,
      List.subset_append_right _ _⟩
  · rw [hact]
    simp
  · simp

theorem remove (hidx : idx < W.n) (hact : f (visited ++ [a]) = .remove) : ∃ W',
    acting f visited a W = some W' ∧ W'.n = W.n ∧
      nextOf W'.heap (.node a) = some (after (rest.map .node) (.tail idx)) ∧
      Midway f slots l idx target (visited ++ [a]) kept rest W' := by
  obtain ⟨heap, hcall, hholds, hnext⟩ := h.holds.remove hidx (update_self ..)
  rw [update_idem] at hholds
  refine ⟨{ W with heap := heap }, by rw [acting, hact]; exact hcall, rfl, hnext,
    h.step hholds ?_ ?_ fun hnil => ?_⟩
  · exact List.subset_append_of_subset_left _ h.sub
  · rw [hact]
    simp
  · rw [insertIdx_of_heap]
    exact h.target hnil

theorem refresh (hidx : idx < W.n) (hact : f (visited ++ [a]) = .refresh) :
    ∃ W' first, acting f visited a W = some W' ∧ W'.n = W.n ∧
      first = Function.update slots idx (kept ++ rest) W.insertIdx.1 ∧
      nextOf W'.heap (.node a) = some (after (first.map .node) (.tail W.insertIdx.1)) ∧
      W'.Holds (Function.update (Function.update slots idx (kept ++ rest)) W.insertIdx.1
        (a :: first)) := by
  obtain ⟨heap, hcall, hholds, -⟩ := h.holds.remove hidx (update_self ..)
  rw [update_idem] at hholds
  set W₁ : TimeWheel A := { W with heap := heap }
  have hslot : W₁.insertIdx.1 = W.insertIdx.1 := insertIdx_of_heap W heap
  have hn : W₁.insertIdx.2.n = W.n := (insertIdx_snd W₁).2.1
  -- the node is in no slot now
  have hnew : ∀ j < W₁.n, a ∉ Function.update slots idx (kept ++ rest) j := by
    intro j hj hmem
    by_cases hji : j = idx
    · subst hji
      have hnodup := h.holds.nodup hidx
      rw [update_self, List.nodup_middle, List.nodup_cons] at hnodup
      rw [update_self] at hmem
      exact hnodup.1 hmem
    · rw [update_of_ne hji] at hmem
      refine hji (h.holds.eq_of_mem hj hidx (a := a) ?_ ?_)
      · rwa [update_of_ne hji]
      · simp
  obtain ⟨heap', hcall', hholds', hnext'⟩ := hholds.insert hnew
  rw [hslot] at hnext' hholds'
  refine ⟨{ W₁.insertIdx.2 with heap := heap' }, _, ?_, hn, rfl, hnext', hholds'⟩
  rw [acting, hact, act, hcall]
  exact hcall'

end Midway

theorem not_perm_of_wrong_turn (h : W.Holds slots) (hidx : idx < W.n) (hl : slots idx = l)
    {turn : List A} (hturn : ∀ b ∈ turn.head?, b ∈ visited ∨ b ∉ l)
    (hempty : turn = [] → i ≠ idx) {W₁ : TimeWheel A} :
    ¬ ∃ rounds W' calls, walk cb idx rounds (some (after (turn.map .node) (.tail i))) W₁
      (visited ++ [a]) = .ok (W', calls) ∧ calls.Perm l := by
  rintro ⟨rounds, W', calls, hwalk, hperm⟩
  cases turn with
  | nil =>
    cases rounds with
    | zero => exact absurd hwalk (by simp [walk])
    | succ rounds =>
      simp [walk, hempty rfl] at hwalk
  | cons b turn =>
    have hpre := prefix_of_walk_node hwalk
    have hnodup : calls.Nodup := hperm.nodup_iff.mpr (hl ▸ h.nodup hidx)
    rcases hturn b rfl with hmem | hnot
    · have hsub := hnodup.sublist hpre.sublist
      rw [List.append_assoc, List.nodup_append] at hsub
      exact hsub.2.2 b hmem b (by simp) rfl
    · exact hnot (hperm.subset (hpre.subset (by simp)))

theorem Midway.visits_iff {W₀ : TimeWheel A} (h₀ : W₀.Holds slots) (hidx : idx < W₀.n)
    (hl : slots idx = l) (hn : W.n = W₀.n)
    (h : Midway f slots l idx target visited kept rest W) :
    (∃ rounds W' calls, walk (acting f) idx rounds (some (after (rest.map .node) (.tail idx))) W
      visited = .ok (W', calls) ∧ calls.Perm l) ↔
    ∀ k, visited.length ≤ k → k < l.length → Sound f l idx target k := by
  induction rest generalizing visited kept W with
  | nil =>
    have hlist : visited = l := by simpa using h.list
    refine iff_of_true ⟨1, W, visited, by simp [walk], hlist ▸ List.Perm.refl _⟩ ?_
    rintro k hk hlt
    exact absurd hlt (not_lt.mpr (hlist ▸ hk))
  | cons a rest ih =>
    have hlen : visited.length < l.length := by simp [← h.list]
    -- the condition on this node, and that on the others
    have hsplit : (∀ k, visited.length ≤ k → k < l.length → Sound f l idx target k) ↔
        Sound f l idx target visited.length ∧
          ∀ k, (visited ++ [a]).length ≤ k → k < l.length → Sound f l idx target k := by
      rw [List.length_append]
      refine ⟨fun hall => ⟨hall _ le_rfl hlen, fun k hk => hall k (Nat.le_of_succ_le hk)⟩, ?_⟩
      rintro ⟨hfirst, hrest⟩ k hk hlt
      rcases Nat.eq_or_lt_of_le hk with rfl | hk
      · exact hfirst
      · exact hrest k hk hlt
    rw [hsplit, List.map_cons, after_cons]
    have hidx' : idx < W.n := hn ▸ hidx
    cases hact : f (visited ++ [a]) with
    | leave =>
      obtain ⟨W₁, hcb, hn₁, hnext, hmid⟩ := h.leave hidx' hact
      rw [exists_walk_node hcb hnext, ih (hn₁.trans hn) hmid]
      exact (and_iff_right (h.sound_of_ne (by rw [hact]; decide))).symm
    | remove =>
      obtain ⟨W₁, hcb, hn₁, hnext, hmid⟩ := h.remove hidx' hact
      rw [exists_walk_node hcb hnext, ih (hn₁.trans hn) hmid]
      exact (and_iff_right (h.sound_of_ne (by rw [hact]; decide))).symm
    | refresh =>
      obtain ⟨W₁, first, hcb, hn₁, hfirst, hnext, hholds⟩ := h.refresh hidx' hact
      have hi : W.insertIdx.1 < W₀.n := hn ▸ h.holds.insertIdx_lt
      rw [exists_walk_node hcb hnext]
      by_cases hgood : target = idx ∧ kept = []
      · obtain ⟨rfl, rfl⟩ := hgood
        have hslot := h.target rfl
        rw [hslot, update_self] at hfirst
        subst hfirst
        rw [hslot, update_idem] at hholds
        rw [hslot]
        have hmid : Midway f slots l target target (visited ++ [a]) [a] first W₁ :=
          h.step hholds (List.subset_append_right _ _) (by rw [hact]; simp) (by simp)
        rw [ih (hn₁.trans hn) hmid]
        exact (and_iff_right ((h.refresh_sound_iff hact).mpr ⟨rfl, rfl⟩)).symm
      · refine iff_of_false ?_ fun hand => hgood ((h.refresh_sound_iff hact).mp hand.1)
        have hkept : W.insertIdx.1 = idx → kept ≠ [] := fun hslot hnil =>
          hgood ⟨(h.target hnil).symm.trans hslot, hnil⟩
        refine not_perm_of_wrong_turn h₀ hidx hl (fun b hb => ?_) fun hnil hslot => ?_
        · by_cases hslot : W.insertIdx.1 = idx
          · rw [hfirst, hslot, update_self,
              List.head?_append_of_ne_nil _ (hkept hslot)] at hb
            exact .inl (h.sub (List.mem_of_head? hb))
          · rw [hfirst, update_of_ne hslot] at hb
            exact .inr fun hmem => hslot
              (h₀.eq_of_mem hi hidx (List.mem_of_head? hb) (hl ▸ hmem))
        · rw [hfirst, hslot, update_self, List.append_eq_nil_iff] at hnil
          exact hkept hslot hnil.1

omit [DecidableEq A] in
theorem Holds.midway (h : W.Holds slots) (f : List A → WheelAct) :
    Midway f slots (slots W.cur) W.cur W.advance.insertIdx.1 [] [] (slots W.cur) W.advance := by
  refine ⟨rfl, ?_, List.Subset.refl _, by simp, fun _ => rfl⟩
  rw [List.nil_append, update_eq_self]
  exact h.advance

theorem Holds.visits_iff_walk (h : W.Holds slots) : W.Visits f (slots W.cur) ↔
    ∃ rounds W' calls, walk (acting f) W.cur rounds
      (some (after ((slots W.cur).map .node) (.tail W.cur))) W.advance [] = .ok (W', calls) ∧
      calls.Perm (slots W.cur) := by
  simp only [Visits, tick, h.next_head h.cur_lt, ptrs]

/-- **A tick calls the callback on each node of its slot once** exactly if a node that is refreshed
comes into the same slot again and all before it have been removed. -/
theorem tick_visits_iff (h : W.Holds slots) (f : List A → WheelAct) :
    W.Visits f (slots W.cur) ↔ ∀ k < (slots W.cur).length,
      Sound f (slots W.cur) W.cur W.advance.insertIdx.1 k := by
  rw [h.visits_iff_walk, Midway.visits_iff (W := W.advance) h h.cur_lt rfl rfl (h.midway f)]
  exact ⟨fun hall k => hall k (Nat.zero_le k), fun hall k _ => hall k⟩

theorem Holds.insert_current (h : W.Holds slots) (hmode : W.insertMode = insertModeCurrent)
    (hnew : ∀ j < W.n, a ∉ slots j) : ∃ W', W.insert a = some W' ∧
      W'.Holds (Function.update slots W.cur (a :: slots W.cur)) ∧
      W'.cur = W.cur ∧ W'.n = W.n ∧ W'.insertMode = insertModeCurrent := by
  obtain ⟨heap, hcall, hholds, -⟩ := h.insert hnew
  rw [insertIdx_current hmode] at hcall hholds
  exact ⟨_, hcall, hholds, rfl, rfl, hmode⟩

def emptyWheel (n : ℕ) : TimeWheel ℕ :=
  ⟨initHeap n fun _ => ⟨none, none, ()⟩, n, 10, insertModeCurrent, .start ⟨0, 0⟩, 0, 0⟩

theorem holds_emptyWheel {n : ℕ} (hn : 0 < n) : (emptyWheel n).Holds fun _ => [] := by
  have hinit : init n 10 insertModeCurrent ⟨0, 0⟩ (fun _ => ⟨none, none, ()⟩) true =
    some (emptyWheel n) := rfl
  exact holds_init hn hinit

theorem tick_visits_twoNodes : ∃ (W : TimeWheel ℕ) (slots : ℕ → List ℕ), W.Holds slots ∧
    slots W.cur = [1, 0] ∧
    W.Visits (fun calls => if calls = [1] then .remove else .refresh) (slots W.cur) := by
  obtain ⟨W, -, h, hcur, hn, hmode⟩ := (holds_emptyWheel Nat.one_pos).insert_current rfl
    (show ∀ j < 1, 0 ∉ _ from fun _ _ => List.not_mem_nil)
  rw [show (emptyWheel 1).n = 1 from rfl] at hn
  obtain ⟨W', -, h', hcur', hn', hmode'⟩ := h.insert_current (a := 1) hmode fun j hj => by
    obtain rfl : j = 0 := by omega
    decide
  rw [hcur] at h' hcur'
  refine ⟨W', _, h', by rw [hcur']; rfl, (tick_visits_iff h' _).mpr ?_⟩
  have hslot : W'.advance.insertIdx.1 = 0 := by
    rw [insertIdx_current (W := W'.advance) hmode']
    simp [TimeWheel.advance, hn', hn, Nat.mod_one]
  rw [hcur', hslot]
  decide

theorem refresh_calls_sentinel : ∃ (W : TimeWheel ℕ) (slots : ℕ → List ℕ),
    (emptyWheel 4).insert 0 = some W ∧ W.Holds slots ∧ slots W.cur = [0] ∧
    W.tick (acting fun _ => .refresh) 2 = .error (.stray (some (.tail 1))) ∧
    ¬ W.Visits (fun _ => .refresh) (slots W.cur) := by
  obtain ⟨W, hcall, h, hcur, hn, hmode⟩ := (holds_emptyWheel (show 0 < 4 by decide)).insert_current
    rfl (fun _ _ => List.not_mem_nil)
  have heval : ((emptyWheel 4).insert 0).map (fun W => W.tick (acting fun _ => .refresh) 2) =
    some (.error (.stray (some (.tail 1)))) := rfl
  rw [hcall] at heval
  rw [show (emptyWheel 4).cur = 0 from rfl] at h hcur
  rw [show (emptyWheel 4).n = 4 from rfl] at hn
  refine ⟨W, _, hcall, h, by rw [hcur]; rfl, Option.some.inj heval, fun hvisits => ?_⟩
  rw [h.visits_iff_walk, Midway.visits_iff (W := W.advance) h h.cur_lt rfl rfl (h.midway _)]
    at hvisits
  have hslot : W.advance.insertIdx.1 = 1 := by
    rw [insertIdx_current (W := W.advance) hmode]
    simp [TimeWheel.advance, hcur, hn]
  rw [hcur, hslot] at hvisits
  exact absurd (hvisits 0 le_rfl (by decide) rfl).1 (by decide)

end TimeWheel

end Mugglec
