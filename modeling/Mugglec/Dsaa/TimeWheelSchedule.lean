import Mugglec.Machinery.Steps
import Mugglec.Dsaa.TimeWheelSlots

/-!
# Dsaa/TimeWheelSchedule — when a node gets its callbacks

The abstract wheel is a **schedule**: which slot each node is in, and the number of ticks so far.
Tick `t` calls the callback on the nodes of slot `t mod n`, so that a node gets one call in `n`
ticks.
-/

namespace Mugglec

open Function LinkedList

inductive WheelEvent (A : Type) where
  | inserted (a : A)
  | removed (a : A)
  | ticked (calls : List A)
deriving DecidableEq

namespace WheelEvent

variable {A : Type} [DecidableEq A] {a : A} {es : List (WheelEvent A)}

def keeps (a : A) (p : Bool) : WheelEvent A → Bool
  | .inserted b => p || b = a
  | .removed b => p && b ≠ a
  | .ticked _ => p

def present (a : A) (es : List (WheelEvent A)) : Bool := es.foldl (keeps a) false

def ticks : List (WheelEvent A) → ℕ
  | [] => 0
  | .ticked _ :: es => ticks es + 1
  | _ :: es => ticks es

def calls (a : A) : List (WheelEvent A) → ℕ
  | [] => 0
  | .ticked cs :: es => cs.count a + calls a es
  | _ :: es => calls a es

end WheelEvent

open WheelEvent

structure Schedule (A : Type) where
  place : A → Option ℕ
  ticks : ℕ

namespace Schedule

variable {A : Type} [DecidableEq A] {n : ℕ} {current : Prop} {S S' : Schedule A} {a : A} {i : ℕ}
  {es es' : List (WheelEvent A)}

inductive Step (n : ℕ) (current : Prop) : Schedule A → WheelEvent A → Schedule A → Prop where
  | inserted {S : Schedule A} {a : A} {i : ℕ} (hnew : S.place a = none) (hi : i < n)
      (hcurrent : current → i = S.ticks % n) :
      Step n current S (.inserted a) { S with place := Function.update S.place a (some i) }
  | removed {S : Schedule A} {a : A} :
      Step n current S (.removed a) { S with place := Function.update S.place a none }
  | ticked {S : Schedule A} {cs : List A} (hnodup : cs.Nodup)
      (hmem : ∀ a, a ∈ cs ↔ S.place a = some (S.ticks % n)) :
      Step n current S (.ticked cs) { S with ticks := S.ticks + 1 }

def Follows (n : ℕ) (current : Prop) (S : Schedule A) :
    List (WheelEvent A) → Schedule A → Prop
  | [], S' => S' = S
  | e :: es, S' => ∃ S₁, Step n current S e S₁ ∧ Follows n current S₁ es S'

theorem follows_append : Follows n current S (es ++ es') S' ↔
    ∃ S₁, Follows n current S es S₁ ∧ Follows n current S₁ es' S' := by
  induction es generalizing S with
  | nil => simp [Follows]
  | cons e es ih =>
    simp only [List.cons_append, Follows, ih]
    constructor
    · rintro ⟨S₁, hstep, S₂, hes, hes'⟩
      exact ⟨S₂, ⟨S₁, hstep, hes⟩, hes'⟩
    · rintro ⟨S₂, ⟨S₁, hstep, hes⟩, hes'⟩
      exact ⟨S₁, hstep, S₂, hes, hes'⟩

theorem Follows.isSome_place (h : Follows n current S es S') (a : A) :
    (S'.place a).isSome = es.foldl (keeps a) (S.place a).isSome := by
  induction es generalizing S with
  | nil =>
    obtain rfl : S' = S := h
    rfl
  | cons e es ih =>
    obtain ⟨S₁, hstep, hes⟩ := h
    rw [ih hes, List.foldl_cons]
    congr 1
    cases hstep with
    | @inserted b j _ _ _ =>
      by_cases hab : a = b
      · subst hab
        simp [keeps]
      · simp [keeps, hab, Ne.symm hab]
    | @removed b =>
      by_cases hab : a = b
      · subst hab
        simp [keeps]
      · simp [keeps, hab, Ne.symm hab]
    | ticked => rfl

theorem Follows.place_lt (h : Follows n current S es S') (hS : ∀ b j, S.place b = some j → j < n)
    (hplace : S'.place a = some i) : i < n := by
  induction es generalizing S with
  | nil =>
    obtain rfl : S' = S := h
    exact hS a i hplace
  | cons e es ih =>
    obtain ⟨S₁, hstep, hes⟩ := h
    refine ih hes fun b j hb => ?_
    cases hstep with
    | @inserted c k _ hk _ =>
      simp only [update_apply] at hb
      split_ifs at hb
      · exact Option.some.inj hb ▸ hk
      · exact hS b j hb
    | removed =>
      simp only [update_apply] at hb
      split_ifs at hb
      exact hS b j hb
    | ticked => exact hS b j hb

def empty : Schedule A := ⟨fun _ => none, 0⟩

structure Regular (n : ℕ) (current : Prop) (trace : List (WheelEvent A)) : Prop where
  once (a : A) (pre mid post : List (WheelEvent A)) (htrace : trace = pre ++ mid ++ post)
    (hticks : WheelEvent.ticks mid = n) (hpresent : present a pre) (hkept : .removed a ∉ mid) :
    calls a mid = 1
  turns (hcurrent : current) (a : A) (pre mid post : List (WheelEvent A)) (cs : List A)
    (htrace : trace = pre ++ .inserted a :: mid ++ .ticked cs :: post)
    (hkept : .removed a ∉ mid) :
    cs.count a = if WheelEvent.ticks mid % n = 0 then 1 else 0
  only (a : A) (pre post : List (WheelEvent A)) (cs : List A)
    (htrace : trace = pre ++ .ticked cs :: post) (hmem : a ∈ cs) : present a pre

end Schedule

inductive WheelCall (A : Type) where
  | insert (a : A)
  | remove (a : A)
  | updateN (rounds nSlot : ℕ)

structure WheelRun (A : Type) where
  wheel : TimeWheel A
  trace : List (WheelEvent A)

namespace WheelRun

open TimeWheel

variable {A : Type} [DecidableEq A]

def Legal (s : WheelRun A) : WheelCall A → Prop
  | .insert a => present a s.trace = false
  | .remove a => present a s.trace = true
  | .updateN _ _ => True

instance (s : WheelRun A) (c : WheelCall A) : Decidable (s.Legal c) :=
  match c with
  | .insert _ | .remove _ => inferInstanceAs (Decidable (_ = _))
  | .updateN _ _ => .isTrue trivial

def next (s : WheelRun A) : WheelCall A → Option (WheelRun A)
  | .insert a => (s.wheel.insert a).map fun W => ⟨W, s.trace ++ [.inserted a]⟩
  | .remove a => (s.wheel.remove a).map fun W => ⟨W, s.trace ++ [.removed a]⟩
  | .updateN rounds nSlot =>
    match s.wheel.updateN leave rounds nSlot with
    | .ok (W, calls) => some ⟨W, s.trace ++ calls.map .ticked⟩
    | .error _ => none

structure Matches (W : TimeWheel A) (slots : ℕ → List A) (S : Schedule A) : Prop where
  holds : W.Holds slots
  place : ∀ a i, S.place a = some i ↔ i < W.n ∧ a ∈ slots i
  cur : W.cur = S.ticks % W.n

variable {W W' : TimeWheel A} {slots : ℕ → List A} {S : Schedule A} {a : A} {n mode : ℕ}

omit [DecidableEq A] in
theorem Matches.notMem (h : Matches W slots S) (ha : S.place a = none) :
    ∀ i < W.n, a ∉ slots i := by
  intro i hi hmem
  have hplace := (h.place a i).mpr ⟨hi, hmem⟩
  rw [ha] at hplace
  cases hplace

theorem Matches.insert (h : Matches W slots S) (ha : S.place a = none) : ∃ W' slots' S',
    W.insert a = some W' ∧ Matches W' slots' S' ∧ W'.n = W.n ∧ W'.insertMode = W.insertMode ∧
      S.Step W.n (W.insertMode = insertModeCurrent) (.inserted a) S' := by
  obtain ⟨heap, hcall, hholds, -⟩ := h.holds.insert (h.notMem ha)
  have hi := h.holds.insertIdx_lt
  obtain ⟨-, hn, hcur, hmode, -⟩ := insertIdx_snd W
  have hcurrent : W.insertMode = insertModeCurrent → W.insertIdx.1 = S.ticks % W.n := by
    intro hmode
    rw [insertIdx, if_pos hmode]
    exact h.cur
  refine ⟨_, _, _, hcall, ⟨hholds, fun b j => ?_, ?_⟩, hn, hmode, .inserted ha hi hcurrent⟩
  · simp only [update_apply, hn]
    by_cases hb : b = a
    · subst hb
      rw [if_pos rfl, Option.some.injEq]
      constructor
      · rintro rfl
        exact ⟨hi, by simp⟩
      · rintro ⟨hj, hmem⟩
        by_contra hne
        rw [if_neg (Ne.symm hne)] at hmem
        exact h.notMem ha j hj hmem
    · rw [if_neg hb, h.place b j]
      split_ifs with hj
      · subst hj
        simp [hb]
      · rfl
  · rw [hn]
    exact hcur.trans h.cur

theorem Matches.remove (h : Matches W slots S) (ha : (S.place a).isSome) : ∃ W' slots' S',
    W.remove a = some W' ∧ Matches W' slots' S' ∧ W'.n = W.n ∧ W'.insertMode = W.insertMode ∧
      S.Step W.n (W.insertMode = insertModeCurrent) (.removed a) S' := by
  obtain ⟨i, hplace⟩ := Option.isSome_iff_exists.mp ha
  obtain ⟨hi, hmem⟩ := (h.place a i).mp hplace
  obtain ⟨l₁, l₂, hl⟩ := List.append_of_mem hmem
  obtain ⟨heap, hcall, hholds, -⟩ := h.holds.remove hi hl
  have hnodup := h.holds.nodup hi
  rw [hl, List.nodup_middle, List.nodup_cons] at hnodup
  refine ⟨_, _, { S with place := Function.update S.place a none }, hcall,
    ⟨hholds, fun b j => ?_, h.cur⟩, rfl, rfl, .removed⟩
  simp only [update_apply]
  by_cases hb : b = a
  · subst hb
    rw [if_pos rfl]
    refine ⟨fun hnone => absurd hnone (by simp), fun ⟨hj, hbj⟩ => ?_⟩
    by_cases hji : j = i
    · rw [if_pos hji] at hbj
      exact absurd hbj hnodup.1
    · rw [if_neg hji] at hbj
      exact absurd (h.holds.eq_of_mem hj hi hbj hmem) hji
  · rw [if_neg hb, h.place b j]
    split_ifs with hj
    · subst hj
      rw [hl]
      simp [hb]
    · rfl

theorem Matches.ticks (h : Matches W slots S) (current : Prop) (k : ℕ) :
    Matches (W.advanceBy k) slots { S with ticks := S.ticks + k } ∧
      S.Follows W.n current ((W.ticksFrom slots k).map .ticked)
        { S with ticks := S.ticks + k } := by
  have hmod : (W.cur + k) % W.n = (S.ticks + k) % W.n := by rw [h.cur, Nat.mod_add_mod]
  refine ⟨⟨h.holds.advanceBy k, h.place, hmod⟩, ?_⟩
  clear hmod
  induction k generalizing W S with
  | zero => rfl
  | succ k ih =>
    have hnext : Matches W.advance slots { S with ticks := S.ticks + 1 } := by
      refine ⟨h.holds.advance, h.place, ?_⟩
      rw [TimeWheel.advance, h.cur]
      exact Nat.mod_add_mod ..
    rw [h.holds.ticksFrom_succ, List.map_cons, Nat.add_comm k 1, ← Nat.add_assoc]
    refine ⟨_, .ticked (h.holds.nodup h.holds.cur_lt) fun a => ?_, ih hnext⟩
    rw [h.place, ← h.cur]
    exact ⟨fun hmem => ⟨h.holds.cur_lt, hmem⟩, And.right⟩

def OnSchedule (n mode : ℕ) (s : WheelRun A) : Prop :=
  ∃ slots S, Matches s.wheel slots S ∧ s.wheel.n = n ∧ s.wheel.insertMode = mode ∧
    Schedule.empty.Follows n (mode = insertModeCurrent) s.trace S

variable {s s' : WheelRun A}

theorem OnSchedule.snoc {e : WheelEvent A} {call : Option (TimeWheel A)}
    (htrace : Schedule.empty.Follows n (mode = insertModeCurrent) s.trace S)
    (hn : s.wheel.n = n) (hmode : s.wheel.insertMode = mode)
    (h : ∃ W' slots' S', call = some W' ∧ Matches W' slots' S' ∧ W'.n = s.wheel.n ∧
      W'.insertMode = s.wheel.insertMode ∧
      S.Step s.wheel.n (s.wheel.insertMode = insertModeCurrent) e S') :
    ∃ W', call = some W' ∧ OnSchedule n mode ⟨W', s.trace ++ [e]⟩ := by
  obtain ⟨W', slots', S', hcall, hmatch, hn', hmode', hstep⟩ := h
  rw [hn, hmode] at hstep
  exact ⟨W', hcall, slots', S', hmatch, hn'.trans hn, hmode'.trans hmode,
    Schedule.follows_append.mpr ⟨S, htrace, S', hstep, rfl⟩⟩

theorem OnSchedule.calls (h : OnSchedule n mode s) :
    (∀ c s', s.Legal c → s.next c = some s' → OnSchedule n mode s') ∧
    (∀ a, s.Legal (.insert a) → (s.next (.insert a)).isSome) ∧
    (∀ a, s.Legal (.remove a) → (s.next (.remove a)).isSome) ∧
    ∀ nSlot, ∃ rounds, (s.next (.updateN rounds nSlot)).isSome := by
  obtain ⟨slots, S, hmatch, hn, hmode, htrace⟩ := h
  have hpresent : ∀ a, (S.place a).isSome = present a s.trace := fun a => htrace.isSome_place a
  have hinsert : ∀ a, s.Legal (.insert a) → ∃ W', s.wheel.insert a = some W' ∧
      OnSchedule n mode ⟨W', s.trace ++ [.inserted a]⟩ := fun a ha =>
    OnSchedule.snoc htrace hn hmode (hmatch.insert (by simpa using (hpresent a).trans ha))
  have hremove : ∀ a, s.Legal (.remove a) → ∃ W', s.wheel.remove a = some W' ∧
      OnSchedule n mode ⟨W', s.trace ++ [.removed a]⟩ := fun a ha =>
    OnSchedule.snoc htrace hn hmode (hmatch.remove ((hpresent a).trans ha))
  refine ⟨?_, fun a ha => ?_, fun a ha => ?_, fun nSlot => ?_⟩
  · intro c s' hc hnext
    cases c with
    | insert a =>
      obtain ⟨W', hcall, h'⟩ := hinsert a hc
      rw [next, hcall] at hnext
      exact Option.some.inj hnext ▸ h'
    | remove a =>
      obtain ⟨W', hcall, h'⟩ := hremove a hc
      rw [next, hcall] at hnext
      exact Option.some.inj hnext ▸ h'
    | updateN rounds nSlot =>
      obtain ⟨hmatch', hticks⟩ := hmatch.ticks (mode = insertModeCurrent) nSlot
      rw [next, hmatch.holds.updateN_leave] at hnext
      rw [hn] at hticks
      split_ifs at hnext
      cases hnext
      exact ⟨slots, _, hmatch', hn, hmode, Schedule.follows_append.mpr ⟨S, htrace, hticks⟩⟩
  · obtain ⟨W', hcall, -⟩ := hinsert a ha
    rw [next, hcall]
    rfl
  · obtain ⟨W', hcall, -⟩ := hremove a ha
    rw [next, hcall]
    rfl
  · refine ⟨((s.wheel.ticksFrom slots nSlot).map List.length).sum + 1, ?_⟩
    rw [next, hmatch.holds.updateN_leave, if_pos fun l hl =>
      Nat.lt_succ_of_le (List.le_sum_of_mem (List.mem_map_of_mem hl))]
    rfl

end WheelRun

end Mugglec
