import Mathlib.Tactic

/-!
# Machinery/CasLoop — a shared cell updated by compare-and-swap loops

Any number of threads make calls of the form

    do { v = *cell;  if (no d = attempt v) return failure; }  while (!compare_exchange(cell, v, d));
    return d

**A call takes effect at the step it returns at** (`Inv.step`): the returned calls, in the order of
their returns, are a sequential run of the cell (`Replay`).
-/

namespace CasLoop

open Function

inductive Pc (κ α : Type*)
  | idle
  | load (c : κ)
  | cas (c : κ) (v d : α)
deriving DecidableEq, Repr

abbrev Return (κ α : Type*) := κ × Option α

structure State (τ κ α : Type*) where
  cell : α
  pc : τ → Pc κ α
  returns : List (Return κ α)

variable {τ κ α : Type*} [DecidableEq τ] [DecidableEq α] (attempt : κ → α → Option α)

def State.start (v : α) : State τ κ α := ⟨v, fun _ => .idle, []⟩

def State.call (s : State τ κ α) (t : τ) (c : κ) : Option (State τ κ α) :=
  match s.pc t with
  | .idle => some { s with pc := update s.pc t (.load c) }
  | _ => none

def State.ret (s : State τ κ α) (t : τ) (r : Return κ α) : State τ κ α :=
  { s with pc := update s.pc t .idle, returns := r :: s.returns }

def State.step (s : State τ κ α) (t : τ) : Option (State τ κ α × Option (Return κ α)) :=
  match s.pc t with
  | .idle => none
  | .load c =>
    match attempt c s.cell with
    | none => some (s.ret t (c, none), some (c, none))
    | some d => some ({ s with pc := update s.pc t (.cas c s.cell d) }, none)
  | .cas c v d =>
    if s.cell = v then some ({ s.ret t (c, some d) with cell := d }, some (c, some d))
    else some ({ s with pc := update s.pc t (.load c) }, none)

inductive Replay (start : α) : List (Return κ α) → α → Prop
  | start : Replay start [] start
  | stored {rs : List (Return κ α)} {v d : α} {c : κ} (h : Replay start rs v)
      (hd : attempt c v = some d) : Replay start ((c, some d) :: rs) d
  | failed {rs : List (Return κ α)} {v : α} {c : κ} (h : Replay start rs v)
      (hd : attempt c v = none) : Replay start ((c, none) :: rs) v

structure Inv (start : α) (s : State τ κ α) : Prop where
  replay : Replay attempt start s.returns s.cell
  cas : ∀ t c v d, s.pc t = .cas c v d → attempt c v = some d

variable {attempt} {start : α} {s s' : State τ κ α} {t : τ}

omit [DecidableEq τ] [DecidableEq α] in
theorem inv_start (v : α) : Inv attempt v (State.start v : State τ κ α) :=
  ⟨.start, fun _ _ _ _ h => nomatch (h : Pc.idle = _)⟩

omit [DecidableEq α] in
theorem Inv.cas_update (h : Inv attempt start s) {p : Pc κ α}
    (hp : ∀ c v d, p = .cas c v d → attempt c v = some d) :
    ∀ t' c v d, update s.pc t p t' = .cas c v d → attempt c v = some d := by
  intro t' c v d hpc
  by_cases ht : t' = t
  · subst ht
    rw [update_self] at hpc
    exact hp c v d hpc
  · rw [update_of_ne ht] at hpc
    exact h.cas t' c v d hpc

omit [DecidableEq α] in
theorem call_eq_some {c : κ} (hcall : s.call t c = some s') :
    s.pc t = .idle ∧ s' = { s with pc := update s.pc t (.load c) } := by
  rw [State.call] at hcall
  cases hpc : s.pc t with
  | idle =>
    rw [hpc] at hcall
    exact ⟨rfl, (Option.some.inj hcall).symm⟩
  | load _ => simp [hpc] at hcall
  | cas _ _ _ => simp [hpc] at hcall

omit [DecidableEq α] in
theorem Inv.call (h : Inv attempt start s) {c : κ} (hcall : s.call t c = some s') :
    Inv attempt start s' := by
  obtain ⟨-, rfl⟩ := call_eq_some hcall
  exact ⟨h.replay, h.cas_update nofun⟩

/-- What one step of a thread does, and what it returns. -/
inductive Stepped (attempt : κ → α → Option α) (s : State τ κ α) (t : τ) :
    State τ κ α → Option (Return κ α) → Prop
  | failed {c : κ} (hd : attempt c s.cell = none) :
      Stepped attempt s t (s.ret t (c, none)) (some (c, none))
  | loaded {c : κ} {d : α} (hd : attempt c s.cell = some d) :
      Stepped attempt s t { s with pc := update s.pc t (.cas c s.cell d) } none
  | stored {c : κ} {d : α} (hpc : s.pc t = .cas c s.cell d) :
      Stepped attempt s t { s.ret t (c, some d) with cell := d } (some (c, some d))
  | again (c : κ) : Stepped attempt s t { s with pc := update s.pc t (.load c) } none

theorem step_cases {r : Option (Return κ α)} (hstep : s.step attempt t = some (s', r)) :
    Stepped attempt s t s' r := by
  rw [State.step] at hstep
  cases hpc : s.pc t with
  | idle => simp [hpc] at hstep
  | load c =>
    cases hd : attempt c s.cell <;> simp only [hpc, hd] at hstep <;> cases hstep
    · exact .failed hd
    · exact .loaded hd
  | cas c v d =>
    simp only [hpc] at hstep
    split_ifs at hstep with hv <;> cases hstep
    · exact .stored (hv ▸ hpc)
    · exact .again c

theorem Inv.step (h : Inv attempt start s) {r : Option (Return κ α)}
    (hstep : s.step attempt t = some (s', r)) :
    Inv attempt start s' ∧
      (r = none ∧ s'.cell = s.cell ∧ s'.returns = s.returns ∨
      (∃ c, r = some (c, none) ∧ attempt c s.cell = none ∧ s'.cell = s.cell ∧
        s'.returns = (c, none) :: s.returns) ∨
      ∃ c d, r = some (c, some d) ∧ attempt c s.cell = some d ∧ s'.cell = d ∧
        s'.returns = (c, some d) :: s.returns) := by
  cases step_cases hstep with
  | failed hd =>
    exact ⟨⟨.failed h.replay hd, h.cas_update nofun⟩, .inr (.inl ⟨_, rfl, hd, rfl, rfl⟩)⟩
  | loaded hd =>
    refine ⟨⟨h.replay, h.cas_update fun c' v d' hp => ?_⟩, .inl ⟨rfl, rfl, rfl⟩⟩
    obtain ⟨rfl, rfl, rfl⟩ := Pc.cas.inj hp
    exact hd
  | stored hpc =>
    have hd := h.cas t _ _ _ hpc
    exact ⟨⟨.stored h.replay hd, h.cas_update nofun⟩, .inr (.inr ⟨_, _, rfl, hd, rfl, rfl⟩)⟩
  | again c => exact ⟨⟨h.replay, h.cas_update nofun⟩, .inl ⟨rfl, rfl, rfl⟩⟩

theorem step_pc {r : Option (Return κ α)} (hstep : s.step attempt t = some (s', r)) :
    ∃ p, s'.pc = update s.pc t p ∧ (r ≠ none → p = .idle) ∧
      ∀ c v d, p = .cas c v d → v = s.cell ∧ attempt c v = some d := by
  cases step_cases hstep with
  | failed | stored => exact ⟨_, rfl, fun _ => rfl, nofun⟩
  | again => exact ⟨_, rfl, fun h => absurd rfl h, nofun⟩
  | loaded hd =>
    refine ⟨_, rfl, fun h => absurd rfl h, fun c' v d' hp => ?_⟩
    obtain ⟨rfl, rfl, rfl⟩ := Pc.cas.inj hp
    exact ⟨rfl, hd⟩

def Pc.left : Pc κ α → ℕ
  | .idle => 0
  | .load _ => 1
  | .cas _ _ _ => 2

theorem Inv.left_lt_of_final (h : Inv attempt start s) (hfinal : ∀ c, attempt c s.cell = none)
    (hpc : s.pc t ≠ .idle) :
    ∃ s' r, s.step attempt t = some (s', r) ∧ (s'.pc t).left < (s.pc t).left := by
  rw [State.step]
  cases hp : s.pc t with
  | idle => exact absurd hp hpc
  | load c =>
    simp only [hfinal c]
    exact ⟨_, _, rfl, by simp [State.ret, Pc.left]⟩
  | cas c v d =>
    have hne : s.cell ≠ v := by
      rintro rfl
      exact Option.some_ne_none d ((h.cas t c _ d hp).symm.trans (hfinal c))
    simp only [if_neg hne]
    exact ⟨_, _, rfl, by simp [Pc.left]⟩

end CasLoop
