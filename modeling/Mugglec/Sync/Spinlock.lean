import Mugglec.Machinery.Steps

/-!
# Sync/Spinlock — the spinlock (`sync/spinlock.c`)

The components that take a spinlock are modelled with a lock that is free or somebody's, and that
can be taken only while it is free.  `muggle_spinlock_lock` is a loop around a test-and-set: **each
of its accesses takes that lock, gives it back, or changes nothing** (`Owns.step`).
-/

namespace Mugglec

open Function Steps

variable {T : Type*} [DecidableEq T]

inductive LockStep (T : Type*)
  | acquire (t : T)
  | release (t : T)

/-- The lock as its users see it, by its owner. -/
def lockNext (owner : Option T) : LockStep T → Option (Option T)
  | .acquire t => if owner = none then some (some t) else none
  | .release t => if owner = some t then some none else none

inductive SpinPc
  | idle | spin | held
deriving DecidableEq, Repr

structure Spinlock (T : Type*) where
  isSet : Bool
  threads : T → SpinPc

namespace Spinlock

def init : Spinlock T := ⟨false, fun _ => .idle⟩

/-- The next access of thread `t`, which locks and unlocks in turn. -/
def next (s : Spinlock T) (t : T) : Option (Spinlock T) :=
  match s.threads t with
  | .idle => some { s with threads := update s.threads t .spin }
  | .spin =>
    -- `muggle_atomic_test_and_set` is true where the flag was clear; otherwise the thread yields
    some (if s.isSet then s else ⟨true, update s.threads t .held⟩)
  | .held => some ⟨false, update s.threads t .idle⟩

structure Owns (s : Spinlock T) (owner : Option T) : Prop where
  isSet : s.isSet = owner.isSome
  held : ∀ t, s.threads t = .held ↔ owner = some t

variable {s s' : Spinlock T} {owner : Option T} {t : T}

theorem Owns.step (h : s.Owns owner) (hnext : s.next t = some s') : ∃ owner', s'.Owns owner' ∧
    (owner' = owner ∨ ∃ a, lockNext owner a = some owner') := by
  obtain ⟨hset, hheld⟩ := h
  rw [next] at hnext
  cases hpc : s.threads t <;> simp only [hpc, Option.some.injEq] at hnext <;> subst hnext
  case idle => exact ⟨owner, by constructor <;> grind [update_apply], .inl rfl⟩
  case spin =>
    split_ifs with hflag
    · exact ⟨owner, ⟨hset, hheld⟩, .inl rfl⟩
    · obtain rfl : owner = none := by simpa [hflag] using hset
      exact ⟨some t, by constructor <;> grind [update_apply], .inr ⟨.acquire t, rfl⟩⟩
  case held =>
    obtain rfl := (hheld t).mp hpc
    exact ⟨none, by constructor <;> grind [update_apply], .inr ⟨.release t, if_pos rfl⟩⟩

end Spinlock

end Mugglec
