import Mugglec.Machinery.CasLoop

/-!
# Sync/RefCnt — `sync/ref_cnt.c`, and the context that is freed with its last reference

`muggle_ref_cnt_retain` and `muggle_ref_cnt_release` are compare-and-swap loops over the counter:
load it, give up if it is zero, and otherwise try to store the value plus or minus one.
-/

namespace Mugglec

open Function CasLoop

def INT_MAX : ℤ := 2 ^ 31 - 1

def refCntInit (initVal : ℤ) : ℤ × Option ℤ :=
  if initVal ≤ 0 then (-1, none) else (0, some initVal)

inductive RefCall
  | retain | release | releaseCtx
deriving DecidableEq, Repr

def RefCall.desired : RefCall → ℤ → Option ℤ
  | .retain, v => if v = 0 then none else some (v + 1)
  | .release, v => if v = 0 then none else some (v - 1)
  | .releaseCtx, v => if v = 0 then none else some (v - 1)

def returnValue (r : Return RefCall ℤ) : ℤ := r.2.getD (-1)

def isRetained (r : Return RefCall ℤ) : Bool := r.1 = .retain ∧ returnValue r ≠ -1

def isReleased (r : Return RefCall ℤ) : Bool := r.1 ≠ .retain ∧ returnValue r ≠ -1

def isZeroRelease (r : Return RefCall ℤ) : Bool := r.1 ≠ .retain ∧ returnValue r = 0

inductive Cleanup
  | cbRelease | close | cbFree
deriving DecidableEq, Repr

structure RefCtx (τ : Type*) where
  counter : State τ RefCall ℤ
  todo : τ → List Cleanup
  closes : ℕ
  frees : ℕ

inductive RefAct
  | call (c : RefCall)
  | step
deriving DecidableEq, Repr

namespace RefCtx

variable {τ : Type*} [DecidableEq τ] (hasCbRelease : Bool)

def start (v : ℤ) : RefCtx τ := ⟨.start v, fun _ => [], 0, 0⟩

/-- The calls of the clean-up; `cb_release` may be null. -/
def cleanups : List Cleanup :=
  (if hasCbRelease then [Cleanup.cbRelease] else []) ++ [Cleanup.close, .cbFree]

def afterReturn (s : RefCtx τ) (t : τ) (counter : State τ RefCall ℤ)
    (r : Option (Return RefCall ℤ)) : RefCtx τ :=
  match r with
  | some (.releaseCtx, d) =>
    if returnValue (.releaseCtx, d) = 0 then
      { s with counter := counter, todo := update s.todo t (cleanups hasCbRelease) }
    else { s with counter := counter }
  | _ => { s with counter := counter }

def next (s : RefCtx τ) (a : τ × RefAct) : Option (RefCtx τ) :=
  match s.todo a.1, a.2 with
  | [], .call c => (s.counter.call a.1 c).map fun counter => { s with counter := counter }
  | [], .step =>
    (s.counter.step RefCall.desired a.1).map fun p => s.afterReturn hasCbRelease a.1 p.1 p.2
  | _ :: _, .call _ => none
  | .cbRelease :: rest, .step => some { s with todo := update s.todo a.1 rest }
  | .close :: rest, .step =>
    some { s with todo := update s.todo a.1 rest, closes := s.closes + 1 }
  | .cbFree :: rest, .step =>
    some { s with todo := update s.todo a.1 rest, frees := s.frees + 1 }

def Below (s : RefCtx τ) (_ : τ × RefAct) : Prop := s.counter.cell < INT_MAX

instance (s : RefCtx τ) (a : τ × RefAct) : Decidable (s.Below a) :=
  inferInstanceAs (Decidable (_ < _))

def retained (s : RefCtx τ) : ℕ := s.counter.returns.countP isRetained

def released (s : RefCtx τ) : ℕ := s.counter.returns.countP isReleased

def zeroReleases (s : RefCtx τ) : ℕ := s.counter.returns.countP isZeroRelease

end RefCtx

end Mugglec
