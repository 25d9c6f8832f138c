import Mugglec.Dsaa.AvlTree

/-!
# Dsaa/AvlTreeRotate — what a rotation does to the tree

A rotation works on the links of a subtree, wherever it stands: the path from the root to it is the
frame.  With `o` on the high side,

    join σ t₁ x (join σ t₂₃ z t₄)               ──▸  join σ (join σ t₁ x t₂₃) z t₄
    join σ t₁ x (join σ (join σ t₂ y t₃) z t₄)  ──▸  join σ (join σ t₁ x t₂) y (join σ t₃ z t₄)
-/

namespace Mugglec

open LinkedTree OwnedHeap

variable {A K V : Type}

def Balanced : Shape A (AvlData K V) → Prop
  | .nil => True
  | .node l _ d r =>
    d.balance = r.height - l.height ∧ -1 ≤ d.balance ∧ d.balance ≤ 1 ∧ Balanced l ∧ Balanced r

def pairs (t : Shape A (AvlData K V)) : List (Option K × Option V) := t.inorder.map AvlData.pair

variable {σ : Side} {i o t t₁ t₂ t₃ t₄ : Shape A (AvlData K V)} {a x y z : A}
  {d dx dy dz : AvlData K V} {fs : List (Frame A (AvlData K V))} {n : ℕ}

theorem balanced_join : Balanced (.join σ i a d o) ↔
    d.balance = σ.sign * (o.height - i.height) ∧ -1 ≤ d.balance ∧ d.balance ≤ 1 ∧
      Balanced i ∧ Balanced o := by
  cases σ with
  | left =>
    have hsign : ((i.height : ℤ) - o.height) = Side.left.sign * (o.height - i.height) := by
      rw [Side.sign]
      ring
    rw [Shape.join, Balanced, hsign, and_comm (a := Balanced o)]
  | right =>
    rw [Shape.join, Balanced, Side.sign, one_mul]

def PathBalanced : List (Frame A (AvlData K V)) → ℕ → Prop
  | [], _ => True
  | f :: fs, n =>
    f.data.balance = f.side.sign * (n - f.sib.height) ∧ -1 ≤ f.data.balance ∧ f.data.balance ≤ 1 ∧
      Balanced f.sib ∧ PathBalanced fs (max f.sib.height n + 1)

theorem balanced_plug : Balanced (plug fs t) ↔ Balanced t ∧ PathBalanced fs t.height := by
  induction fs generalizing t with
  | nil => exact ⟨fun h => ⟨h, trivial⟩, fun h => h.1⟩
  | cons f fs ih =>
    rw [plug_cons, ih, Frame.fill, balanced_join, Shape.height_join, PathBalanced]
    tauto

theorem pairs_plug :
    pairs (plug fs t) =
      (before fs).map AvlData.pair ++ (pairs t ++ (after fs).map AvlData.pair) := by
  rw [pairs, inorder_plug, List.map_append, List.map_append, pairs]

theorem pairs_plug_congr {t' : Shape A (AvlData K V)} (h : pairs t' = pairs t) :
    pairs (plug fs t') = pairs (plug fs t) := by
  rw [pairs_plug, pairs_plug, h]

@[simp] theorem pair_setBalance (b : ℤ) : (d.setBalance b).pair = d.pair := rfl

@[simp] theorem balance_setBalance (b : ℤ) : (d.setBalance b).balance = b := rfl

def rotated (σ : Side) (t₁ : Shape A (AvlData K V)) (x : A) (dx : AvlData K V)
    (t₂ : Shape A (AvlData K V)) (z : A) (dz : AvlData K V) (t₄ : Shape A (AvlData K V)) :
    Shape A (AvlData K V) :=
  .join σ (.join σ t₁ x (dx.setBalance (if dz.balance = 0 then σ.sign else 0)) t₂) z
    (dz.setBalance (if dz.balance = 0 then -σ.sign else 0)) t₄

theorem pairs_rotated : pairs (rotated σ t₁ x dx t₂ z dz t₄) =
    pairs (.join σ t₁ x dx (.join σ t₂ z dz t₄)) := by
  cases σ <;> simp [rotated, pairs, Shape.join, Shape.inorder, pair_setBalance]

theorem balanced_rotated (x : A) (dx : AvlData K V) (h₁ : Balanced t₁)
    (hz : Balanced (.join σ t₂ z dz t₄))
    (hhigh : (Shape.join σ t₂ z dz t₄).height = t₁.height + 2) (hside : 0 ≤ σ.sign * dz.balance) :
    Balanced (rotated σ t₁ x dx t₂ z dz t₄) ∧ (rotated σ t₁ x dx t₂ z dz t₄).height =
      t₁.height + 2 + if dz.balance = 0 then 1 else 0 := by
  obtain ⟨hbal, hlo, hhi, h₂, h₄⟩ := balanced_join.mp hz
  rw [Shape.height_join] at hhigh
  simp only [rotated, balanced_join, Shape.height_join, AvlData.setBalance, h₁, h₂, h₄, and_true]
  cases σ <;> simp only [Side.sign] at * <;> split_ifs <;> omega

variable {L : AvlLinks A K V}

def rotatedTwice (σ : Side) (t₁ : Shape A (AvlData K V)) (x : A) (dx : AvlData K V)
    (t₂ : Shape A (AvlData K V)) (y : A) (dy : AvlData K V) (t₃ : Shape A (AvlData K V)) (z : A)
    (dz : AvlData K V) (t₄ : Shape A (AvlData K V)) : Shape A (AvlData K V) :=
  .join σ (.join σ t₁ x (dx.setBalance (AvlLinks.doubleBalance σ dy.balance).1) t₂) y
    (dy.setBalance 0) (.join σ t₃ z (dz.setBalance (AvlLinks.doubleBalance σ dy.balance).2) t₄)

theorem pairs_rotatedTwice : pairs (rotatedTwice σ t₁ x dx t₂ y dy t₃ z dz t₄) =
    pairs (.join σ t₁ x dx (.join σ (.join σ t₂ y dy t₃) z dz t₄)) := by
  cases σ <;> simp [rotatedTwice, pairs, Shape.join, Shape.inorder, pair_setBalance]

theorem balanced_rotatedTwice (x : A) (dx : AvlData K V) (h₁ : Balanced t₁)
    (hz : Balanced (.join σ (.join σ t₂ y dy t₃) z dz t₄))
    (hhigh : (Shape.join σ (.join σ t₂ y dy t₃) z dz t₄).height = t₁.height + 2)
    (hside : dz.balance = -σ.sign) :
    Balanced (rotatedTwice σ t₁ x dx t₂ y dy t₃ z dz t₄) ∧
      (rotatedTwice σ t₁ x dx t₂ y dy t₃ z dz t₄).height = t₁.height + 2 := by
  obtain ⟨hzbal, -, -, hy, h₄⟩ := balanced_join.mp hz
  obtain ⟨hybal, hlo, hhi, h₂, h₃⟩ := balanced_join.mp hy
  simp only [Shape.height_join] at hhigh hzbal
  -- the heights, before the goal brings three more maxima
  obtain ⟨hmax, h₄₁⟩ : max t₂.height t₃.height = t₁.height ∧ t₄.height = t₁.height := by
    cases σ <;> simp only [Side.sign] at hzbal hside <;> omega
  have hle₂ : t₂.height ≤ t₁.height := hmax ▸ le_max_left _ _
  have hle₃ : t₃.height ≤ t₁.height := hmax ▸ le_max_right _ _
  simp only [rotatedTwice, balanced_join, Shape.height_join, AvlData.setBalance, h₁, h₂, h₃, h₄,
    and_true, max_eq_left hle₂, h₄₁, max_eq_right hle₃, max_self]
  have hcases : dy.balance = -1 ∨ dy.balance = 0 ∨ dy.balance = 1 := by omega
  rcases hcases with hb | hb | hb <;> cases σ <;>
    simp [AvlLinks.doubleBalance, hb, Side.sign] at hybal ⊢ <;> omega

def rootBalance : Shape A (AvlData K V) → ℤ
  | .nil => 0
  | .node _ _ d _ => d.balance

@[simp] theorem rootBalance_join : rootBalance (.join σ i a d o) = d.balance := by
  cases σ <;> rfl

variable [DecidableEq A]

theorem own_setBalance {h : A → Option (Cell A (AvlData K V))}
    {M : Multiset (A × Cell A (AvlData K V))} {i o p : Option A}
    (hown : Own h (cellAt a (.facing σ i o p d) + M)) (b : ℤ) :
    ∃ h', AvlLinks.setBalance h a b = some h' ∧
      Own h' (cellAt a (.facing σ i o p (d.setBalance b)) + M) := by
  obtain ⟨h', heq, hown'⟩ := hown.modify (·.mapData (·.setBalance b))
  exact ⟨h', heq, hown'.congr (by rw [Cell.facing_mapData])⟩

theorem rotate_holds
    (hL : Holds L (plug fs (.join σ t₁ x dx (.join σ t₂ z dz t₄))))
    (hx : dx.balance = 2 * σ.sign) (hz : dz.balance = σ.sign ∨ dz.balance = 0) :
    ∃ L', AvlLinks.rotate σ L x = some (decide (dz.balance ≠ 0), L') ∧
      Holds L' (plug fs (rotated σ t₁ x dx t₂ z dz t₄)) := by
  obtain ⟨hroot, hown⟩ := holds_plug.mp hL
  rw [Shape.root_join] at hroot hown
  have hcx : L.heap x = some (.facing σ t₁.root (some z) (top none fs) dx) :=
    (hown.mem _ _).mpr (by simp [Shape.cells_join, cellAt])
  have hcz : L.heap z = some (.facing σ t₂.root t₄.root (some x) dz) :=
    (hown.mem _ _).mpr (by simp [Shape.cells_join, cellAt])
  -- `z` takes the place of `x`
  have hown₀ : Own L.heap (pathCells none (some x) fs +
      (cellAt x (Cell.facing σ t₁.root (some z) (top none fs) dx) +
        ((Shape.join σ t₂ z dz t₄).cells (some x) + t₁.cells (some x)))) :=
    hown.congr (by rw [Shape.cells_join (a := x), Shape.root_join]; abel)
  have hroot' := rootOf_replace hown₀ (some z)
  obtain ⟨h₁, h₂, e₁, e₂, hown₂⟩ := own_lift hown₀
  rw [Shape.root_join] at e₁ e₂ hown₂
  have hcz₂ : h₂ z = some (.facing σ t₂.root t₄.root (top none fs) dz) :=
    (hown₂.mem _ _).mpr (by simp [Shape.cells_join, cellAt])
  -- `x` takes the inner subtree of `z`, and `z` takes `x`
  obtain ⟨h₃, e₃, hown₃⟩ := own_hang (x := x) (t := t₂) (q := some z)
    (e := .facing σ t₁.root (some z) (top none fs) dx)
    (M := cellAt z (Cell.facing σ t₂.root t₄.root (top none fs) dz) + t₄.cells (some z) +
      t₁.cells (some x) + pathCells none (some z) fs)
    (hown₂.congr (by rw [Shape.cells_join]; abel)) σ
  obtain ⟨h₄, e₄, hown₄⟩ := own_hang (x := z) (t := .join σ t₁ x dx t₂) (q := top none fs)
    (e := .facing σ t₂.root t₄.root (top none fs) dz)
    (M := t₄.cells (some z) + pathCells none (some z) fs)
    (hown₃.congr (by rw [Shape.cells_join, Cell.facing_setChild]; abel)) σ.other
  rw [Shape.root_join] at e₄
  rw [Cell.facing_setChild_other, Shape.root_join] at hown₄
  have hcz₄ : h₄ z = some (.facing σ (some x) t₄.root (top none fs) dz) := hown₄.read
  -- the balances
  obtain ⟨h₅, e₅, hown₅⟩ := own_setBalance (a := x) (p := some z)
    (M := t₁.cells (some x) + t₂.cells (some x) +
      cellAt z (Cell.facing σ (some x) t₄.root (top none fs) dz) + t₄.cells (some z) +
      pathCells none (some z) fs)
    (hown₄.congr (by rw [Shape.cells_join]; abel)) (if dz.balance = 0 then σ.sign else 0)
  obtain ⟨h₆, e₆, hown₆⟩ := own_setBalance (a := z) (p := top none fs)
    (M := (Shape.join σ t₁ x (dx.setBalance (if dz.balance = 0 then σ.sign else 0)) t₂).cells
        (some z) + t₄.cells (some z) + pathCells none (some z) fs)
    (hown₅.congr (by rw [Shape.cells_join]; abel)) (if dz.balance = 0 then -σ.sign else 0)
  refine ⟨⟨rootOf fs (some z), h₆⟩, ?_, ?_⟩
  · simp only [AvlLinks.rotate, hcx, hcz, Cell.facing_child, Option.bind_eq_bind, Option.bind_some,
      Cell.facing_data, hx, hz, guard, if_true, Option.pure_def, Cell.facing_parent, e₁, e₂, hcz₂,
      Cell.facing_child_other, e₃, e₄, hcz₄, hroot, hroot']
    by_cases hzero : dz.balance = 0
    · simp only [hzero, if_true] at e₅ e₆
      simp [hzero, e₅, e₆]
    · simp only [hzero, if_false] at e₅ e₆
      simp [hzero, e₅, e₆]
  · rw [holds_plug]
    refine ⟨by rw [rotated, Shape.root_join], hown₆.congr ?_⟩
    rw [rotated, Shape.root_join, Shape.cells_join (a := z), Shape.root_join]
    abel

theorem bind_of_some {B C : Type} {o : Option B} {b : B} {f : B → Option C} {r : Option C}
    (h : o = some b) (hr : f b = r) : o.bind f = r := by
  rw [h, Option.bind_some, hr]

theorem guard_of {p : Prop} [Decidable p] (hp : p) : (guard p : Option Unit) = some () :=
  if_pos hp

theorem rotateTwice_holds
    (hL : Holds L (plug fs (.join σ t₁ x dx (.join σ (.join σ t₂ y dy t₃) z dz t₄))))
    (hx : dx.balance = 2 * σ.sign) (hz : dz.balance = -σ.sign) :
    ∃ L', AvlLinks.rotateTwice σ L x = some L' ∧
      Holds L' (plug fs (rotatedTwice σ t₁ x dx t₂ y dy t₃ z dz t₄)) := by
  obtain ⟨hroot, hown⟩ := holds_plug.mp hL
  rw [Shape.root_join] at hroot hown
  have hcx : L.heap x = some (.facing σ t₁.root (some z) (top none fs) dx) :=
    (hown.mem _ _).mpr (by simp [Shape.cells_join, cellAt])
  have hcz : L.heap z = some (.facing σ (some y) t₄.root (some x) dz) :=
    (hown.mem _ _).mpr (by simp [Shape.cells_join, cellAt])
  have hcy : L.heap y = some (.facing σ t₂.root t₃.root (some z) dy) :=
    (hown.mem _ _).mpr (by simp [Shape.cells_join, cellAt])
  -- `y` takes the place of `x`
  have hown₀ : Own L.heap (pathCells none (some x) fs +
      (cellAt x (Cell.facing σ t₁.root (some z) (top none fs) dx) +
        ((Shape.join σ t₂ y dy t₃).cells (some z) + (t₁.cells (some x) +
          (cellAt z (Cell.facing σ (some y) t₄.root (some x) dz) + t₄.cells (some z)))))) :=
    hown.congr (by
      rw [Shape.cells_join (a := x), Shape.root_join, Shape.cells_join (a := z), Shape.root_join]
      abel)
  have hroot' := rootOf_replace hown₀ (some y)
  obtain ⟨h₁, h₂, e₁, e₂, hown₂⟩ := own_lift hown₀
  rw [Shape.root_join] at e₁ e₂ hown₂
  -- the subtrees of `y` go to `x` and `z`, and these to `y`
  obtain ⟨h₃, e₃, hown₃⟩ := own_hang (x := x) (t := t₂) (q := some y)
    (e := .facing σ t₁.root (some z) (top none fs) dx)
    (M := cellAt y (Cell.facing σ t₂.root t₃.root (top none fs) dy) + t₃.cells (some y) +
      cellAt z (Cell.facing σ (some y) t₄.root (some x) dz) + t₄.cells (some z) +
      t₁.cells (some x) + pathCells none (some y) fs)
    (hown₂.congr (by rw [Shape.cells_join]; abel)) σ
  obtain ⟨h₄, e₄, hown₄⟩ := own_hang (x := z) (t := t₃) (q := some y)
    (e := .facing σ (some y) t₄.root (some x) dz)
    (M := cellAt y (Cell.facing σ t₂.root t₃.root (top none fs) dy) + t₄.cells (some z) +
      (Shape.join σ t₁ x dx t₂).cells (top none fs) + pathCells none (some y) fs)
    (hown₃.congr (by rw [Shape.cells_join, Cell.facing_setChild]; abel)) σ.other
  obtain ⟨h₅, e₅, hown₅⟩ := own_hang (x := y) (t := .join σ t₁ x dx t₂) (q := top none fs)
    (e := .facing σ t₂.root t₃.root (top none fs) dy)
    (M := (Shape.join σ t₃ z dz t₄).cells (some x) + pathCells none (some y) fs)
    (hown₄.congr (by rw [Shape.cells_join (a := z), Cell.facing_setChild_other]; abel)) σ.other
  obtain ⟨h₆, e₆, hown₆⟩ := own_hang (x := y) (t := .join σ t₃ z dz t₄) (q := some x)
    (e := .facing σ (some x) t₃.root (top none fs) dy)
    (M := (Shape.join σ t₁ x dx t₂).cells (some y) + pathCells none (some y) fs)
    (hown₅.congr (by rw [Shape.root_join, Cell.facing_setChild_other]; abel)) σ
  rw [Shape.root_join] at e₅ e₆
  rw [Cell.facing_setChild, Shape.root_join] at hown₆
  have hcy₆ : h₆ y = some (.facing σ (some x) (some z) (top none fs) dy) := hown₆.read
  -- the balances
  obtain ⟨h₇, e₇, hown₇⟩ := own_setBalance (a := x) (p := some y)
    (M := t₁.cells (some x) + t₂.cells (some x) +
      cellAt y (Cell.facing σ (some x) (some z) (top none fs) dy) +
      (Shape.join σ t₃ z dz t₄).cells (some y) + pathCells none (some y) fs)
    (hown₆.congr (by rw [Shape.cells_join (a := x)]; abel)) (AvlLinks.doubleBalance σ dy.balance).1
  obtain ⟨h₈, e₈, hown₈⟩ := own_setBalance (a := z) (p := some y)
    (M := t₃.cells (some z) + t₄.cells (some z) +
      cellAt y (Cell.facing σ (some x) (some z) (top none fs) dy) +
      (Shape.join σ t₁ x (dx.setBalance (AvlLinks.doubleBalance σ dy.balance).1) t₂).cells
        (some y) + pathCells none (some y) fs)
    (hown₇.congr (by rw [Shape.cells_join, Shape.cells_join]; abel))
    (AvlLinks.doubleBalance σ dy.balance).2
  obtain ⟨h₉, e₉, hown₉⟩ := own_setBalance (a := y) (p := top none fs)
    (M := (Shape.join σ t₃ z (dz.setBalance (AvlLinks.doubleBalance σ dy.balance).2) t₄).cells
        (some y) +
      (Shape.join σ t₁ x (dx.setBalance (AvlLinks.doubleBalance σ dy.balance).1) t₂).cells
        (some y) + pathCells none (some y) fs)
    (hown₈.congr (by rw [Shape.cells_join (a := z)]; abel)) 0
  refine ⟨⟨rootOf fs (some y), h₉⟩, ?_, ?_⟩
  · -- the statements of the function, one after the other
    have hrun : AvlLinks.rotateTwice σ L x =
        some ⟨if L.root = some x then some y else L.root, h₉⟩ := by
      unfold AvlLinks.rotateTwice
      refine bind_of_some hcx ?_
      refine bind_of_some (Cell.facing_child ..) ?_
      refine bind_of_some hcz ?_
      refine bind_of_some (Cell.facing_child_other ..) ?_
      rw [Cell.facing_data, Cell.facing_data]
      refine bind_of_some (guard_of hx) ?_
      refine bind_of_some (guard_of hz) ?_
      refine bind_of_some hcy ?_
      rw [Cell.facing_child_other, Cell.facing_child, Cell.facing_parent]
      refine bind_of_some e₁ ?_
      refine bind_of_some e₂ ?_
      refine bind_of_some e₃ ?_
      refine bind_of_some e₄ ?_
      refine bind_of_some e₅ ?_
      refine bind_of_some e₆ ?_
      refine bind_of_some hcy₆ ?_
      rw [Cell.facing_data]
      refine bind_of_some e₇ ?_
      refine bind_of_some e₈ ?_
      exact bind_of_some e₉ rfl
    rw [hrun, hroot, hroot']
  · rw [holds_plug]
    refine ⟨by rw [rotatedTwice, Shape.root_join], hown₉.congr ?_⟩
    rw [rotatedTwice, Shape.root_join, Shape.cells_join (a := y), Shape.root_join, Shape.root_join]
    abel

theorem rebalance_eq {t p : Option A} {c : Cell A (AvlData K V)}
    (hx : L.heap x = some (.facing σ t (some z) p dx)) (hz : L.heap z = some c)
    (hbal : dx.balance = 2 * σ.sign) :
    AvlLinks.rebalance L x =
      if 0 ≤ σ.sign * c.data.balance then AvlLinks.rotate σ L x
      else (AvlLinks.rotateTwice σ L x).bind fun L => some (true, L) := by
  cases σ with
  | left =>
    have hlow : dx.balance < -1 := by rw [hbal]; decide
    have hiff : c.data.balance ≤ 0 ↔ 0 ≤ Side.left.sign * c.data.balance := by
      rw [Side.sign]
      omega
    simp only [AvlLinks.rebalance, hx, hz, Option.bind_eq_bind, Option.bind_some, Cell.facing, hlow,
      if_true, hiff]
    rfl
  | right =>
    have hlow : ¬ dx.balance < -1 := by rw [hbal]; decide
    have hhigh : 1 < dx.balance := by rw [hbal]; decide
    have hiff : 0 ≤ c.data.balance ↔ 0 ≤ Side.right.sign * c.data.balance := by
      rw [Side.sign, one_mul]
    simp only [AvlLinks.rebalance, hx, hz, Option.bind_eq_bind, Option.bind_some, Cell.facing, hlow,
      if_false, hhigh, if_true, hiff]
    rfl

theorem rebalance_holds (hL : Holds L (plug fs (.join σ i x dx o))) (hx : dx.balance = 2 * σ.sign)
    (hi : Balanced i) (ho : Balanced o) (hhigh : o.height = i.height + 2) :
    ∃ decrease L' t', AvlLinks.rebalance L x = some (decrease, L') ∧ Holds L' (plug fs t') ∧
      Balanced t' ∧ pairs t' = pairs (.join σ i x dx o) ∧
      t'.height = o.height + (if decrease then 0 else 1) ∧
      (rootBalance o ≠ 0 → decrease = true) := by
  obtain ⟨t₂, z, dz, t₄, rfl⟩ := Shape.exists_join_of_height σ (t := o) (by omega)
  have hcx := hL.read_root
  rw [Shape.root_join] at hcx
  have hcz : L.heap z = some (.facing σ t₂.root t₄.root (some x) dz) := by
    refine ((holds_plug.mp hL).2.mem _ _).mpr ?_
    simp [Shape.cells_join, cellAt]
  obtain ⟨hbal, hlo, hhi, h₂, h₄⟩ := balanced_join.mp ho
  rw [rebalance_eq hcx hcz hx, Cell.facing_data, rootBalance_join, hhigh]
  by_cases hside : 0 ≤ σ.sign * dz.balance
  · rw [if_pos hside]
    have hz : dz.balance = σ.sign ∨ dz.balance = 0 := by
      cases σ <;> rw [Side.sign] at * <;> omega
    obtain ⟨L', heq, hL'⟩ := rotate_holds hL hx hz
    have hrot := balanced_rotated x dx hi ho hhigh hside
    refine ⟨_, L', _, heq, hL', hrot.1, pairs_rotated, ?_, fun hne => decide_eq_true hne⟩
    rw [hrot.2]
    by_cases hzero : dz.balance = 0 <;> simp [hzero]
  · rw [if_neg hside]
    have hz : dz.balance = -σ.sign := by
      cases σ <;> rw [Side.sign] at * <;> omega
    have hy : 0 < t₂.height := by
      cases σ <;> rw [Side.sign] at * <;> omega
    obtain ⟨t₂, y, dy, t₃, rfl⟩ := Shape.exists_join_of_height σ hy
    obtain ⟨L', heq, hL'⟩ := rotateTwice_holds hL hx hz
    have hrot := balanced_rotatedTwice x dx hi ho hhigh hz
    refine ⟨true, L', _, ?_, hL', hrot.1, pairs_rotatedTwice, hrot.2, fun _ => rfl⟩
    rw [heq, Option.bind_some]

end Mugglec
