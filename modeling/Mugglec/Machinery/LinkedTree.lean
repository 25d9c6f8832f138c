import Mugglec.Machinery.OwnedHeap

/-!
# Machinery/LinkedTree — binary trees in a heap, with parent pointers

A cell holds pointers to its two children and to its parent, and data.  A `Shape` is the shape such
cells make, with the address and the data of every cell.
-/

namespace LinkedTree

open OwnedHeap

variable {A D : Type*}

inductive Side
  | left | right
deriving DecidableEq, Repr

namespace Side

def other : Side → Side
  | left => right
  | right => left

def sign : Side → ℤ
  | left => -1
  | right => 1

@[simp] theorem sign_other (σ : Side) : σ.other.sign = -σ.sign := by
  cases σ <;> rfl

theorem sign_mul (σ : Side) (x : ℤ) : σ.sign * x = x ∨ σ.sign * x = -x := by
  cases σ <;> simp [sign]

end Side

structure Cell (A D : Type*) where
  left : Option A
  right : Option A
  parent : Option A
  data : D
deriving DecidableEq, Repr

namespace Cell

def child (c : Cell A D) : Side → Option A
  | .left => c.left
  | .right => c.right

def setChild (c : Cell A D) (σ : Side) (p : Option A) : Cell A D :=
  match σ with
  | .left => { c with left := p }
  | .right => { c with right := p }

def setParent (c : Cell A D) (p : Option A) : Cell A D := { c with parent := p }

def mapData (c : Cell A D) (f : D → D) : Cell A D := { c with data := f c.data }

def facing (σ : Side) (i o p : Option A) (d : D) : Cell A D :=
  match σ with
  | .left => ⟨o, i, p, d⟩
  | .right => ⟨i, o, p, d⟩

variable (σ : Side) (i o p q : Option A) (d : D) (f : D → D)

@[simp] theorem facing_child : (facing σ i o p d).child σ = o := by
  cases σ <;> rfl

@[simp] theorem facing_child_other : (facing σ i o p d).child σ.other = i := by
  cases σ <;> rfl

@[simp] theorem facing_parent : (facing σ i o p d).parent = p := by
  cases σ <;> rfl

@[simp] theorem facing_data : (facing σ i o p d).data = d := by
  cases σ <;> rfl

@[simp] theorem facing_setChild : (facing σ i o p d).setChild σ q = facing σ i q p d := by
  cases σ <;> rfl

@[simp] theorem facing_setChild_other :
    (facing σ i o p d).setChild σ.other q = facing σ q o p d := by
  cases σ <;> rfl

@[simp] theorem facing_mapData : (facing σ i o p d).mapData f = facing σ i o p (f d) := by
  cases σ <;> rfl

variable [DecidableEq A]

def sideOf (c : Cell A D) (x : A) : Side :=
  if c.left = some x then .left else .right

variable {σ i} in
theorem sideOf_facing {x : A} (hne : i ≠ some x) : (facing σ i (some x) p d).sideOf x = σ := by
  cases σ with
  | left => exact if_pos rfl
  | right => exact if_neg hne

end Cell

inductive Shape (A D : Type*)
  | nil
  | node (l : Shape A D) (a : A) (d : D) (r : Shape A D)

namespace Shape

def root : Shape A D → Option A
  | nil => none
  | node _ a _ _ => some a

def child : Shape A D → Side → Shape A D
  | nil, _ => nil
  | node l _ _ _, .left => l
  | node _ _ _ r, .right => r

def inorder : Shape A D → List D
  | nil => []
  | node l _ d r => l.inorder ++ d :: r.inorder

def postorder : Shape A D → List D
  | nil => []
  | node l _ d r => l.postorder ++ (r.postorder ++ [d])

def height : Shape A D → ℕ
  | nil => 0
  | node l _ _ r => max l.height r.height + 1

def size : Shape A D → ℕ
  | nil => 0
  | node l _ _ r => l.size + r.size + 1

theorem postorder_perm (t : Shape A D) : t.postorder.Perm t.inorder := by
  induction t with
  | nil => exact List.Perm.refl _
  | node l a d r ihl ihr =>
    refine ihl.append ((ihr.append_right [d]).trans ?_)
    exact List.perm_append_singleton d r.inorder

def join (σ : Side) (i : Shape A D) (a : A) (d : D) (o : Shape A D) : Shape A D :=
  match σ with
  | .left => node o a d i
  | .right => node i a d o

def cells : Option A → Shape A D → Multiset (A × Cell A D)
  | _, nil => 0
  | p, node l a d r =>
    cellAt a ⟨l.root, r.root, p, d⟩ + (cells (some a) l + cells (some a) r)

variable {σ : Side} {i o t : Shape A D} {a : A} {d : D} {p : Option A}

@[simp] theorem root_join : (join σ i a d o).root = some a := by
  cases σ <;> rfl

@[simp] theorem height_join : (join σ i a d o).height = max i.height o.height + 1 := by
  cases σ with
  | left => exact congrArg (· + 1) (max_comm _ _)
  | right => rfl

@[simp] theorem size_join : (join σ i a d o).size = i.size + o.size + 1 := by
  cases σ with
  | left => exact congrArg (· + 1) (Nat.add_comm _ _)
  | right => rfl

theorem join_child (σ : Side) (l : Shape A D) (a : A) (d : D) (r : Shape A D) :
    join σ ((node l a d r).child σ.other) a d ((node l a d r).child σ) = node l a d r := by
  cases σ <;> rfl

theorem cells_join : cells p (join σ i a d o) =
    cellAt a (.facing σ i.root o.root p d) + (cells (some a) i + cells (some a) o) := by
  cases σ with
  | left => rw [join, cells, Cell.facing, add_comm (cells (some a) i)]
  | right => rfl

theorem eq_nil_of_root (h : t.root = none) : t = nil := by
  cases t with
  | nil => rfl
  | node => exact absurd h (by simp [root])

theorem exists_join_of_root (σ : Side) (h : t.root = some a) : ∃ i d o, t = join σ i a d o := by
  cases t with
  | nil => exact absurd h (by simp [root])
  | node l b d r =>
    obtain rfl : b = a := Option.some.inj h
    exact ⟨_, d, _, (join_child σ l b d r).symm⟩

theorem exists_join_of_height (σ : Side) (h : 0 < t.height) : ∃ i a d o, t = join σ i a d o := by
  cases t with
  | nil => exact absurd h (lt_irrefl 0)
  | node l a d r => exact ⟨_, a, d, _, (join_child σ l a d r).symm⟩

theorem join_other : join σ.other o a d i = join σ i a d o := by
  cases σ <;> rfl

theorem card_cells (p : Option A) (t : Shape A D) : (cells p t).card = t.size := by
  induction t generalizing p with
  | nil => rfl
  | node l a d r ihl ihr =>
    rw [cells, Multiset.card_add, Multiset.card_add, ihl, ihr, cellAt, Multiset.card_singleton,
      size]
    omega

end Shape

structure Frame (A D : Type*) where
  side : Side
  addr : A
  data : D
  sib : Shape A D

namespace Frame

def fill (f : Frame A D) (t : Shape A D) : Shape A D := .join f.side f.sib f.addr f.data t

end Frame

def plug : List (Frame A D) → Shape A D → Shape A D
  | [], t => t
  | f :: fs, t => plug fs (f.fill t)

def top (p : Option A) : List (Frame A D) → Option A
  | [] => p
  | f :: _ => some f.addr

def rootOf : List (Frame A D) → Option A → Option A
  | [], c => c
  | f :: fs, _ => rootOf fs (some f.addr)

def before : List (Frame A D) → List D
  | [] => []
  | f :: fs =>
    match f.side with
    | .left => before fs
    | .right => before fs ++ (f.sib.inorder ++ [f.data])

def after : List (Frame A D) → List D
  | [] => []
  | f :: fs =>
    match f.side with
    | .left => f.data :: (f.sib.inorder ++ after fs)
    | .right => after fs

def pathCells (p : Option A) : Option A → List (Frame A D) → Multiset (A × Cell A D)
  | _, [] => 0
  | c, f :: fs =>
    cellAt f.addr (.facing f.side f.sib.root c (top p fs) f.data) +
      (f.sib.cells (some f.addr) + pathCells p (some f.addr) fs)

section Paths

variable {f : Frame A D} {fs gs : List (Frame A D)} {t : Shape A D} {p c : Option A}

@[simp] theorem plug_nil : plug [] t = t := rfl

@[simp] theorem plug_cons : plug (f :: fs) t = plug fs (f.fill t) := rfl

@[simp] theorem top_cons : top p (f :: fs) = some f.addr := rfl

theorem plug_append : plug (fs ++ gs) t = plug gs (plug fs t) := by
  induction fs generalizing t with
  | nil => rfl
  | cons f fs ih => exact ih

theorem root_plug : (plug fs t).root = rootOf fs t.root := by
  induction fs generalizing t with
  | nil => rfl
  | cons f fs ih =>
    rw [plug_cons, ih, rootOf, Frame.fill, Shape.root_join]

theorem inorder_plug : (plug fs t).inorder = before fs ++ (t.inorder ++ after fs) := by
  induction fs generalizing t with
  | nil => simp [before, after]
  | cons f fs ih =>
    obtain ⟨side, a, d, sib⟩ := f
    rw [plug_cons, ih]
    cases side <;> simp [Frame.fill, Shape.join, Shape.inorder, before, after]

theorem before_append : before (fs ++ gs) = before gs ++ before fs := by
  induction fs with
  | nil => simp [before]
  | cons f fs ih =>
    obtain ⟨side, a, d, sib⟩ := f
    cases side <;> simp [before, ih]

theorem after_append : after (fs ++ gs) = after fs ++ after gs := by
  induction fs with
  | nil => rfl
  | cons f fs ih =>
    obtain ⟨side, a, d, sib⟩ := f
    cases side <;> simp [after, ih]

theorem cells_plug : (plug fs t).cells p = t.cells (top p fs) + pathCells p t.root fs := by
  induction fs generalizing t with
  | nil => simp [top, pathCells]
  | cons f fs ih =>
    rw [plug_cons, ih, Frame.fill, Shape.cells_join, Shape.root_join, pathCells, top]
    abel

theorem length_le_card_pathCells : fs.length ≤ (pathCells p c fs).card := by
  induction fs generalizing c with
  | nil => exact Nat.zero_le _
  | cons f fs ih =>
    rw [pathCells, Multiset.card_add, Multiset.card_add, cellAt, Multiset.card_singleton,
      List.length_cons]
    have := ih (c := some f.addr)
    omega

theorem size_plug : (plug fs t).size = t.size + (pathCells none t.root fs).card := by
  rw [← Shape.card_cells none, cells_plug, Multiset.card_add, Shape.card_cells]

theorem size_add_length_le (t : Shape A D) (fs : List (Frame A D)) :
    t.size + fs.length ≤ (plug fs t).size := by
  rw [size_plug]
  exact Nat.add_le_add_left length_le_card_pathCells _

end Paths

theorem exists_plug_of_mem_cells {t : Shape A D} {p : Option A} {a : A} {c : Cell A D}
    (h : (a, c) ∈ t.cells p) : ∃ fs l d r, t = plug fs (.node l a d r) := by
  induction t generalizing p with
  | nil => exact absurd h (by simp [Shape.cells])
  | node l b d r ihl ihr =>
    rw [Shape.cells, Multiset.mem_add, Multiset.mem_add] at h
    rcases h with h | h | h
    · obtain rfl : a = b := congrArg Prod.fst (Multiset.mem_singleton.mp h)
      exact ⟨[], l, d, r, rfl⟩
    · obtain ⟨fs, l', d', r', rfl⟩ := ihl h
      exact ⟨fs ++ [⟨.left, b, d, r⟩], l', d', r', by rw [plug_append]; rfl⟩
    · obtain ⟨fs, l', d', r', rfl⟩ := ihr h
      exact ⟨fs ++ [⟨.right, b, d, l⟩], l', d', r', by rw [plug_append]; rfl⟩

structure Links (A D : Type*) where
  root : Option A
  heap : A → Option (Cell A D)

structure Holds (L : Links A D) (t : Shape A D) : Prop where
  root : L.root = t.root
  own : Own L.heap (t.cells none)

theorem holds_plug {L : Links A D} {fs : List (Frame A D)} {t : Shape A D} :
    Holds L (plug fs t) ↔ L.root = rootOf fs t.root ∧
      Own L.heap (t.cells (top none fs) + pathCells none t.root fs) := by
  constructor
  · intro hL
    exact ⟨hL.root.trans root_plug, hL.own.congr cells_plug⟩
  · rintro ⟨hroot, hown⟩
    exact ⟨hroot.trans root_plug.symm, hown.congr cells_plug.symm⟩

section Operations

variable {h : A → Option (Cell A D)} {M : Multiset (A × Cell A D)} {x : A}
  {p q c : Option A} {e : Cell A D} {t : Shape A D} {f : Frame A D} {fs : List (Frame A D)}

theorem root_ne_of_own (hown : Own h (cellAt x e + (t.cells q + M))) : t.root ≠ some x := by
  cases t with
  | nil => exact fun hroot => absurd hroot (by simp [Shape.root])
  | node l a d r =>
    intro hroot
    rw [Shape.cells, add_assoc] at hown
    exact hown.ne (Option.some.inj hroot).symm

theorem sib_root_ne (hown : Own h (pathCells p c (f :: fs) + (cellAt x e + M))) :
    f.sib.root ≠ some x :=
  root_ne_of_own (hown.congr (by rw [pathCells]; abel :
    _ = cellAt x e + (f.sib.cells (some f.addr) +
      (cellAt f.addr (.facing f.side f.sib.root c (top p fs) f.data) +
        pathCells p (some f.addr) fs + M))))

theorem read_top (hown : Own h (pathCells p c (f :: fs) + M)) :
    h f.addr = some (.facing f.side f.sib.root c (top p fs) f.data) :=
  Own.read (hown.congr (by rw [pathCells]; abel :
    _ = cellAt f.addr (.facing f.side f.sib.root c (top p fs) f.data) +
      (f.sib.cells (some f.addr) + pathCells p (some f.addr) fs + M)))

theorem Holds.read_root {L : Links A D} {σ : Side} {i o : Shape A D} {a : A} {d : D}
    (hL : Holds L (plug fs (.join σ i a d o))) :
    L.heap a = some (.facing σ i.root o.root (top none fs) d) :=
  ((holds_plug.mp hL).2.mem _ _).mpr (by simp [Shape.cells_join, cellAt])

theorem own_tail (hown : Own h (pathCells p c (f :: fs) + (cellAt x e + M))) :
    some f.addr ≠ some x ∧ ∃ N, Own h (pathCells p (some f.addr) fs + (cellAt x e + N)) := by
  have hown' : Own h (cellAt f.addr (.facing f.side f.sib.root c (top p fs) f.data) +
      (cellAt x e + (f.sib.cells (some f.addr) + pathCells p (some f.addr) fs + M))) :=
    hown.congr (by rw [pathCells]; abel)
  refine ⟨fun heq => hown'.ne (Option.some.inj heq), ?_⟩
  refine ⟨cellAt f.addr (.facing f.side f.sib.root c (top p fs) f.data) +
    (f.sib.cells (some f.addr) + M), hown'.congr ?_⟩
  abel

theorem rootOf_ne (hown : Own h (pathCells p c fs + (cellAt x e + M))) (hc : c ≠ some x) :
    rootOf fs c ≠ some x := by
  induction fs generalizing c M with
  | nil => exact hc
  | cons f fs ih =>
    obtain ⟨hne, N, htail⟩ := own_tail hown
    exact ih htail hne

variable [DecidableEq A]

def setParent (h : A → Option (Cell A D)) (a p : Option A) : Option (A → Option (Cell A D)) :=
  match a with
  | none => some h
  | some a => modify h a (·.setParent p)

def hang (h : A → Option (Cell A D)) (x : A) (σ : Side) (t : Option A) :
    Option (A → Option (Cell A D)) :=
  (modify h x (·.setChild σ t)).bind fun h => setParent h t (some x)

def replaceChild (h : A → Option (Cell A D)) (p : Option A) (x : A) (z : Option A) :
    Option (A → Option (Cell A D)) :=
  match p with
  | none => some h
  | some p => modify h p fun c => c.setChild (c.sideOf x) z

theorem own_setParent (hown : Own h (t.cells q + M)) (p : Option A) :
    ∃ h', setParent h t.root p = some h' ∧ Own h' (t.cells p + M) := by
  cases t with
  | nil => exact ⟨h, rfl, hown⟩
  | node l a d r =>
    have hown' : Own h (cellAt a ⟨l.root, r.root, q, d⟩ +
        (l.cells (some a) + r.cells (some a) + M)) := hown.congr (by rw [Shape.cells]; abel)
    obtain ⟨h', heq, hown'⟩ := hown'.modify (·.setParent p)
    refine ⟨h', heq, hown'.congr ?_⟩
    rw [Shape.cells, Cell.setParent]
    abel

theorem own_hang (hown : Own h (cellAt x e + (t.cells q + M))) (σ : Side) :
    ∃ h', hang h x σ t.root = some h' ∧
      Own h' (cellAt x (e.setChild σ t.root) + (t.cells (some x) + M)) := by
  obtain ⟨h₁, heq₁, hown₁⟩ := hown.modify (·.setChild σ t.root)
  obtain ⟨h₂, heq₂, hown₂⟩ := own_setParent (hown₁.congr (add_left_comm _ _ _)) (some x)
  refine ⟨h₂, ?_, hown₂.congr (add_left_comm _ _ _)⟩
  rw [hang, heq₁, Option.bind_some, heq₂]

theorem own_replaceChild (hown : Own h (pathCells none (some x) fs + (cellAt x e + M)))
    (z : Option A) : ∃ h', replaceChild h (top none fs) x z = some h' ∧
      Own h' (pathCells none z fs + (cellAt x e + M)) := by
  cases fs with
  | nil => exact ⟨h, rfl, hown⟩
  | cons f fs =>
    have hside := Cell.sideOf_facing (σ := f.side) (top none fs) f.data (sib_root_ne hown)
    have hown' : Own h (cellAt f.addr (.facing f.side f.sib.root (some x) (top none fs) f.data) +
        (f.sib.cells (some f.addr) + pathCells none (some f.addr) fs + (cellAt x e + M))) :=
      hown.congr (by rw [pathCells]; abel)
    obtain ⟨h', heq, hown'⟩ := hown'.modify fun c => c.setChild (c.sideOf x) z
    refine ⟨h', heq, hown'.congr ?_⟩
    rw [hside, Cell.facing_setChild, pathCells]
    abel

theorem Holds.modify_top {L : Links A D} (hL : Holds L (plug (f :: fs) t)) (g : D → D) :
    ∃ h, modify L.heap f.addr (·.mapData g) = some h ∧
      h f.addr = some (.facing f.side f.sib.root t.root (top none fs) (g f.data)) ∧
      Holds ⟨L.root, h⟩ (plug ({ f with data := g f.data } :: fs) t) := by
  obtain ⟨hroot, hown⟩ := holds_plug.mp hL
  have hown' : Own L.heap (cellAt f.addr (.facing f.side f.sib.root t.root (top none fs) f.data) +
      (f.sib.cells (some f.addr) + pathCells none (some f.addr) fs + t.cells (some f.addr))) :=
    hown.congr (by rw [pathCells, top]; abel)
  obtain ⟨h, heq, hown'⟩ := hown'.modify (·.mapData g)
  rw [Cell.facing_mapData] at hown'
  refine ⟨h, heq, hown'.read, holds_plug.mpr ⟨hroot, hown'.congr ?_⟩⟩
  rw [pathCells, top]
  abel

theorem Holds.read_parent {L : Links A D} {g : Frame A D} (hL : Holds L (plug (f :: g :: fs) t)) :
    ∃ c, L.heap g.addr = some c ∧ c.sideOf f.addr = g.side := by
  obtain ⟨-, hown⟩ := holds_plug.mp hL
  have hown' : Own L.heap (pathCells none (some f.addr) (g :: fs) +
      (cellAt f.addr (.facing f.side f.sib.root t.root (some g.addr) f.data) +
        (f.sib.cells (some f.addr) + t.cells (some f.addr)))) :=
    hown.congr (by rw [pathCells, top, top]; abel)
  exact ⟨_, read_top hown', Cell.sideOf_facing _ _ (sib_root_ne hown')⟩

theorem own_lift
    (hown : Own h (pathCells none (some x) fs + (cellAt x e + (t.cells q + M)))) :
    ∃ h₁ h₂, replaceChild h (top none fs) x t.root = some h₁ ∧
      setParent h₁ t.root (top none fs) = some h₂ ∧
      Own h₂ (pathCells none t.root fs + (cellAt x e + (t.cells (top none fs) + M))) := by
  obtain ⟨h₁, heq₁, hown₁⟩ := own_replaceChild hown t.root
  obtain ⟨h₂, heq₂, hown₂⟩ := own_setParent (t := t) (q := q)
    (M := pathCells none t.root fs + (cellAt x e + M)) (hown₁.congr (by abel)) (top none fs)
  exact ⟨h₁, h₂, heq₁, heq₂, hown₂.congr (by abel)⟩

theorem rootOf_replace (hown : Own h (pathCells p (some x) fs + (cellAt x e + M)))
    (z : Option A) :
    (if rootOf fs (some x) = some x then z else rootOf fs (some x)) = rootOf fs z := by
  cases fs with
  | nil => exact if_pos rfl
  | cons f fs =>
    obtain ⟨hne, N, htail⟩ := own_tail hown
    exact if_neg (rootOf_ne htail hne)

end Operations

end LinkedTree
