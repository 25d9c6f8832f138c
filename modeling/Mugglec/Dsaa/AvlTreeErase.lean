import Mugglec.Base.Utils
import Mugglec.Dsaa.AvlTreeRetrace

/-!
# Dsaa/AvlTreeErase — removing a node

`muggle_avl_tree_remove` exchanges the pair to be removed with its neighbour in the order of the
keys, down to a leaf.  An exchange leaves the shape and the balances alone.
-/

namespace Mugglec

open Function LinkedTree OwnedHeap AvlLinks

variable {A K V : Type}

def others (fs : List (Frame A (AvlData K V))) (t : Shape A (AvlData K V)) :
    List (Option K × Option V) :=
  (before fs).map AvlData.pair ++
    (pairs (t.child .left) ++ (pairs (t.child .right) ++ (after fs).map AvlData.pair))

variable {σ τ : Side} {a b : A} {d e d' e' : AvlData K V} {l r i o t t' : Shape A (AvlData K V)}
  {inner fs : List (Frame A (AvlData K V))} {n rounds : ℕ}

@[simp] theorem pair_setPair (q : Option K × Option V) : (d.setPair q).pair = q := rfl

@[simp] theorem balance_setPair (q : Option K × Option V) : (d.setPair q).balance = d.balance := rfl

theorem length_pairs (t : Shape A (AvlData K V)) : (pairs t).length = t.size := by
  induction t with
  | nil => rfl
  | node l a d r ihl ihr =>
    simp only [pairs, List.length_map] at ihl ihr
    simp only [pairs, Shape.inorder, List.length_map, List.length_append, List.length_cons, ihl,
      ihr, Shape.size]
    omega

theorem after_eq_nil (h : ∀ f ∈ fs, f.side = .right) : after fs = [] := by
  induction fs with
  | nil => rfl
  | cons f fs ih =>
    rw [after, h f List.mem_cons_self]
    exact ih fun g hg => h g (List.mem_cons_of_mem f hg)

theorem before_eq_nil (h : ∀ f ∈ fs, f.side = .left) : before fs = [] := by
  induction fs with
  | nil => rfl
  | cons f fs ih =>
    rw [before, h f List.mem_cons_self]
    exact ih fun g hg => h g (List.mem_cons_of_mem f hg)

theorem others_sink (hinner : ∀ f ∈ inner, f.side = σ.other) :
    others (inner ++ ⟨σ, a, d.setPair e.pair, i⟩ :: fs)
        (.join σ.other o b (e.setPair d.pair) .nil) =
      others fs (.join σ i a d (plug inner (.join σ.other o b e .nil))) := by
  cases σ with
  | left =>
    have hafter := after_eq_nil hinner
    simp [others, before_append, after_append, before, after, hafter, Shape.join, Shape.child,
      pairs, Side.other, inorder_plug, Shape.inorder]
  | right =>
    have hbefore := before_eq_nil hinner
    simp [others, before_append, after_append, before, after, hbefore, Shape.join, Shape.child,
      pairs, Side.other, inorder_plug, Shape.inorder]

theorem height_plug_congr (h : t.height = t'.height) :
    (plug fs t).height = (plug fs t').height := by
  induction fs generalizing t t' with
  | nil => exact h
  | cons f fs ih =>
    exact ih (by rw [Frame.fill, Frame.fill, Shape.height_join, Shape.height_join, h])

theorem balanced_swap (hd : d'.balance = d.balance) (he : e'.balance = e.balance)
    (h : Balanced (plug fs (.join σ i a d (plug inner (.join τ o b e t))))) :
    Balanced (plug fs (.join σ i a d' (plug inner (.join τ o b e' t)))) := by
  have hheight : (Shape.join τ o b e' t).height = (Shape.join τ o b e t).height := by
    rw [Shape.height_join, Shape.height_join]
  simp only [balanced_plug, balanced_join, Shape.height_join, height_plug_congr hheight, hd, he]
    at h ⊢
  exact h

variable {L : AvlLinks A K V} {T : AvlTree A K V}
  {h : A → Option (Cell A (AvlData K V))} {M : Multiset (A × Cell A (AvlData K V))} {p : Option A}

theorem extreme_spec (σ : Side) (hown : Own h (t.cells p + M)) (hroot : t.root = some a)
    (hrounds : t.size ≤ n) : ∃ inner o b e, extreme σ h n a = some b ∧
      t = plug inner (.join σ o b e .nil) ∧ ∀ f ∈ inner, f.side = σ := by
  induction n generalizing t a p M with
  | zero =>
    obtain ⟨i, d, o, rfl⟩ := Shape.exists_join_of_root σ hroot
    exact absurd hrounds (by rw [Shape.size_join]; omega)
  | succ n ih =>
    obtain ⟨i, d, o, rfl⟩ := Shape.exists_join_of_root σ hroot
    rw [Shape.cells_join] at hown
    have hcell : h a = some (.facing σ i.root o.root p d) :=
      (hown.mem _ _).mpr (by simp [cellAt])
    simp only [extreme, hcell, Option.bind_eq_bind, Option.bind_some, Cell.facing_child,
      Option.pure_def]
    cases hnext : o.root with
    | none =>
      obtain rfl := Shape.eq_nil_of_root hnext
      exact ⟨[], i, a, d, rfl, rfl, fun f hf => absurd hf (by simp)⟩
    | some next =>
      have hown' : Own h (o.cells (some a) +
          (cellAt a (.facing σ i.root o.root p d) + i.cells (some a) + M)) :=
        hown.congr (by abel)
      obtain ⟨inner, o', b, e, heq, rfl, hinner⟩ := ih hown' hnext (by
        rw [Shape.size_join] at hrounds
        omega)
      refine ⟨inner ++ [⟨σ, a, d, i⟩], o', b, e, heq, ?_, fun f hf => ?_⟩
      · rw [plug_append]
        rfl
      · rcases List.mem_append.mp hf with hf | hf
        · exact hinner f hf
        · rw [List.mem_singleton.mp hf]

theorem size_plug_node :
    (plug fs (.node l a d r)).size = (others fs (.node l a d r)).length + 1 := by
  rw [← length_pairs, pairs_plug]
  simp only [others, pairs, Shape.inorder, Shape.child, List.length_append, List.length_map,
    List.length_cons]
  omega

theorem pairs_plug_nil : pairs (plug fs .nil) = others fs (.node .nil b e .nil) := by
  rw [pairs_plug]
  rfl

variable [DecidableEq A]

theorem swapPairs_holds
    (hL : Holds L (plug fs (.join σ i a d (plug inner (.join τ o b e t))))) :
    ∃ h, swapPairs L.heap a b = some h ∧ Holds ⟨L.root, h⟩
      (plug fs
        (.join σ i a (d.setPair e.pair) (plug inner (.join τ o b (e.setPair d.pair) t)))) := by
  obtain ⟨hroot, hown⟩ := holds_plug.mp hL
  rw [Shape.root_join, Shape.cells_join, cells_plug, root_plug, Shape.cells_join, Shape.root_join]
    at hown
  have hcb : L.heap b = some (.facing τ o.root t.root (top (some a) inner) e) :=
    (hown.mem _ _).mpr (by simp [cellAt])
  obtain ⟨h₁, e₁, hown₁⟩ := Own.modify (a := a)
    (c := .facing σ i.root (rootOf inner (some b)) (top none fs) d)
    (M := i.cells (some a) + (cellAt b (.facing τ o.root t.root (top (some a) inner) e) +
      (o.cells (some b) + t.cells (some b))) + pathCells (some a) (some b) inner +
      pathCells none (some a) fs)
    (hown.congr (by abel)) (·.mapData (·.setPair e.pair))
  obtain ⟨h₂, e₂, hown₂⟩ := Own.modify (a := b)
    (c := .facing τ o.root t.root (top (some a) inner) e)
    (M := i.cells (some a) + (o.cells (some b) + t.cells (some b)) +
      pathCells (some a) (some b) inner + pathCells none (some a) fs +
      cellAt a (.facing σ i.root (rootOf inner (some b)) (top none fs) (d.setPair e.pair)))
    (hown₁.congr (by rw [Cell.facing_mapData]; abel)) (·.mapData (·.setPair d.pair))
  refine ⟨h₂, ?_, holds_plug.mpr ⟨by rw [Shape.root_join] at hroot ⊢; exact hroot, ?_⟩⟩
  · simp only [swapPairs, hL.read_root, hcb, Option.bind_eq_bind, Option.bind_some,
      Cell.facing_data, e₁, e₂]
  · rw [Shape.root_join, Shape.cells_join, cells_plug, root_plug, Shape.cells_join, Shape.root_join]
    rw [Cell.facing_mapData] at hown₂
    exact hown₂.congr (by abel)

theorem sinkRound_holds (hL : Holds L (plug fs (.join σ i a d t)))
    (hbal : Balanced (plug fs (.join σ i a d t))) {c : A} (hroot : t.root = some c)
    (hrounds : t.size ≤ rounds) :
    ∃ h fs' o b e, extreme σ.other L.heap rounds c = some b ∧ swapPairs L.heap a b = some h ∧
      Holds ⟨L.root, h⟩ (plug fs' (.join σ.other o b e .nil)) ∧
      Balanced (plug fs' (.join σ.other o b e .nil)) ∧ e.pair = d.pair ∧
      others fs' (.join σ.other o b e .nil) = others fs (.join σ i a d t) ∧ o.size < t.size := by
  have hown : Own L.heap (t.cells (some a) + (cellAt a (.facing σ i.root t.root (top none fs) d) +
      i.cells (some a) + pathCells none (some a) fs)) :=
    (holds_plug.mp hL).2.congr (by rw [Shape.cells_join, Shape.root_join]; abel)
  obtain ⟨inner, o, b, e, heq, rfl, hinner⟩ := extreme_spec σ.other hown hroot hrounds
  obtain ⟨h, hswap, hH⟩ := swapPairs_holds hL
  refine ⟨h, inner ++ ⟨σ, a, d.setPair e.pair, i⟩ :: fs, o, b, e.setPair d.pair, heq, hswap, ?_, ?_,
    rfl, others_sink hinner, ?_⟩
  · rw [plug_append]
    exact hH
  · rw [plug_append]
    exact balanced_swap (balance_setPair _) (balance_setPair _) hbal
  · rw [size_plug, Shape.size_join]
    omega

theorem sink_holds (hL : Holds L (plug fs (.node l a d r)))
    (hbal : Balanced (plug fs (.node l a d r)))
    (hn : (Shape.node l a d r).size ≤ n) (hrounds : (Shape.node l a d r).size ≤ rounds) :
    ∃ L' fs' b e, sink rounds n L a = some (b, L') ∧ Holds L' (plug fs' (.node .nil b e .nil)) ∧
      Balanced (plug fs' (.node .nil b e .nil)) ∧ e.pair = d.pair ∧
      others fs' (.node .nil b e .nil) = others fs (.node l a d r) := by
  induction n generalizing L fs l a d r with
  | zero => exact absurd hn (by simp [Shape.size])
  | succ n ih =>
    have hcell : L.heap a = some ⟨l.root, r.root, top none fs, d⟩ :=
      Holds.read_root (σ := .right) hL
    rw [Shape.size] at hn hrounds
    have hnil : (Shape.nil : Shape A (AvlData K V)).size = 0 := rfl
    simp only [sink, hcell, Option.bind_eq_bind, Option.bind_some, Option.pure_def]
    cases hl : l.root with
    | some c =>
      have hle : l.size ≤ rounds := by omega
      obtain ⟨h, fs', o, b, e, heq, hswap, hH, hbal', hpair, hothers, hsize⟩ :=
        sinkRound_holds (σ := .left) hL hbal hl hle
      obtain ⟨L', fs'', b', e', hsink, hL', hbal'', hpair', hothers'⟩ :=
        ih (l := o) (r := .nil) hH hbal' (by rw [Shape.size]; omega) (by rw [Shape.size]; omega)
      refine ⟨L', fs'', b', e', ?_, hL', hbal'', hpair'.trans hpair, hothers'.trans hothers⟩
      have hextreme : extreme .right L.heap rounds c = some b := heq
      simp only [hextreme, Option.bind_some, hswap, hsink]
    | none =>
      obtain rfl := Shape.eq_nil_of_root hl
      cases hr : r.root with
      | none =>
        obtain rfl := Shape.eq_nil_of_root hr
        exact ⟨L, fs, a, d, rfl, hL, hbal, rfl, rfl⟩
      | some c =>
        have hle : r.size ≤ rounds := by omega
        obtain ⟨h, fs', o, b, e, heq, hswap, hH, hbal', hpair, hothers, hsize⟩ :=
          sinkRound_holds (σ := .right) hL hbal hr hle
        obtain ⟨L', fs'', b', e', hsink, hL', hbal'', hpair', hothers'⟩ :=
          ih (l := .nil) (r := o) hH hbal' (by rw [Shape.size]; omega) (by rw [Shape.size]; omega)
        refine ⟨L', fs'', b', e', ?_, hL', hbal'', hpair'.trans hpair, hothers'.trans hothers⟩
        have hextreme : extreme .left L.heap rounds c = some b := heq
        simp only [hextreme, Option.bind_some, hswap, hsink]

def AvlTree.eraseChild (keyFree valueFree : Bool) (n : ℕ) (T : AvlTree A K V) :
    Option A → Option (AvlTree A K V)
  | none => some T
  | some a => T.eraseNode keyFree valueFree n a

theorem AvlTree.eraseNode_succ (keyFree valueFree : Bool) (n : ℕ) (T : AvlTree A K V) (node : A) :
    T.eraseNode keyFree valueFree (n + 1) node =
      (T.heap node).bind fun c => (T.eraseChild keyFree valueFree n c.left).bind fun T =>
      (T.heap node).bind fun c => (T.eraseChild keyFree valueFree n c.right).bind fun T =>
      (T.heap node).bind fun c => (replaceChild T.heap c.parent node none).map fun h =>
        { root := T.root
          heap := update h node none
          nodes := T.nodes - 1
          freedKeys := T.freedKeys ++ freed keyFree c.data.key
          freedValues := T.freedValues ++ freed valueFree c.data.value } := by
  have hfreed : ∀ {α : Type} (given : Bool) (xs : List α) (q : Option α),
      (if given then xs ++ q.toList else xs) = xs ++ freed given q := fun given xs q => by
    cases given <;> simp [freed]
  simp only [AvlTree.eraseNode, Option.bind_eq_bind, Option.pure_def, hfreed, Option.map_eq_bind,
    comp_def]
  refine congrArg _ (funext fun c => ?_)
  split
  all_goals
    next heq =>
      rw [heq]
      refine congrArg (Option.bind _) (funext fun T => congrArg _ (funext fun c => ?_))
      split <;> next heq => rw [heq]; rfl

def AvlTree.erased (T : AvlTree A K V) (keyFree valueFree : Bool) (t : Shape A (AvlData K V))
    (h : A → Option (Cell A (AvlData K V))) : AvlTree A K V where
  root := T.root
  heap := h
  nodes := T.nodes - t.size
  freedKeys := T.freedKeys ++ t.postorder.flatMap (freed keyFree ·.key)
  freedValues := T.freedValues ++ t.postorder.flatMap (freed valueFree ·.value)

theorem eraseNode_subtree (keyFree valueFree : Bool)
    (hown : Own T.heap (t.cells (top none fs) + pathCells none t.root fs)) (hn : t.size ≤ n) :
    ∃ h, T.eraseChild keyFree valueFree n t.root = some (T.erased keyFree valueFree t h) ∧
      Own h (pathCells none none fs) := by
  induction t generalizing T fs n with
  | nil =>
    refine ⟨T.heap, ?_, hown.congr (zero_add _)⟩
    simp [AvlTree.eraseChild, Shape.root, AvlTree.erased, Shape.size, Shape.postorder]
  | node l a d r ihl ihr =>
    obtain ⟨n, rfl⟩ : ∃ m, n = m + 1 := ⟨n - 1, by rw [Shape.size] at hn; omega⟩
    rw [Shape.size] at hn
    rw [Shape.cells, Shape.root] at hown
    have hcell : T.heap a = some ⟨l.root, r.root, top none fs, d⟩ :=
      Own.read (hown.congr (add_assoc _ _ _))
    -- the left subtree, at the end of the path through `a`
    have hpath : Own T.heap (l.cells (top none (⟨.left, a, d, r⟩ :: fs)) +
        pathCells none l.root (⟨.left, a, d, r⟩ :: fs)) :=
      hown.congr (by rw [pathCells, top]; simp only [Cell.facing]; abel)
    obtain ⟨h₁, hleft, hown₁⟩ := ihl (n := n) hpath (by omega)
    have hcell₁ : h₁ a = some ⟨none, r.root, top none fs, d⟩ := hown₁.read
    -- the right one
    have hpath₁ : Own (T.erased keyFree valueFree l h₁).heap
        (r.cells (top none (⟨.right, a, d, .nil⟩ :: fs)) +
          pathCells none r.root (⟨.right, a, d, .nil⟩ :: fs)) :=
      hown₁.congr (by simp only [pathCells, top, Cell.facing, Shape.cells, Shape.root]; abel)
    obtain ⟨h₂, hright, hown₂⟩ := ihr (n := n) hpath₁ (by omega)
    have hcell₂ : h₂ a = some ⟨none, none, top none fs, d⟩ := hown₂.read
    -- and the node itself
    have hpath₂ : Own h₂ (pathCells none (some a) fs +
        (cellAt a ⟨none, none, top none fs, d⟩ + 0)) :=
      hown₂.congr (by simp only [pathCells, Cell.facing, Shape.cells, Shape.root]; abel)
    obtain ⟨h₃, hcut, hown₃⟩ := own_replaceChild hpath₂ none
    refine ⟨update h₃ a none, ?_, Own.free (hown₃.congr (by abel))⟩
    have hheap₁ : (T.erased keyFree valueFree l h₁).heap a = some ⟨none, r.root, top none fs, d⟩ :=
      hcell₁
    have hheap₂ : ((T.erased keyFree valueFree l h₁).erased keyFree valueFree r h₂).heap a =
        some ⟨none, none, top none fs, d⟩ := hcell₂
    have hcut' : replaceChild ((T.erased keyFree valueFree l h₁).erased keyFree valueFree r h₂).heap
        (top none fs) a none = some h₃ := hcut
    rw [Shape.root, AvlTree.eraseChild, AvlTree.eraseNode_succ]
    simp only [hcell, Option.bind_some, hleft, hheap₁, hright, hheap₂, hcut', Option.map_some]
    simp [AvlTree.erased, Shape.size, Shape.postorder, Nat.sub_sub, freed]

theorem eraseNode_leaf (hL : Holds T.toLinks (plug fs (.node .nil b e .nil)))
    (keyFree valueFree : Bool) :
    ∃ h, T.eraseNode keyFree valueFree (n + 1) b = some
        { root := T.root
          heap := h
          nodes := T.nodes - 1
          freedKeys := T.freedKeys ++ freed keyFree e.key
          freedValues := T.freedValues ++ freed valueFree e.value } ∧
      Own h (pathCells none none fs) := by
  have hsize : (Shape.node .nil b e .nil).size ≤ n + 1 := Nat.le_add_left 1 n
  obtain ⟨h, heq, hown⟩ := eraseNode_subtree keyFree valueFree (holds_plug.mp hL).2 hsize
  refine ⟨h, heq.trans ?_, hown⟩
  simp [AvlTree.erased, Shape.size, Shape.postorder]

theorem remove_holds (hL : Holds T.toLinks (plug fs (.node l a d r)))
    (hbal : Balanced (plug fs (.node l a d r))) (hnodes : T.nodes = (plug fs (.node l a d r)).size)
    (keyFree valueFree : Bool) :
    ∃ T' t', T.remove a keyFree valueFree = some T' ∧ Holds T'.toLinks t' ∧ Balanced t' ∧
      pairs t' = others fs (.node l a d r) ∧ T'.nodes = t'.size ∧
      T'.freedKeys = T.freedKeys ++ freed keyFree d.key ∧
      T'.freedValues = T.freedValues ++ freed valueFree d.value := by
  have hle : (Shape.node l a d r).size ≤ T.nodes + 1 := by
    rw [hnodes, size_plug]
    omega
  obtain ⟨L, fs', b, e, hsink, hL', hbal', hpair, hothers⟩ := sink_holds hL hbal hle hle
  have hkey : e.key = d.key := congrArg Prod.fst hpair
  have hvalue : e.value = d.value := congrArg Prod.snd hpair
  have hcell : L.heap b = some ⟨none, none, top none fs', e⟩ := Holds.read_root (σ := .right) hL'
  have hcount : T.nodes = (others fs (.node l a d r)).length + 1 := by rw [hnodes, size_plug_node]
  obtain ⟨h, herase, hown⟩ := eraseNode_leaf (T := { T with toLinks := L }) (n := T.nodes) hL'
    keyFree valueFree
  rw [hkey, hvalue] at herase
  cases fs' with
  | nil =>
    refine ⟨⟨⟨none, h⟩, T.nodes - 1, _, _⟩, .nil, ?_, ⟨rfl, hown⟩, trivial, hothers, ?_, rfl, rfl⟩
    · simp only [AvlTree.remove, hsink, Option.bind_eq_bind, Option.bind_some, hcell, top, herase,
        Option.pure_def]
    · rw [hcount, ← hothers]
      rfl
  | cons f fs' =>
    obtain ⟨hroot, hown'⟩ := holds_plug.mp hL'
    have hfull : Own L.heap (pathCells none (some b) (f :: fs') +
        (cellAt b ⟨none, none, some f.addr, e⟩ + 0)) :=
      hown'.congr (by simp [Shape.cells, Shape.root, top, add_comm])
    have hparent := read_top hfull
    have hside := Cell.sideOf_facing (σ := f.side) (top none fs') f.data (sib_root_ne hfull)
    -- the path now ends in nothing
    have hL'' : Holds (⟨L.root, h⟩ : AvlLinks A K V) (plug (f :: fs') .nil) :=
      holds_plug.mpr ⟨hroot, hown.congr (zero_add _).symm⟩
    have hlength : (f :: fs').length < T.nodes - 1 + 1 := by
      have hle := size_add_length_le (.node .nil b e .nil) (f :: fs')
      rw [size_plug_node, hothers, Shape.size] at hle
      omega
    have hhead : ∀ g ∈ (f :: fs').head?, f.side = g.side := by
      intro g hg
      rw [Option.mem_some.mp hg]
    obtain ⟨L'', t', hretrace, hH, hbal'', hpairs⟩ := removeRetrace_holds hL''
      (balanced_plug.mp hbal').2 trivial rfl hhead hlength
    refine ⟨⟨L'', T.nodes - 1, _, _⟩, t', ?_, hH, hbal'', ?_, ?_, rfl, rfl⟩
    · rw [top_cons] at hretrace
      simp only [AvlTree.remove, hsink, Option.bind_eq_bind, Option.bind_some, hcell, top_cons,
        hparent, herase, hside, hretrace, Option.pure_def]
    · rw [hpairs, pairs_plug_nil, hothers]
    · rw [← length_pairs, hpairs, pairs_plug_nil, hothers, hcount, Nat.add_sub_cancel]

end Mugglec
