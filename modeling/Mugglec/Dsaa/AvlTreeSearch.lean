import Mugglec.Machinery.Comparator
import Mugglec.Dsaa.AvlTreeErase

/-!
# Dsaa/AvlTreeSearch — searching and inserting

In a search tree a key can only be on the side of a node to which the comparison points
(`mem_of_toward`).  So the loop of `find` ends at the node with the key or nowhere (`find_spec`),
and the one of `insert` at the key or at the place between the smaller and the larger keys
(`descend_spec`).
-/

namespace Mugglec

open LinkedTree OwnedHeap AvlLinks Comparator

variable {A K V : Type}

def SearchTree (cmp : Option K → Option K → ℤ) : Shape A (AvlData K V) → Prop
  | .nil => True
  | .node l _ d r =>
    (∀ q ∈ pairs l, cmp q.1 d.key < 0) ∧ (∀ q ∈ pairs r, cmp d.key q.1 < 0) ∧
      SearchTree cmp l ∧ SearchTree cmp r

def Ordered (cmp : Option K → Option K → ℤ) (ps : List (Option K × Option V)) : Prop :=
  ps.Pairwise fun p q => cmp p.1 q.1 < 0

def Toward (σ : Side) (ret : ℤ) : Prop :=
  match σ with
  | .left => ret < 0
  | .right => 0 < ret

variable {cmp : Option K → Option K → ℤ} {σ : Side} {a : A} {d : AvlData K V}
  {l r i o t : Shape A (AvlData K V)} {f : Frame A (AvlData K V)}
  {fs : List (Frame A (AvlData K V))} {k : Option K} {v : Option V} {q : Option K × Option V}
  {n : ℕ}

theorem pairs_node : pairs (.node l a d r) = pairs l ++ d.pair :: pairs r := by
  simp [pairs, Shape.inorder]

theorem ordered_node {ps qs : List (Option K × Option V)} : Ordered cmp (ps ++ q :: qs) ↔
    Ordered cmp ps ∧ Ordered cmp qs ∧ (∀ p ∈ ps, cmp p.1 q.1 < 0) ∧ (∀ p ∈ qs, cmp q.1 p.1 < 0) ∧
      ∀ p ∈ ps, ∀ p' ∈ qs, cmp p.1 p'.1 < 0 := by
  simp only [Ordered, List.pairwise_append, List.pairwise_cons, List.mem_cons, forall_eq_or_imp]
  constructor
  · rintro ⟨hps, ⟨hq, hqs⟩, hall⟩
    exact ⟨hps, hqs, fun p hp => (hall p hp).1, hq, fun p hp => (hall p hp).2⟩
  · rintro ⟨hps, hqs, hlt, hq, hall⟩
    exact ⟨hps, ⟨hq, hqs⟩, fun p hp => ⟨hlt p hp, hall p hp⟩⟩

theorem Ordered.subtree (hord : Ordered cmp (pairs (.join σ i a d o))) : Ordered cmp (pairs o) := by
  cases σ with
  | left => exact (ordered_node.mp (by rwa [Shape.join, pairs_node] at hord)).1
  | right => exact (ordered_node.mp (by rwa [Shape.join, pairs_node] at hord)).2.1

variable [Std.TransCmp (ordering cmp)]

theorem searchTree_iff : SearchTree cmp t ↔ Ordered cmp (pairs t) := by
  induction t with
  | nil => exact ⟨fun _ => List.Pairwise.nil, fun _ => trivial⟩
  | node l a d r ihl ihr =>
    rw [pairs_node, ordered_node, SearchTree, ihl, ihr]
    constructor
    · rintro ⟨hl, hr, hol, hor⟩
      exact ⟨hol, hor, hl, hr, fun p hp p' hp' => lt_trans (hl p hp) (hr p' hp')⟩
    · rintro ⟨hol, hor, hl, hr, -⟩
      exact ⟨hl, hr, hol, hor⟩

theorem mem_of_toward (hord : Ordered cmp (pairs (.join σ i a d o)))
    (hto : Toward σ (cmp k d.key)) (hq : q ∈ pairs (.join σ i a d o)) (heq : cmp k q.1 = 0) :
    q ∈ pairs o := by
  cases σ with
  | left =>
    rw [Shape.join, pairs_node] at hord hq
    obtain ⟨-, -, -, hgt, -⟩ := ordered_node.mp hord
    rcases List.mem_append.mp hq with hq | hq
    · exact hq
    rcases List.mem_cons.mp hq with rfl | hq
    · exact absurd heq hto.ne
    · exact absurd heq (lt_trans hto (hgt q hq)).ne
  | right =>
    rw [Shape.join, pairs_node] at hord hq
    obtain ⟨-, -, hlt, -, -⟩ := ordered_node.mp hord
    rcases List.mem_append.mp hq with hq | hq
    · exact absurd (eq_symm heq) (lt_trans (hlt q hq) (pos_iff.mp hto)).ne
    rcases List.mem_cons.mp hq with rfl | hq
    · exact absurd heq hto.ne'
    · exact hq

theorem between_of_toward (hord : Ordered cmp (pairs (.join σ i a d o)))
    (hto : Toward σ (cmp k d.key)) :
    (∀ x ∈ before [⟨σ, a, d, i⟩], cmp x.key k < 0) ∧
      ∀ x ∈ after [⟨σ, a, d, i⟩], cmp k x.key < 0 := by
  have hmem : ∀ x ∈ i.inorder, x.pair ∈ pairs i := fun x hx => List.mem_map_of_mem hx
  cases σ with
  | left =>
    rw [Shape.join, pairs_node] at hord
    obtain ⟨-, -, -, hgt, -⟩ := ordered_node.mp hord
    refine ⟨fun x hx => absurd hx (by simp [before]), fun x hx => ?_⟩
    simp only [after, List.append_nil, List.mem_cons] at hx
    rcases hx with rfl | hx
    · exact hto
    · exact lt_trans hto (hgt _ (hmem x hx))
  | right =>
    rw [Shape.join, pairs_node] at hord
    obtain ⟨-, -, hlt, -, -⟩ := ordered_node.mp hord
    refine ⟨fun x hx => ?_, fun x hx => absurd hx (by simp [after])⟩
    simp only [before, List.nil_append, List.mem_append, List.mem_singleton] at hx
    rcases hx with hx | rfl
    · exact lt_trans (hlt _ (hmem x hx)) (pos_iff.mp hto)
    · exact pos_iff.mp hto

def FindSpec (cmp : Option K → Option K → ℤ) (k : Option K) (t : Shape A (AvlData K V)) :
    Option A → Prop
  | none => ∀ q ∈ pairs t, cmp k q.1 ≠ 0
  | some a => ∃ fs l d r, t = plug fs (.node l a d r) ∧ cmp k d.key = 0

theorem FindSpec.up {res : Option A} (hord : Ordered cmp (pairs (.join σ i a d o)))
    (hto : Toward σ (cmp k d.key)) (h : FindSpec cmp k o res) :
    FindSpec cmp k (.join σ i a d o) res := by
  cases res with
  | none => exact fun q hq heq => h q (mem_of_toward hord hto hq heq) heq
  | some b =>
    obtain ⟨fs, l, e, r, rfl, heq⟩ := h
    refine ⟨fs ++ [⟨σ, a, d, i⟩], l, e, r, ?_, heq⟩
    rw [plug_append]
    rfl

variable {h : A → Option (Cell A (AvlData K V))} {M : Multiset (A × Cell A (AvlData K V))}
  {p : Option A}

theorem findLoop_spec (hown : Own h (t.cells p + M)) (hord : Ordered cmp (pairs t))
    (hn : t.size < n) : ∃ res, findLoop cmp h k n t.root = some res ∧ FindSpec cmp k t res := by
  induction n generalizing t p M with
  | zero => exact absurd hn (Nat.not_lt_zero _)
  | succ n ih =>
    cases t with
    | nil => exact ⟨none, rfl, fun q hq => absurd hq (by simp [pairs, Shape.inorder])⟩
    | node l a d r =>
      rw [Shape.cells] at hown
      rw [Shape.size] at hn
      have hcell : h a = some ⟨l.root, r.root, p, d⟩ := (hown.mem _ _).mpr (by simp [cellAt])
      simp only [Shape.root, findLoop, hcell, Option.bind_eq_bind, Option.bind_some,
        Option.pure_def]
      by_cases hzero : cmp k d.key = 0
      · rw [if_pos hzero]
        exact ⟨some a, rfl, [], l, d, r, rfl, hzero⟩
      rw [if_neg hzero]
      by_cases hlt : cmp k d.key < 0
      · rw [if_pos hlt]
        have hl : Own h (l.cells (some a) +
            (cellAt a ⟨l.root, r.root, p, d⟩ + r.cells (some a) + M)) := hown.congr (by abel)
        obtain ⟨res, heq, hres⟩ := ih hl (Ordered.subtree (σ := .left) hord) (by omega)
        exact ⟨res, heq, FindSpec.up (σ := .left) hord hlt hres⟩
      · rw [if_neg hlt]
        have hr : Own h (r.cells (some a) +
            (cellAt a ⟨l.root, r.root, p, d⟩ + l.cells (some a) + M)) := hown.congr (by abel)
        have hgt : 0 < cmp k d.key := lt_of_le_of_ne (not_lt.mp hlt) (Ne.symm hzero)
        obtain ⟨res, heq, hres⟩ := ih hr (Ordered.subtree (σ := .right) hord) (by omega)
        exact ⟨res, heq, FindSpec.up (σ := .right) hord hgt hres⟩

theorem find_spec {T : AvlTree A K V} (hT : Holds T.toLinks t) (hord : Ordered cmp (pairs t))
    (hnodes : T.nodes = t.size) (k : Option K) :
    ∃ res, T.find cmp k = some res ∧ FindSpec cmp k t res := by
  rw [AvlTree.find, hT.root]
  exact findLoop_spec (hT.own.congr (add_zero _).symm) hord (by omega)

def DescendSpec (cmp : Option K → Option K → ℤ) (k : Option K) (t : Shape A (AvlData K V)) :
    Option (A × Side) → Prop
  | none => ∃ q ∈ pairs t, cmp k q.1 = 0
  | some (a, σ) => ∃ f fs, t = plug (f :: fs) .nil ∧ f.addr = a ∧ f.side = σ ∧
      (∀ x ∈ before (f :: fs), cmp x.key k < 0) ∧ ∀ x ∈ after (f :: fs), cmp k x.key < 0

theorem DescendSpec.up {res : Option (A × Side)} (hord : Ordered cmp (pairs (.join σ i a d o)))
    (hto : Toward σ (cmp k d.key)) (h : DescendSpec cmp k o res) :
    DescendSpec cmp k (.join σ i a d o) res := by
  cases res with
  | none =>
    obtain ⟨q, hq, heq⟩ := h
    refine ⟨q, ?_, heq⟩
    cases σ <;> rw [Shape.join, pairs_node] <;> simp [hq]
  | some place =>
    obtain ⟨f, fs, rfl, haddr, hside, hbefore, hafter⟩ := h
    obtain ⟨hbefore', hafter'⟩ := between_of_toward hord hto
    refine ⟨f, fs ++ [⟨σ, a, d, i⟩], ?_, haddr, hside, ?_, ?_⟩
    · rw [← List.cons_append, plug_append]
      rfl
    · rw [← List.cons_append, before_append]
      exact fun x hx => (List.mem_append.mp hx).elim (hbefore' x) (hbefore x)
    · rw [← List.cons_append, after_append]
      exact fun x hx => (List.mem_append.mp hx).elim (hafter x) (hafter' x)

theorem exists_toward {ret : ℤ} (h : ret ≠ 0) :
    ∃ σ : Side, (if ret < 0 then Side.left else .right) = σ ∧ Toward σ ret := by
  by_cases hlt : ret < 0
  · exact ⟨.left, if_pos hlt, hlt⟩
  · exact ⟨.right, if_neg hlt, lt_of_le_of_ne (not_lt.mp hlt) (Ne.symm h)⟩

theorem descend_spec (hown : Own h (t.cells p + M)) (hord : Ordered cmp (pairs t))
    (hroot : t.root = some a) (hn : t.size ≤ n) :
    ∃ res, descend cmp h k n a = some res ∧ DescendSpec cmp k t res := by
  induction n generalizing t a p M with
  | zero =>
    obtain ⟨i, d, o, rfl⟩ := Shape.exists_join_of_root .left hroot
    exact absurd hn (by rw [Shape.size_join]; omega)
  | succ n ih =>
    cases t with
    | nil => exact absurd hroot (by simp [Shape.root])
    | node l b d r =>
      obtain rfl : b = a := Option.some.inj hroot
      have hdata : (h b).map (·.data) = some d := by
        rw [(hown.mem b ⟨l.root, r.root, p, d⟩).mpr (by simp [Shape.cells, cellAt])]
        rfl
      by_cases hzero : cmp k d.key = 0
      · obtain ⟨c, hc, rfl⟩ := Option.map_eq_some_iff.mp hdata
        refine ⟨none, ?_, c.data.pair, by simp [pairs_node], hzero⟩
        simp only [descend, hc, Option.bind_eq_bind, Option.bind_some, hzero, if_true,
          Option.pure_def]
      obtain ⟨σ, hσ, hto⟩ := exists_toward hzero
      -- the node, seen from that side
      obtain ⟨i, o, hjoin⟩ : ∃ i o, Shape.node l b d r = .join σ i b d o :=
        ⟨_, _, (Shape.join_child σ l b d r).symm⟩
      rw [hjoin] at hown hord hn ⊢
      rw [Shape.cells_join] at hown
      have hcell : h b = some (.facing σ i.root o.root p d) := (hown.mem _ _).mpr (by simp [cellAt])
      simp only [descend, hcell, Option.bind_eq_bind, Option.bind_some, Cell.facing_data, hzero,
        if_false, hσ, Cell.facing_child, Option.pure_def]
      cases hnext : o.root with
      | none =>
        obtain rfl := Shape.eq_nil_of_root hnext
        obtain ⟨hbefore, hafter⟩ := between_of_toward hord hto
        exact ⟨some (b, σ), rfl, ⟨σ, b, d, i⟩, [], rfl, rfl, rfl, hbefore, hafter⟩
      | some next =>
        have hown' : Own h (o.cells (some b) +
            (cellAt b (.facing σ i.root o.root p d) + i.cells (some b) + M)) :=
          hown.congr (by abel)
        have hsize : o.size ≤ n := by
          rw [Shape.size_join] at hn
          omega
        obtain ⟨res, heq, hres⟩ := ih hown' hord.subtree hnext hsize
        exact ⟨res, heq, hres.up hord hto⟩

variable {T : AvlTree A K V}

theorem balanced_leaf : Balanced (.node .nil a ⟨0, k, v⟩ .nil) :=
  ⟨rfl, by norm_num, by norm_num, trivial, trivial⟩

variable [DecidableEq A]

omit [Std.TransCmp (ordering cmp)] in
theorem attach_holds {L : AvlLinks A K V} (hL : Holds L (plug (f :: fs) .nil))
    (hfree : L.heap a = none) (d : AvlData K V) :
    ∃ h₁ h₂, modify (Function.update L.heap a (some ⟨none, none, none, ⟨0, none, none⟩⟩)) f.addr
        (·.setChild f.side (some a)) = some h₁ ∧
      modify h₁ a (fun c => (c.setParent (some f.addr)).mapData fun _ => d) = some h₂ ∧
      Holds ⟨L.root, h₂⟩ (plug (f :: fs) (.node .nil a d .nil)) := by
  obtain ⟨hroot, hown⟩ := holds_plug.mp hL
  have hown₀ := hown.alloc hfree ⟨none, none, none, ⟨0, none, none⟩⟩
  obtain ⟨h₁, e₁, hown₁⟩ := Own.modify (a := f.addr)
    (c := .facing f.side f.sib.root none (top none fs) f.data)
    (M := cellAt a ⟨none, none, none, ⟨0, none, none⟩⟩ +
      (f.sib.cells (some f.addr) + pathCells none (some f.addr) fs))
    (hown₀.congr (by simp only [Shape.cells, Shape.root, pathCells]; abel))
    (·.setChild f.side (some a))
  obtain ⟨h₂, e₂, hown₂⟩ := Own.modify (a := a) (c := ⟨none, none, none, ⟨0, none, none⟩⟩)
    (M := cellAt f.addr (.facing f.side f.sib.root (some a) (top none fs) f.data) +
      (f.sib.cells (some f.addr) + pathCells none (some f.addr) fs))
    (hown₁.congr (by rw [Cell.facing_setChild]; abel))
    (fun c => (c.setParent (some f.addr)).mapData fun _ => d)
  refine ⟨h₁, h₂, e₁, e₂, holds_plug.mpr ⟨hroot, hown₂.congr ?_⟩⟩
  simp only [Shape.cells, Shape.root, pathCells, top_cons, Cell.setParent, Cell.mapData, add_zero]

/-- **The tree is the well-formed tree `t`.** -/
structure AvlTree.Represents (cmp : Option K → Option K → ℤ) (T : AvlTree A K V)
    (t : Shape A (AvlData K V)) : Prop where
  holds : Holds T.toLinks t
  balanced : Balanced t
  ordered : Ordered cmp (pairs t)
  nodes : T.nodes = t.size

omit [Std.TransCmp (ordering cmp)] in
theorem ordered_insert {ps qs : List (Option K × Option V)} (hord : Ordered cmp (ps ++ qs))
    (hps : ∀ p ∈ ps, cmp p.1 q.1 < 0) (hqs : ∀ p ∈ qs, cmp q.1 p.1 < 0) :
    Ordered cmp (ps ++ q :: qs) := by
  obtain ⟨h₁, h₂, h₃⟩ := List.pairwise_append.mp hord
  exact ordered_node.mpr ⟨h₁, h₂, hps, hqs, h₃⟩

omit [DecidableEq A] [Std.TransCmp (ordering cmp)] in
theorem AvlTree.Represents.grown (hT : T.Represents cmp (plug fs .nil)) {L : AvlLinks A K V}
    {t : Shape A (AvlData K V)} (hL : Holds L t) (hbal : Balanced t)
    (hpairs : pairs t = pairs (plug fs (.node .nil a ⟨0, k, v⟩ .nil)))
    (hbefore : ∀ x ∈ before fs, cmp x.key k < 0) (hafter : ∀ x ∈ after fs, cmp k x.key < 0) :
    ∃ ps qs, AvlTree.Represents cmp ⟨L, T.nodes + 1, T.freedKeys, T.freedValues⟩ t ∧
      pairs (plug fs .nil) = ps ++ qs ∧ pairs t = ps ++ (k, v) :: qs ∧
      (∀ p ∈ ps, cmp p.1 k < 0) ∧ (∀ p ∈ qs, cmp k p.1 < 0) := by
  have hold : pairs (plug fs .nil) =
      (before fs).map AvlData.pair ++ (after fs).map AvlData.pair := by
    rw [pairs_plug]
    rfl
  have hnew : pairs t = (before fs).map AvlData.pair ++ (k, v) :: (after fs).map AvlData.pair := by
    rw [hpairs, pairs_plug]
    rfl
  have hps : ∀ p ∈ (before fs).map AvlData.pair, cmp p.1 k < 0 := by
    intro p hp
    obtain ⟨x, hx, rfl⟩ := List.mem_map.mp hp
    exact hbefore x hx
  have hqs : ∀ p ∈ (after fs).map AvlData.pair, cmp k p.1 < 0 := by
    intro p hp
    obtain ⟨x, hx, rfl⟩ := List.mem_map.mp hp
    exact hafter x hx
  refine ⟨_, _, ⟨hL, hbal, ?_, ?_⟩, hold, hnew, hps, hqs⟩
  · rw [hnew]
    exact ordered_insert (hold ▸ hT.ordered) hps hqs
  · rw [← length_pairs, hnew, hT.nodes, ← length_pairs, hold]
    simp only [List.length_append, List.length_cons]
    omega

theorem insert_spec {t : Shape A (AvlData K V)} (hT : T.Represents cmp t) (k : Option K)
    (v : Option V) {mem : Option A} (hfresh : ∀ a ∈ mem, T.heap a = none) :
    (T.insert cmp k v mem = some (none, T) ∧ ((∃ q ∈ pairs t, cmp k q.1 = 0) ∨ mem = none)) ∨
    ∃ a T' t' ps qs, mem = some a ∧ T.insert cmp k v mem = some (some a, T') ∧
      T'.Represents cmp t' ∧ pairs t = ps ++ qs ∧ pairs t' = ps ++ (k, v) :: qs ∧
      (∀ p ∈ ps, cmp p.1 k < 0) ∧ (∀ p ∈ qs, cmp k p.1 < 0) ∧
      T'.freedKeys = T.freedKeys ∧ T'.freedValues = T.freedValues := by
  obtain ⟨hL, hbal, hord, hnodes⟩ := id hT
  have hLroot := hL.root
  cases hroot : t.root with
  | none =>
    rw [hroot] at hLroot
    obtain rfl := Shape.eq_nil_of_root hroot
    simp only [AvlTree.insert, hLroot]
    cases mem with
    | none => exact .inl ⟨rfl, .inr rfl⟩
    | some a =>
      have hown := hL.own.alloc (hfresh a rfl) ⟨none, none, none, ⟨0, none, none⟩⟩
      obtain ⟨h, heq, hown⟩ := hown.modify (·.mapData fun _ => ⟨0, k, v⟩)
      have hH : Holds ⟨some a, h⟩ (.node .nil a ⟨0, k, v⟩ .nil) := ⟨rfl, hown⟩
      have hempty : T.Represents cmp (plug [] .nil) := hT
      obtain ⟨ps, qs, hT', hold, hnew, hps, hqs⟩ := hempty.grown hH balanced_leaf rfl
        (fun x hx => absurd hx (by simp [before])) (fun x hx => absurd hx (by simp [after]))
      refine .inr ⟨a, _, _, ps, qs, rfl, ?_, hT', hold, hnew, hps, hqs, rfl, rfl⟩
      simp only [AvlTree.allocateNode, heq, Option.bind_eq_bind, Option.bind_some, Option.pure_def]
  | some root =>
    rw [hroot] at hLroot
    obtain ⟨res, heq, hres⟩ := descend_spec (k := k) (hL.own.congr (add_zero _).symm) hord hroot
      (Nat.le_succ_of_le hnodes.ge)
    simp only [AvlTree.insert, hLroot, heq, Option.bind_eq_bind, Option.bind_some, Option.pure_def]
    cases res with
    | none => exact .inl ⟨rfl, .inl hres⟩
    | some place =>
      obtain ⟨node, side⟩ := place
      cases mem with
      | none => exact .inl ⟨rfl, .inr rfl⟩
      | some a =>
        obtain ⟨f, fs, rfl, rfl, rfl, hbefore, hafter⟩ := hres
        obtain ⟨h₁, h₂, e₁, e₂, hH⟩ := attach_holds hL (hfresh a rfl) ⟨0, k, v⟩
        have hrounds : fs.length < T.nodes + 1 + 1 := by
          have hle := size_add_length_le .nil (f :: fs)
          rw [List.length_cons, ← hnodes] at hle
          omega
        obtain ⟨L', t', hretrace, hL', hbal', hpairs⟩ := insertRetrace_holds hH
          (balanced_plug.mp hbal).2 balanced_leaf rfl (.inl rfl) hrounds
        obtain ⟨ps, qs, hT', hold, hnew, hps, hqs⟩ := hT.grown hL' hbal' hpairs hbefore hafter
        refine .inr ⟨a, _, t', ps, qs, rfl, ?_, hT', hold, hnew, hps, hqs, rfl, rfl⟩
        simp only [AvlTree.allocateNode, e₁, e₂, Option.bind_some, hretrace]

end Mugglec
