import Mugglec.Machinery.Steps
import Mugglec.Dsaa.AvlTreeSearch

/-!
# Dsaa/AvlTreeMap — runs of calls: a balanced search tree, and a finite map

Two machines over the tree.  In the first a step is any call of `insert`, with an allocator that
returns free memory or none, or of `remove` on any node of the tree: after every call the tree is
balanced and a search tree, with the right parent pointers (`wellFormed_of_reach`).
-/

namespace Mugglec

open LinkedTree OwnedHeap AvlLinks Comparator

variable {A K V : Type} [DecidableEq A] {cmp : Option K → Option K → ℤ} {T : AvlTree A K V}
  {t l r : Shape A (AvlData K V)} {a : A} {d : AvlData K V} {fs : List (Frame A (AvlData K V))}
  {k : Option K} {q : Option K × Option V}

inductive AvlCall (A K V : Type)
  | insert (key : Option K) (value : Option V) (mem : Option A)
  | remove (node : A) (keyFree valueFree : Bool)

namespace AvlTree

def Fresh (T : AvlTree A K V) (mem : Option A) : Prop := mem.all fun a => (T.heap a).isNone

def Legal (T : AvlTree A K V) : AvlCall A K V → Prop
  | .insert _ _ mem => T.Fresh mem
  | .remove node _ _ => (T.heap node).isSome

instance (T : AvlTree A K V) (c : AvlCall A K V) : Decidable (T.Legal c) :=
  match c with
  | .insert _ _ _ | .remove _ _ _ => inferInstanceAs (Decidable (_ = _))

def call (cmp : Option K → Option K → ℤ) (T : AvlTree A K V) :
    AvlCall A K V → Option (AvlTree A K V)
  | .insert key value mem => (T.insert cmp key value mem).map Prod.snd
  | .remove node keyFree valueFree => T.remove node keyFree valueFree

def WellFormed (cmp : Option K → Option K → ℤ) (T : AvlTree A K V) : Prop :=
  ∃ t, Holds T.toLinks t ∧ SearchTree cmp t ∧ Balanced t

omit [DecidableEq A] in
theorem Fresh.heap {mem : Option A} (h : T.Fresh mem) : ∀ a ∈ mem, T.heap a = none := by
  rintro a rfl
  exact Option.isNone_iff_eq_none.mp h

end AvlTree

omit [DecidableEq A] in
theorem exists_pairs_eq (fs : List (Frame A (AvlData K V))) (l : Shape A (AvlData K V)) (a : A)
    (d : AvlData K V) (r : Shape A (AvlData K V)) : ∃ ps qs,
    pairs (plug fs (.node l a d r)) = ps ++ d.pair :: qs ∧
      others fs (.node l a d r) = ps ++ qs := by
  refine ⟨(before fs).map AvlData.pair ++ pairs l, pairs r ++ (after fs).map AvlData.pair, ?_, ?_⟩
  · rw [pairs_plug, pairs_node]
    simp
  · simp [others, Shape.child]

namespace AvlTree.Represents

theorem remove (hT : T.Represents cmp (plug fs (.node l a d r))) (keyFree valueFree : Bool) :
    ∃ T' t', T.remove a keyFree valueFree = some T' ∧ T'.Represents cmp t' ∧
      pairs t' = others fs (.node l a d r) ∧
      T'.freedKeys = T.freedKeys ++ freed keyFree d.key ∧
      T'.freedValues = T.freedValues ++ freed valueFree d.value := by
  obtain ⟨T', t', heq, hholds, hbal, hpairs, hnodes, hkeys, hvalues⟩ :=
    remove_holds hT.holds hT.balanced hT.nodes keyFree valueFree
  refine ⟨T', t', heq, ⟨hholds, hbal, ?_, hnodes⟩, hpairs, hkeys, hvalues⟩
  obtain ⟨ps, qs, hall, hothers⟩ := exists_pairs_eq fs l a d r
  have hord := hT.ordered
  rw [hall] at hord
  rw [hpairs, hothers]
  exact hord.sublist (List.Sublist.append_left (List.sublist_cons_self _ _) ps)

variable [Std.TransCmp (ordering cmp)]

theorem call {c : AvlCall A K V} (hT : T.Represents cmp t) (hc : T.Legal c) :
    ∃ T' t', T.call cmp c = some T' ∧ T'.Represents cmp t' := by
  cases c with
  | insert key value mem =>
    rcases insert_spec hT key value (AvlTree.Fresh.heap hc) with ⟨heq, -⟩ |
      ⟨a, T', t', ps, qs, -, heq, hT', -⟩
    · exact ⟨T, t, by rw [AvlTree.call, heq]; rfl, hT⟩
    · exact ⟨T', t', by rw [AvlTree.call, heq]; rfl, hT'⟩
  | remove node keyFree valueFree =>
    obtain ⟨c, hcell⟩ := Option.isSome_iff_exists.mp hc
    obtain ⟨fs, l, d, r, rfl⟩ := exists_plug_of_mem_cells ((hT.holds.own.mem _ _).mp hcell)
    obtain ⟨T', t', heq, hT', -⟩ := hT.remove keyFree valueFree
    exact ⟨T', t', heq, hT'⟩

end AvlTree.Represents

omit [DecidableEq A] in
theorem represents_init : (AvlTree.init : AvlTree A K V).Represents cmp .nil :=
  ⟨⟨rfl, own_empty⟩, trivial, List.Pairwise.nil, rfl⟩

/-- **After every call the tree is well-formed**, for every total order and every sequence of calls;
and every further call returns. -/
theorem wellFormed_of_reach [Std.TransCmp (ordering cmp)]
    (hs : Steps.Reach (fun T c => T.call cmp c) AvlTree.Legal AvlTree.init T) :
    T.WellFormed cmp ∧ ∀ c, T.Legal c → ∃ T', T.call cmp c = some T' := by
  obtain ⟨t, hT⟩ : ∃ t, T.Represents cmp t := by
    refine hs.invariant (P := fun T => ∃ t, T.Represents cmp t) ⟨.nil, represents_init⟩ ?_
    rintro T c T' ⟨t, hT⟩ hc hnext
    obtain ⟨T'', t', heq, hT'⟩ := hT.call hc
    obtain rfl := Option.some.inj (heq.symm.trans hnext)
    exact ⟨t', hT'⟩
  refine ⟨⟨t, hT.holds, searchTree_iff.mpr hT.ordered, hT.balanced⟩, fun c hc => ?_⟩
  obtain ⟨T', -, heq, -⟩ := hT.call hc
  exact ⟨T', heq⟩

def cmpNat (a b : Option ℕ) : ℤ := (a.getD 0 : ℤ) - b.getD 0

instance : Std.TransCmp (ordering cmpNat) := transCmp_sub fun a : Option ℕ => (a.getD 0 : ℤ)

def insertThree : List (AvlCall ℕ ℕ ℕ) :=
  [.insert (some 1) (some 10) (some 100), .insert (some 2) (some 20) (some 200),
    .insert (some 3) (some 30) (some 300), .insert (some 4) (some 40) none,
    .remove 200 true false]

theorem wellFormed_insertThree : ∃ T : AvlTree ℕ ℕ ℕ,
    Steps.execWhen (fun T c => T.call cmpNat c) (fun T c => decide (T.Legal c)) .init insertThree =
      some T ∧ T.root = some 200 ∧ T.freedKeys = [2] ∧
    T.WellFormed cmpNat ∧ ∀ c, T.Legal c → ∃ T', T.call cmpNat c = some T' := by
  obtain ⟨T, hT, hroot, hkeys⟩ : ∃ T : AvlTree ℕ ℕ ℕ, Steps.execWhen (fun T c => T.call cmpNat c)
      (fun T c => decide (T.Legal c)) .init insertThree = some T ∧ T.root = some 200 ∧
      T.freedKeys = [2] := by
    decide
  exact ⟨T, hT, hroot, hkeys, wellFormed_of_reach (Steps.Reach.of_decide hT)⟩

def AvlMap (K V : Type) := Option K → Option (Option K × Option V)

namespace AvlMap

def empty : AvlMap K V := fun _ => none

def put (cmp : Option K → Option K → ℤ) (m : AvlMap K V) (q : Option K × Option V) : AvlMap K V :=
  fun k => if cmp k q.1 = 0 then some q else m k

def erase (cmp : Option K → Option K → ℤ) (m : AvlMap K V) (key : Option K) : AvlMap K V :=
  fun k => if cmp k key = 0 then none else m k

def IsOf (cmp : Option K → Option K → ℤ) (m : AvlMap K V)
    (ps : List (Option K × Option V)) : Prop :=
  ∀ k q, m k = some q ↔ q ∈ ps ∧ cmp k q.1 = 0

variable {m : AvlMap K V} {ps qs : List (Option K × Option V)}

theorem isOf_empty : (empty : AvlMap K V).IsOf cmp [] := fun _ _ => by simp [empty]

theorem IsOf.eq_none_iff (hm : m.IsOf cmp ps) : m k = none ↔ ∀ p ∈ ps, cmp k p.1 ≠ 0 := by
  rw [Option.eq_none_iff_forall_ne_some]
  refine forall_congr' fun p => ?_
  rw [Ne, hm k p, not_and]

variable [Std.TransCmp (ordering cmp)]

theorem ne_of_ordered (hord : Ordered cmp (ps ++ q :: qs)) (h : cmp k q.1 = 0) :
    ∀ p ∈ ps ++ qs, cmp k p.1 ≠ 0 := by
  obtain ⟨-, -, hlt, hgt, -⟩ := ordered_node.mp hord
  intro p hp hkp
  have hpq : cmp p.1 q.1 = 0 := eq_trans (eq_symm hkp) h
  rcases List.mem_append.mp hp with hp | hp
  · exact (hlt p hp).ne hpq
  · exact (hgt p hp).ne (eq_symm hpq)

theorem IsOf.put (hm : m.IsOf cmp (ps ++ qs)) (hord : Ordered cmp (ps ++ q :: qs)) :
    (m.put cmp q).IsOf cmp (ps ++ q :: qs) := by
  intro k p
  rw [AvlMap.put, List.perm_middle.mem_iff, List.mem_cons]
  split_ifs with hk
  · rw [Option.some_inj]
    refine ⟨fun h => ⟨.inl h.symm, h ▸ hk⟩, fun ⟨hp, hkp⟩ => ?_⟩
    exact (hp.resolve_right fun hp => ne_of_ordered hord hk p hp hkp).symm
  · rw [hm k p]
    refine ⟨fun ⟨hp, hkp⟩ => ⟨.inr hp, hkp⟩, fun ⟨hp, hkp⟩ => ⟨hp.resolve_left ?_, hkp⟩⟩
    rintro rfl
    exact hk hkp

theorem IsOf.erase (hm : m.IsOf cmp (ps ++ q :: qs)) (hord : Ordered cmp (ps ++ q :: qs)) :
    (m.erase cmp q.1).IsOf cmp (ps ++ qs) := by
  intro k p
  rw [AvlMap.erase]
  split_ifs with hk
  · exact ⟨fun h => absurd h (by simp), fun ⟨hp, hkp⟩ => absurd hkp (ne_of_ordered hord hk p hp)⟩
  · rw [hm k p, List.perm_middle.mem_iff, List.mem_cons]
    refine ⟨fun ⟨hp, hkp⟩ => ⟨hp.resolve_left ?_, hkp⟩, fun ⟨hp, hkp⟩ => ⟨.inr hp, hkp⟩⟩
    rintro rfl
    exact hk hkp

end AvlMap

def AvlTree.pairAt (T : AvlTree A K V) (node : A) : Option (Option K × Option V) :=
  (T.heap node).map (·.data.pair)

def AvlMap.call (cmp : Option K → Option K → ℤ) (m : AvlMap K V)
    (stored : A → Option (Option K × Option V)) : AvlCall A K V → AvlMap K V
  | .insert key value mem => if (m key).isNone ∧ mem.isSome then m.put cmp (key, value) else m
  | .remove node _ _ => (stored node).elim m fun q => m.erase cmp q.1

structure AvlRun (A K V : Type) where
  tree : AvlTree A K V
  map : AvlMap K V

namespace AvlRun

def init : AvlRun A K V := ⟨.init, .empty⟩

def next (cmp : Option K → Option K → ℤ) (s : AvlRun A K V) (c : AvlCall A K V) :
    Option (AvlRun A K V) :=
  (s.tree.call cmp c).map fun T => ⟨T, s.map.call cmp s.tree.pairAt c⟩

/-- **The tree answers as the map**, with every call returning. -/
structure Refines (cmp : Option K → Option K → ℤ) (s : AvlRun A K V) : Prop where
  find (k : Option K) :
    ∃ res, s.tree.find cmp k = some res ∧ res.map s.tree.pairAt = (s.map k).map some
  insert (k : Option K) (v : Option V) (mem : Option A) (hmem : s.tree.Fresh mem) :
    ∃ res T', s.tree.insert cmp k v mem = some (res, T') ∧
      (res = none ↔ (s.map k).isSome ∨ mem = none) ∧ (res = none → T' = s.tree) ∧
      T'.freedKeys = s.tree.freedKeys ∧ T'.freedValues = s.tree.freedValues
  remove (node : A) (q : Option K × Option V) (keyFree valueFree : Bool)
    (hq : s.tree.pairAt node = some q) :
    s.map q.1 = some q ∧ ∃ T', s.tree.remove node keyFree valueFree = some T' ∧
      T'.freedKeys = s.tree.freedKeys ++ freed keyFree q.1 ∧
      T'.freedValues = s.tree.freedValues ++ freed valueFree q.2

structure Matches (cmp : Option K → Option K → ℤ) (s : AvlRun A K V)
    (t : Shape A (AvlData K V)) : Prop where
  tree : s.tree.Represents cmp t
  map : s.map.IsOf cmp (pairs t)

end AvlRun

omit [DecidableEq A] in
theorem AvlTree.Represents.pairAt (hT : T.Represents cmp (plug fs (.node l a d r))) :
    T.pairAt a = some d.pair := by
  have hread := Holds.read_root (σ := .left) (i := r) (o := l) hT.holds
  rw [AvlTree.pairAt, hread]
  rfl

namespace AvlRun.Matches

variable {s : AvlRun A K V} [Std.TransCmp (ordering cmp)]

omit [DecidableEq A] in
theorem find (hs : s.Matches cmp t) (k : Option K) :
    ∃ res, s.tree.find cmp k = some res ∧ res.map s.tree.pairAt = (s.map k).map some := by
  obtain ⟨res, heq, hres⟩ := find_spec hs.tree.holds hs.tree.ordered hs.tree.nodes k
  refine ⟨res, heq, ?_⟩
  cases res with
  | none => rw [(hs.map.eq_none_iff).mpr hres]; rfl
  | some a =>
    obtain ⟨fs, l, d, r, rfl, hk⟩ := hres
    have hmem : d.pair ∈ pairs (plug fs (.node l a d r)) := by
      obtain ⟨ps, qs, hall, -⟩ := exists_pairs_eq fs l a d r
      simp [hall]
    rw [(hs.map k d.pair).mpr ⟨hmem, hk⟩, Option.map_some, Option.map_some, hs.tree.pairAt]

theorem insert (hs : s.Matches cmp t) (k : Option K) (v : Option V) {mem : Option A}
    (hmem : s.tree.Fresh mem) :
    ∃ res T' t', s.tree.insert cmp k v mem = some (res, T') ∧
      (res = none ↔ (s.map k).isSome ∨ mem = none) ∧ (res = none → T' = s.tree) ∧
      T'.freedKeys = s.tree.freedKeys ∧ T'.freedValues = s.tree.freedValues ∧
      Matches cmp ⟨T', s.map.call cmp s.tree.pairAt (.insert k v mem)⟩ t' := by
  rcases insert_spec hs.tree k v hmem.heap with ⟨heq, hwhy⟩ |
    ⟨a, T', t', ps, qs, rfl, heq, hT', hold, hnew, hlt, hgt, hkeys, hvalues⟩
  · -- the key is there or there is no memory, and nothing has changed
    have hwhy' : (s.map k).isSome ∨ mem = none := by
      refine hwhy.imp_left fun ⟨q, hq, hk⟩ => ?_
      rw [(hs.map k q).mpr ⟨hq, hk⟩]
      rfl
    refine ⟨none, s.tree, t, heq, by simp [hwhy'], fun _ => rfl, rfl, rfl, hs.tree, ?_⟩
    rw [AvlMap.call, if_neg]
    · exact hs.map
    · rintro ⟨hnone, hsome⟩
      rcases hwhy' with hk | rfl
      · exact Option.not_isSome_iff_eq_none.mpr (Option.isNone_iff_eq_none.mp hnone) hk
      · cases hsome
  · -- the key is new
    have hnone : s.map k = none := by
      refine hs.map.eq_none_iff.mpr fun p hp hkp => ?_
      rw [hold] at hp
      rcases List.mem_append.mp hp with hp | hp
      · exact (hlt p hp).ne (eq_symm hkp)
      · exact (hgt p hp).ne hkp
    have hord := hT'.ordered
    rw [hnew] at hord
    refine ⟨some a, T', t', heq, by simp [hnone], fun h => absurd h (by simp), hkeys, hvalues,
      hT', ?_⟩
    rw [AvlMap.call, if_pos (by simp [hnone]), hnew]
    exact (hold ▸ hs.map).put hord

theorem remove (hs : s.Matches cmp t) {node : A} (hq : s.tree.pairAt node = some q)
    (keyFree valueFree : Bool) : s.map q.1 = some q ∧
    ∃ T' t', s.tree.remove node keyFree valueFree = some T' ∧
      T'.freedKeys = s.tree.freedKeys ++ freed keyFree q.1 ∧
      T'.freedValues = s.tree.freedValues ++ freed valueFree q.2 ∧
      Matches cmp ⟨T', s.map.call cmp s.tree.pairAt (.remove node keyFree valueFree)⟩ t' := by
  obtain ⟨c, hcell, -⟩ := Option.map_eq_some_iff.mp hq
  obtain ⟨fs, l, d, r, rfl⟩ := exists_plug_of_mem_cells ((hs.tree.holds.own.mem _ _).mp hcell)
  obtain rfl := Option.some.inj (hs.tree.pairAt.symm.trans hq)
  obtain ⟨T', t', heq, hT', hpairs, hkeys, hvalues⟩ := hs.tree.remove keyFree valueFree
  obtain ⟨ps, qs, hall, hothers⟩ := exists_pairs_eq fs l node d r
  have hord := hs.tree.ordered
  have hmap := hs.map
  rw [hall] at hord hmap
  refine ⟨(hmap _ _).mpr ⟨by simp, eq_self⟩, T', t', heq, hkeys, hvalues, hT', ?_⟩
  rw [AvlMap.call, hq, hpairs, hothers]
  exact hmap.erase hord

theorem next {c : AvlCall A K V} {s' : AvlRun A K V} (hs : s.Matches cmp t) (hc : s.tree.Legal c)
    (hnext : s.next cmp c = some s') : ∃ t', s'.Matches cmp t' := by
  obtain ⟨T', hcall, rfl⟩ := Option.map_eq_some_iff.mp hnext
  cases c with
  | insert key value mem =>
    obtain ⟨res, T'', t', heq, -, -, -, -, hs'⟩ := hs.insert key value hc
    rw [AvlTree.call, heq] at hcall
    cases hcall
    exact ⟨t', hs'⟩
  | remove node keyFree valueFree =>
    obtain ⟨cell, hcell⟩ := Option.isSome_iff_exists.mp hc
    have hq : s.tree.pairAt node = some cell.data.pair := by rw [AvlTree.pairAt, hcell]; rfl
    obtain ⟨-, T'', t', heq, -, -, hs'⟩ := hs.remove hq keyFree valueFree
    obtain rfl := Option.some.inj (heq.symm.trans hcall)
    exact ⟨t', hs'⟩

theorem refines (hs : s.Matches cmp t) : s.Refines cmp where
  find := hs.find
  insert k v mem hmem := by
    obtain ⟨res, T', t', heq, hres, hsame, hkeys, hvalues, -⟩ := hs.insert k v hmem
    exact ⟨res, T', heq, hres, hsame, hkeys, hvalues⟩
  remove node q keyFree valueFree hq := by
    obtain ⟨hm, T', t', heq, hkeys, hvalues, -⟩ := hs.remove hq keyFree valueFree
    exact ⟨hm, T', heq, hkeys, hvalues⟩

end AvlRun.Matches

/-- **The tree refines the map**, for every total order and every sequence of calls. -/
theorem refines_of_reach [Std.TransCmp (ordering cmp)] {s : AvlRun A K V}
    (hs : Steps.Reach (AvlRun.next cmp) (fun s c => s.tree.Legal c) AvlRun.init s) :
    s.Refines cmp := by
  obtain ⟨t, ht⟩ : ∃ t, s.Matches cmp t := by
    refine hs.invariant (P := fun s => ∃ t, s.Matches cmp t)
      ⟨.nil, represents_init, AvlMap.isOf_empty⟩ ?_
    rintro s c s' ⟨t, ht⟩ hc hnext
    exact ht.next hc hnext
  exact ht.refines

theorem refines_insertThree : ∃ s : AvlRun ℕ ℕ ℕ,
    Steps.execWhen (AvlRun.next cmpNat) (fun s c => decide (s.tree.Legal c)) .init insertThree =
      some s ∧
    [1, 2, 3, 4].map (fun k => s.map (some k)) =
      [some (some 1, some 10), none, some (some 3, some 30), none] ∧ s.Refines cmpNat := by
  obtain ⟨s, hs, hmap⟩ : ∃ s, Steps.execWhen (AvlRun.next cmpNat)
      (fun s c => decide (s.tree.Legal c)) .init insertThree = some s ∧
      [1, 2, 3, 4].map (fun k => s.map (some k)) =
        [some (some 1, some 10), none, some (some 3, some 30), none] := by
    decide
  exact ⟨s, hs, hmap, refines_of_reach (Steps.Reach.of_decide hs)⟩

end Mugglec
