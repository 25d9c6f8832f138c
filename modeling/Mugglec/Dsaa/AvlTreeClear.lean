import Mugglec.Dsaa.AvlTreeMap

/-!
# Dsaa/AvlTreeClear — clearing a tree

`muggle_avl_tree_clear` erases the tree from its root, children first, and leaves the pointer to the
root as it was.
-/

namespace Mugglec

open Function LinkedTree OwnedHeap AvlLinks Comparator

variable {A K V : Type} [DecidableEq A]

namespace AvlTree

def clear (T : AvlTree A K V) (keyFree valueFree : Bool) : Option (AvlTree A K V) :=
  match T.root with
  | none => some T
  | some node => T.eraseNode keyFree valueFree (T.nodes + 1) node

def destroy (T : AvlTree A K V) (keyFree valueFree : Bool) : Option (AvlTree A K V) :=
  T.clear keyFree valueFree

end AvlTree

inductive AvlOp (A K V : Type)
  | find (data : Option K)
  | insert (key : Option K) (value : Option V) (mem : Option A)
  | remove (node : A) (keyFree valueFree : Bool)
  | clear (keyFree valueFree : Bool)

namespace AvlTree

def answer (cmp : Option K → Option K → ℤ) (T : AvlTree A K V) :
    AvlOp A K V → Option (Option A × AvlTree A K V)
  | .find data => (T.find cmp data).map fun node => (node, T)
  | .insert key value mem => T.insert cmp key value mem
  | .remove node keyFree valueFree => (T.remove node keyFree valueFree).map fun T => (none, T)
  | .clear keyFree valueFree => (T.clear keyFree valueFree).map fun T => (none, T)

def run (cmp : Option K → Option K → ℤ) :
    AvlTree A K V → List (AvlOp A K V) → Option (List (Option A) × AvlTree A K V)
  | T, [] => some ([], T)
  | T, op :: ops =>
    (T.answer cmp op).bind fun r => (run cmp r.2 ops).map fun rs => (r.1 :: rs.1, rs.2)

def Admits (T : AvlTree A K V) : AvlOp A K V → Prop
  | .insert _ _ mem => T.Fresh mem
  | .remove node _ _ => (T.heap node).isSome
  | .find _ | .clear _ _ => True

instance (T : AvlTree A K V) (op : AvlOp A K V) : Decidable (T.Admits op) :=
  match op with
  | .insert _ _ _ | .remove _ _ _ => inferInstanceAs (Decidable (_ = _))
  | .find _ | .clear _ _ => .isTrue trivial

def Released (keyFree valueFree : Bool) (T T' : AvlTree A K V) : Prop :=
  ∃ t, Holds T.toLinks t ∧ (∀ a, T'.heap a = none) ∧ ∃ ks vs,
    T'.freedKeys = T.freedKeys ++ ks ∧ ks.Perm (t.inorder.flatMap (freed keyFree ·.key)) ∧
    T'.freedValues = T.freedValues ++ vs ∧ vs.Perm (t.inorder.flatMap (freed valueFree ·.value))

def logged (ks : List K) (vs : List V) (T : AvlTree A K V) : AvlTree A K V :=
  { T with freedKeys := ks ++ T.freedKeys, freedValues := vs ++ T.freedValues }

structure LikeNew (cmp : Option K → Option K → ℤ) (T : AvlTree A K V) : Prop where
  find : ∀ data, T.find cmp data = some none
  run : ∀ ops, T.run cmp ops =
    (init.run cmp ops).map fun rs => (rs.1, rs.2.logged T.freedKeys T.freedValues)
  destroy : ∀ keyFree valueFree, T.destroy keyFree valueFree = some T

def Stale (T : AvlTree A K V) : Prop := T.root.isSome ∧ ∀ a, T.heap a = none

section Logged

variable (ks : List K) (vs : List V) (T : AvlTree A K V)

theorem eraseNode_logged (keyFree valueFree : Bool) (n : ℕ) (node : A) :
    (T.logged ks vs).eraseNode keyFree valueFree n node =
      (T.eraseNode keyFree valueFree n node).map (logged ks vs) := by
  induction n generalizing T node with
  | zero => rfl
  | succ n ih =>
    have hchild : ∀ (T : AvlTree A K V) (child : Option A),
        (T.logged ks vs).eraseChild keyFree valueFree n child =
          (T.eraseChild keyFree valueFree n child).map (logged ks vs) := fun T child => by
      cases child with
      | none => rfl
      | some a => exact ih T a
    have hheap : ∀ T : AvlTree A K V, (T.logged ks vs).heap = T.heap := fun _ => rfl
    rw [eraseNode_succ, eraseNode_succ]
    simp only [hheap, hchild, Option.map_bind, Option.bind_map, comp_def, Option.map_map]
    simp only [logged, List.append_assoc]

theorem insert_logged (cmp : Option K → Option K → ℤ) (key : Option K) (value : Option V)
    (mem : Option A) : (T.logged ks vs).insert cmp key value mem =
      (T.insert cmp key value mem).map fun r => (r.1, r.2.logged ks vs) := by
  have hroot : (T.logged ks vs).root = T.root := rfl
  have hheap : (T.logged ks vs).heap = T.heap := rfl
  have hnodes : (T.logged ks vs).nodes = T.nodes := rfl
  simp only [insert, hroot, hheap, hnodes]
  cases T.root with
  | none =>
    cases mem with
    | none => rfl
    | some a =>
      simp only [allocateNode, hheap, Option.bind_eq_bind, Option.pure_def, Option.map_bind,
        comp_def, Option.map_some]
      rfl
  | some root =>
    simp only [Option.bind_eq_bind, Option.map_bind, comp_def]
    refine congrArg _ (funext fun place => ?_)
    cases place with
    | none => rfl
    | some place =>
      cases mem with
      | none => rfl
      | some a =>
        simp only [allocateNode, hheap, hroot, hnodes, Option.pure_def, Option.map_bind,
          comp_def, Option.map_some]
        rfl

theorem remove_logged (node : A) (keyFree valueFree : Bool) :
    (T.logged ks vs).remove node keyFree valueFree =
      (T.remove node keyFree valueFree).map (logged ks vs) := by
  have hlinks : (T.logged ks vs).toLinks = T.toLinks := rfl
  have hnodes : (T.logged ks vs).nodes = T.nodes := rfl
  simp only [remove, hlinks, hnodes, Option.bind_eq_bind, Option.map_bind, comp_def]
  refine congrArg _ (funext fun sunk => congrArg _ (funext fun c => ?_))
  have herase : AvlTree.eraseNode keyFree valueFree (T.nodes + 1)
        ⟨sunk.2, T.nodes, (T.logged ks vs).freedKeys, (T.logged ks vs).freedValues⟩ sunk.1 =
      (AvlTree.eraseNode keyFree valueFree (T.nodes + 1)
        ⟨sunk.2, T.nodes, T.freedKeys, T.freedValues⟩ sunk.1).map (logged ks vs) :=
    eraseNode_logged ks vs ⟨sunk.2, T.nodes, T.freedKeys, T.freedValues⟩ ..
  cases c.parent with
  | none =>
    simp only [Option.pure_def, Option.map_bind, comp_def, Option.map_some, herase,
      Option.bind_map]
    rfl
  | some parent =>
    simp only [Option.pure_def, Option.map_bind, comp_def, Option.map_some, herase,
      Option.bind_map]
    rfl

theorem clear_logged (keyFree valueFree : Bool) : (T.logged ks vs).clear keyFree valueFree =
    (T.clear keyFree valueFree).map (logged ks vs) := by
  have hroot : (T.logged ks vs).root = T.root := rfl
  simp only [clear, hroot]
  cases T.root with
  | none => rfl
  | some node => exact eraseNode_logged ks vs T keyFree valueFree (T.nodes + 1) node

theorem answer_logged (cmp : Option K → Option K → ℤ) (op : AvlOp A K V) :
    (T.logged ks vs).answer cmp op = (T.answer cmp op).map fun r => (r.1, r.2.logged ks vs) := by
  cases op with
  | find data =>
    have hfind : (T.logged ks vs).find cmp data = T.find cmp data := rfl
    simp only [answer, hfind, Option.map_map, comp_def]
  | insert key value mem => exact insert_logged ks vs T cmp key value mem
  | remove node keyFree valueFree =>
    simp only [answer, remove_logged, Option.map_map, comp_def]
  | clear keyFree valueFree =>
    simp only [answer, clear_logged, Option.map_map, comp_def]

theorem run_logged (cmp : Option K → Option K → ℤ) (ops : List (AvlOp A K V)) :
    (T.logged ks vs).run cmp ops =
      (T.run cmp ops).map fun rs => (rs.1, rs.2.logged ks vs) := by
  induction ops generalizing T with
  | nil => rfl
  | cons op ops ih =>
    simp only [run, answer_logged, Option.bind_map, comp_def, ih, Option.map_map,
      Option.map_bind]

end Logged

variable {cmp : Option K → Option K → ℤ} {T : AvlTree A K V} {t : Shape A (AvlData K V)}

theorem Represents.clear (hT : T.Represents cmp t) (keyFree valueFree : Bool) :
    ∃ T', T.clear keyFree valueFree = some T' ∧ Released keyFree valueFree T T' ∧
      T'.root = T.root := by
  have hpath : Own T.heap (t.cells (top none ([] : List (Frame A (AvlData K V)))) +
      pathCells none t.root []) := hT.holds.own.congr (add_zero _).symm
  obtain ⟨h, heq, hown⟩ := eraseNode_subtree keyFree valueFree hpath
    (Nat.le_succ_of_le hT.nodes.ge)
  have hclear : T.clear keyFree valueFree =
      T.eraseChild keyFree valueFree (T.nodes + 1) t.root := by
    rw [AvlTree.clear, hT.holds.root]
    cases t.root <;> rfl
  refine ⟨T.erased keyFree valueFree t h, hclear.trans heq, ⟨t, hT.holds, fun a => ?_, _, _, rfl,
    t.postorder_perm.flatMap_right _, rfl, t.postorder_perm.flatMap_right _⟩, rfl⟩
  refine Option.eq_none_iff_forall_ne_some.mpr fun c hc => ?_
  exact Multiset.notMem_zero _ ((hown.mem a c).mp hc)

omit [DecidableEq A] in
theorem Represents.eq_logged (hT : T.Represents cmp t) (hroot : T.root = none) :
    T = init.logged T.freedKeys T.freedValues := by
  obtain rfl := Shape.eq_nil_of_root (hT.holds.root.symm.trans hroot)
  have hheap : T.heap = fun _ => none := funext fun a =>
    Option.eq_none_iff_forall_ne_some.mpr fun c hc =>
      Multiset.notMem_zero _ ((hT.holds.own.mem a c).mp hc)
  have hnodes : T.nodes = 0 := hT.nodes
  obtain ⟨⟨root, heap⟩, nodes, ks, vs⟩ := T
  simp only at hroot hheap hnodes
  subst hroot hheap hnodes
  simp [logged, init]

theorem Represents.likeNew (hT : T.Represents cmp t) (hroot : T.root = none) : T.LikeNew cmp where
  find data := by rw [AvlTree.find, hroot]; rfl
  run ops := by
    conv_lhs => rw [hT.eq_logged hroot]
    exact run_logged _ _ init cmp ops
  destroy keyFree valueFree := by rw [AvlTree.destroy, AvlTree.clear, hroot]

omit [DecidableEq A] in
theorem find_of_stale (hroot : T.root.isSome) (hheap : ∀ a, T.heap a = none) (data : Option K) :
    T.find cmp data = none := by
  obtain ⟨a, ha⟩ := Option.isSome_iff_exists.mp hroot
  rw [AvlTree.find, ha, findLoop, hheap]
  rfl

theorem Stale.answer (hT : T.Stale) {op : AvlOp A K V} (hop : T.Admits op) :
    T.answer cmp op = none := by
  obtain ⟨hroot, hheap⟩ := hT
  cases op with
  | find data => rw [AvlTree.answer, find_of_stale hroot hheap, Option.map_none]
  | insert key value mem =>
    obtain ⟨a, ha⟩ := Option.isSome_iff_exists.mp hroot
    simp [AvlTree.answer, AvlTree.insert, ha, descend, hheap]
  | remove node =>
    rw [Admits, hheap] at hop
    cases hop
  | clear keyFree valueFree =>
    obtain ⟨a, ha⟩ := Option.isSome_iff_exists.mp hroot
    simp [AvlTree.answer, AvlTree.clear, ha, eraseNode_succ, hheap]

def step (cmp : Option K → Option K → ℤ) (T : AvlTree A K V) (op : AvlOp A K V) :
    Option (AvlTree A K V) :=
  (T.answer cmp op).map Prod.snd

theorem step_remove (node : A) (keyFree valueFree : Bool) :
    T.step cmp (.remove node keyFree valueFree) = T.remove node keyFree valueFree := by
  simp [step, answer]

theorem step_clear (keyFree valueFree : Bool) :
    T.step cmp (.clear keyFree valueFree) = T.clear keyFree valueFree := by
  simp [step, answer]

variable [Std.TransCmp (ordering cmp)]

theorem Represents.step (hT : T.Represents cmp t) {op : AvlOp A K V} {T' : AvlTree A K V}
    (hop : T.Admits op) (hstep : T.step cmp op = some T') :
    (∃ t', T'.Represents cmp t') ∨ T'.Stale := by
  cases op with
  | find data =>
    obtain ⟨_, hfind, rfl⟩ := Option.map_eq_some_iff.mp hstep
    obtain ⟨node, -, rfl⟩ := Option.map_eq_some_iff.mp hfind
    exact .inl ⟨t, hT⟩
  | insert key value mem =>
    obtain ⟨T'', t', heq, hT'⟩ := hT.call (c := .insert key value mem) hop
    obtain rfl := Option.some.inj (heq.symm.trans hstep)
    exact .inl ⟨t', hT'⟩
  | remove node keyFree valueFree =>
    obtain ⟨T'', t', heq, hT'⟩ := hT.call (c := .remove node keyFree valueFree) hop
    obtain rfl := Option.some.inj (heq.symm.trans ((step_remove ..).symm.trans hstep))
    exact .inl ⟨t', hT'⟩
  | clear keyFree valueFree =>
    rw [step_clear] at hstep
    cases hroot : T.root with
    | none =>
      rw [AvlTree.clear, hroot] at hstep
      cases hstep
      exact .inl ⟨t, hT⟩
    | some a =>
      obtain ⟨T'', heq, ⟨-, -, hheap, -⟩, hroot'⟩ := hT.clear keyFree valueFree
      obtain rfl := Option.some.inj (heq.symm.trans hstep)
      exact .inr ⟨by rw [hroot', hroot]; rfl, hheap⟩

theorem represents_or_stale (hs : Steps.Reach (step cmp) Admits init T) :
    (∃ t, T.Represents cmp t) ∨ T.Stale := by
  refine hs.invariant (P := fun T => (∃ t, T.Represents cmp t) ∨ T.Stale)
    (.inl ⟨.nil, represents_init⟩) ?_
  rintro T op T' (⟨t, hT⟩ | hT) hop hstep
  · exact hT.step hop hstep
  · rw [step, hT.answer hop] at hstep
    cases hstep

/-- **Clearing leaves a tree like new exactly when there was no root.** -/
theorem clear_likeNew_iff (hs : Steps.Reach (step cmp) Admits init T) (keyFree valueFree : Bool) :
    (T.Stale ∨ ∃ T', T.clear keyFree valueFree = some T' ∧ Released keyFree valueFree T T') ∧
    ((∃ T', T.clear keyFree valueFree = some T' ∧ Released keyFree valueFree T T' ∧
      T'.LikeNew cmp) ↔ T.root = none) := by
  rcases represents_or_stale hs with ⟨t, hT⟩ | hT
  · obtain ⟨T', heq, hreleased, hroot⟩ := hT.clear keyFree valueFree
    refine ⟨.inr ⟨T', heq, hreleased⟩, ?_, fun hnone => ?_⟩
    · rintro ⟨T'', heq', -, hnew⟩
      obtain rfl := Option.some.inj (heq.symm.trans heq')
      by_contra hsome
      -- the first search follows the root
      have hfind : T'.find cmp none = none := find_of_stale
        (by rw [hroot]; exact Option.isSome_iff_ne_none.mpr hsome) hreleased.choose_spec.2.1 none
      exact absurd (hfind.symm.trans (hnew.find none)) (by simp)
    · have hsame : T.clear keyFree valueFree = some T := by rw [AvlTree.clear, hnone]
      obtain rfl := Option.some.inj (hsame.symm.trans heq)
      exact ⟨T, heq, hreleased, hT.likeNew hnone⟩
  · refine ⟨.inl hT, ?_, fun hnone => ?_⟩
    · rintro ⟨T', heq, -⟩
      have hnone : T.answer cmp (.clear keyFree valueFree) = none := hT.answer trivial
      rw [answer, heq] at hnone
      cases hnone
    · exact absurd hT.1 (by rw [hnone]; simp)

def insertRemove : List (AvlOp ℕ ℕ ℕ) :=
  [.insert (some 1) (some 10) (some 100), .remove 100 true false]

theorem clear_insertRemove : ∃ T : AvlTree ℕ ℕ ℕ,
    Steps.execWhen (step cmpNat) (fun T op => decide (T.Admits op)) init insertRemove = some T ∧
    ∃ T', T.clear true true = some T' ∧ Released true true T T' ∧ T'.LikeNew cmpNat := by
  obtain ⟨T, hT, hroot⟩ : ∃ T : AvlTree ℕ ℕ ℕ, Steps.execWhen (step cmpNat)
      (fun T op => decide (T.Admits op)) init insertRemove = some T ∧ T.root = none := by
    decide +kernel
  have hreach := Steps.Reach.of_decide hT
  exact ⟨T, hT, (clear_likeNew_iff hreach true true).2.mpr hroot⟩

theorem find_after_clear :
    ((init : AvlTree ℕ ℕ ℕ).run cmpNat
      [.insert (some 1) (some 10) (some 100), .clear true true]).map
      (fun rs => (rs.2.root, (rs.2.heap 100).isNone, rs.2.freedKeys, rs.2.freedValues)) =
        some (some 100, true, [1], [10]) ∧
    ((init : AvlTree ℕ ℕ ℕ).run cmpNat
      [.insert (some 1) (some 10) (some 100), .clear true true]).map
      (fun rs => (rs.2.find cmpNat (some 1), (rs.2.destroy true true).isNone)) =
        some (none, true) := by
  constructor <;> decide +kernel

end AvlTree

end Mugglec
