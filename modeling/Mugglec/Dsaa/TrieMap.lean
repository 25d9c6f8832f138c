import Mugglec.Machinery.Steps
import Mugglec.Machinery.Walk
import Mugglec.Dsaa.Trie

/-!
# Dsaa/TrieMap — the trie is a map from keys

The pointers of the trie are a forest (`Walk`), in which a key is walked as its **word**: its bytes,
or the one index `'\0'` for the empty key.  What `find` reports of a key is the data pointer at the
end of its word, `reportAt`.  Only two things ever happen to the heap.
-/

namespace Mugglec

open Function Walk

variable {A V : Type}

def TrieKey (key : List UInt8) : Prop := ∀ c ∈ key, c ≠ 0 ∧ c.toNat < 128

instance (key : List UInt8) : Decidable (TrieKey key) :=
  inferInstanceAs (Decidable (∀ c ∈ key, c ≠ 0 ∧ c.toNat < 128))

namespace Trie

def index (c : UInt8) : Fin TRIE_CHILDREN_SIZE := ⟨c.toNat, c.toNat_lt⟩

theorem childIndex_eq {c : UInt8} (h : c.toNat < 128) : childIndex c = some (index c) := dif_pos h

def word : List UInt8 → List (Fin TRIE_CHILDREN_SIZE)
  | [] => [nulIndex]
  | c :: p => (c :: p).map index

theorem index_injective : Injective index := fun _ _ h =>
  UInt8.toNat_inj.mp (congrArg Fin.val h)

variable {key : List UInt8} {w₀ : List (Fin TRIE_CHILDREN_SIZE)} {mem : List (Option A)}

theorem word_injective {key' : List UInt8} (hkey : TrieKey key) (hkey' : TrieKey key')
    (h : word key = word key') : key = key' := by
  have hnul : ∀ c p, TrieKey (c :: p) → [nulIndex] ≠ (c :: p).map index := by
    intro c p hc heq
    have hzero : index 0 = index c := (List.cons.inj heq).1
    exact (hc c List.mem_cons_self).1 (index_injective hzero).symm
  cases key with
  | nil =>
    cases key' with
    | nil => rfl
    | cons c p => exact absurd h (hnul c p hkey')
  | cons c p =>
    cases key' with
    | nil => exact absurd h.symm (hnul c p hkey)
    | cons c' p' => exact List.map_injective_iff.mpr index_injective h

def childOf (T : Trie A V) (node : TriePtr A) (i : Fin TRIE_CHILDREN_SIZE) : Option (TriePtr A) :=
  (T.heap node).bind (·.children i)

def dataOf (T : Trie A V) (node : TriePtr A) : Option V := (T.heap node).bind (·.data)

structure WellFormed (T : Trie A V) : Prop where
  root : (T.heap .root).isSome
  forest : Forest T.childOf .root
  live : ∀ {a i b}, T.childOf a i = some b → (T.heap b).isSome

def reportAt (T : Trie A V) (w : List (Fin TRIE_CHILDREN_SIZE)) : Option V :=
  (w.foldlM T.childOf .root).bind T.dataOf

variable {T T' : Trie A V} {node : TriePtr A} {n : TrieNode A V}

theorem wellFormed_init : (init : Trie A V).WellFormed := by
  have hnone : ∀ a i, (init : Trie A V).childOf a i = none := by
    rintro (_ | a) i <;> rfl
  refine ⟨rfl, ⟨fun h => ?_, fun a i h => ?_⟩, fun h => ?_⟩ <;>
    exact absurd (hnone _ _ ▸ h) (by simp)

theorem reportAt_init (w : List (Fin TRIE_CHILDREN_SIZE)) :
    (init : Trie A V).reportAt w = none := by
  have hdata : ∀ a, (init : Trie A V).dataOf a = none := by
    rintro (_ | a) <;> rfl
  rw [reportAt]
  cases w.foldlM (init : Trie A V).childOf .root with
  | none => rfl
  | some a => exact hdata a

theorem childOf_eq (h : T.heap node = some n) (i : Fin TRIE_CHILDREN_SIZE) :
    T.childOf node i = n.children i := by
  rw [childOf, h, Option.bind_some]

theorem WellFormed.live_walk (h : T.WellFormed) {w : List (Fin TRIE_CHILDREN_SIZE)}
    {a b : TriePtr A} (ha : (T.heap a).isSome) (hw : w.foldlM T.childOf a = some b) :
    (T.heap b).isSome := by
  rcases w.eq_nil_or_concat' with rfl | ⟨w, i, rfl⟩
  · obtain rfl : a = b := by simpa using hw
    exact ha
  · obtain ⟨c, -, hc⟩ := walk_concat_eq_some.mp hw
    exact h.live hc

theorem WellFormed.findLoop_eq (h : T.WellFormed) {p : List UInt8} (hp : ∀ c ∈ p, c.toNat < 128)
    (hnode : (T.heap node).isSome) :
    T.findLoop node p = some ((p.map index).foldlM T.childOf node) := by
  induction p generalizing node with
  | nil => rfl
  | cons c p ih =>
    obtain ⟨n, hn⟩ := Option.isSome_iff_exists.mp hnode
    have hedge := childOf_eq hn (index c)
    rw [findLoop, hn, childIndex_eq (hp c List.mem_cons_self), List.map_cons, List.foldlM_cons,
      hedge]
    cases hchild : n.children (index c) with
    | none => simp [hchild]
    | some child =>
      simp only [Option.bind_eq_bind, Option.bind_some, hchild]
      exact ih (fun d hd => hp d (List.mem_cons_of_mem c hd)) (h.live (hedge.trans hchild))

theorem WellFormed.find_eq (h : T.WellFormed) (hkey : TrieKey key) :
    T.find key = some ((word key).foldlM T.childOf .root) := by
  cases key with
  | nil =>
    obtain ⟨n, hn⟩ := Option.isSome_iff_exists.mp h.root
    rw [find, hn, word, List.foldlM_cons, childOf_eq hn]
    cases hnul : n.children nulIndex <;> simp [hnul]
  | cons c p => exact h.findLoop_eq (fun d hd => (hkey d hd).2) h.root

variable [DecidableEq A]

def addLeaf (T : Trie A V) (node : TriePtr A) (n : TrieNode A V) (i : Fin TRIE_CHILDREN_SIZE)
    (a : A) (d : Option V) : Trie A V :=
  { T with
    heap := update (update T.heap (.node a) (some ⟨fun _ => none, d⟩)) node
      (some { n with children := update n.children i (some (.node a)) }) }

section Leaf

variable {i : Fin TRIE_CHILDREN_SIZE} {a : A} {d : Option V}

theorem heap_addLeaf_of_ne {b : TriePtr A} (hb : b ≠ .node a) (hnode : b ≠ node) :
    (T.addLeaf node n i a d).heap b = T.heap b := by
  simp [addLeaf, hb, hnode]

theorem heap_addLeaf_self : (T.addLeaf node n i a d).heap node =
    some { n with children := update n.children i (some (.node a)) } := by
  simp [addLeaf]

variable (hn : T.heap node = some n) (hfree : T.heap (.node a) = none)
  {w₀ : List (Fin TRIE_CHILDREN_SIZE)}
include hn hfree

omit [DecidableEq A] in
theorem ne_node_of_free : TriePtr.node a ≠ node := by
  rintro rfl
  exact absurd (hn.symm.trans hfree) (by simp)

theorem heap_addLeaf_node : (T.addLeaf node n i a d).heap (.node a) = some ⟨fun _ => none, d⟩ := by
  simp [addLeaf, ne_node_of_free hn hfree]

theorem dataOf_addLeaf (b : TriePtr A) :
    (T.addLeaf node n i a d).dataOf b = if b = .node a then d else T.dataOf b := by
  split_ifs with hb
  · rw [hb, dataOf, heap_addLeaf_node hn hfree, Option.bind_some]
  · by_cases hnode : b = node
    · rw [hnode, dataOf, dataOf, hn, heap_addLeaf_self]
      rfl
    · rw [dataOf, heap_addLeaf_of_ne hb hnode, dataOf]

theorem WellFormed.grows (h : T.WellFormed) (hedge : n.children i = none) :
    Grows T.childOf (T.addLeaf node n i a d).childOf node i (.node a) where
  missing := (childOf_eq hn i).trans hedge
  edge := (childOf_eq heap_addLeaf_self i).trans (update_self ..)
  others b j hne := by
    by_cases hb : b = .node a
    · rw [hb, childOf, heap_addLeaf_node hn hfree, childOf, hfree]
      rfl
    · by_cases hnode : b = node
      · subst hnode
        have hj : j ≠ i := fun hj => hne (by rw [hj])
        rw [childOf_eq hn, childOf_eq heap_addLeaf_self]
        exact update_of_ne hj ..
      · rw [childOf, heap_addLeaf_of_ne hb hnode, childOf]
  unused b j hb := absurd (h.live hb) (by rw [hfree]; simp)
  leaf j := by rw [childOf, hfree, Option.bind_none]

theorem WellFormed.addLeaf (h : T.WellFormed) (hedge : n.children i = none) :
    (T.addLeaf node n i a d).WellFormed := by
  have hlive : ∀ b, (T.heap b).isSome → ((T.addLeaf node n i a d).heap b).isSome := by
    intro b hb
    have hba : b ≠ .node a := fun hba => absurd hb (by rw [hba, hfree]; simp)
    by_cases hnode : b = node
    · rw [hnode, heap_addLeaf_self]
      rfl
    · rwa [heap_addLeaf_of_ne hba hnode]
  have hgrows := h.grows (d := d) hn hfree hedge
  refine ⟨hlive _ h.root, hgrows.forest h.forest (by simp), fun hb => ?_⟩
  rcases hgrows.cases hb with hb | ⟨-, -, rfl⟩
  · exact hlive _ (h.live hb)
  · rw [heap_addLeaf_node hn hfree]
    rfl

theorem WellFormed.reportAt_addLeaf (h : T.WellFormed) (hedge : n.children i = none)
    (hw₀ : w₀.foldlM T.childOf .root = some node) (w : List (Fin TRIE_CHILDREN_SIZE)) :
    (T.addLeaf node n i a d).reportAt w = if w = w₀ ++ [i] then d else T.reportAt w := by
  have hgrows := h.grows (d := d) hn hfree hedge
  have hleaf : (w₀ ++ [i]).foldlM (T.addLeaf node n i a d).childOf .root = some (.node a) :=
    walk_concat_eq_some.mpr ⟨node, hgrows.walk_keeps hw₀, hgrows.edge⟩
  split_ifs with hw
  · rw [hw, reportAt, hleaf, Option.bind_some, dataOf_addLeaf hn hfree, if_pos rfl]
  · rw [reportAt, reportAt]
    cases hwalk : w.foldlM (T.addLeaf node n i a d).childOf .root with
    | none =>
      cases hold : w.foldlM T.childOf .root with
      | none => rfl
      | some b => exact absurd (hwalk.symm.trans (hgrows.walk_keeps hold)) (by simp)
    | some b =>
      rcases hgrows.walk_cases hwalk with hold | rfl
      · have hb : b ≠ .node a := fun hb =>
          absurd (h.live_walk h.root hold) (by rw [hb, hfree]; simp)
        rw [hold, Option.bind_some, Option.bind_some, dataOf_addLeaf hn hfree, if_neg hb]
      · exact absurd ((hgrows.forest h.forest (by simp)).word_unique hwalk hleaf) hw

theorem WellFormed.reportAt_addLeaf_none (h : T.WellFormed) (hedge : n.children i = none)
    (hw₀ : w₀.foldlM T.childOf .root = some node) (w : List (Fin TRIE_CHILDREN_SIZE)) :
    (T.addLeaf node n i a none).reportAt w = T.reportAt w := by
  rw [h.reportAt_addLeaf hn hfree hedge hw₀]
  split_ifs with hw
  · cases hwalk : w.foldlM T.childOf .root with
    | none => rw [reportAt, hwalk, Option.bind_none]
    | some b =>
      obtain ⟨c, hc, hi⟩ := walk_concat_eq_some.mp (hw ▸ hwalk)
      obtain rfl : node = c := Option.some.inj (hw₀.symm.trans hc)
      exact absurd (hi.symm.trans ((childOf_eq hn i).trans hedge)) (by simp)
  · rfl

theorem setChild_allocateNode :
    setChild { T with heap := update T.heap (.node a) (some zeroNode) } node i (.node a) =
      some (T.addLeaf node n i a none) := by
  have hne := (ne_node_of_free hn hfree).symm
  simp [setChild, hne, hn, Trie.addLeaf, zeroNode]

end Leaf

theorem WellFormed.setData (h : T.WellFormed) (hw₀ : w₀.foldlM T.childOf .root = some node)
    (d : Option V) :
    ∃ T', T.setData node d = some T' ∧ T'.WellFormed ∧ T'.dataOf node = d ∧
      ∀ w, T'.reportAt w = if w = w₀ then d else T.reportAt w := by
  obtain ⟨n, hn⟩ := Option.isSome_iff_exists.mp (h.live_walk h.root hw₀)
  set T' : Trie A V := { T with heap := update T.heap node (some { n with data := d }) }
  have hself : T'.heap node = some { n with data := d } := update_self ..
  have hother : ∀ b, b ≠ node → T'.heap b = T.heap b := fun b hb => update_of_ne hb ..
  have hchild : T'.childOf = T.childOf := by
    funext b j
    by_cases hb : b = node
    · rw [hb, childOf_eq hn, childOf_eq hself]
    · rw [childOf, hother b hb, childOf]
  have hdata : ∀ b, T'.dataOf b = if b = node then d else T.dataOf b := by
    intro b
    split_ifs with hb
    · rw [hb, dataOf, hself, Option.bind_some]
    · rw [dataOf, hother b hb, dataOf]
  have hlive : ∀ b, (T.heap b).isSome → (T'.heap b).isSome := by
    intro b hb
    by_cases hnode : b = node
    · rw [hnode, hself]
      rfl
    · rwa [hother b hnode]
  refine ⟨T', by rw [Trie.setData, hn]; rfl, ?_⟩
  refine ⟨⟨hlive _ h.root, hchild ▸ h.forest, fun hb => hlive _ (h.live (hchild ▸ hb))⟩,
    (hdata node).trans (if_pos rfl), fun w => ?_⟩
  rw [reportAt, hchild]
  split_ifs with hw
  · rw [hw, hw₀, Option.bind_some, hdata, if_pos rfl]
  · rw [reportAt]
    cases hwalk : w.foldlM T.childOf .root with
    | none => rfl
    | some b =>
      have hb : b ≠ node := fun hb => hw (h.forest.word_unique hwalk (hb ▸ hw₀))
      rw [Option.bind_some, Option.bind_some, hdata, if_neg hb]

def Fresh (T : Trie A V) (mem : List (Option A)) : Prop :=
  (mem.filterMap id).Nodup ∧ ∀ a ∈ mem.filterMap id, (T.heap (.node a)).isNone

omit [DecidableEq A] in
theorem Fresh.head {a : A} (h : T.Fresh (some a :: mem)) :
    T.heap (.node a) = none := by
  simpa using h.2 a (by simp)

theorem Fresh.tail {a : A} {i : Fin TRIE_CHILDREN_SIZE} {d : Option V} (h : T.Fresh (some a :: mem))
    (hn : T.heap node = some n) :
    (T.addLeaf node n i a d).Fresh mem := by
  obtain ⟨hnodup, hfree⟩ := h
  simp only [List.filterMap_cons, id_eq] at hnodup hfree
  refine ⟨(List.nodup_cons.mp hnodup).2, fun b hb => ?_⟩
  have hbfree := hfree b (List.mem_cons_of_mem a hb)
  have hba : TriePtr.node b ≠ .node a := by
    intro heq
    obtain rfl := TriePtr.node.inj heq
    exact (List.nodup_cons.mp hnodup).1 hb
  have hbnode : TriePtr.node b ≠ node := by
    rintro rfl
    rw [hn] at hbfree
    cases hbfree
  rwa [heap_addLeaf_of_ne hba hbnode]

theorem WellFormed.insertLoop (h : T.WellFormed) (hw₀ : w₀.foldlM T.childOf .root = some node)
    {p : List UInt8} (hp : ∀ c ∈ p, c.toNat < 128) (hmem : T.Fresh mem) :
    ∃ res T', T.insertLoop mem node p = some (res, T') ∧ T'.WellFormed ∧
      (∀ w, T'.reportAt w = T.reportAt w) ∧
      ∀ e ∈ res, (w₀ ++ p.map index).foldlM T'.childOf .root = some e := by
  induction p generalizing T node w₀ mem with
  | nil =>
    refine ⟨some node, T, rfl, h, fun _ => rfl, fun e he => ?_⟩
    obtain rfl := Option.mem_some.mp he
    rwa [List.map_nil, List.append_nil]
  | cons c p ih =>
    have hp' : ∀ d ∈ p, d.toNat < 128 := fun d hd => hp d (List.mem_cons_of_mem c hd)
    obtain ⟨n, hn⟩ := Option.isSome_iff_exists.mp (h.live_walk h.root hw₀)
    have hsplit : w₀ ++ (c :: p).map index = (w₀ ++ [index c]) ++ p.map index := by simp
    rw [Trie.insertLoop, hn, childIndex_eq (hp c List.mem_cons_self), hsplit]
    cases hedge : n.children (index c) with
    | some child =>
      simp only [Option.bind_eq_bind, Option.bind_some, hedge]
      exact ih h (walk_concat_eq_some.mpr ⟨node, hw₀, (childOf_eq hn _).trans hedge⟩) hp' hmem
    | none =>
      simp only [Option.bind_eq_bind, Option.bind_some, hedge]
      match mem, hmem with
      | [], _ | none :: _, _ =>
        exact ⟨none, T, rfl, h, fun _ => rfl, fun e he => absurd he (by simp)⟩
      | some a :: mem, hmem =>
        have hfree := hmem.head
        have hgrows := h.grows (d := none) hn hfree hedge
        obtain ⟨res, T', hres, hwf, hreport, hend⟩ :=
          ih (h.addLeaf (d := none) hn hfree hedge)
            (walk_concat_eq_some.mpr ⟨node, hgrows.walk_keeps hw₀, hgrows.edge⟩) hp' (hmem.tail hn)
        refine ⟨res, T', ?_, hwf, fun w => ?_, hend⟩
        · simp only [allocateNode, setChild_allocateNode hn hfree, Option.bind_some]
          exact hres
        · rw [hreport, h.reportAt_addLeaf_none hn hfree hedge hw₀]

theorem WellFormed.insert (h : T.WellFormed) (hkey : TrieKey key) (value : V) (hmem : T.Fresh mem) :
    ∃ res T', T.insert key value mem = some (res, T') ∧ T'.WellFormed ∧
      (∀ e ∈ res, T'.dataOf e = some value) ∧
      ∀ w, T'.reportAt w = if res.isSome ∧ w = word key then some value else T.reportAt w := by
  cases key with
  | nil =>
    obtain ⟨n, hn⟩ := Option.isSome_iff_exists.mp h.root
    have hroot : [].foldlM T.childOf TriePtr.root = some .root := rfl
    rw [Trie.insert, hn]
    cases hedge : n.children nulIndex with
    | some child =>
      obtain ⟨T', hset, hwf, hdata, hreport⟩ := h.setData (walk_concat_eq_some.mpr
        ⟨.root, hroot, (childOf_eq hn nulIndex).trans hedge⟩) (some value)
      refine ⟨some child, T', ?_, hwf, ?_, fun w => ?_⟩
      · simp only [Option.bind_eq_bind, Option.bind_some, hedge, hset]
        rfl
      · rintro e he
        obtain rfl := Option.mem_some.mp he
        exact hdata
      · rw [hreport]
        simp [word]
    | none =>
      simp only [Option.bind_eq_bind, Option.bind_some, hedge]
      obtain _ | ⟨_ | a, mem⟩ := mem
      · exact ⟨none, T, rfl, h, fun e he => absurd he (by simp), fun w => by simp⟩
      · exact ⟨none, T, rfl, h, fun e he => absurd he (by simp), fun w => by simp⟩
      · have hfree := hmem.head
        refine ⟨some (.node a), T.addLeaf .root n nulIndex a (some value), ?_,
          h.addLeaf hn hfree hedge, ?_, fun w => ?_⟩
        · simp [allocateNode, Trie.setData, setChild, hn, Trie.addLeaf, zeroNode]
        · rintro e he
          obtain rfl := Option.mem_some.mp he
          rw [dataOf_addLeaf hn hfree, if_pos rfl]
        · rw [h.reportAt_addLeaf hn hfree hedge hroot]
          simp [word]
  | cons c p =>
    have hroot : [].foldlM T.childOf TriePtr.root = some .root := rfl
    obtain ⟨res, T₁, hloop, hwf₁, hreport₁, hend⟩ := h.insertLoop hroot
      (fun d hd => (hkey d hd).2) hmem
    rw [Trie.insert, hloop]
    cases res with
    | none =>
      exact ⟨none, T₁, rfl, hwf₁, fun e he => absurd he (by simp), fun w => by simp [hreport₁]⟩
    | some child =>
      obtain ⟨T', hset, hwf, hdata, hreport⟩ := hwf₁.setData (hend child rfl) (some value)
      refine ⟨some child, T', ?_, hwf, ?_, fun w => ?_⟩
      · simp only [Option.bind_eq_bind, Option.bind_some, hset]
        rfl
      · rintro e he
        obtain rfl := Option.mem_some.mp he
        exact hdata
      · rw [hreport, hreport₁]
        simp [word]

theorem WellFormed.remove (h : T.WellFormed) (hkey : TrieKey key) (freeGiven : Bool) :
    ∃ res T', T.remove key freeGiven = some (res, T') ∧ T'.WellFormed ∧
      ∀ w, T'.reportAt w = if w = word key then none else T.reportAt w := by
  rw [Trie.remove, h.find_eq hkey]
  cases hfind : (word key).foldlM T.childOf .root with
  | none =>
    refine ⟨false, T, rfl, h, fun w => ?_⟩
    split_ifs with hw
    · rw [hw, reportAt, hfind, Option.bind_none]
    · rfl
  | some node =>
    obtain ⟨n, hn⟩ := Option.isSome_iff_exists.mp (h.live_walk h.root hfind)
    -- the record of the free function's calls is no part of the forest
    have hlog : ∀ l, Trie.WellFormed { T with freed := l } := fun _ => ⟨h.root, h.forest, h.live⟩
    obtain ⟨T', hset, hwf, -, hreport⟩ := (hlog
      (if freeGiven then T.freed ++ [n.data] else T.freed)).setData hfind none
    refine ⟨true, T', ?_, hwf, fun w => hreport w⟩
    simp only [Option.bind_eq_bind, Option.bind_some, hn]
    cases freeGiven <;> simp_all

end Trie

inductive TrieCall (A V : Type)
  | insert (key : List UInt8) (value : V) (mem : List (Option A))
  | remove (key : List UInt8) (freeGiven : Bool)

def TrieCall.key : TrieCall A V → List UInt8
  | .insert key _ _ => key
  | .remove key _ => key

structure TrieRun (A V : Type) where
  trie : Trie A V
  map : List UInt8 → Option V

namespace TrieRun

def start : TrieRun A V := ⟨Trie.init, fun _ => none⟩

def Legal (s : TrieRun A V) : TrieCall A V → Prop
  | .insert key _ mem => TrieKey key ∧ s.trie.Fresh mem
  | .remove key _ => TrieKey key

structure Matches (s : TrieRun A V) : Prop where
  wellFormed : s.trie.WellFormed
  map : ∀ key, TrieKey key → s.trie.reportAt (Trie.word key) = s.map key

theorem matches_start : (start : TrieRun A V).Matches :=
  ⟨Trie.wellFormed_init, fun _ _ => Trie.reportAt_init _⟩

variable [DecidableEq A]

instance (s : TrieRun A V) (c : TrieCall A V) : Decidable (s.Legal c) :=
  match c with
  | .insert _ _ _ => inferInstanceAs (Decidable (_ ∧ _ ∧ ∀ _ ∈ _, _))
  | .remove _ _ => inferInstanceAs (Decidable (TrieKey _))

def next (s : TrieRun A V) : TrieCall A V → Option (TrieRun A V)
  | .insert key value mem => (s.trie.insert key value mem).map fun res =>
      ⟨res.2, if res.1.isSome then update s.map key (some value) else s.map⟩
  | .remove key freeGiven => (s.trie.remove key freeGiven).map fun res =>
      ⟨res.2, update s.map key none⟩

def report (T : Trie A V) (key : List UInt8) : Option (Option V) :=
  (T.find key).map fun node => node.bind T.dataOf

structure Refines (s : TrieRun A V) : Prop where
  find (key : List UInt8) (hkey : TrieKey key) : report s.trie key = some (s.map key)
  returns (c : TrieCall A V) (hc : s.Legal c) : ∃ s', s.next c = some s' ∧
    ∀ key, TrieKey key → key ≠ c.key → report s'.trie key = report s.trie key

variable {s s' : TrieRun A V}

omit [DecidableEq A] in
theorem Matches.report (h : s.Matches) {key : List UInt8} (hkey : TrieKey key) :
    report s.trie key = some (s.map key) := by
  rw [TrieRun.report, h.wellFormed.find_eq hkey, Option.map_some, ← h.map key hkey]
  rfl

theorem Matches.next (h : s.Matches) {c : TrieCall A V} (hc : s.Legal c) :
    ∃ s', s.next c = some s' ∧ s'.Matches ∧ ∀ key, key ≠ c.key → s'.map key = s.map key := by
  cases c with
  | insert key value mem =>
    obtain ⟨res, T', hins, hwf, -, hreport⟩ := h.wellFormed.insert hc.1 value hc.2
    refine ⟨⟨T', if res.isSome then update s.map key (some value) else s.map⟩,
      by rw [TrieRun.next, hins, Option.map_some], ⟨hwf, fun key' hkey' => ?_⟩, fun key' hne => ?_⟩
    · rw [hreport, h.map key' hkey']
      by_cases heq : key' = key
      · subst heq
        cases res <;> simp
      · have hword : Trie.word key' ≠ Trie.word key := fun hw =>
          heq (Trie.word_injective hkey' hc.1 hw)
        cases res <;> simp [heq, hword]
    · cases res with
      | none => rfl
      | some e => exact update_of_ne hne ..
  | remove key freeGiven =>
    obtain ⟨res, T', hrem, hwf, hreport⟩ := h.wellFormed.remove hc freeGiven
    refine ⟨⟨T', update s.map key none⟩, by rw [TrieRun.next, hrem, Option.map_some],
      ⟨hwf, fun key' hkey' => ?_⟩, fun key' hne => update_of_ne hne ..⟩
    rw [hreport, h.map key' hkey']
    by_cases heq : key' = key
    · simp [heq]
    · have hword : Trie.word key' ≠ Trie.word key := fun hw =>
        heq (Trie.word_injective hkey' hc hw)
      simp [heq, hword]

theorem Matches.refines (h : s.Matches) : s.Refines where
  find _ hkey := h.report hkey
  returns c hc := by
    obtain ⟨s', hnext, h', hmap⟩ := h.next hc
    refine ⟨s', hnext, fun key hkey hne => ?_⟩
    rw [h'.report hkey, h.report hkey, hmap key hne]

theorem matches_of_reach (hs : Steps.Reach next Legal start s) : s.Matches :=
  hs.invariant matches_start fun s c s' h hc hnext => by
    obtain ⟨t, hnext', h', -⟩ := h.next hc
    obtain rfl := Option.some.inj (hnext.symm.trans hnext')
    exact h'

/-- **In every run the trie answers as the map**, whatever allocations fail. -/
theorem trie_refines_of_reach (hs : Steps.Reach next Legal start s) : s.Refines :=
  (matches_of_reach hs).refines

def sharedPath : List (TrieCall ℕ ℕ) :=
  [.insert [] 7 [some 0], .insert [97] 8 [some 1], .insert [97, 98] 9 [some 2],
   .insert [97, 98, 99, 100] 10 [some 3, none], .remove [97] true]

theorem refines_sharedPath : ∃ s : TrieRun ℕ ℕ,
    ([[], [97], [97, 98], [97, 98, 99], [97, 98, 99, 100]].map s.map, s.trie.freed) =
      ([some 7, none, some 9, none, none], [some 8]) ∧ s.Refines := by
  exact Steps.exists_of_execWhen start sharedPath (by decide +kernel) fun _ hs _ =>
    trie_refines_of_reach hs

end TrieRun

end Mugglec
