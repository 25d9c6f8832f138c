import Mugglec.Dsaa.HashTable

/-!
# Dsaa/HashTableChains — the chains of the hash table, call by call

The chains of a table are given by its **buckets**: for each index the addresses and pairs along the
chain (`Holds`).  A call looks at one bucket or changes it.
-/

namespace Mugglec

open Function LinkedList OwnedHeap

variable {A K V : Type} {hash : Option K → ℕ} {cmp : Option K → Option K → ℤ} {T : HashTable A K V}

abbrev HashEntry (A K V : Type) := A × (Option K × Option V)

abbrev Buckets (A K V : Type) := ℕ → List (HashEntry A K V)

namespace HashTable

def chain (i : ℕ) (l : List (HashEntry A K V)) : List (HashPtr A) :=
  .head i :: l.map fun e => .node e.1

def entries (n : ℕ) (b : Buckets A K V) : Multiset (HashEntry A K V) :=
  ∑ i ∈ Finset.range n, (b i : Multiset (HashEntry A K V))

structure Holds (hash : Option K → ℕ) (cmp : Option K → Option K → ℤ) (T : HashTable A K V)
    (b : Buckets A K V) : Prop where
  pos : 0 < T.tableSize
  lists : ∀ i < T.tableSize, IsList (nextOf T.heap) (prevOf T.heap) (chain i (b i))
  heads : ∀ i < T.tableSize, ∃ d, dataOf T.heap (.head i) = some d
  data : ∀ a q, dataOf T.heap (.node a) = some q ↔ (a, q) ∈ entries T.tableSize b
  nodup : ((entries T.tableSize b).map Prod.fst).Nodup
  home : ∀ i < T.tableSize, ∀ e ∈ b i, T.bucket hash e.2.1 = i
  distinct : ∀ i < T.tableSize, (b i).Pairwise fun e e' => cmp e.2.1 e'.2.1 ≠ 0
  nodes : T.nodes = (entries T.tableSize b).card

variable {n i j : ℕ} {b : Buckets A K V} {l : List (HashEntry A K V)} {e e' : HashEntry A K V}
  {heap : HashPtr A → Option (HashCell A K V)}

theorem mem_entries : e ∈ entries n b ↔ ∃ i < n, e ∈ b i := by
  simp [entries, Multiset.mem_sum]

theorem entries_eq (hi : i < n) (b : Buckets A K V) :
    entries n b = (b i : Multiset (HashEntry A K V)) +
      ∑ j ∈ (Finset.range n).erase i, (b j : Multiset (HashEntry A K V)) :=
  (Finset.add_sum_erase _ _ (Finset.mem_range.mpr hi)).symm

theorem entries_update (hi : i < n) (b : Buckets A K V) (l : List (HashEntry A K V)) :
    entries n (update b i l) = (l : Multiset (HashEntry A K V)) +
      ∑ j ∈ (Finset.range n).erase i, (b j : Multiset (HashEntry A K V)) := by
  rw [entries_eq hi, update_self]
  congr 1
  refine Finset.sum_congr rfl fun j hj => ?_
  rw [update_of_ne (Finset.ne_of_mem_erase hj)]

theorem entries_update_cons (hi : i < n) (b : Buckets A K V) (e : HashEntry A K V) :
    entries n (update b i (e :: b i)) = e ::ₘ entries n b := by
  rw [entries_update hi, entries_eq hi b, ← Multiset.cons_coe, Multiset.cons_add]

theorem entries_split {l₁ l₂ : List (HashEntry A K V)} (hi : i < n) (hb : b i = l₁ ++ e :: l₂) :
    entries n b = e ::ₘ entries n (update b i (l₁ ++ l₂)) := by
  have hperm : (↑(l₁ ++ e :: l₂) : Multiset (HashEntry A K V)) = e ::ₘ ↑(l₁ ++ l₂) := by
    rw [Multiset.cons_coe, Multiset.coe_eq_coe]
    exact List.perm_middle
  rw [entries_eq hi b, entries_update hi, hb, hperm, Multiset.cons_add]

theorem apart (hnodup : ((entries n b).map Prod.fst).Nodup) (hi : i < n) (hj : j < n) (hij : i ≠ j)
    (he : e ∈ b i) (he' : e' ∈ b j) : e.1 ≠ e'.1 := by
  intro heq
  rw [entries_eq hi, Multiset.map_add, Multiset.nodup_add] at hnodup
  refine (Multiset.disjoint_left.mp hnodup.2.2) (Multiset.mem_map_of_mem _ he) ?_
  rw [heq]
  refine Multiset.mem_map_of_mem _ (Multiset.mem_sum.mpr ⟨j, ?_, he'⟩)
  exact Finset.mem_erase.mpr ⟨hij.symm, Finset.mem_range.mpr hj⟩

theorem disjoint_chain (hnodup : ((entries n b).map Prod.fst).Nodup) (hi : i < n) (hj : j < n)
    (hij : i ≠ j) : (chain i (b i)).Disjoint (chain j (b j)) := by
  intro p hp hp'
  cases p with
  | head k =>
    obtain rfl : k = i := by simpa [chain] using hp
    obtain rfl : k = j := by simpa [chain] using hp'
    exact hij rfl
  | node a =>
    obtain ⟨q, hq⟩ : ∃ q, (a, q) ∈ b i := by simpa [chain] using hp
    obtain ⟨q', hq'⟩ : ∃ q', (a, q') ∈ b j := by simpa [chain] using hp'
    exact apart hnodup hi hj hij hq hq' rfl

namespace Holds

variable (h : T.Holds hash cmp b)
include h

theorem own : Own (dataOf T.heap ∘ .node) (entries T.tableSize b) := ⟨h.nodup, h.data⟩

theorem nodup_chain (hi : i < T.tableSize) : (chain i (b i)).Nodup := by
  have hnodup := h.nodup
  rw [entries_eq hi, Multiset.map_add, Multiset.nodup_add, Multiset.map_coe,
    Multiset.coe_nodup] at hnodup
  have hmap := hnodup.1.map (f := HashPtr.node) fun _ _ => HashPtr.node.inj
  rw [List.map_map] at hmap
  exact List.nodup_cons.mpr ⟨by simp, hmap⟩

theorem length_le (hi : i < T.tableSize) : (b i).length ≤ T.nodes := by
  rw [h.nodes, entries_eq hi, Multiset.card_add, Multiset.coe_card]
  exact Nat.le_add_right ..

theorem data_of_mem (hi : i < T.tableSize) (he : e ∈ b i) : dataOf T.heap (.node e.1) = some e.2 :=
  (h.data e.1 e.2).mpr (mem_entries.mpr ⟨i, hi, he⟩)

theorem bucket_lt (key : Option K) : T.bucket hash key < T.tableSize := Nat.mod_lt _ h.pos

theorem exists_data (hi : i < T.tableSize) {p : HashPtr A} (hp : p ∈ chain i (b i)) :
    ∃ d, dataOf T.heap p = some d := by
  cases p with
  | head k =>
    obtain rfl : k = i := by simpa [chain] using hp
    exact h.heads k hi
  | node a =>
    obtain ⟨q, hq⟩ : ∃ q, (a, q) ∈ b i := by simpa [chain] using hp
    exact ⟨q, h.data_of_mem hi hq⟩

end Holds

def lookup (cmp : Option K → Option K → ℤ) (key : Option K) (l : List (HashEntry A K V)) :
    Option (HashEntry A K V) :=
  l.find? fun e => cmp e.2.1 key = 0

theorem findLoop_eq {key : Option K} :
    ∀ (l : List (HashEntry A K V)) (xs : List (HashPtr A)) {p : HashPtr A} {n : ℕ},
      IsList (nextOf heap) (prevOf heap) (xs ++ p :: l.map fun e => .node e.1) →
      (∀ e ∈ l, dataOf heap (.node e.1) = some e.2) → l.length < n →
      findLoop cmp heap key n (nextOf heap p) =
        some ((lookup cmp key l).map fun e => .node e.1) := by
  intro l
  induction l with
  | nil =>
    intro xs p n hlist _ hn
    obtain ⟨n, rfl⟩ := Nat.exists_eq_succ_of_ne_zero hn.ne'
    rw [hlist.next_eq]
    rfl
  | cons e l ih =>
    intro xs p n hlist hdata hn
    obtain ⟨n, rfl⟩ := Nat.exists_eq_succ_of_ne_zero (Nat.ne_of_gt (Nat.zero_lt_of_lt hn))
    have hcell := eq_some_of_dataOf (hdata e List.mem_cons_self)
    rw [hlist.next_eq]
    simp only [List.map_cons, List.head?_cons, findLoop, hcell, Option.bind_eq_bind,
      Option.bind_some]
    by_cases hkey : cmp e.2.1 key = 0
    · simp [lookup, hkey]
    · rw [if_neg hkey, ih (xs ++ [p]) (by simpa using hlist)
        (fun e' he' => hdata e' (List.mem_cons_of_mem _ he')) (Nat.lt_of_succ_lt_succ hn)]
      simp [lookup, hkey]

namespace Holds

variable (h : T.Holds hash cmp b)
include h

theorem findLoop (hi : i < T.tableSize) (key : Option K) :
    HashTable.findLoop cmp T.heap key (T.nodes + 1) (nextOf T.heap (.head i)) =
      some ((lookup cmp key (b i)).map fun e => .node e.1) :=
  findLoop_eq (b i) [] (h.lists i hi) (fun _ he => h.data_of_mem hi he)
    (Nat.lt_succ_of_le (h.length_le hi))

theorem find (key : Option K) : T.find hash cmp key =
    some ((lookup cmp key (b (T.bucket hash key))).map fun e => .node e.1) := by
  obtain ⟨d, hd⟩ := h.heads _ (h.bucket_lt key)
  rw [HashTable.find, eq_some_of_dataOf hd]
  exact h.findLoop (h.bucket_lt key) key

theorem edit {nodes : ℕ} {keys : List K} {values : List V}
    (hi : i < T.tableSize) (hlist : IsList (nextOf heap) (prevOf heap) (chain i l))
    (hframe : ∀ p ∉ chain i (b i), p ∉ chain i l →
      nextOf heap p = nextOf T.heap p ∧ prevOf heap p = prevOf T.heap p)
    (hheads : ∀ j, dataOf heap (.head j) = dataOf T.heap (.head j))
    (hown : Own (dataOf heap ∘ .node) (entries T.tableSize (update b i l)))
    (hhome : ∀ e ∈ l, T.bucket hash e.2.1 = i)
    (hdistinct : l.Pairwise fun e e' => cmp e.2.1 e'.2.1 ≠ 0)
    (hnodes : nodes = (entries T.tableSize (update b i l)).card) :
    Holds hash cmp ⟨heap, T.tableSize, nodes, keys, values⟩ (update b i l) := by
  have hbucket : ∀ {P : ℕ → List (HashEntry A K V) → Prop}, P i l →
      (∀ j < T.tableSize, j ≠ i → P j (b j)) → ∀ j < T.tableSize, P j (update b i l j) := by
    intro P hP hothers j hj
    by_cases hji : j = i
    · subst hji
      rwa [update_self]
    · rw [update_of_ne hji]
      exact hothers j hj hji
  refine ⟨h.pos, ?_, fun j hj => ?_, hown.mem, hown.nodup, ?_, ?_, hnodes⟩
  · refine hbucket (P := fun j l => IsList _ _ (chain j l)) hlist fun j hj hji => ?_
    have hdisj := disjoint_chain hown.nodup hj hi hji
    rw [update_self, update_of_ne hji] at hdisj
    have hlinks := fun x hx =>
      hframe x (disjoint_chain h.nodup hj hi hji hx) (hdisj hx)
    exact (h.lists j hj).congr (fun x hx => (hlinks x hx).1) fun x hx => (hlinks x hx).2
  · obtain ⟨d, hd⟩ := h.heads j hj
    exact ⟨d, (hheads j).trans hd⟩
  · exact hbucket (P := fun j l => ∀ e ∈ l, T.bucket hash e.2.1 = j) hhome
      fun j hj _ => h.home j hj
  · exact hbucket (P := fun _ l => l.Pairwise fun e e' => cmp e.2.1 e'.2.1 ≠ 0) hdistinct
      fun j hj _ => h.distinct j hj

end Holds

theorem exists_before (i : ℕ) (l₁ l₂ : List (HashEntry A K V)) (e : HashEntry A K V) : ∃ xs p,
    chain i (l₁ ++ e :: l₂) = xs ++ p :: .node e.1 :: l₂.map (fun e => .node e.1) ∧
      chain i (l₁ ++ l₂) = xs ++ p :: l₂.map (fun e => .node e.1) := by
  obtain ⟨xs, p, hp⟩ : ∃ xs p, chain i l₁ = xs ++ [p] :=
    ⟨_, _, (List.dropLast_append_getLast (List.cons_ne_nil _ _)).symm⟩
  have happ : ∀ l : List (HashEntry A K V),
      chain i (l₁ ++ l) = xs ++ p :: l.map fun e => .node e.1 := by
    intro l
    rw [chain, List.map_append, ← List.cons_append, ← chain, hp, List.append_assoc]
    rfl
  exact ⟨xs, p, happ _, happ _⟩

variable [DecidableEq A]

theorem dataOf_node_update (a : A) (d : Option (Option K × Option V)) :
    update (dataOf heap) (.node a) d ∘ .node = update (dataOf heap ∘ .node) a d :=
  update_comp_eq_of_injective _ (fun _ _ => HashPtr.node.inj) a d

theorem link_writes {p : HashPtr A} {o : Option (HashPtr A)} (hp : ∃ d, dataOf heap p = some d)
    (ho : ∀ n ∈ o, ∃ d, dataOf heap n = some d) (v w : Option (HashPtr A)) : ∃ h₁ h₂,
      modify heap p (·.setNext v) = some h₁ ∧ setPrevOf h₁ o w = some h₂ ∧
      nextOf h₂ = update (nextOf heap) p v ∧ prevOf h₂ = relink (prevOf heap) o w ∧
      dataOf h₂ = dataOf heap := by
  obtain ⟨d, hd⟩ := hp
  obtain ⟨h₁, hm₁, hn₁, hp₁, hd₁⟩ := modify_setNext hd v
  cases o with
  | none => exact ⟨h₁, h₁, hm₁, rfl, hn₁, hp₁, hd₁⟩
  | some n =>
    obtain ⟨d', hd'⟩ := ho n rfl
    obtain ⟨h₂, hm₂, hn₂, hp₂, hd₂⟩ := modify_setPrev (hd₁ ▸ hd') w
    exact ⟨h₁, h₂, hm₁, hm₂, hn₂.trans hn₁, by rw [hp₂, hp₁]; rfl, hd₂.trans hd₁⟩

namespace Holds

variable (h : T.Holds hash cmp b)
include h

theorem put_refused {key : Option K} {mem : Option A} (value : Option V)
    (hwhy : (lookup cmp key (b (T.bucket hash key))).isSome ∨ mem = none) :
    T.put hash cmp key value mem = some (none, T) := by
  obtain ⟨d, hd⟩ := h.heads _ (h.bucket_lt key)
  have hloop := h.findLoop (h.bucket_lt key) key
  simp only [HashTable.put, eq_some_of_dataOf hd, Option.bind_eq_bind, Option.bind_some, hloop]
  cases hfound : lookup cmp key (b (T.bucket hash key)) with
  | some e => rfl
  | none =>
    rw [hfound] at hwhy
    obtain rfl := hwhy.resolve_left (by simp)
    rfl

theorem put_new (hcmp : Equivalence fun k k' => cmp k k' = 0) {key : Option K} {a : A}
    (value : Option V) (hnew : lookup cmp key (b (T.bucket hash key)) = none)
    (hfresh : dataOf T.heap (.node a) = none) :
    ∃ T', T.put hash cmp key value (some a) = some (some (.node a), T') ∧
      T'.tableSize = T.tableSize ∧ T'.freedKeys = T.freedKeys ∧ T'.freedValues = T.freedValues ∧
      T'.Holds hash cmp (update b (T.bucket hash key)
        ((a, (key, value)) :: b (T.bucket hash key))) := by
  have hi := h.bucket_lt key
  generalize hidx : T.bucket hash key = i at hi hnew ⊢
  obtain ⟨d, hd⟩ := h.heads _ hi
  have hloop := h.findLoop hi key
  have hnext : nextOf T.heap (.head i) = ((b i).map fun e => HashPtr.node e.1).head? :=
    (h.lists i hi).next_head
  have ho : ∀ n ∈ nextOf T.heap (.head i), ∃ d, dataOf T.heap n = some d := by
    intro n hn
    rw [hnext] at hn
    exact h.exists_data hi (List.mem_cons_of_mem _ (List.mem_of_mem_head? hn))
  -- the cells that are written exist, also with the new one
  have hexists : ∀ p, (∃ d, dataOf T.heap p = some d) → ∃ d, dataOf
      (update T.heap (.node a) (some ⟨some (.head i), nextOf T.heap (.head i), key, value⟩)) p =
        some d := by
    rintro p ⟨d, hd⟩
    refine ⟨d, ?_⟩
    rw [dataOf_update, update_of_ne]
    · exact hd
    · rintro rfl
      exact absurd (hfresh.symm.trans hd) (by simp)
  obtain ⟨h₁, h₂, hm₁, hm₂, hn₂, hp₂, hd₂⟩ := link_writes (hexists _ ⟨d, hd⟩)
    (fun n hn => hexists n (ho n hn)) (some (.node a)) (some (.node a))
  rw [nextOf_update] at hn₂
  rw [prevOf_update] at hp₂
  rw [dataOf_update] at hd₂
  have hmem : (a, (key, value)) ::ₘ entries T.tableSize b =
      entries T.tableSize (update b i ((a, (key, value)) :: b i)) :=
    (entries_update_cons hi b _).symm
  have hout : HashPtr.node a ∉ chain i (b i) := by
    intro hmem
    obtain ⟨d, hd⟩ := h.exists_data hi hmem
    exact absurd (hfresh.symm.trans hd) (by simp)
  refine ⟨{ T with heap := h₂, nodes := T.nodes + 1 }, ?_, rfl, rfl, rfl, ?_⟩
  · simp only [HashTable.put, hidx, eq_some_of_dataOf hd, Option.bind_eq_bind, Option.bind_some,
      hloop, hnew, Option.map_none, hm₁, hm₂]
    rfl
  refine h.edit hi ?_ (fun p hp hp' => ⟨?_, ?_⟩) (fun j => ?_) ?_ ?_ ?_ ?_
  · have hnodup := h.nodup_chain hi
    rw [chain, List.nodup_cons] at hnodup
    rw [chain, List.mem_cons, not_or] at hout
    rw [hn₂, hp₂, hnext]
    exact IsList.insert (h.lists i hi)
      (List.nodup_cons.mpr ⟨by simp, List.nodup_cons.mpr ⟨hout.2, hnodup.2⟩⟩)
  · rw [hn₂, update_of_ne (List.ne_of_not_mem_cons hp), update_of_ne]
    rintro rfl
    exact hp' (by simp [chain])
  · rw [hp₂, relink_of_ne, update_of_ne]
    · rintro rfl
      exact hp' (by simp [chain])
    · rintro n hn rfl
      rw [hnext] at hn
      exact hp (List.mem_cons_of_mem _ (List.mem_of_mem_head? hn))
  · rw [hd₂, update_of_ne (by simp)]
  · rw [hd₂, dataOf_node_update, ← hmem]
    exact h.own.alloc hfresh (key, value)
  · exact List.forall_mem_cons.mpr ⟨hidx, h.home i hi⟩
  · refine List.pairwise_cons.mpr ⟨fun e he heq => ?_, h.distinct i hi⟩
    exact List.find?_eq_none.mp hnew e he (decide_eq_true (hcmp.symm heq))
  · rw [← hmem, Multiset.card_cons, h.nodes]

theorem remove {l₁ l₂ : List (HashEntry A K V)} {a : A} {q : Option K × Option V}
    (hi : i < T.tableSize) (hb : b i = l₁ ++ (a, q) :: l₂) (keyFree valueFree : Bool) :
    ∃ T', T.remove (.node a) keyFree valueFree = some T' ∧ T'.tableSize = T.tableSize ∧
      T'.freedKeys = T.freedKeys ++ freed keyFree q.1 ∧
      T'.freedValues = T.freedValues ++ freed valueFree q.2 ∧
      T'.Holds hash cmp (update b i (l₁ ++ l₂)) := by
  obtain ⟨xs, p, hchain, hchain'⟩ := exists_before i l₁ l₂ (a, q)
  have hlist := h.lists i hi
  have hnodup := h.nodup_chain hi
  have hexists := fun p => h.exists_data hi (p := p)
  rw [hb, hchain] at hlist hnodup hexists
  obtain ⟨d, hd⟩ := hexists p (by simp)
  have hdata : dataOf T.heap (.node a) = some q := h.data_of_mem (e := (a, q)) hi (by simp [hb])
  have hprev := hlist.prev_eq
  have hnext : nextOf T.heap (.node a) = (l₂.map fun e => HashPtr.node e.1).head? :=
    IsList.next_eq (by simpa using hlist : IsList _ _ ((xs ++ [p]) ++ .node a :: _))
  have hne : p ≠ .node a := by grind
  have hout : HashPtr.node a ∉ chain i (l₁ ++ l₂) := by
    rw [hchain']
    grind
  have ho : ∀ n ∈ nextOf T.heap (.node a), ∃ d, dataOf T.heap n = some d := by
    intro n hn
    rw [hnext] at hn
    exact hexists n (List.mem_append_right _ (.tail _ (.tail _ (List.mem_of_mem_head? hn))))
  set w : CellWrite (HashPtr A) (Option K × Option V) := .data (.node a) fun _ => (none, none)
  obtain ⟨h₁, hm₁, hn₁, hp₁, hd₁⟩ := w.write_eq hdata
  have hexists₁ := fun p hp => hd₁ ▸ w.exists_onData (a := p) hp
  obtain ⟨h₂, h₃, hm₂, hm₃, hn₃, hp₃, hd₃⟩ := link_writes (hexists₁ p ⟨d, hd⟩)
    (fun n hn => hexists₁ n (ho n hn)) (nextOf T.heap (.node a)) (some p)
  have hsplit := entries_split hi hb
  have hdata' : dataOf (update h₃ (.node a) none) = update (dataOf T.heap) (.node a) none := by
    rw [dataOf_update, hd₃, hd₁, CellWrite.onData, update_idem]
    rfl
  refine ⟨{ T with
    heap := update h₃ (.node a) none
    nodes := T.nodes - 1
    freedKeys := T.freedKeys ++ freed keyFree q.1
    freedValues := T.freedValues ++ freed valueFree q.2 }, ?_, rfl, rfl, rfl, ?_⟩
  · simp only [HashTable.remove, eq_some_of_dataOf hdata, Option.bind_eq_bind, Option.bind_some,
      show modify T.heap (.node a) (·.mapData fun _ => (none, none)) = some h₁ from hm₁, hprev,
      hm₂, hm₃]
    rfl
  refine h.edit hi ?_ (fun x hx hx' => ?_) (fun j => ?_) ?_ (fun e he => ?_) ?_ ?_
  · have hunlink := hlist.unlink hnodup
    rw [← hchain', ← hnext] at hunlink
    rw [nextOf_update, prevOf_update, hn₃, hp₃, hn₁, hp₁]
    refine hunlink.congr (fun x hx => ?_) fun x hx => ?_ <;>
      exact update_of_ne (by rintro rfl; exact hout hx) _ _
  · rw [hb, hchain] at hx
    have hxa : x ≠ .node a := by
      rintro rfl
      exact hx (by simp)
    have hxp : x ≠ p := by
      rintro rfl
      exact hx (by simp)
    rw [nextOf_update, prevOf_update, hn₃, hp₃, hn₁, hp₁, update_of_ne hxa, update_of_ne hxa]
    refine ⟨update_of_ne hxp _ _, relink_of_ne ?_⟩
    rintro n hn rfl
    rw [hnext] at hn
    exact hx (List.mem_append_right _ (.tail _ (.tail _ (List.mem_of_mem_head? hn))))
  · rw [hdata', update_of_ne (by simp)]
  · rw [hdata', dataOf_node_update]
    exact (h.own.congr hsplit).free
  · have hsub := List.Sublist.append_left (List.sublist_cons_self (a, q) l₂) l₁
    exact h.home i hi e (hb ▸ hsub.subset he)
  · have hdistinct := h.distinct i hi
    rw [hb] at hdistinct
    exact hdistinct.sublist (List.Sublist.append_left (List.sublist_cons_self _ _) _)
  · rw [h.nodes, hsplit, Multiset.card_cons]
    rfl

end Holds

variable (keyFree valueFree : Bool)

theorem clearChain_spec : ∀ (l : List (HashEntry A K V)) {n : ℕ}
    {T : HashTable A K V} {b : Buckets A K V}, T.Holds hash cmp b → i < T.tableSize → b i = l →
    l.length < n → ∃ T', T.clearChain keyFree valueFree n (nextOf T.heap (.head i)) = some T' ∧
      T'.tableSize = T.tableSize ∧ T'.Holds hash cmp (update b i []) := by
  intro l
  induction l with
  | nil =>
    intro n T b h hi hb hn
    obtain ⟨n, rfl⟩ := Nat.exists_eq_succ_of_ne_zero hn.ne'
    have hlist := h.lists i hi
    rw [hb] at hlist
    refine ⟨T, by rw [hlist.next_head]; rfl, rfl, ?_⟩
    rwa [← hb, update_eq_self]
  | cons e l ih =>
    intro n T b h hi hb hn
    obtain ⟨n, rfl⟩ := Nat.exists_eq_succ_of_ne_zero (Nat.ne_of_gt (Nat.zero_lt_of_lt hn))
    obtain ⟨a, q⟩ := e
    have hb' : b i = [] ++ (a, q) :: l := hb
    obtain ⟨T₁, hremove, hsize, -, -, h₁⟩ := h.remove hi hb' keyFree valueFree
    have hlist := h.lists i hi
    rw [hb] at hlist
    have hdata : dataOf T.heap (.node a) = some q :=
      h.data_of_mem (e := (a, q)) hi (by simp [hb])
    -- after the removal, the head's next is what was the removed node's
    have hlist₁ := h₁.lists i (hsize ▸ hi)
    rw [update_self] at hlist₁
    have hnext : nextOf T₁.heap (.head i) = nextOf T.heap (.node a) := by
      rw [hlist₁.next_head]
      exact (IsList.next_eq (show IsList _ _ ([HashPtr.head i] ++ .node a :: _) from hlist)).symm
    obtain ⟨T', hclear, hsize', h'⟩ :=
      ih h₁ (hsize ▸ hi) (update_self ..) (Nat.lt_of_succ_lt_succ hn)
    rw [update_idem] at h'
    refine ⟨T', ?_, hsize'.trans hsize, h'⟩
    have hhead : nextOf T.heap (.head i) = some (.node a) := hlist.next_head
    rw [hnext] at hclear
    simp only [hhead, clearChain, eq_some_of_dataOf hdata, Option.bind_eq_bind, Option.bind_some,
      hremove, hclear]

namespace Holds

variable (h : T.Holds hash cmp b)
include h

theorem clearBucket (hi : i < T.tableSize) :
    ∃ T', T.clearBucket keyFree valueFree i = some T' ∧ T'.tableSize = T.tableSize ∧
      T'.Holds hash cmp (update b i []) := by
  obtain ⟨d, hd⟩ := h.heads i hi
  obtain ⟨T', hclear, hsize, h'⟩ := clearChain_spec keyFree valueFree (b i) h hi rfl
    (Nat.lt_succ_of_le (h.length_le hi))
  refine ⟨T', ?_, hsize, h'⟩
  rw [HashTable.clearBucket, eq_some_of_dataOf hd]
  exact hclear

theorem clearRounds : ∀ k ≤ T.tableSize, ∃ T',
    (List.range k).foldlM (HashTable.clearBucket keyFree valueFree) T = some T' ∧
      T'.tableSize = T.tableSize ∧ T'.Holds hash cmp fun i => if i < k then [] else b i := by
  intro k
  induction k with
  | zero => exact fun _ => ⟨T, rfl, rfl, by simpa using h⟩
  | succ k ih =>
    intro hk
    obtain ⟨T₁, hrounds, hsize, h₁⟩ := ih (Nat.le_of_succ_le hk)
    obtain ⟨T₂, hround, hsize', h₂⟩ := h₁.clearBucket keyFree valueFree (i := k) (by omega)
    refine ⟨T₂, ?_, hsize'.trans hsize, ?_⟩
    · rw [List.range_succ, List.foldlM_append, hrounds]
      simp [hround]
    · have hupdate : update (fun i => if i < k then [] else b i) k [] =
          fun i => if i < k + 1 then [] else b i := by
        funext i
        by_cases hik : i = k
        · simp [hik]
        · rw [update_of_ne hik]
          simp only [show i < k + 1 ↔ i < k by omega]
      rwa [hupdate] at h₂

theorem clear : ∃ T', T.clear keyFree valueFree = some T' ∧
    T'.tableSize = T.tableSize ∧ T'.Holds hash cmp fun _ => [] := by
  obtain ⟨T', hclear, hsize, h'⟩ := h.clearRounds keyFree valueFree T.tableSize le_rfl
  have hentries : entries T'.tableSize (fun i => if i < T.tableSize then [] else b i) =
      entries T'.tableSize (fun _ => []) := by
    refine Finset.sum_congr rfl fun i hi => ?_
    exact congrArg _ (if_pos (hsize ▸ Finset.mem_range.mp hi))
  have hempty : ∀ i < T'.tableSize, (if i < T.tableSize then [] else b i) = [] :=
    fun i hi => if_pos (hsize ▸ hi)
  refine ⟨T', hclear, hsize, h'.pos, fun i hi => ?_, h'.heads, ?_, ?_, by simp, by simp, ?_⟩
  · rw [← hempty i hi]
    exact h'.lists i hi
  · rw [← hentries]
    exact h'.data
  · rw [← hentries]
    exact h'.nodup
  · rw [← hentries]
    exact h'.nodes

end Holds

end HashTable

end Mugglec
