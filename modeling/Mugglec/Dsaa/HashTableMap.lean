import Mugglec.Dsaa.AvlTreeMap
import Mugglec.Dsaa.HashTableChains

/-!
# Dsaa/HashTableMap — the hash table is a finite map

The table runs beside an **abstract map**, the one that the AVL tree refines as well (`AvlMap`),
which the calls change in the way they are meant to.
-/

namespace Mugglec

open LinkedList OwnedHeap HashTable

variable {A K V : Type} [DecidableEq A] {hash : Option K → ℕ} {cmp : Option K → Option K → ℤ}
  {T : HashTable A K V} {b : Buckets A K V}

inductive HashCall (A K V : Type)
  | put (key : Option K) (value : Option V) (mem : Option A)
  | remove (node : HashPtr A) (keyFree valueFree : Bool)
  | clear (keyFree valueFree : Bool)

namespace HashTable

def Fresh (T : HashTable A K V) (mem : Option A) : Prop :=
  mem.all fun a => (T.heap (.node a)).isNone

def Node (T : HashTable A K V) : HashPtr A → Prop
  | .head _ => False
  | .node a => (T.heap (.node a)).isSome

def Legal (T : HashTable A K V) : HashCall A K V → Prop
  | .put _ _ mem => T.Fresh mem
  | .remove node _ _ => T.Node node
  | .clear _ _ => True

instance (T : HashTable A K V) (c : HashCall A K V) : Decidable (T.Legal c) :=
  match c with
  | .put _ _ _ | .remove (.node _) _ _ => inferInstanceAs (Decidable (_ = _))
  | .remove (.head _) _ _ => .isFalse id
  | .clear _ _ => .isTrue trivial

def call (hash : Option K → ℕ) (cmp : Option K → Option K → ℤ) (T : HashTable A K V) :
    HashCall A K V → Option (HashTable A K V)
  | .put key value mem => (T.put hash cmp key value mem).map Prod.snd
  | .remove node keyFree valueFree => T.remove node keyFree valueFree
  | .clear keyFree valueFree => T.clear keyFree valueFree

def Linked (T : HashTable A K V) : Prop := ∃ chains : ℕ → List A,
  (∀ i < T.tableSize, IsList (nextOf T.heap) (prevOf T.heap) (.head i :: (chains i).map .node)) ∧
  (∀ i < T.tableSize, (chains i).Nodup) ∧
  (∀ i < T.tableSize, ∀ j < T.tableSize, i ≠ j → (chains i).Disjoint (chains j)) ∧
  ∀ a, (T.heap (.node a)).isSome → ∃ i < T.tableSize, a ∈ chains i

end HashTable

def AvlMap.hashCall (cmp : Option K → Option K → ℤ) (m : AvlMap K V)
    (stored : HashPtr A → Option (Option K × Option V)) : HashCall A K V → AvlMap K V
  | .put key value mem => if (m key).isNone ∧ mem.isSome then m.put cmp (key, value) else m
  | .remove node _ _ => (stored node).elim m fun q => m.erase cmp q.1
  | .clear _ _ => .empty

structure HashRun (A K V : Type) where
  table : HashTable A K V
  map : AvlMap K V

namespace HashRun

def next (hash : Option K → ℕ) (cmp : Option K → Option K → ℤ) (s : HashRun A K V)
    (c : HashCall A K V) : Option (HashRun A K V) :=
  (s.table.call hash cmp c).map fun T => ⟨T, s.map.hashCall cmp (dataOf s.table.heap) c⟩

/-- **The table answers as the map**, with every call returning. -/
structure Refines (hash : Option K → ℕ) (cmp : Option K → Option K → ℤ) (s : HashRun A K V) :
    Prop where
  find (k : Option K) : ∃ res, s.table.find hash cmp k = some res ∧
    res.map (dataOf s.table.heap) = (s.map k).map some
  put (k : Option K) (v : Option V) (mem : Option A) (hmem : s.table.Fresh mem) :
    ∃ res T', s.table.put hash cmp k v mem = some (res, T') ∧
      (res = none ↔ (s.map k).isSome ∨ mem = none) ∧ (res = none → T' = s.table) ∧
      ∀ p ∈ res, dataOf T'.heap p = some (k, v)
  remove (node : HashPtr A) (keyFree valueFree : Bool) (hnode : s.table.Node node) :
    ∃ q T', dataOf s.table.heap node = some q ∧ s.map q.1 = some q ∧
      s.table.remove node keyFree valueFree = some T' ∧
      T'.freedKeys = s.table.freedKeys ++ freed keyFree q.1 ∧
      T'.freedValues = s.table.freedValues ++ freed valueFree q.2
  clear (keyFree valueFree : Bool) : ∃ T', s.table.clear keyFree valueFree = some T'
  linked : s.table.Linked

structure Matches (hash : Option K → ℕ) (cmp : Option K → Option K → ℤ) (s : HashRun A K V)
    (b : Buckets A K V) : Prop where
  holds : s.table.Holds hash cmp b
  map : ∀ k q, s.map k = some q ↔ (∃ a, (a, q) ∈ entries s.table.tableSize b) ∧ cmp k q.1 = 0

end HashRun

omit [DecidableEq A] in
theorem HashTable.Holds.of_lookup (h : T.Holds hash cmp b) {k : Option K} {e : HashEntry A K V}
    (hlookup : lookup cmp k (b (T.bucket hash k)) = some e) :
    e ∈ entries T.tableSize b ∧ cmp e.2.1 k = 0 :=
  ⟨mem_entries.mpr ⟨_, h.bucket_lt k, List.mem_of_find?_eq_some hlookup⟩,
    of_decide_eq_true (List.find?_some hlookup :)⟩

omit [DecidableEq A] in
theorem HashTable.Holds.linked (h : T.Holds hash cmp b) : T.Linked := by
  refine ⟨fun i => (b i).map Prod.fst, fun i hi => ?_, fun i hi => ?_,
    fun i hi j hj hij a ha ha' => ?_, fun a ha => ?_⟩
  · rw [List.map_map]
    exact h.lists i hi
  · have hnodup := h.nodup
    rw [entries_eq hi, Multiset.map_add, Multiset.nodup_add] at hnodup
    exact hnodup.1
  · obtain ⟨e, he, rfl⟩ := List.mem_map.mp ha
    obtain ⟨e', he', heq⟩ := List.mem_map.mp ha'
    exact apart h.nodup hi hj hij he he' heq.symm
  · obtain ⟨c, hc⟩ := Option.isSome_iff_exists.mp ha
    have hdata : dataOf T.heap (.node a) = some c.data := by rw [dataOf, hc]; rfl
    obtain ⟨i, hi, hmem⟩ := mem_entries.mp ((h.data a _).mp hdata)
    exact ⟨i, hi, List.mem_map_of_mem hmem⟩

section Compatible

variable (hcmp : Equivalence fun k k' : Option K => cmp k k' = 0)
  (hhash : ∀ k k', cmp k k' = 0 → hash k = hash k')
include hcmp hhash

omit [DecidableEq A] in
theorem HashTable.Holds.unique (h : T.Holds hash cmp b) {e e' : HashEntry A K V}
    (he : e ∈ entries T.tableSize b) (he' : e' ∈ entries T.tableSize b)
    (hkey : cmp e.2.1 e'.2.1 = 0) : e = e' := by
  obtain ⟨i, hi, he⟩ := mem_entries.mp he
  obtain ⟨j, hj, he'⟩ := mem_entries.mp he'
  obtain rfl : i = j := by
    rw [← h.home i hi e he, ← h.home j hj e' he', bucket, bucket, hhash _ _ hkey]
  by_contra hne
  have : Std.Symm fun e e' : HashEntry A K V => cmp e.2.1 e'.2.1 ≠ 0 :=
    ⟨fun _ _ h h' => h (hcmp.symm h')⟩
  exact (h.distinct i hi).forall he he' hne hkey

omit [DecidableEq A] in
theorem HashTable.Holds.lookup_eq_some (h : T.Holds hash cmp b) {k : Option K}
    {e : HashEntry A K V} (he : e ∈ entries T.tableSize b) (hk : cmp k e.2.1 = 0) :
    lookup cmp k (b (T.bucket hash k)) = some e := by
  obtain ⟨i, hi, hei⟩ := mem_entries.mp he
  have hbucket : T.bucket hash k = i := by
    rw [← h.home i hi e hei, bucket, bucket, hhash _ _ hk]
  rw [hbucket]
  cases hlookup : lookup cmp k (b i) with
  | none =>
    have hnone := List.find?_eq_none.mp hlookup e hei
    exact absurd (decide_eq_true (hcmp.symm hk)) hnone
  | some e' =>
    have hkey : cmp e'.2.1 k = 0 := of_decide_eq_true (List.find?_some hlookup :)
    have he' : e' ∈ entries T.tableSize b :=
      mem_entries.mpr ⟨i, hi, List.mem_of_find?_eq_some hlookup⟩
    rw [h.unique hcmp hhash he' he (hcmp.trans hkey hk)]

namespace HashRun.Matches

variable {s : HashRun A K V}

omit [DecidableEq A] in
theorem map_eq (hs : s.Matches hash cmp b) (k : Option K) :
    s.map k = (lookup cmp k (b (s.table.bucket hash k))).map Prod.snd := by
  cases hlookup : lookup cmp k (b (s.table.bucket hash k)) with
  | none =>
    rw [Option.map_none, Option.eq_none_iff_forall_ne_some]
    intro q hq
    obtain ⟨⟨a, he⟩, hk⟩ := (hs.map k q).mp hq
    rw [hs.holds.lookup_eq_some hcmp hhash he hk] at hlookup
    cases hlookup
  | some e =>
    obtain ⟨he, hk⟩ := hs.holds.of_lookup hlookup
    exact (hs.map k e.2).mpr ⟨⟨e.1, he⟩, hcmp.symm hk⟩

omit [DecidableEq A] in
theorem find (hs : s.Matches hash cmp b) (k : Option K) : ∃ res,
    s.table.find hash cmp k = some res ∧ res.map (dataOf s.table.heap) = (s.map k).map some := by
  refine ⟨_, hs.holds.find k, ?_⟩
  rw [hs.map_eq hcmp hhash]
  cases hlookup : lookup cmp k (b (s.table.bucket hash k)) with
  | none => rfl
  | some e =>
    have hdata := (hs.holds.data e.1 e.2).mpr (hs.holds.of_lookup hlookup).1
    rw [Option.map_some, Option.map_some, Option.map_some, Option.map_some, hdata]

theorem put (hs : s.Matches hash cmp b) (k : Option K) (v : Option V) {mem : Option A}
    (hmem : s.table.Fresh mem) : ∃ res T' b', s.table.put hash cmp k v mem = some (res, T') ∧
      (res = none ↔ (s.map k).isSome ∨ mem = none) ∧ (res = none → T' = s.table) ∧
      (∀ p ∈ res, dataOf T'.heap p = some (k, v)) ∧
      Matches hash cmp ⟨T', s.map.hashCall cmp (dataOf s.table.heap) (.put k v mem)⟩ b' := by
  have hmap := hs.map_eq hcmp hhash k
  by_cases hwhy : (s.map k).isSome ∨ mem = none
  · -- the key is there or there is no memory, and nothing has changed
    have hwhy' : (lookup cmp k (b (s.table.bucket hash k))).isSome ∨ mem = none := by
      simpa [hmap] using hwhy
    have hrefused := hs.holds.put_refused v hwhy'
    refine ⟨none, s.table, b, hrefused, by simp [hwhy], fun _ => rfl, by simp, hs.holds, ?_⟩
    rw [AvlMap.hashCall, if_neg]
    · exact hs.map
    · rintro ⟨hnone, hsome⟩
      rcases hwhy with hk | rfl
      · exact absurd hk (by simpa using hnone)
      · cases hsome
  · -- the key is new
    obtain ⟨hnone, hsome⟩ := not_or.mp hwhy
    have hnone : s.map k = none := Option.not_isSome_iff_eq_none.mp hnone
    obtain ⟨a, rfl⟩ := Option.ne_none_iff_exists'.mp hsome
    have hlookup : lookup cmp k (b (s.table.bucket hash k)) = none := by
      rw [hnone] at hmap
      exact Option.map_eq_none_iff.mp hmap.symm
    have hfree : s.table.heap (.node a) = none := Option.isNone_iff_eq_none.mp hmem
    obtain ⟨T', hput, hsize, -, -, hT'⟩ := hs.holds.put_new hcmp v hlookup
      (by rw [dataOf, hfree]; rfl)
    have hentries := entries_update_cons (hs.holds.bucket_lt k) b (a, (k, v))
    rw [← hsize] at hentries
    refine ⟨some (.node a), T', _, hput, by simp [hnone], by simp, ?_, hT', fun k' q => ?_⟩
    · rintro p ⟨⟩
      refine (hT'.data a (k, v)).mpr ?_
      rw [hentries]
      exact Multiset.mem_cons_self ..
    · simp only
      rw [AvlMap.hashCall, if_pos (by simp [hnone]), AvlMap.put, hentries]
      simp only [Multiset.mem_cons, Prod.mk.injEq]
      split_ifs with hk
      · rw [Option.some_inj]
        refine ⟨?_, ?_⟩
        · rintro rfl
          exact ⟨⟨a, .inl ⟨rfl, rfl⟩⟩, hk⟩
        · rintro ⟨⟨a', ⟨-, hq⟩ | hold⟩, hk'⟩
          · exact hq.symm
          · -- another entry with the key is none
            have := (hs.map k q).mpr ⟨⟨a', hsize ▸ hold⟩, hcmp.trans (hcmp.symm hk) hk'⟩
            rw [hnone] at this
            cases this
      · rw [hs.map k' q, hsize]
        refine ⟨?_, ?_⟩
        · rintro ⟨⟨a', hold⟩, hk'⟩
          exact ⟨⟨a', .inr hold⟩, hk'⟩
        · rintro ⟨⟨a', ⟨-, rfl⟩ | hold⟩, hk'⟩
          · exact absurd hk' hk
          · exact ⟨⟨a', hold⟩, hk'⟩

theorem remove (hs : s.Matches hash cmp b) {node : HashPtr A} (hnode : s.table.Node node)
    (keyFree valueFree : Bool) : ∃ q T' b', dataOf s.table.heap node = some q ∧
      s.map q.1 = some q ∧ s.table.remove node keyFree valueFree = some T' ∧
      T'.freedKeys = s.table.freedKeys ++ freed keyFree q.1 ∧
      T'.freedValues = s.table.freedValues ++ freed valueFree q.2 ∧
      Matches hash cmp
        ⟨T', s.map.hashCall cmp (dataOf s.table.heap) (.remove node keyFree valueFree)⟩ b' := by
  obtain _ | a := node
  · exact hnode.elim
  obtain ⟨c, hc⟩ := Option.isSome_iff_exists.mp hnode
  have hdata : dataOf s.table.heap (.node a) = some c.data := by rw [dataOf, hc]; rfl
  generalize c.data = q at hdata
  have hmem := (hs.holds.data a q).mp hdata
  obtain ⟨i, hi, hmem'⟩ := mem_entries.mp hmem
  obtain ⟨l₁, l₂, hb⟩ := List.append_of_mem hmem'
  obtain ⟨T', hremove, hsize, hkeys, hvalues, hT'⟩ := hs.holds.remove hi hb keyFree valueFree
  refine ⟨q, T', _, hdata, (hs.map _ _).mpr ⟨⟨a, hmem⟩, hcmp.refl _⟩, hremove, hkeys, hvalues, hT',
    fun k q' => ?_⟩
  have hsplit := entries_split hi hb
  simp only
  rw [AvlMap.hashCall, hdata, Option.elim_some, AvlMap.erase, hsize]
  split_ifs with hk
  · refine ⟨fun hnone => absurd hnone (by simp), ?_⟩
    rintro ⟨⟨a', hleft⟩, hk'⟩
    -- the entry would be the one removed
    have hold : (a', q') ∈ entries s.table.tableSize b := by
      rw [hsplit]
      exact Multiset.mem_cons_of_mem hleft
    obtain ⟨rfl, rfl⟩ := Prod.mk.inj
      (hs.holds.unique hcmp hhash hold hmem (hcmp.trans (hcmp.symm hk') hk))
    have hnodup := hs.holds.nodup
    rw [hsplit, Multiset.map_cons, Multiset.nodup_cons] at hnodup
    exact absurd (Multiset.mem_map_of_mem Prod.fst hleft) hnodup.1
  · rw [hs.map k q', hsplit]
    simp only [Multiset.mem_cons, Prod.mk.injEq]
    refine ⟨?_, ?_⟩
    · rintro ⟨⟨a', ⟨-, rfl⟩ | hold⟩, hk'⟩
      · exact absurd hk' hk
      · exact ⟨⟨a', hold⟩, hk'⟩
    · rintro ⟨⟨a', hold⟩, hk'⟩
      exact ⟨⟨a', .inr hold⟩, hk'⟩

omit hcmp hhash in
theorem clear (hs : s.Matches hash cmp b) (keyFree valueFree : Bool) : ∃ T',
    s.table.clear keyFree valueFree = some T' ∧ Matches hash cmp
      ⟨T', s.map.hashCall cmp (dataOf s.table.heap) (.clear keyFree valueFree)⟩ fun _ => [] := by
  obtain ⟨T', hclear, -, hT'⟩ := hs.holds.clear keyFree valueFree
  refine ⟨T', hclear, hT', fun k q => ?_⟩
  simp [AvlMap.hashCall, AvlMap.empty, entries]

theorem next {c : HashCall A K V} {s' : HashRun A K V} (hs : s.Matches hash cmp b)
    (hc : s.table.Legal c) (hnext : s.next hash cmp c = some s') :
    ∃ b', s'.Matches hash cmp b' := by
  obtain ⟨T', hcall, rfl⟩ := Option.map_eq_some_iff.mp hnext
  cases c with
  | put key value mem =>
    obtain ⟨res, T'', b', heq, -, -, -, hs'⟩ := hs.put hcmp hhash key value hc
    rw [HashTable.call, heq] at hcall
    cases hcall
    exact ⟨b', hs'⟩
  | remove node keyFree valueFree =>
    obtain ⟨q, T'', b', -, -, heq, -, -, hs'⟩ := hs.remove hcmp hhash hc keyFree valueFree
    obtain rfl := Option.some.inj (heq.symm.trans hcall)
    exact ⟨b', hs'⟩
  | clear keyFree valueFree =>
    obtain ⟨T'', heq, hs'⟩ := hs.clear keyFree valueFree
    obtain rfl := Option.some.inj (heq.symm.trans hcall)
    exact ⟨_, hs'⟩

theorem refines (hs : s.Matches hash cmp b) : s.Refines hash cmp where
  find := hs.find hcmp hhash
  put k v mem hmem := by
    obtain ⟨res, T', b', heq, hres, hsame, hdata, -⟩ := hs.put hcmp hhash k v hmem
    exact ⟨res, T', heq, hres, hsame, hdata⟩
  remove node keyFree valueFree hnode := by
    obtain ⟨q, T', b', hq, hm, heq, hkeys, hvalues, -⟩ :=
      hs.remove hcmp hhash hnode keyFree valueFree
    exact ⟨q, T', hq, hm, heq, hkeys, hvalues⟩
  clear keyFree valueFree := by
    obtain ⟨T', heq, -⟩ := hs.clear keyFree valueFree
    exact ⟨T', heq⟩
  linked := hs.holds.linked

end HashRun.Matches

end Compatible

omit [DecidableEq A] in
theorem HashTable.holds_init {tableSize capacity : ℕ} {cmpGiven : Bool} {g : HashTable.Grants}
    (hinit : HashTable.init tableSize cmpGiven capacity g = some T) :
    T.Holds hash cmp fun _ => [] := by
  obtain ⟨n, hn, rfl⟩ : ∃ n, 0 < n ∧ T = ⟨initHeap n, n, 0, [], []⟩ := by
    refine ⟨if tableSize < 8 then SIZE_10007 else tableSize,
      by rw [SIZE_10007]; split <;> omega, ?_⟩
    simp only [HashTable.init, Option.bind_eq_bind, Option.bind_eq_some_iff] at hinit
    split at hinit <;> simp_all [Option.bind_eq_some_iff]
  refine ⟨hn, fun i hi => ?_, fun i hi => ?_, fun a q => ?_, ?_, by simp, by simp, ?_⟩
  · refine ⟨List.isChain_singleton _, fun p hp => ?_⟩
    obtain rfl : HashPtr.head i = p := by simpa [chain] using hp
    simp_all [nextOf, initHeap]
  · simp_all [dataOf, initHeap]
  · simp [dataOf, initHeap, entries]
  · simp [entries]
  · simp [entries]

/-- **The hash table refines the map**, for every hash function and comparison that are compatible,
and every sequence of calls. -/
theorem hashRefines_of_reach (hcmp : Equivalence fun k k' : Option K => cmp k k' = 0)
    (hhash : ∀ k k', cmp k k' = 0 → hash k = hash k') {tableSize capacity : ℕ} {cmpGiven : Bool}
    {g : HashTable.Grants} {s : HashRun A K V}
    (hinit : HashTable.init tableSize cmpGiven capacity g = some T)
    (hs : Steps.Reach (HashRun.next hash cmp) (fun s c => s.table.Legal c) ⟨T, .empty⟩ s) :
    s.Refines hash cmp := by
  obtain ⟨b, hb⟩ : ∃ b, s.Matches hash cmp b := by
    refine hs.invariant (P := fun s => ∃ b, s.Matches hash cmp b) ?_ ?_
    · exact ⟨fun _ => [], holds_init hinit, by simp [AvlMap.empty, entries]⟩
    · rintro s c s' ⟨b, hb⟩ hc hnext
      exact hb.next hcmp hhash hc hnext
  exact hb.refines hcmp hhash

def putCollide : List (HashCall ℕ ℕ ℕ) :=
  [.put (some 1) (some 10) (some 100), .put (some 9) (some 90) (some 200),
    .put (some 17) (some 170) (some 300), .put (some 9) (some 91) (some 400),
    .remove (.node 200) true false]

theorem equivalence_cmpNat : Equivalence fun k k' : Option ℕ => cmpNat k k' = 0 where
  refl k := by simp [cmpNat]
  symm h := by unfold cmpNat at *; omega
  trans h h' := by unfold cmpNat at *; omega

theorem hashRefines_after_collisions : ∃ (T : HashTable ℕ ℕ ℕ) (s : HashRun ℕ ℕ ℕ),
    HashTable.init 8 true 0 ⟨true, true, true⟩ = some T ∧
    Steps.execWhen (HashRun.next (·.getD 0) cmpNat) (fun s c => decide (s.table.Legal c))
      ⟨T, .empty⟩ putCollide = some s ∧
    [1, 9, 17, 25].map (fun k => s.map (some k)) =
      [some (some 1, some 10), none, some (some 17, some 170), none] ∧
    s.table.freedKeys = [9] ∧ s.Refines (·.getD 0) cmpNat := by
  have hinit : HashTable.init 8 true 0 ⟨true, true, true⟩ =
      some (⟨HashTable.initHeap 8, 8, 0, [], []⟩ : HashTable ℕ ℕ ℕ) := rfl
  obtain ⟨s, hs, hmap, hkeys⟩ : ∃ s, Steps.execWhen (HashRun.next (·.getD 0) cmpNat)
      (fun s c => decide (s.table.Legal c)) ⟨⟨HashTable.initHeap 8, 8, 0, [], []⟩, .empty⟩
      putCollide = some s ∧
      [1, 9, 17, 25].map (fun k => s.map (some k)) =
        [some (some 1, some 10), none, some (some 17, some 170), none] ∧
      s.table.freedKeys = [9] := by
    decide +kernel
  have hreach := Steps.Reach.of_decide hs
  refine ⟨_, s, hinit, hs, hmap, hkeys, hashRefines_of_reach equivalence_cmpNat ?_ hinit hreach⟩
  intro k k' h
  exact Int.ofNat_inj.mp (sub_eq_zero.mp h)

end Mugglec
