import Mugglec.Dsaa.HeapBag
import Mugglec.Dsaa.SortInsertion

/-!
# Dsaa/SortHeap — heap sort, and the counts it loses elements for

The heap is made with room for `(uint32_t)count + 1` entries, in 32 bits, and what `insert` returns
is not looked at.
-/

namespace Mugglec

namespace Sorting

open StableSort Comparator Heap

variable {K : Type} {cmp : Option K → Option K → ℤ}

theorem foldlM_range {σ : Type} {f : σ → ℕ → Except SortFault σ} {P : ℕ → σ → Prop} {n : ℕ} {s : σ}
    (hs : P 0 s) (hround : ∀ i < n, ∀ s, P i s → ∃ s', f s i = .ok s' ∧ P (i + 1) s') :
    ∃ s', (List.range n).foldlM f s = .ok s' ∧ P n s' := by
  induction n with
  | zero => exact ⟨s, rfl, hs⟩
  | succ n ih =>
    obtain ⟨s₁, heq, hs₁⟩ := ih fun i hi => hround i (Nat.lt_succ_of_lt hi)
    obtain ⟨s₂, heq', hs₂⟩ := hround n (Nat.lt_succ_self n) s₁ hs₁
    refine ⟨s₂, ?_, hs₂⟩
    rw [List.range_succ, List.foldlM_append, heq, ok_bind, List.foldlM_cons, heq']
    rfl

theorem take_succ_set {α : Type} {l : List α} {i : ℕ} (hi : i < l.length) (x : α) :
    (l.set i x).take (i + 1) = l.take i ++ [x] := by
  rw [List.take_succ_eq_append_getElem (by simpa using hi), List.getElem_set_self,
    List.take_set_of_le (le_refl i)]

def keys (H : Heap K Unit) : Multiset (Option K) := H.pairs.map Prod.fst

theorem card_keys {H : Heap K Unit} {f : ℕ → Option K × Option Unit} (h : Holds cmp H f) :
    (keys H).card = H.size := by
  rw [keys, Multiset.card_map, h.pairs_eq, HeapOrder.card_contents]

theorem init_eq_some {capacity : ℕ} {mem : Bool} {H : Heap K Unit}
    (h : Heap.init true capacity mem = some H) : dsCapIsValid H.capacity ∧ keys H = 0 ∧
    H.capacity = if capacity = 0 then 8 else capacity := by
  simp only [Heap.init, guard, Option.bind_eq_bind, Option.bind_eq_some_iff] at h
  obtain ⟨_, -, _, hvalid, _, -, hH⟩ := h
  cases hH
  refine ⟨by_contra fun hnot => ?_, rfl, rfl⟩
  rw [if_neg hnot] at hvalid
  cases hvalid

section Loops

variable [Std.TransCmp (ordering cmp)] {mem : ℕ → Bool} {ptr : List (Option K)} {H : Heap K Unit}
  {f : ℕ → Option K × Option Unit} {s : Drain K} {i : ℕ}

theorem heapFill_round (mem : ℕ → Bool) (h : Holds cmp H f) (hi : i < ptr.length) : ∃ H' f',
    heapFill cmp mem ptr H i = .ok H' ∧ Holds cmp H' f' ∧ keys H' ≠ 0 ∧
    (dsCapIsValid H.capacity → dsCapIsValid H'.capacity) ∧
    (H.size < H.capacity → keys H' = ptr[i] ::ₘ keys H ∧ H'.capacity = H.capacity) := by
  obtain ⟨ok, H', f', heq, h', hok, hfail, hroom, hvalid⟩ := h.insert ptr[i] none (mem i)
  have hkeys : ok = true → keys H' = ptr[i] ::ₘ keys H := fun hok' => by
    rw [keys, hok hok', Multiset.map_cons]
    rfl
  refine ⟨H', f', ?_, h', ?_, hvalid, fun hlt => ⟨hkeys (hroom hlt).1, (hroom hlt).2⟩⟩
  · rw [heapFill, load_of_lt hi, ok_bind, heq]
    rfl
  · cases ok with
    | true =>
      rw [hkeys rfl]
      exact Multiset.cons_ne_zero
    | false =>
      -- it is refused only where the heap is full
      have hpos := h.pos
      have hfull : ¬ H.size < H.capacity := fun hlt => absurd (hroom hlt).1 nofun
      rw [hfail rfl, ← Multiset.card_pos, card_keys h]
      omega

theorem heapFill_all (mem : ℕ → Bool) (h : Holds cmp H f) (hempty : keys H = 0)
    (hroom : ptr.length < H.capacity) :
    ∃ H' f', (List.range ptr.length).foldlM (heapFill cmp mem ptr) H = .ok H' ∧ Holds cmp H' f' ∧
      keys H' = ptr := by
  have hloop := foldlM_range (f := heapFill cmp mem ptr) (n := ptr.length) (s := H)
    (P := fun i H' => (∃ f', Holds cmp H' f') ∧ keys H' = ptr.take i ∧ H'.capacity = H.capacity)
    ⟨⟨f, h⟩, by simpa using hempty, rfl⟩ ?_
  · obtain ⟨H', heq, ⟨f', h'⟩, hkeys, -⟩ := hloop
    exact ⟨H', f', heq, h', by rw [hkeys, List.take_length]⟩
  · rintro i hi H₁ ⟨⟨f₁, h₁⟩, hkeys₁, hcapacity₁⟩
    have hsize : H₁.size = i := by
      rw [← card_keys h₁, hkeys₁, Multiset.coe_card, List.length_take]
      omega
    obtain ⟨H₂, f₂, heq, h₂, -, -, hroom₂⟩ := heapFill_round mem h₁ hi
    obtain ⟨hkeys₂, hcapacity₂⟩ := hroom₂ (by omega)
    refine ⟨H₂, heq, ⟨f₂, h₂⟩, ?_, hcapacity₂.trans hcapacity₁⟩
    rw [hkeys₂, hkeys₁, List.take_succ_eq_append_getElem hi, Multiset.cons_coe, Multiset.coe_eq_coe]
    exact (List.perm_append_singleton _ _).symm

theorem heapFill_bound (mem : ℕ → Bool) (h : Holds cmp H f) (hvalid : dsCapIsValid H.capacity)
    (hne : ptr ≠ []) :
    ∃ H' f', (List.range ptr.length).foldlM (heapFill cmp mem ptr) H = .ok H' ∧ Holds cmp H' f' ∧
      keys H' ≠ 0 ∧ (keys H').card < 2 ^ 31 := by
  have hloop := foldlM_range (f := heapFill cmp mem ptr) (n := ptr.length) (s := H)
    (P := fun i H' => (∃ f', Holds cmp H' f') ∧ dsCapIsValid H'.capacity ∧ (0 < i → keys H' ≠ 0))
    ⟨⟨f, h⟩, hvalid, fun h => absurd h (lt_irrefl 0)⟩ ?_
  · obtain ⟨H', heq, ⟨f', h'⟩, hvalid', hkeys⟩ := hloop
    refine ⟨H', f', heq, h', hkeys (List.length_pos_iff.mpr hne), ?_⟩
    rw [card_keys h']
    exact lt_of_le_of_lt h'.fits (by simpa [dsCapIsValid] using hvalid')
  · rintro i hi H₁ ⟨⟨f₁, h₁⟩, hvalid₁, -⟩
    obtain ⟨H₂, f₂, heq, h₂, hne₂, hvalid₂, -⟩ := heapFill_round mem h₁ hi
    exact ⟨H₂, heq, ⟨f₂, h₂⟩, hvalid₂ hvalid₁, fun _ => hne₂⟩

theorem heapDrain_extract (h : Holds cmp s.heap f) (hne : keys s.heap ≠ 0)
    (hi : i < s.ptr.length) : ∃ q H' f', heapDrain cmp s i = .ok ⟨H', some q, s.ptr.set i q.1⟩ ∧
    Holds cmp H' f' ∧ keys s.heap = q.1 ::ₘ keys H' ∧ ∀ k ∈ keys s.heap, cmp q.1 k ≤ 0 := by
  obtain ⟨res, H', f', heq, h', hsome, hnone⟩ := h.extract
  cases res with
  | none => exact absurd (congrArg (Multiset.map Prod.fst) (hnone rfl).2) hne
  | some q =>
    obtain ⟨hpairs, hleast⟩ := hsome q rfl
    refine ⟨q, H', f', ?_, h', ?_, fun k hk => ?_⟩
    · rw [heapDrain, heq]
      simp only [onHeap, ok_bind, Option.some_or, store_of_lt hi]
      rfl
    · rw [keys, hpairs, Multiset.map_cons]
      rfl
    · obtain ⟨r, hr, rfl⟩ := Multiset.mem_map.mp hk
      exact hleast r hr

theorem heapDrain_empty {q : Option K × Option Unit} (h : Holds cmp s.heap f)
    (hempty : keys s.heap = 0) (hnode : s.node = some q) (hi : i < s.ptr.length) :
    heapDrain cmp s i = .ok ⟨s.heap, some q, s.ptr.set i q.1⟩ := by
  obtain ⟨res, H', f', heq, h', hsome, hnone⟩ := h.extract
  cases res with
  | some q' =>
    rw [keys, (hsome q' rfl).1, Multiset.map_cons] at hempty
    exact absurd hempty Multiset.cons_ne_zero
  | none =>
    rw [(hnone rfl).1] at heq
    rw [heapDrain, heq]
    simp only [onHeap, ok_bind, Option.none_or, hnode, store_of_lt hi]
    rfl

theorem heapDrain_all (h : Holds cmp H f) (hkeys : keys H = ptr) : ∃ s' f',
    (List.range ptr.length).foldlM (heapDrain cmp) ⟨H, none, ptr⟩ = .ok s' ∧
    Holds cmp s'.heap f' ∧ Sorted cmp s'.ptr ∧ s'.ptr.Perm ptr := by
  -- what has been written is sorted and below the keys in the heap, and nothing is lost
  have hloop := foldlM_range (f := heapDrain cmp) (n := ptr.length) (s := ⟨H, none, ptr⟩)
    (P := fun i s' => (∃ f', Holds cmp s'.heap f') ∧ s'.ptr.length = ptr.length ∧
      Sorted cmp (s'.ptr.take i) ∧ (∀ k ∈ s'.ptr.take i, ∀ k' ∈ keys s'.heap, cmp k k' ≤ 0) ∧
      ((s'.ptr.take i : List (Option K)) : Multiset (Option K)) + keys s'.heap = ptr)
    ⟨⟨f, h⟩, rfl, List.Pairwise.nil, by simp, by simpa using hkeys⟩ ?_
  · obtain ⟨s', heq, ⟨f', h'⟩, hlen, hsorted, -, hall⟩ := hloop
    rw [← hlen, List.take_length] at hsorted hall
    have hcard := congrArg Multiset.card hall
    rw [Multiset.card_add, Multiset.coe_card, Multiset.coe_card, hlen] at hcard
    rw [Multiset.card_eq_zero.mp (show (keys s'.heap).card = 0 by omega), add_zero] at hall
    exact ⟨s', f', heq, h', hsorted, Multiset.coe_eq_coe.mp hall⟩
  · rintro i hi s₁ ⟨⟨f₁, h₁⟩, hlen, hsorted, hbelow, hall⟩
    have hcard := congrArg Multiset.card hall
    rw [Multiset.card_add, Multiset.coe_card, Multiset.coe_card, List.length_take] at hcard
    have hne : keys s₁.heap ≠ 0 := Multiset.card_pos.mp (by omega)
    obtain ⟨q, H₂, f₂, heq, h₂, hkeys₂, hleast⟩ := heapDrain_extract h₁ hne (hlen ▸ hi)
    have hmem : q.1 ∈ keys s₁.heap := by simp [hkeys₂]
    refine ⟨_, heq, ⟨f₂, h₂⟩, by simpa using hlen, ?_, ?_, ?_⟩
    · rw [take_succ_set (hlen ▸ hi)]
      refine List.pairwise_append.mpr ⟨hsorted, List.pairwise_singleton _ _, fun k hk k' hk' => ?_⟩
      rw [List.mem_singleton.mp hk']
      exact hbelow k hk q.1 hmem
    · rw [take_succ_set (hlen ▸ hi)]
      intro k hk k' hk'
      have hk'' : k' ∈ keys s₁.heap := by
        rw [hkeys₂]
        exact Multiset.mem_cons_of_mem hk'
      rcases List.mem_append.mp hk with hk | hk
      · exact hbelow k hk k' hk''
      · rw [List.mem_singleton.mp hk]
        exact hleast k' hk''
    · rw [take_succ_set (hlen ▸ hi), ← hall, hkeys₂, ← Multiset.coe_add, Multiset.coe_singleton,
        add_assoc, Multiset.singleton_add]

theorem heapDrain_mem (ptr : List (Option K)) (h : Holds cmp H f) (hne : keys H ≠ 0) : ∃ s' f',
    (List.range ptr.length).foldlM (heapDrain cmp) ⟨H, none, ptr⟩ = .ok s' ∧
    Holds cmp s'.heap f' ∧ ∀ k ∈ s'.ptr, k ∈ keys H := by
  have hloop := foldlM_range (f := heapDrain cmp) (n := ptr.length) (s := ⟨H, none, ptr⟩)
    (P := fun i s' => (∃ f', Holds cmp s'.heap f') ∧ s'.ptr.length = ptr.length ∧
      (∀ k ∈ s'.ptr.take i, k ∈ keys H) ∧ (∀ k ∈ keys s'.heap, k ∈ keys H) ∧
      (keys s'.heap = 0 → ∃ q, s'.node = some q) ∧ ∀ q, s'.node = some q → q.1 ∈ keys H)
    ⟨⟨f, h⟩, rfl, by simp, fun k hk => hk, fun h => absurd h hne, by simp⟩ ?_
  · obtain ⟨s', heq, ⟨f', h'⟩, hlen, hmem, -⟩ := hloop
    rw [← hlen, List.take_length] at hmem
    exact ⟨s', f', heq, h', hmem⟩
  · rintro i hi s₁ ⟨⟨f₁, h₁⟩, hlen, hmem, hheap, hset, hnode⟩
    -- either way the key that is written was in the heap
    have hwrite : ∀ q : Option K × Option Unit, q.1 ∈ keys H →
        ∀ k ∈ (s₁.ptr.set i q.1).take (i + 1), k ∈ keys H := fun q hq k hk => by
      rw [take_succ_set (hlen ▸ hi)] at hk
      rcases List.mem_append.mp hk with hk | hk
      · exact hmem k hk
      · rwa [List.mem_singleton.mp hk]
    by_cases hempty : keys s₁.heap = 0
    · obtain ⟨q, hq⟩ := hset hempty
      refine ⟨_, heapDrain_empty h₁ hempty hq (hlen ▸ hi), ⟨f₁, h₁⟩, by simpa using hlen,
        hwrite q (hnode q hq), hheap, fun _ => ⟨q, rfl⟩, ?_⟩
      rintro _ ⟨⟩
      exact hnode q hq
    · obtain ⟨q, H₂, f₂, heq, h₂, hkeys₂, -⟩ := heapDrain_extract h₁ hempty (hlen ▸ hi)
      have hq : q.1 ∈ keys H := hheap q.1 (by simp [hkeys₂])
      refine ⟨_, heq, ⟨f₂, h₂⟩, by simpa using hlen, hwrite q hq,
        fun k hk => hheap k (by rw [hkeys₂]; exact Multiset.mem_cons_of_mem hk),
        fun _ => ⟨q, rfl⟩, ?_⟩
      rintro _ ⟨⟩
      exact hq

theorem capacity_eq (count : ℕ) : u32 (u32 count + 1) = (count + 1) % 2 ^ 32 := by
  simp only [u32]
  omega

omit [Std.TransCmp (ordering cmp)] in
theorem heapSort_eq {H₁ : Heap K Unit}
    (hinit : Heap.init true ((ptr.length + 1) % 2 ^ 32) (mem 0) = some H)
    (hfill : (List.range ptr.length).foldlM (heapFill cmp (fun i => mem (i + 1)) ptr) H = .ok H₁)
    (hdrain : (List.range ptr.length).foldlM (heapDrain cmp) ⟨H₁, none, ptr⟩ = .ok s)
    (hs : Holds cmp s.heap f) : heapSort cmp mem ptr = .ok (true, s.ptr) := by
  obtain ⟨H', hclear, -⟩ := hs.clear false false
  rw [heapSort, capacity_eq, hinit]
  simp only [hfill, ok_bind, hdrain, hclear, onHeap]
  rfl

theorem heapSort_all (hlt : ptr.length + 1 < 2 ^ 32) : ∃ ok out,
    heapSort cmp mem ptr = .ok (ok, out) ∧ (ok = true → Sorted cmp out ∧ out.Perm ptr) := by
  cases hinit : Heap.init (K := K) (V := Unit) true ((ptr.length + 1) % 2 ^ 32) (mem 0) with
  | none => exact ⟨false, ptr, by rw [heapSort, capacity_eq, hinit], nofun⟩
  | some H =>
    obtain ⟨-, hempty, hcapacity⟩ := init_eq_some hinit
    rw [Nat.mod_eq_of_lt hlt, if_neg (Nat.succ_ne_zero _)] at hcapacity
    have h : Holds cmp H fun _ => (none, none) := holds_init hinit _
    obtain ⟨H₁, f₁, hfill, h₁, hkeys⟩ := heapFill_all (fun i => mem (i + 1)) h hempty
      (show ptr.length < H.capacity by omega)
    obtain ⟨s', f', hdrain, h', hsorted, hperm⟩ := heapDrain_all h₁ hkeys
    exact ⟨true, s'.ptr, heapSort_eq hinit hfill hdrain h', fun _ => ⟨hsorted, hperm⟩⟩

variable (cmp) in
theorem heapSort_bound (mem : ℕ → Bool) (hne : ptr ≠ []) (hlt : (ptr.length + 1) % 2 ^ 32 < 2 ^ 31)
    (hmem : mem 0 = true) : ∃ out S, heapSort cmp mem ptr = .ok (true, out) ∧
      Multiset.card S < 2 ^ 31 ∧ ∀ k ∈ out, k ∈ S := by
  obtain ⟨H, hinit⟩ : ∃ H : Heap K Unit,
      Heap.init true ((ptr.length + 1) % 2 ^ 32) (mem 0) = some H := by
    have hvalid : dsCapIsValid (if (ptr.length + 1) % 2 ^ 32 = 0 then 8
        else (ptr.length + 1) % 2 ^ 32) = true := by
      simp only [dsCapIsValid, decide_eq_true_eq]
      split <;> omega
    simp only [Heap.init, hmem, hvalid]
    exact ⟨_, rfl⟩
  have h : Holds cmp H fun _ => (none, none) := holds_init hinit _
  obtain ⟨H₁, f₁, hfill, h₁, hkeys, hcard⟩ := heapFill_bound (fun i => mem (i + 1)) h
    (init_eq_some hinit).1 hne
  obtain ⟨s', f', hdrain, h', hmem'⟩ := heapDrain_mem ptr h₁ hkeys
  exact ⟨s'.ptr, keys H₁, heapSort_eq hinit hfill hdrain h', hcard, hmem'⟩

end Loops

def HeapSortsSize (count : ℕ) : Prop :=
  ∀ (K : Type) (cmp : Option K → Option K → ℤ), Std.TransCmp (ordering cmp) →
    ∀ (mem : ℕ → Bool) (ptr : List (Option K)), ptr.length = count →
      ∃ ok out, heapSort cmp mem ptr = .ok (ok, out) ∧ (ok = true → Sorted cmp out ∧ out.Perm ptr)

instance : Std.TransCmp (ordering byNumber) := transCmp_sub fun a : Option ℕ => (a.getD 0 : ℤ)

theorem heapSort_loses {count : ℕ} (hge : 2 ^ 32 ≤ count + 1)
    (hlt : (count + 1) % 2 ^ 32 < 2 ^ 31) : ∃ out,
    heapSort byNumber (fun _ => true) ((List.range count).map some) = .ok (true, out) ∧
    ¬ out.Perm ((List.range count).map some) := by
  have hlen : ((List.range count).map some).length = count := by simp
  have hne : (List.range count).map some ≠ [] := List.length_pos_iff.mp (by omega)
  obtain ⟨out, S, heq, hcard, hmem⟩ := heapSort_bound byNumber (fun _ => true) hne
    (hlen.symm ▸ hlt) rfl
  refine ⟨out, heq, fun hperm => ?_⟩
  -- a permutation has all the keys, and they are different
  have hnodup : out.Nodup :=
    hperm.nodup_iff.mpr (List.nodup_range.map (Option.some_injective ℕ))
  have hle : (out : Multiset (Option ℕ)) ≤ S :=
    (Multiset.le_iff_subset (Multiset.coe_nodup.mpr hnodup)).mpr fun k hk => hmem k hk
  have hcount := Multiset.card_le_card hle
  rw [Multiset.coe_card, hperm.length_eq, hlen] at hcount
  omega

/-- **The sizes heap sort is correct for**: `count + 1` fits 32 bits, or is refused. -/
theorem heapSortsSize_iff (count : ℕ) :
    HeapSortsSize count ↔ count + 1 < 2 ^ 32 ∨ 2 ^ 31 ≤ (count + 1) % 2 ^ 32 := by
  constructor
  · intro h
    by_contra hnot
    obtain ⟨hge, hlt⟩ := not_or.mp hnot
    obtain ⟨out, heq, hperm⟩ := heapSort_loses (not_lt.mp hge) (not_le.mp hlt)
    obtain ⟨ok, out', heq', himp⟩ := h ℕ byNumber inferInstance (fun _ => true)
      ((List.range count).map some) (by simp)
    obtain ⟨rfl, rfl⟩ := Prod.mk.inj (Except.ok.inj (heq.symm.trans heq'))
    exact hperm (himp rfl).2
  · rintro hcount K cmp htrans mem ptr rfl
    rcases hcount with hlt | hge
    · exact heapSort_all hlt
    · refine ⟨false, ptr, ?_, nofun⟩
      have hinit : Heap.init true ((ptr.length + 1) % 2 ^ 32) (mem 0) =
          (none : Option (Heap K Unit)) := by
        have hvalid : dsCapIsValid ((ptr.length + 1) % 2 ^ 32) = false := by
          simpa [dsCapIsValid] using hge
        have hpos : (ptr.length + 1) % 2 ^ 32 ≠ 0 := by omega
        simp only [Heap.init, if_neg hpos, hvalid]
        rfl
      rw [heapSort, capacity_eq, hinit]

theorem heapSort_loses_elements : ∃ out,
    heapSort byNumber (fun _ => true) ((List.range (2 ^ 32 - 1)).map some) = .ok (true, out) ∧
    ¬ out.Perm ((List.range (2 ^ 32 - 1)).map some) :=
  heapSort_loses (by decide) (by decide)

end Sorting

end Mugglec
