import Mugglec.Machinery.Steps
import Mugglec.Dsaa.HeapSift

/-!
# Dsaa/HeapBag — the heap is a bag with a least element

What the heap is for: its pairs are a **multiset**, `insert` adds one, `extract` takes one with a
least key, `remove` takes the one that is named, and a call that fails takes and adds none.
-/

namespace Mugglec

open Function Comparator HeapOrder

variable {K V : Type} {cmp : Option K → Option K → ℤ}

inductive HeapCall (K V : Type)
  | insert (key : Option K) (value : Option V) (mem : Bool)
  | extract
  | remove (tmp : ℤ) (keyFree valueFree : Bool)
  | ensureCapacity (capacity : ℕ) (mem : Bool)
  | clear (keyFree valueFree : Bool)

namespace Heap

def call (cmp : Option K → Option K → ℤ) (H : Heap K V) : HeapCall K V → Option (Heap K V)
  | .insert key value mem => (H.insert cmp key value mem).map Prod.snd
  | .extract => (H.extract cmp).map Prod.snd
  | .remove tmp keyFree valueFree => (H.remove cmp tmp keyFree valueFree).map Prod.snd
  | .ensureCapacity capacity mem => some (H.ensureCapacity capacity mem).2
  | .clear keyFree valueFree => H.clear keyFree valueFree

def pairs (H : Heap K V) : Multiset (Option K × Option V) :=
  ∑ j ∈ Finset.Icc 1 H.size, (H.nodes j).elim 0 fun q => {q}

def InOrder (cmp : Option K → Option K → ℤ) (H : Heap K V) : Prop :=
  ∀ j, 2 ≤ j → j ≤ H.size →
    ∃ p q, H.nodes (j / 2) = some p ∧ H.nodes j = some q ∧ cmp p.1 q.1 ≤ 0

structure Behaves (cmp : Option K → Option K → ℤ) (H : Heap K V) : Prop where
  order : H.InOrder cmp
  insert (key : Option K) (value : Option V) (mem : Bool) :
    ∃ ok H', H.insert cmp key value mem = some (ok, H') ∧
      (ok = true → H'.pairs = (key, value) ::ₘ H.pairs) ∧ (ok = false → H' = H)
  extract : ∃ res H', H.extract cmp = some (res, H') ∧
    (∀ q, res = some q → H.pairs = q ::ₘ H'.pairs ∧ ∀ r ∈ H.pairs, cmp q.1 r.1 ≤ 0) ∧
    (res = none → H' = H ∧ H.pairs = 0)
  remove (tmp : ℤ) (keyFree valueFree : Bool) :
    ∃ ok H', H.remove cmp tmp keyFree valueFree = some (ok, H') ∧
      (ok = true ↔ 1 ≤ tmp ∧ tmp ≤ H.size) ∧ (ok = false → H' = H) ∧
      (ok = true → ∃ q, H.nodes tmp.toNat = some q ∧ H.pairs = q ::ₘ H'.pairs ∧
        H'.freedKeys = H.freedKeys ++ freed keyFree q.1 ∧
        H'.freedValues = H.freedValues ++ freed valueFree q.2)
  ensureCapacity (capacity : ℕ) (mem : Bool) :
    ∃ ok H', H.ensureCapacity capacity mem = (ok, H') ∧ H'.pairs = H.pairs ∧
      (ok = true → capacity ≤ H'.capacity) ∧ (ok = false → H' = H)
  find (data : Option K) : ∃ res, H.find cmp data = some res ∧
    (∀ i, res = some i → 1 ≤ i ∧ i ≤ H.size ∧ ∃ q, H.nodes i = some q ∧ cmp q.1 data = 0) ∧
    (res = none → ∀ q ∈ H.pairs, cmp q.1 data ≠ 0)
  clear (keyFree valueFree : Bool) : ∃ H', H.clear keyFree valueFree = some H' ∧ H'.pairs = 0

/-- **The entries in use are `f`, in heap order.** -/
structure Holds (cmp : Option K → Option K → ℤ) (H : Heap K V) (f : ℕ → Option K × Option V) :
    Prop where
  pos : 1 ≤ H.capacity
  fits : H.size ≤ H.capacity
  nodes : ∀ j, 1 ≤ j → j ≤ H.size → H.nodes j = some (f j)
  order : HeapOrder.Ordered (keyLe cmp) H.size f

variable {H H' : Heap K V} {f f' : ℕ → Option K × Option V} {x : Option K × Option V} {i i' n : ℕ}

theorem Holds.pairs_eq (h : Holds cmp H f) : H.pairs = contents H.size f := by
  refine Finset.sum_congr rfl fun j hj => ?_
  obtain ⟨hj, hjn⟩ := Finset.mem_Icc.mp hj
  rw [h.nodes j hj hjn]
  rfl

theorem Holds.inOrder (h : Holds cmp H f) : H.InOrder cmp := fun j hj hjn =>
  ⟨f (j / 2), f j, h.nodes _ (by omega) (by omega), h.nodes j (by omega) hjn, h.order j hj hjn⟩

theorem setNode_eq (hi : i ≤ H.capacity) :
    H.setNode i x = some { H with nodes := update H.nodes i (some x) } := by
  rw [setNode, guard, if_pos hi]
  rfl

theorem copyNode_eq {src : ℕ} (hsrc : H.nodes src = some x) : H.copyNode src i = H.setNode i x := by
  rw [copyNode, hsrc, Option.bind_eq_bind, Option.bind_some]

theorem Placed.setNode (h : Placed cmp x H f i H' f' i') : ∃ H'',
    H'.setNode i' x = some H'' ∧ H'' = { H with nodes := H''.nodes } ∧
      Holds cmp H'' (update f' i' x) ∧
      contents H.size (update f' i' x) = contents H.size (update f i x) := by
  have hfits := h.fits
  have hpos := h.hole.pos
  have hi := h.hole.le_size
  refine ⟨_, setNode_eq (hi.trans hfits), ?_, ⟨?_, hfits, fun j hj hjn => ?_, ?_⟩, h.contents⟩
  · rw [h.frame]
  · exact (hpos.trans hi).trans hfits
  · obtain rfl | hji := eq_or_ne j i'
    · simp only [update_self]
    · simp only [update_of_ne hji]
      exact h.nodes j hj hjn hji
  · exact h.hole.fill h.above fun j hjn hj => (h.below j hjn hj).le

theorem holds_init {cmpGiven mem : Bool} {capacity : ℕ}
    (hinit : init cmpGiven capacity mem = some H) (f : ℕ → Option K × Option V) :
    Holds cmp H f := by
  obtain ⟨capacity, hpos, rfl⟩ : ∃ c, 1 ≤ c ∧ H = ⟨c, 0, fun _ => none, [], []⟩ := by
    refine ⟨if capacity = 0 then 8 else capacity, by split <;> omega, ?_⟩
    simp only [init, Option.bind_eq_bind, Option.bind_eq_some_iff] at hinit
    simp_all
  exact ⟨hpos, by simp, fun j hj hjn => absurd hj (by simp_all), fun j hj hjn => by simp_all⟩

theorem Holds.ensureCapacity (h : Holds cmp H f) (capacity : ℕ) (mem : Bool) :
    ∃ ok H', H.ensureCapacity capacity mem = (ok, H') ∧ Holds cmp H' f ∧ H'.pairs = H.pairs ∧
      H'.size = H.size ∧ (ok = true → capacity ≤ H'.capacity) ∧ (ok = false → H' = H) := by
  rw [Heap.ensureCapacity]
  split_ifs with hge hvalid hmem
  · exact ⟨true, H, rfl, h, rfl, rfl, fun _ => hge, by simp⟩
  · exact ⟨false, H, rfl, h, rfl, rfl, by simp, fun _ => rfl⟩
  · exact ⟨false, H, rfl, h, rfl, rfl, by simp, fun _ => rfl⟩
  · have hpos := h.pos
    have hfits := h.fits
    have hgrown : Holds cmp { H with
        nodes := fun i => if 1 ≤ i ∧ i ≤ H.size then H.nodes i else none
        capacity := capacity } f :=
      ⟨by simp only; omega, by simp only; omega,
        fun j hj hjn => (if_pos ⟨hj, hjn⟩).trans (h.nodes j hj hjn), h.order⟩
    exact ⟨true, _, rfl, hgrown, hgrown.pairs_eq.trans h.pairs_eq.symm, rfl, fun _ => le_rfl,
      by simp⟩

theorem ensureCapacity_valid {capacity : ℕ} {mem ok : Bool}
    (heq : H.ensureCapacity capacity mem = (ok, H')) (h : dsCapIsValid H.capacity) :
    dsCapIsValid H'.capacity := by
  rw [Heap.ensureCapacity] at heq
  split_ifs at heq with hge hvalid
  all_goals
    obtain ⟨-, rfl⟩ := Prod.mk.inj heq
  · exact h
  · exact h
  · exact h
  · simpa using hvalid

section Calls

variable [Std.TransCmp (ordering cmp)]

theorem Holds.insert_room (h : Holds cmp H f) (hroom : H.size < H.capacity) (x) :
    ∃ H₁ idx H' f', insertLoop cmp x.1 (H.size + 1) { H with size := H.size + 1 } (H.size + 1) =
        some (H₁, idx) ∧ H₁.setNode idx x = some H' ∧ Holds cmp H' f' ∧
      H'.pairs = x ::ₘ H.pairs ∧ H'.capacity = H.capacity := by
  have hhole : HasHole cmp { H with size := H.size + 1 } f (H.size + 1) :=
    ⟨hroom, fun j hj hjn hne => h.nodes j hj (by simp only at hjn; omega), h.order.hole_succ⟩
  obtain ⟨H₁, f₁, i₁, hloop, hplaced⟩ := hhole.insertLoop (x := x)
    (fun j hjn hj => by simp only at hjn; omega) le_rfl
  obtain ⟨H', hset, hframe, hholds, hcontents⟩ := hplaced.setNode
  refine ⟨H₁, i₁, H', _, hloop, hset, hholds, ?_, by rw [hframe]⟩
  have hsize : H'.size = H.size + 1 := by rw [hframe]
  have hrest : contents H.size (update f (H.size + 1) x) = contents H.size f :=
    contents_congr fun j hj hjn => update_of_ne (by omega) ..
  rw [hholds.pairs_eq, hsize, hcontents, h.pairs_eq, contents_succ, update_self, hrest]

theorem Holds.insert (h : Holds cmp H f) (key : Option K) (value : Option V) (mem : Bool) :
    ∃ ok H' f', H.insert cmp key value mem = some (ok, H') ∧ Holds cmp H' f' ∧
      (ok = true → H'.pairs = (key, value) ::ₘ H.pairs) ∧ (ok = false → H' = H) ∧
      (H.size < H.capacity → ok = true ∧ H'.capacity = H.capacity) ∧
      (dsCapIsValid H.capacity → dsCapIsValid H'.capacity) := by
  -- the heap after the array has grown, if it has to
  obtain ⟨ok, H₁, heq, hholds, hpairs, hroom, hfail, hsame, hvalid⟩ : ∃ ok H₁,
      (if H.capacity = H.size then H.ensureCapacity (H.capacity * 2) mem else (true, H)) =
        (ok, H₁) ∧ Holds cmp H₁ f ∧ H₁.pairs = H.pairs ∧ (ok = true → H₁.size < H₁.capacity) ∧
      (ok = false → H₁ = H) ∧ (H.size < H.capacity → ok = true ∧ H₁ = H) ∧
      (dsCapIsValid H.capacity → dsCapIsValid H₁.capacity) := by
    have hpos := h.pos
    have hfits := h.fits
    split_ifs with hfull
    · obtain ⟨ok, H₁, heq, hholds, hpairs, hsize, htrue, hfalse⟩ :=
        h.ensureCapacity (H.capacity * 2) mem
      refine ⟨ok, H₁, heq, hholds, hpairs, fun hok => ?_, hfalse, fun hlt => by omega, ?_⟩
      · have := htrue hok
        omega
      · exact Heap.ensureCapacity_valid heq
    · exact ⟨true, H, rfl, h, rfl, fun _ => by omega, by simp, fun _ => ⟨rfl, rfl⟩, id⟩
  rw [Heap.insert, heq]
  cases ok with
  | false =>
    exact ⟨false, H₁, f, rfl, hholds, by simp, hfail, fun hlt => absurd (hsame hlt).1 (by simp),
      hvalid⟩
  | true =>
    obtain ⟨H₂, idx, H', f', hloop, hset, hholds', hpairs', hcapacity⟩ :=
      hholds.insert_room (hroom rfl) (key, value)
    refine ⟨true, H', f', ?_, hholds', fun _ => by rw [hpairs', hpairs], by simp,
      fun hlt => ⟨rfl, ?_⟩, hcapacity ▸ hvalid⟩
    · simp only [Option.bind_eq_bind, hloop, Option.bind_some, hset]
      rfl
    · rw [hcapacity, (hsame hlt).2]

theorem Holds.extract (h : Holds cmp H f) : ∃ res H' f', H.extract cmp = some (res, H') ∧
    Holds cmp H' f' ∧
    (∀ q, res = some q → H.pairs = q ::ₘ H'.pairs ∧ ∀ r ∈ H.pairs, cmp q.1 r.1 ≤ 0) ∧
    (res = none → H' = H ∧ H.pairs = 0) := by
  obtain hsize | ⟨n, hsize⟩ : H.size = 0 ∨ ∃ n, H.size = n + 1 := by
    cases H.size <;> simp
  · refine ⟨none, H, f, by simp [Heap.extract, isEmpty, hsize], h, by simp, fun _ => ⟨rfl, ?_⟩⟩
    rw [pairs, hsize]
    rfl
  · have hpairs := h.pairs_eq
    rw [hsize] at hpairs
    have hmin : ∀ r ∈ H.pairs, cmp (f 1).1 r.1 ≤ 0 := by
      intro r hr
      obtain ⟨j, hj, hjn, rfl⟩ := mem_contents.mp (hpairs ▸ hr)
      exact h.order.root_le j hj (hsize ▸ hjn)
    have hlast := h.nodes (n + 1) (by omega) (by omega)
    have hroot := h.nodes 1 le_rfl (by omega)
    -- where the last entry goes
    obtain ⟨H₁, i₁, H', f', hloop, hcopy, hholds, hcontents⟩ : ∃ H₁ i₁ H' f',
        extractLoop cmp (n + 1) (n + 1) { H with size := n } 1 = some (H₁, i₁) ∧
        H₁.copyNode (n + 1) i₁ = some H' ∧ Holds cmp H' f' ∧ H.pairs = f 1 ::ₘ H'.pairs := by
      obtain rfl | hn := Nat.eq_zero_or_pos n
      · -- the root was the last
        refine ⟨{ H with size := 0 }, 1, _, f, rfl,
          (copyNode_eq (H := { H with size := 0 }) hroot).trans (setNode_eq h.pos), ?_, ?_⟩
        · exact ⟨h.pos, by simp, fun j hj hjn => absurd hj (by simp_all),
            fun j hj hjn => by simp_all⟩
        · rw [hpairs, contents_succ]
          rfl
      · have hhole : HasHole cmp { H with size := n } f 1 :=
          ⟨by have := h.fits; simp only; omega,
            fun j hj hjn _ => h.nodes j hj (by simp only at hjn; omega),
            (h.order.mono (by omega : n ≤ H.size)).hole le_rfl hn⟩
        obtain ⟨H₁, f₁, i₁, hloop, hplaced⟩ := hhole.extractLoop (n := n + 1) hlast
          (by simp only; omega) (fun h => by omega) (by simp only; omega)
        obtain ⟨H', hset, hframe, hholds, hcontents⟩ := hplaced.setNode
        have hlast₁ := (hplaced.beyond (n + 1) (by simp only; omega)).trans hlast
        refine ⟨H₁, i₁, H', _, hloop, (copyNode_eq hlast₁).trans hset, hholds, ?_⟩
        have hsize' : H'.size = n := by rw [hframe]
        rw [hholds.pairs_eq, hsize', hcontents, contents_update le_rfl hn, hpairs, contents_succ]
    refine ⟨some (f 1), H', f', ?_, hholds, ?_, by simp⟩
    · have hempty : H.isEmpty = false := by simp [isEmpty, hsize]
      simp only [Heap.extract, hempty, hroot, hsize, Nat.add_one_sub_one, hloop, hcopy,
        Bool.false_eq_true, if_false, Option.bind_eq_bind, Option.bind_some]
      rfl
    · rintro q ⟨⟩
      exact ⟨hcontents, hmin⟩

theorem Holds.refill {G : Heap K V} (h : Holds cmp H f) (hsize : H.size = n + 1) (hi : 1 ≤ i)
    (hin : i ≤ n) (hG : G.size = n) (hcapacity : G.capacity = H.capacity)
    (hnodes : ∀ j, j ≠ i → G.nodes j = H.nodes j) :
    ∃ H₁ i₁ H' f', removeLoop cmp (n + 1) (n + 1) G i = some (H₁, i₁) ∧
      H₁.copyNode (n + 1) i₁ = some H' ∧ H' = { G with nodes := H'.nodes } ∧ Holds cmp H' f' ∧
      H.pairs = f i ::ₘ H'.pairs := by
  have hfits := h.fits
  have hlast : G.nodes (n + 1) = some (f (n + 1)) := by
    rw [hnodes _ (by omega)]
    exact h.nodes _ (by omega) (by omega)
  have hhole : HasHole cmp G f i := by
    refine ⟨by omega, fun j hj hjn hji => ?_, hG ▸ (h.order.mono (by omega)).hole hi hin⟩
    rw [hnodes j hji]
    exact h.nodes j hj (by omega)
  obtain ⟨H₁, f₁, i₁, hloop, hplaced⟩ := hhole.removeLoop (n := n + 1) hlast (by omega) (by omega)
  obtain ⟨H', hset, hframe, hholds, hcontents⟩ := hplaced.setNode
  have hlast₁ := (hplaced.beyond (n + 1) (by omega)).trans hlast
  refine ⟨H₁, i₁, H', _, hloop, (copyNode_eq hlast₁).trans hset, hframe, hholds, ?_⟩
  have hsize' : H'.size = n := by rw [hframe, hG]
  rw [hG] at hcontents
  rw [hholds.pairs_eq, hsize', hcontents, contents_update hi hin, h.pairs_eq, hsize, contents_succ]

theorem Holds.remove (h : Holds cmp H f) (tmp : ℤ) (keyFree valueFree : Bool) :
    ∃ ok H' f', H.remove cmp tmp keyFree valueFree = some (ok, H') ∧ Holds cmp H' f' ∧
      (ok = true ↔ 1 ≤ tmp ∧ tmp ≤ H.size) ∧ (ok = false → H' = H) ∧
      (ok = true → ∃ q, H.nodes tmp.toNat = some q ∧ H.pairs = q ::ₘ H'.pairs ∧
        H'.freedKeys = H.freedKeys ++ freed keyFree q.1 ∧
        H'.freedValues = H.freedValues ++ freed valueFree q.2) := by
  rw [Heap.remove]
  by_cases htmp : 1 ≤ tmp ∧ tmp ≤ H.size
  swap
  · -- not a node in use
    refine ⟨false, H, f, ?_, h, by simp [htmp], fun _ => rfl, by simp⟩
    have hwhy : tmp ≤ 0 ∨ tmp.toNat > H.size := by omega
    split_ifs <;> rfl
  obtain ⟨idx, rfl⟩ : ∃ idx : ℕ, tmp = idx := ⟨tmp.toNat, by omega⟩
  obtain ⟨n, hsize⟩ : ∃ n, H.size = n + 1 := ⟨H.size - 1, by omega⟩
  have hidx : 1 ≤ idx := by omega
  have hfits := h.fits
  have hnode := h.nodes idx hidx (by omega)
  have hempty : H.isEmpty = false := by simp [isEmpty, hsize]
  have hok : ¬ ((idx : ℤ) ≤ 0 ∨ (idx : ℤ).toNat > H.size) := by omega
  rw [if_neg (by simp [hempty]), if_neg hok, Int.toNat_natCast]
  simp only [hnode, setNode_eq (by omega : idx ≤ H.capacity), Option.bind_eq_bind, Option.bind_some,
    hsize, Nat.add_one_sub_one]
  split_ifs with hend
  · -- the last entry
    subst hend
    have hholds : Holds cmp { H with
        size := n
        nodes := update H.nodes (n + 1) (some (none, none))
        freedKeys := H.freedKeys ++ freed keyFree (f (n + 1)).1
        freedValues := H.freedValues ++ freed valueFree (f (n + 1)).2 } f := by
      refine ⟨h.pos, by simp only; omega, fun j hj hjn => ?_, h.order.mono (by simp only; omega)⟩
      simp only at hjn ⊢
      rw [update_of_ne (by omega)]
      exact h.nodes j hj (by omega)
    refine ⟨true, _, f, rfl, hholds, by simp, by simp, fun _ => ⟨f (n + 1), rfl, ?_, rfl, rfl⟩⟩
    rw [hholds.pairs_eq, h.pairs_eq, hsize, contents_succ]
  · obtain ⟨H₁, i₁, H', f', hloop, hcopy, hframe, hholds, hpairs⟩ :=
      h.refill (G := { H with
        size := n
        nodes := update H.nodes idx (some (none, none))
        freedKeys := H.freedKeys ++ freed keyFree (f idx).1
        freedValues := H.freedValues ++ freed valueFree (f idx).2 })
      hsize hidx (by omega) rfl rfl fun j hj => update_of_ne hj ..
    refine ⟨true, H', f', ?_, hholds, by simp; omega, by simp,
      fun _ => ⟨f idx, rfl, hpairs, ?_, ?_⟩⟩
    · simp only [hloop, hcopy, Option.bind_some]
      rfl
    · rw [hframe]
    · rw [hframe]

end Calls

theorem Holds.findLoop (h : Holds cmp H f) (data : Option K) : ∀ {n i : ℕ}, 1 ≤ i →
    n + i = H.size + 1 → ∃ res, findLoop cmp H data n i = some res ∧
      (∀ k, res = some k → i ≤ k ∧ k ≤ H.size ∧ cmp (f k).1 data = 0) ∧
      (res = none → ∀ j, i ≤ j → j ≤ H.size → cmp (f j).1 data ≠ 0)
  | 0, i, hi, hn => ⟨none, rfl, by simp, fun _ j hj hjn => by omega⟩
  | n + 1, i, hi, hn => by
    rw [Heap.findLoop, h.nodes i hi (by omega), Option.bind_eq_bind, Option.bind_some]
    split_ifs with heq
    · refine ⟨some i, rfl, ?_, by simp⟩
      rintro k ⟨⟩
      exact ⟨le_rfl, by omega, heq⟩
    · obtain ⟨res, hloop, hsome, hnone⟩ :=
        h.findLoop data (by omega : 1 ≤ i + 1) (by omega : n + _ = _)
      refine ⟨res, hloop, fun k hk => ?_, fun hres j hj hjn => ?_⟩
      · obtain ⟨hik, hkn, hkey⟩ := hsome k hk
        exact ⟨by omega, hkn, hkey⟩
      · obtain rfl | hj := hj.eq_or_lt
        · exact heq
        · exact hnone hres j hj hjn

theorem Holds.find (h : Holds cmp H f) (data : Option K) : ∃ res, H.find cmp data = some res ∧
    (∀ i, res = some i → 1 ≤ i ∧ i ≤ H.size ∧ ∃ q, H.nodes i = some q ∧ cmp q.1 data = 0) ∧
    (res = none → ∀ q ∈ H.pairs, cmp q.1 data ≠ 0) := by
  obtain ⟨res, hloop, hsome, hnone⟩ := h.findLoop data le_rfl (rfl : H.size + 1 = _)
  refine ⟨res, hloop, fun i hi => ?_, fun hres q hq => ?_⟩
  · obtain ⟨hpos, hin, hkey⟩ := hsome i hi
    exact ⟨hpos, hin, f i, h.nodes i hpos hin, hkey⟩
  · obtain ⟨j, hj, hjn, rfl⟩ := mem_contents.mp (h.pairs_eq ▸ hq)
    exact hnone hres j hj hjn

theorem clearLoop_eq_some (keyFree valueFree : Bool) : ∀ {n i : ℕ} {H : Heap K V},
    (∀ j, i ≤ j → j < i + n → (H.nodes j).isSome) → i + n ≤ H.capacity + 1 →
    ∃ H', clearLoop keyFree valueFree n i H = some H' ∧ H'.capacity = H.capacity
  | 0, _, H, _, _ => ⟨H, rfl, rfl⟩
  | n + 1, i, H, hnodes, hcap => by
    obtain ⟨node, hnode⟩ := Option.isSome_iff_exists.mp (hnodes i le_rfl (by omega))
    rw [clearLoop, hnode, Option.bind_eq_bind, Option.bind_some, setNode_eq (by omega),
      Option.bind_eq_bind, Option.bind_some]
    obtain ⟨H', hloop, hcapacity⟩ := clearLoop_eq_some keyFree valueFree (n := n) (i := i + 1)
      (H := { H with
        nodes := update H.nodes i (some (none, none))
        freedKeys := H.freedKeys ++ freed keyFree node.1
        freedValues := H.freedValues ++ freed valueFree node.2 })
      (fun j hj hjn => by
        simp only [update_of_ne (by omega : j ≠ i)]
        exact hnodes j (by omega) (by omega))
      (by simp only; omega)
    exact ⟨H', hloop, hcapacity⟩

theorem Holds.clear (h : Holds cmp H f) (keyFree valueFree : Bool) : ∃ H',
    H.clear keyFree valueFree = some H' ∧ Holds cmp H' f ∧ H'.pairs = 0 := by
  have hfits := h.fits
  obtain ⟨H', hloop, hcapacity⟩ := clearLoop_eq_some keyFree valueFree (n := H.size) (i := 1)
    (H := H) (fun j hj hjn => by rw [h.nodes j hj (by omega)]; rfl) (by omega)
  refine ⟨{ H' with size := 0 }, ?_, ⟨hcapacity ▸ h.pos, by simp, fun j hj hjn => ?_,
    fun j hj hjn => ?_⟩, rfl⟩
  · rw [Heap.clear, hloop]
    rfl
  · simp only at hjn
    omega
  · simp only at hjn
    omega

section Runs

variable [Std.TransCmp (ordering cmp)]

theorem Holds.behaves (h : Holds cmp H f) : H.Behaves cmp where
  order := h.inOrder
  insert key value mem := by
    obtain ⟨ok, H', f', heq, -, htrue, hfalse, -⟩ := h.insert key value mem
    exact ⟨ok, H', heq, htrue, hfalse⟩
  extract := by
    obtain ⟨res, H', f', heq, -, hsome, hnone⟩ := h.extract
    exact ⟨res, H', heq, hsome, hnone⟩
  remove tmp keyFree valueFree := by
    obtain ⟨ok, H', f', heq, -, hrest⟩ := h.remove tmp keyFree valueFree
    exact ⟨ok, H', heq, hrest⟩
  ensureCapacity capacity mem := by
    obtain ⟨ok, H', heq, -, hpairs, -, hrest⟩ := h.ensureCapacity capacity mem
    exact ⟨ok, H', heq, hpairs, hrest⟩
  find := h.find
  clear keyFree valueFree := by
    obtain ⟨H', heq, -, hpairs⟩ := h.clear keyFree valueFree
    exact ⟨H', heq, hpairs⟩

theorem Holds.call {c : HeapCall K V} (h : Holds cmp H f) (hcall : H.call cmp c = some H') :
    ∃ f', Holds cmp H' f' := by
  cases c with
  | insert key value mem =>
    obtain ⟨ok, H'', f', heq, hholds, -⟩ := h.insert key value mem
    rw [Heap.call, heq] at hcall
    cases hcall
    exact ⟨f', hholds⟩
  | extract =>
    obtain ⟨res, H'', f', heq, hholds, -⟩ := h.extract
    rw [Heap.call, heq] at hcall
    cases hcall
    exact ⟨f', hholds⟩
  | remove tmp keyFree valueFree =>
    obtain ⟨ok, H'', f', heq, hholds, -⟩ := h.remove tmp keyFree valueFree
    rw [Heap.call, heq] at hcall
    cases hcall
    exact ⟨f', hholds⟩
  | ensureCapacity capacity mem =>
    obtain ⟨ok, H'', heq, hholds, -⟩ := h.ensureCapacity capacity mem
    rw [Heap.call, heq] at hcall
    cases hcall
    exact ⟨f, hholds⟩
  | clear keyFree valueFree =>
    obtain ⟨H'', heq, hholds, -⟩ := h.clear keyFree valueFree
    obtain rfl := Option.some.inj (heq.symm.trans hcall)
    exact ⟨f, hholds⟩

/-- **The heap behaves as a bag with a least element after every sequence of calls**, for every
comparison that is a total preorder. -/
theorem behaves_of_reach {cmpGiven mem : Bool} {capacity : ℕ} {H₀ : Heap K V}
    (hinit : init cmpGiven capacity mem = some H₀)
    (hs : Steps.Reach (Heap.call cmp) Steps.anyStep H₀ H) : H.Behaves cmp := by
  obtain ⟨f, hf⟩ : ∃ f, Holds cmp H f := by
    refine hs.invariant (P := fun H => ∃ f, Holds cmp H f)
      ⟨fun _ => (none, none), holds_init hinit _⟩ ?_
    rintro H c H' ⟨f, hf⟩ - hcall
    exact hf.call hcall
  exact hf.behaves

end Runs

def insertSeven : List (HeapCall ℕ ℕ) := List.flatten
  [[1, 10, 2, 11, 12, 3, 4].map fun k => HeapCall.insert (some k) none true,
    [HeapCall.remove 4 true false, HeapCall.extract]]

def byNumber (a b : Option ℕ) : ℤ := (a.getD 0 : ℤ) - b.getD 0

theorem behaves_insertSeven : ∃ H₀ H : Heap ℕ ℕ, init true 2 true = some H₀ ∧
    Steps.exec (Heap.call byNumber) H₀ insertSeven = some H ∧
    (List.range H.size).map (fun i => H.nodes (i + 1)) =
      [2, 4, 3, 10, 12].map (fun k => some (some k, none)) ∧ H.freedKeys = [11] ∧
    H.capacity = 8 ∧ H.Behaves byNumber := by
  have hinit : init true 2 true = some (⟨2, 0, fun _ => none, [], []⟩ : Heap ℕ ℕ) := rfl
  obtain ⟨H, hH, hnodes, hkeys, hcapacity⟩ : ∃ H, Steps.exec (Heap.call byNumber)
      ⟨2, 0, fun _ => none, [], []⟩ insertSeven = some H ∧
      (List.range H.size).map (fun i => H.nodes (i + 1)) =
        [2, 4, 3, 10, 12].map (fun k => some (some k, none)) ∧ H.freedKeys = [11] ∧
      H.capacity = 8 := by
    decide
  have : Std.TransCmp (ordering byNumber) := transCmp_sub fun a : Option ℕ => (a.getD 0 : ℤ)
  exact ⟨_, H, hinit, hH, hnodes, hkeys, hcapacity,
    behaves_of_reach hinit (Steps.Reach.of_exec insertSeven hH)⟩

end Heap

end Mugglec
