import Mugglec.Machinery.Cyclic
import Mugglec.Machinery.SentinelList
import Mugglec.Machinery.Steps
import Mugglec.Memory.PointerSlot

/-!
# Memory/PointerSlotLive — the live values, where the capacity is a power of two

A run of calls, beside the list of the values that are **live**: an accepted `insert` appends the
index it returned with its data, an accepted `remove` takes the index out.
-/

namespace Mugglec

open Function LinkedList OwnedHeap Cyclic

variable {α : Type}

inductive SlotCall (α : Type)
  | insert (data : Option α)
  | remove (slotIdx : ℕ)
  | get (idx : ℕ)

/-- The slots, and the live values: index and data, oldest first. -/
structure SlotRun (α : Type) where
  slot : PointerSlot α
  live : List (ℕ × Option α)

namespace SlotRun

def without (live : List (ℕ × Option α)) (i : ℕ) : List (ℕ × Option α) :=
  live.filter fun p => p.1 ≠ i

def next (s : SlotRun α) : SlotCall α → Option (SlotRun α)
  | .insert data => (s.slot.insert data).map fun
    | (.ok idx, ps) => ⟨ps, s.live ++ [(idx, data)]⟩
    | (.error _, ps) => ⟨ps, s.live⟩
  | .remove slotIdx => (s.slot.remove slotIdx).map fun
    | (.ok, ps) => ⟨ps, without s.live slotIdx⟩
    | (_, ps) => ⟨ps, s.live⟩
  | .get idx => (s.slot.get idx).map fun _ => s

structure Faithful (s : SlotRun α) : Prop where
  insert_full : s.live.length = s.slot.capacity →
    ∀ data, s.slot.insert data = some (.error .memAlloc, s.slot)
  insert_room : s.live.length ≠ s.slot.capacity →
    ∀ data, ∃ idx ps, s.slot.insert data = some (.ok idx, ps) ∧ idx ∉ s.live.map Prod.fst
  remove_live : ∀ idx ∈ s.live.map Prod.fst, ∃ ps, s.slot.remove idx = some (.ok, ps)
  remove_other : ∀ idx ∉ s.live.map Prod.fst,
    ∃ e, e ≠ Err.ok ∧ s.slot.remove idx = some (e, s.slot)
  get : ∀ idx, s.slot.get idx = some (s.live.lookup idx).join
  iterate : s.slot.iterate = some (s.live.map Prod.snd)

def slotData (live : List (ℕ × Option α)) (i : ℕ) : SlotData α :=
  match live.lookup i with
  | some data => ⟨i, 1, data⟩
  | none => ⟨i, 0, none⟩

def pointers (live : List (ℕ × Option α)) : List SlotPtr := live.map fun p => .slot p.1

def path (live : List (ℕ × Option α)) : List SlotPtr := .head :: pointers live ++ [.tail]

def available (s : SlotRun α) : List SlotPtr :=
  arc s.slot.ppSlots (s.slot.allocIndex % s.slot.capacity) (s.slot.capacity - s.live.length)

structure Partition (s : SlotRun α) : Prop where
  pow : ∃ k < 32, s.slot.capacity = 2 ^ k
  length_eq : s.slot.ppSlots.length = s.slot.capacity
  ring : ∀ p ∈ s.slot.ppSlots, ∃ i < s.slot.capacity, p = .slot i
  perm : (s.available ++ pointers s.live).Perm ((List.range s.slot.capacity).map .slot)
  free_eq : s.slot.freeIndex % s.slot.capacity =
    (s.slot.allocIndex + (s.slot.capacity - s.live.length)) % s.slot.capacity
  slots : ∀ i < s.slot.capacity, dataOf s.slot.items (.slot i) = some (slotData s.live i)
  head : ∃ d, dataOf s.slot.items .head = some d
  tail : ∃ d, dataOf s.slot.items .tail = some d
  links : IsPath (nextOf s.slot.items) (prevOf s.slot.items) (path s.live)

theorem pointers_append (l₁ l₂ : List (ℕ × Option α)) :
    pointers (l₁ ++ l₂) = pointers l₁ ++ pointers l₂ := List.map_append

variable {i : ℕ} {live l₁ l₂ : List (ℕ × Option α)} {d : Option α}

theorem mem_pointers : .slot i ∈ pointers live ↔ i ∈ live.map Prod.fst := by
  simp [pointers]

theorem lookup_eq_none (h : i ∉ live.map Prod.fst) : live.lookup i = none := by
  refine List.lookup_eq_none_iff.mpr fun p hp => ?_
  rw [bne_iff_ne]
  rintro rfl
  exact h (List.mem_map_of_mem hp)

theorem slotData_of_not_mem (h : i ∉ live.map Prod.fst) : slotData live i = ⟨i, 0, none⟩ := by
  rw [slotData, lookup_eq_none h]

theorem exists_split (h : i ∈ live.map Prod.fst) (hnodup : (live.map Prod.fst).Nodup) :
    ∃ l₁ d l₂, live = l₁ ++ (i, d) :: l₂ ∧
      i ∉ l₁.map Prod.fst ∧ i ∉ l₂.map Prod.fst := by
  obtain ⟨⟨j, d⟩, hmem, rfl⟩ := List.mem_map.mp h
  obtain ⟨l₁, l₂, rfl⟩ := List.append_of_mem hmem
  rw [List.map_append, List.map_cons, List.nodup_middle, List.nodup_cons] at hnodup
  exact ⟨l₁, d, l₂, rfl, fun h => hnodup.1 (List.mem_append_left _ h),
    fun h => hnodup.1 (List.mem_append_right _ h)⟩

theorem slotData_split (h : i ∉ l₁.map Prod.fst) :
    slotData (l₁ ++ (i, d) :: l₂) i = ⟨i, 1, d⟩ := by
  rw [slotData, List.lookup_append, lookup_eq_none h, Option.none_or, List.lookup_cons_self]

theorem slotData_split_of_ne {j : ℕ} (hne : j ≠ i) :
    slotData (l₁ ++ (i, d) :: l₂) j = slotData (l₁ ++ l₂) j := by
  have hlookup : (l₁ ++ (i, d) :: l₂).lookup j = (l₁ ++ l₂).lookup j := by
    rw [List.lookup_append, List.lookup_append, List.lookup_cons, beq_eq_false_iff_ne.mpr hne]
  rw [slotData, hlookup, slotData]

theorem without_split (h₁ : i ∉ l₁.map Prod.fst)
    (h₂ : i ∉ l₂.map Prod.fst) :
    without (l₁ ++ (i, d) :: l₂) i = l₁ ++ l₂ := by
  have hkeep : ∀ l : List (ℕ × Option α), i ∉ l.map Prod.fst → without l i = l := by
    intro l hl
    refine List.filter_eq_self.mpr fun p hp => decide_eq_true ?_
    rintro rfl
    exact hl (List.mem_map_of_mem hp)
  rw [without, List.filter_append, List.filter_cons_of_neg (by simp)]
  exact congrArg₂ _ (hkeep l₁ h₁) (hkeep l₂ h₂)

namespace Partition

variable {s : SlotRun α} (h : s.Partition)
include h

theorem cap_pos : 0 < s.slot.capacity := by
  obtain ⟨k, -, hk⟩ := h.pow
  rw [hk]
  exact Nat.two_pow_pos k

theorem length_available : s.available.length = s.slot.capacity - s.live.length :=
  length_arc _ (by rw [h.length_eq]; exact Nat.sub_le ..)

theorem length_le : s.live.length ≤ s.slot.capacity := by
  have hlen := h.perm.length_eq
  simp only [List.length_append, h.length_available, pointers, List.length_map,
    List.length_range] at hlen
  omega

theorem nodup_all : (s.available ++ pointers s.live).Nodup :=
  h.perm.nodup_iff.mpr (List.Nodup.map (fun _ _ => SlotPtr.slot.inj) List.nodup_range)

theorem nodup : (s.live.map Prod.fst).Nodup := by
  have hnodup := h.nodup_all.of_append_right
  rw [pointers, show (fun p : ℕ × Option α => SlotPtr.slot p.1) = .slot ∘ Prod.fst from rfl,
    ← List.map_map] at hnodup
  exact hnodup.of_map _

theorem lt_capacity {i : ℕ} (hi : .slot i ∈ s.available ++ pointers s.live) :
    i < s.slot.capacity := by
  obtain ⟨j, hj, heq⟩ := List.mem_map.mp (h.perm.subset hi)
  obtain rfl := SlotPtr.slot.inj heq
  exact List.mem_range.mp hj

theorem live_lt {i : ℕ} (hi : i ∈ s.live.map Prod.fst) : i < s.slot.capacity :=
  h.lt_capacity (List.mem_append_right _ (mem_pointers.mpr hi))

theorem exists_dataOf {p : SlotPtr} (hp : p ∈ path s.live) :
    ∃ d, dataOf s.slot.items p = some d := by
  cases p with
  | head => exact h.head
  | tail => exact h.tail
  | slot i =>
    have hi : i ∈ s.live.map Prod.fst := mem_pointers.mp (by simpa [path] using hp)
    exact ⟨_, h.slots i (h.live_lt hi)⟩

theorem mod_lt (idx : ℕ) : idx % s.slot.capacity < s.slot.ppSlots.length := by
  rw [h.length_eq]
  exact Nat.mod_lt _ h.cap_pos

theorem idx_eq (idx : ℕ) : idxInPowOf2Ring idx s.slot.capacity = idx % s.slot.capacity := by
  obtain ⟨k, hlt, hk⟩ := h.pow
  rw [hk, idx_eq_mod hlt]

theorem u32_mod (n : ℕ) : u32 n % s.slot.capacity = n % s.slot.capacity := by
  obtain ⟨k, hk32, hk⟩ := h.pow
  rw [hk, u32, Nat.mod_mod_of_dvd _ (Nat.pow_dvd_pow 2 hk32.le)]

end Partition

theorem nodup_path (h : (live.map Prod.fst).Nodup) : (path live).Nodup := by
  have hp : (pointers live).Nodup := by
    have := h.map (f := SlotPtr.slot) fun _ _ => SlotPtr.slot.inj
    rwa [List.map_map] at this
  have hhead : SlotPtr.head ∉ pointers live ++ [.tail] := by simp [pointers]
  have htail : SlotPtr.tail ∉ pointers live := by simp [pointers]
  rw [path, List.cons_append, List.nodup_cons]
  exact ⟨hhead, List.nodup_append.mpr ⟨hp, List.nodup_singleton _, by
    rintro a ha b hb rfl
    rw [List.mem_singleton.mp hb] at ha
    exact htail ha⟩⟩

namespace Partition

variable {s : SlotRun α} (h : s.Partition)
include h

theorem between {l₁ l₂ : List SlotPtr} (hlive : pointers s.live = l₁ ++ l₂) :
    IsBetween (nextOf s.slot.items) (prevOf s.slot.items) .head .tail (l₁ ++ l₂) :=
  hlive ▸ ⟨h.links, nodup_path h.nodup⟩

theorem exists_available (hroom : s.live.length < s.slot.capacity) : ∃ i rest,
    s.slot.ppSlots[s.slot.allocIndex % s.slot.capacity]? = some (.slot i) ∧
      s.available = .slot i :: rest ∧
      rest = arc s.slot.ppSlots ((s.slot.allocIndex + 1) % s.slot.capacity)
        (s.slot.capacity - (s.live.length + 1)) := by
  have hidx := h.mod_lt s.slot.allocIndex
  obtain ⟨i, -, hi⟩ := h.ring _ (List.getElem_mem hidx)
  refine ⟨i, _, by rw [List.getElem?_eq_getElem hidx, hi], ?_, rfl⟩
  rw [available, show s.slot.capacity - s.live.length = s.slot.capacity - (s.live.length + 1) + 1 by
    omega, arc_succ hidx (by rw [h.length_eq]; omega), hi, h.length_eq, bump_mod h.cap_pos]

theorem mem_live_of_full (hfull : s.live.length = s.slot.capacity) {i : ℕ}
    (hi : i < s.slot.capacity) : i ∈ s.live.map Prod.fst := by
  have hempty : s.available = [] := by
    rw [← List.length_eq_zero_iff, h.length_available]
    omega
  have hperm := h.perm
  rw [hempty, List.nil_append] at hperm
  exact mem_pointers.mp (hperm.symm.subset (List.mem_map_of_mem (List.mem_range.mpr hi)))

theorem insert_full (hfull : s.live.length = s.slot.capacity) (data : Option α) :
    s.slot.insert data = some (.error .memAlloc, s.slot) := by
  have hidx := h.mod_lt s.slot.allocIndex
  obtain ⟨i, hi, hget⟩ := h.ring _ (List.getElem_mem hidx)
  obtain ⟨l₁, d, l₂, hlive, h₁, -⟩ := exists_split (h.mem_live_of_full hfull hi) h.nodup
  have hdata := h.slots i hi
  rw [hlive, slotData_split h₁] at hdata
  rw [PointerSlot.insert, h.idx_eq]
  simp [List.getElem?_eq_getElem hidx, hget, eq_some_of_dataOf hdata]

theorem slots_update {items : SlotPtr → Option (SlotItem α)}
    (hdata : dataOf items = update (dataOf s.slot.items) (.slot i) (some (slotData live i)))
    (hother : ∀ j ≠ i, slotData live j = slotData s.live j) :
    (∀ j < s.slot.capacity, dataOf items (.slot j) = some (slotData live j)) ∧
      (∃ d, dataOf items .head = some d) ∧ ∃ d, dataOf items .tail = some d := by
  rw [hdata]
  refine ⟨fun j hj => ?_, ?_, ?_⟩
  · by_cases hji : j = i
    · rw [hji, update_self]
    · rw [update_of_ne (by simpa using hji), h.slots j hj, hother j hji]
  · rw [update_of_ne (by simp)]
    exact h.head
  · rw [update_of_ne (by simp)]
    exact h.tail

theorem insert_room (hroom : s.live.length < s.slot.capacity) (data : Option α) :
    ∃ i ps, s.slot.insert data = some (.ok i, ps) ∧ i ∉ s.live.map Prod.fst ∧
      Partition ⟨ps, s.live ++ [(i, data)]⟩ := by
  obtain ⟨i, rest, hfront, havail, hrest⟩ := h.exists_available hroom
  have hmem : SlotPtr.slot i ∈ s.available ++ pointers s.live := by
    rw [havail]
    exact List.mem_append_left _ List.mem_cons_self
  have hnew : i ∉ s.live.map Prod.fst := by
    intro hi
    have hnodup := h.nodup_all
    rw [havail, List.cons_append, List.nodup_cons] at hnodup
    exact hnodup.1 (List.mem_append_right _ (mem_pointers.mpr hi))
  have hdata := h.slots i (h.lt_capacity hmem)
  rw [slotData_of_not_mem hnew] at hdata
  have hlist := h.between (List.append_nil _).symm
  have hprev : prevOf s.slot.items .tail = some (before .head (pointers s.live)) := hlist.joined.2
  obtain ⟨dl, hdl⟩ := h.exists_dataOf (p := before .head (pointers s.live)) (by
    have hmem := before_mem .head .tail (pointers s.live) []
    rwa [List.append_nil] at hmem)
  obtain ⟨dt, hdt⟩ := h.tail
  set last := before .head (pointers s.live)
  obtain ⟨items, hrun, hnext, hprev', hdata'⟩ := CellWrite.exists_run s.slot.items
    [.prev (.slot i) (some last), .next (.slot i) (some .tail), .next last (some (.slot i)),
      .prev .tail (some (.slot i)), .data (.slot i) ({ · with data := data, inUsed := 1 })]
    (by simp [CellWrite.addr, hdata, hdl, hdt])
  simp only [List.foldl, CellWrite.onNext, CellWrite.onPrev, CellWrite.onData, hdata,
    Option.map_some] at hnext hprev' hdata'
  refine ⟨i, { s.slot with items := items, allocIndex := u32 (s.slot.allocIndex + 1) }, ?_, hnew,
    ?_⟩
  · rw [PointerSlot.insert, h.idx_eq]
    simp only [hfront, eq_some_of_dataOf hdata, eq_some_of_dataOf hdt, hprev, Option.bind_eq_bind,
      Option.bind_some, zero_ne_one, if_false]
    exact hrun _
  · have hlen : (s.live ++ [(i, data)]).length = s.live.length + 1 := by simp
    have hnow : slotData (s.live ++ [(i, data)]) i = ⟨i, 1, data⟩ := slotData_split hnew
    rw [← hnow] at hdata'
    obtain ⟨hslots, hhead, htail⟩ := h.slots_update hdata' fun j hj => by
      rw [slotData_split_of_ne hj, List.append_nil]
    refine ⟨h.pow, h.length_eq, h.ring, ?_, ?_, hslots, hhead, htail, ?_⟩
    · -- the pointer moves from the ring to the list
      have hperm := h.perm
      rw [havail] at hperm
      rw [available, hlen]
      simp only
      rw [h.u32_mod, ← hrest, pointers, List.map_append, ← List.append_assoc]
      exact List.perm_append_singleton _ _ |>.trans hperm
    · rw [hlen]
      simp only
      rw [h.free_eq, ← Nat.mod_add_mod (u32 _), h.u32_mod, Nat.mod_add_mod]
      congr 1
      omega
    · simp only [hnext, hprev']
      rw [path, pointers_append]
      refine (hlist.insert fun hmem => hnew (mem_pointers.mp ?_)).path
      simpa using hmem

theorem remove_live {i : ℕ} (hi : i ∈ s.live.map Prod.fst) : ∃ ps,
    s.slot.remove i = some (.ok, ps) ∧ Partition ⟨ps, without s.live i⟩ := by
  obtain ⟨l₁, d, l₂, hlive, hi₁, hi₂⟩ := exists_split hi h.nodup
  have hlt := h.live_lt hi
  have hlen : s.live.length = (l₁ ++ l₂).length + 1 := by
    rw [hlive]
    simp only [List.length_append, List.length_cons]
    omega
  have hle := h.length_le
  have hdata := h.slots i hlt
  rw [hlive, slotData_split hi₁] at hdata
  have hpointers : pointers s.live = pointers l₁ ++ .slot i :: pointers l₂ := by
    rw [hlive, pointers_append]
    rfl
  have hlist := h.between hpointers
  have hmem : ∀ p ∈ .head :: (pointers l₁ ++ .slot i :: pointers l₂) ++ [.tail],
      ∃ d, dataOf s.slot.items p = some d := fun p hp =>
    h.exists_dataOf (by rw [path, hpointers]; exact hp)
  obtain ⟨da, hda⟩ := hmem _ (before_mem _ _ _ _)
  obtain ⟨db, hdb⟩ := hmem (after (pointers l₂) .tail) (by
    rw [List.append_cons (pointers l₁)]
    exact after_mem _ _ _ _)
  have hprev := hlist.prev_eq
  have hnext := hlist.next_eq
  set a := before .head (pointers l₁)
  set b := after (pointers l₂) .tail
  obtain ⟨items, hrun, hnext', hprev', hdata'⟩ := CellWrite.exists_run s.slot.items
    [.next a (some b), .prev b (some a), .prev (.slot i) none, .next (.slot i) none,
      .data (.slot i) ({ · with inUsed := 0, data := none })]
    (by simp [CellWrite.addr, hdata, hda, hdb])
  simp only [List.foldl, CellWrite.onNext, CellWrite.onPrev, CellWrite.onData, hdata,
    Option.map_some] at hnext' hprev' hdata'
  have hfree := h.mod_lt s.slot.freeIndex
  refine ⟨{ s.slot with
    items := items
    ppSlots := s.slot.ppSlots.set (s.slot.freeIndex % s.slot.capacity) (.slot i)
    freeIndex := u32 (s.slot.freeIndex + 1) }, ?_, ?_⟩
  · rw [PointerSlot.remove, if_neg (not_le.mpr hlt), h.idx_eq]
    simp only [eq_some_of_dataOf hdata, hprev, hnext, hfree, guard, if_true, one_ne_zero, if_false,
      Option.pure_def, Option.bind_eq_bind, Option.bind_some]
    exact hrun _
  · rw [hlive, without_split hi₁ hi₂]
    have hgone : i ∉ (l₁ ++ l₂).map Prod.fst := by simp_all
    rw [← slotData_of_not_mem hgone] at hdata'
    obtain ⟨hslots, hhead, htail⟩ := h.slots_update hdata' fun j hj => by
      rw [hlive, slotData_split_of_ne hj]
    refine ⟨h.pow, by simp [h.length_eq], fun p hp => ?_, ?_, ?_, hslots, hhead, htail, ?_⟩
    · rcases List.mem_or_eq_of_mem_set hp with hp | rfl
      · exact h.ring p hp
      · exact ⟨i, hlt, rfl⟩
    · -- the pointer moves from the list to the ring
      have havail : available ⟨{ s.slot with
          items := items
          ppSlots := s.slot.ppSlots.set (s.slot.freeIndex % s.slot.capacity) (.slot i)
          freeIndex := u32 (s.slot.freeIndex + 1) }, l₁ ++ l₂⟩ = s.available ++ [.slot i] := by
        have hset := arc_set s.slot.ppSlots (i := s.slot.allocIndex % s.slot.capacity)
          (n := s.slot.capacity - s.live.length) (.slot i) (by rw [h.length_eq]; omega)
        rw [h.length_eq, Nat.mod_add_mod, ← h.free_eq] at hset
        rw [available, available, ← hset]
        simp only
        congr 1
        omega
      have hperm := h.perm
      rw [hlive, pointers, List.map_append, List.map_cons] at hperm
      rw [havail, pointers, List.map_append]
      refine List.Perm.trans ?_ hperm
      rw [List.append_assoc, List.singleton_append]
      exact List.Perm.append_left _ List.perm_middle.symm
    · simp only
      rw [h.u32_mod, Nat.add_mod, h.free_eq, ← Nat.add_mod]
      congr 1
      omega
    · simp only [hnext', hprev']
      rw [path, pointers_append]
      refine (hlist.unlink.congr (fun x hx => ?_) fun x hx => ?_).path
      · exact update_of_ne (by rintro rfl; exact hlist.notMem hx) _ _
      · exact update_of_ne (by rintro rfl; exact hlist.notMem hx) _ _

theorem remove_other {i : ℕ} (hi : i ∉ s.live.map Prod.fst) :
    ∃ e, e ≠ Err.ok ∧ s.slot.remove i = some (e, s.slot) := by
  rcases lt_or_ge i s.slot.capacity with hlt | hge
  · have hdata := h.slots i hlt
    rw [slotData_of_not_mem hi] at hdata
    refine ⟨.memDuplicateFree, by decide, ?_⟩
    rw [PointerSlot.remove, if_neg (not_le.mpr hlt)]
    simp [eq_some_of_dataOf hdata]
  · exact ⟨.beyondRange, by decide, if_pos hge⟩

theorem get (i : ℕ) : s.slot.get i = some (s.live.lookup i).join := by
  rcases lt_or_ge i s.slot.capacity with hlt | hge
  · have hdata := h.slots i hlt
    rw [PointerSlot.get, if_neg (not_le.mpr hlt), eq_some_of_dataOf hdata, slotData]
    cases s.live.lookup i <;> rfl
  · have hout : i ∉ s.live.map Prod.fst := fun hi => absurd (h.live_lt hi) (not_lt.mpr hge)
    rw [PointerSlot.get, if_pos hge, lookup_eq_none hout]
    rfl

theorem iterateFrom_eq (hlive : s.live = l₁ ++ l₂) {n : ℕ}
    (hn : l₂.length < n) :
    s.slot.iterateFrom n (after (pointers l₂) .tail) = some (l₂.map Prod.snd) := by
  induction l₂ generalizing l₁ n with
  | nil =>
    obtain ⟨n, rfl⟩ := Nat.exists_eq_succ_of_ne_zero (Nat.ne_zero_of_lt hn)
    rfl
  | cons q l₂ ih =>
    obtain ⟨n, rfl⟩ := Nat.exists_eq_succ_of_ne_zero (Nat.ne_zero_of_lt hn)
    have hq : q.1 ∈ s.live.map Prod.fst := by simp [hlive]
    have hfirst : q.1 ∉ l₁.map Prod.fst := by
      have hnodup := h.nodup
      rw [hlive, List.map_append, List.map_cons, List.nodup_middle, List.nodup_cons] at hnodup
      exact fun hmem => hnodup.1 (List.mem_append_left _ hmem)
    have hdata := h.slots q.1 (h.live_lt hq)
    rw [hlive, slotData_split hfirst] at hdata
    have hpointers : pointers s.live = pointers l₁ ++ .slot q.1 :: pointers l₂ := by
      rw [hlive, pointers_append]
      rfl
    have hnext := (h.between hpointers).next_eq
    have hrest := ih (hlive.trans (List.append_cons l₁ q l₂)) (Nat.lt_of_succ_lt_succ hn)
    rw [pointers, List.map_cons, after_cons]
    simp [PointerSlot.iterateFrom, PointerSlot.iterEnd, PointerSlot.iterData, hdata, hnext, hrest]

theorem iterate : s.slot.iterate = some (s.live.map Prod.snd) := by
  have hfirst : nextOf s.slot.items .head = some (after (pointers s.live) .tail) :=
    (h.between (List.nil_append _).symm).next_head
  have hloop := h.iterateFrom_eq (List.nil_append _).symm (Nat.lt_succ_of_le h.length_le)
  simp [PointerSlot.iterate, PointerSlot.iterBegin, hfirst, hloop]

theorem faithful : s.Faithful where
  insert_full hfull data := h.insert_full hfull data
  insert_room hroom data := by
    obtain ⟨i, ps, heq, hnew, -⟩ := h.insert_room (lt_of_le_of_ne h.length_le hroom) data
    exact ⟨i, ps, heq, hnew⟩
  remove_live i hi := by
    obtain ⟨ps, heq, -⟩ := h.remove_live hi
    exact ⟨ps, heq⟩
  remove_other i hi := h.remove_other hi
  get := h.get
  iterate := h.iterate

theorem next {s' : SlotRun α} {c : SlotCall α} (hnext : s.next c = some s') : s'.Partition := by
  cases c with
  | insert data =>
    rcases h.length_le.lt_or_eq with hroom | hfull
    · obtain ⟨i, ps, heq, -, hpart⟩ := h.insert_room hroom data
      rw [SlotRun.next, heq, Option.map_some] at hnext
      cases hnext
      exact hpart
    · rw [SlotRun.next, h.insert_full hfull, Option.map_some] at hnext
      cases hnext
      exact h
  | remove i =>
    by_cases hi : i ∈ s.live.map Prod.fst
    · obtain ⟨ps, heq, hpart⟩ := h.remove_live hi
      rw [SlotRun.next, heq, Option.map_some] at hnext
      cases hnext
      exact hpart
    · obtain ⟨e, hne, heq⟩ := h.remove_other hi
      rw [SlotRun.next, heq, Option.map_some] at hnext
      cases hnext
      cases e with
      | ok => exact absurd rfl hne
      | _ => exact h
  | get i =>
    rw [SlotRun.next, h.get, Option.map_some] at hnext
    cases hnext
    exact h

end Partition

theorem partition_init {capacity : ℕ} {g g' : Bool} {ps : PointerSlot α} (hlt : capacity < 2 ^ 32)
    (hpow : isPowOf2 capacity = true) (h : PointerSlot.init capacity g g' = .ok ps) :
    Partition ⟨ps, []⟩ := by
  obtain ⟨n, hn, hnpow, hn0, hnlt⟩ : ∃ n, (if capacity > 0 then capacity else 1) = n ∧
      isPowOf2 n = true ∧ n ≠ 0 ∧ n < 2 ^ 32 := by
    refine ⟨_, rfl, ?_⟩
    split
    · exact ⟨hpow, by omega, hlt⟩
    · exact ⟨by decide, by decide, by decide⟩
  obtain ⟨k, hk, hkpow⟩ := nextPowOf2_isPowOf2 hn0 hnlt
  rw [nextPowOf2, if_pos hnpow] at hkpow
  have hk32 : k < 32 := (Nat.pow_lt_pow_iff_right (by omega)).mp (hkpow ▸ hnlt)
  have hcap : u32 (nextPowOf2 n) = n := by rw [nextPowOf2, if_pos hnpow, u32_of_lt hnlt]
  rw [PointerSlot.init, hn] at h
  split at h
  · obtain rfl := Except.ok.inj h
    refine ⟨⟨k, hk32, hcap.trans hkpow⟩, ?_, fun p hp => ?_, ?_, ?_, fun i hi => ?_, ⟨_, rfl⟩,
      ⟨_, rfl⟩, ?_⟩
    · simp [hcap]
    · obtain ⟨i, hi, rfl⟩ := List.mem_map.mp hp
      exact ⟨i, by simpa [hcap] using hi, rfl⟩
    · simp [available, arc, pointers, hcap, List.take_of_length_le]
    · simp [hcap]
    · rw [hcap] at hi
      simp [dataOf, PointerSlot.initItems, hi, slotData]
    · exact List.isChain_cons_cons.mpr ⟨⟨rfl, rfl⟩, List.isChain_singleton _⟩
  · cases h

/-- **With a power of two, or zero, every call of every run stays inside the arrays.** -/
theorem faithful_of_isPowOf2 {capacity : ℕ} {g g' : Bool} {ps : PointerSlot α} {s : SlotRun α}
    (hlt : capacity < 2 ^ 32) (hpow : isPowOf2 capacity = true)
    (hinit : PointerSlot.init capacity g g' = .ok ps)
    (hs : Steps.Reach SlotRun.next Steps.anyStep ⟨ps, []⟩ s) : s.Faithful := by
  have hpart : s.Partition :=
    hs.invariant (P := Partition) (partition_init hlt hpow hinit) fun _ _ _ h _ => h.next
  exact hpart.faithful

theorem faithful_after_removal : ∃ (ps : PointerSlot ℕ) (s : SlotRun ℕ),
    PointerSlot.init 4 true true = .ok ps ∧
      Steps.exec SlotRun.next ⟨ps, []⟩ [.insert (some 7), .insert (some 8), .remove 0] = some s ∧
      s.live = [(1, some 8)] ∧ s.Faithful := by
  obtain ⟨ps, hps⟩ : ∃ ps : PointerSlot ℕ, PointerSlot.init 4 true true = .ok ps := ⟨_, rfl⟩
  obtain ⟨s, hs, hlive⟩ : ∃ s, Steps.exec SlotRun.next ⟨ps, []⟩
      [.insert (some 7), .insert (some 8), .remove 0] = some s ∧ s.live = [(1, some 8)] := by
    obtain rfl := Except.ok.inj hps
    decide
  exact ⟨ps, s, hps, hs, hlive,
    faithful_of_isPowOf2 (by decide) (by decide) hps (Steps.Reach.of_exec _ hs)⟩

theorem insert_outside_arrays : ∃ (ps : PointerSlot ℕ) (s : SlotRun ℕ),
    PointerSlot.init 3 true true = .ok ps ∧
      Steps.exec SlotRun.next ⟨ps, []⟩
        [.insert (some 7), .insert (some 8), .insert (some 9)] = some s ∧
      s.live.length = 3 ∧ s.slot.capacity = 4 ∧ s.slot.insert none = none ∧ s.slot.get 3 = none ∧
      ¬ s.Faithful := by
  obtain ⟨ps, hps⟩ : ∃ ps : PointerSlot ℕ, PointerSlot.init 3 true true = .ok ps := ⟨_, rfl⟩
  obtain ⟨s, hs, hlen, hcap, hinsert, hget⟩ : ∃ s, Steps.exec SlotRun.next ⟨ps, []⟩
      [.insert (some 7), .insert (some 8), .insert (some 9)] = some s ∧ s.live.length = 3 ∧
      s.slot.capacity = 4 ∧ (s.slot.insert none).isNone = true ∧ s.slot.get 3 = none := by
    obtain rfl := Except.ok.inj hps
    decide
  refine ⟨ps, s, hps, hs, hlen, hcap, Option.isNone_iff_eq_none.mp hinsert, hget, fun h => ?_⟩
  have := h.get 3
  rw [hget] at this
  cases this

end SlotRun

end Mugglec
