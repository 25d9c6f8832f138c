import Mugglec.Machinery.SentinelList
import Mugglec.Dsaa.TimeWheel

/-!
# Dsaa/TimeWheelSlots — the lists of the slots

The cells of each slot, between its sentinels, are a list of nodes, and no node is in two slots
(`Holds`).  `insert` and `remove` change the list of one slot.  With a callback that leaves the
wheel as it is, a tick calls it on the list of the slot at the cursor, in order.
-/

namespace Mugglec

open Function LinkedList

namespace TimeWheel

variable {A : Type}

def ptrs (slots : ℕ → List A) (i : ℕ) : List (WheelPtr A) := (slots i).map .node

structure Holds (W : TimeWheel A) (slots : ℕ → List A) : Prop where
  links : AreBetween {i | i < W.n} (nextOf W.heap) (prevOf W.heap) .head .tail (ptrs slots)
  head : ∀ i < W.n, dataOf W.heap (.head i) = some ()
  tail : ∀ i < W.n, dataOf W.heap (.tail i) = some ()
  node : ∀ a, dataOf W.heap (.node a) = some ()
  cur_lt : W.cur < W.n

variable {W : TimeWheel A} {slots : ℕ → List A} {l l₁ l₂ : List A} {a : A} {i j : ℕ}

theorem ptrs_update (slots : ℕ → List A) (i : ℕ) (l : List A) :
    ptrs (Function.update slots i l) = Function.update (ptrs slots) i (l.map .node) := by
  funext j
  by_cases hj : j = i
  · subst hj
    simp [ptrs]
  · simp [ptrs, hj]

theorem node_mem_cells : .node a ∈ .head i :: ptrs slots j ++ [.tail i] ↔ a ∈ slots j := by
  simp [ptrs]

theorem holds_init {n unitMs insertMode : ℕ} {now : Timespec} {nodes : A → WheelCell A}
    {mem : Bool} (hn : 0 < n) (h : init n unitMs insertMode now nodes mem = some W) :
    W.Holds fun _ => [] := by
  rw [init] at h
  split_ifs at h
  cases h
  refine ⟨⟨fun i hi => ?_, fun i _ j _ x hi hj => ?_⟩, fun i hi => ?_, fun i hi => ?_,
    fun a => rfl, hn⟩
  · have hi : i < n := hi
    refine ⟨List.isChain_cons_cons.mpr ⟨⟨?_, ?_⟩, List.isChain_singleton _⟩, by simp [ptrs]⟩
    · simp [nextOf, initHeap, hi]
    · simp [prevOf, initHeap, hi]
  · have hi' : x = .head i ∨ x = .tail i := by simpa [ptrs] using hi
    have hj' : x = .head j ∨ x = .tail j := by simpa [ptrs] using hj
    rcases hi' with rfl | rfl
    · simpa using hj'
    · simpa using hj'
  · simp [dataOf, initHeap, hi]
  · simp [dataOf, initHeap, hi]

theorem insertIdx_of_heap (W : TimeWheel A) (heap : WheelPtr A → Option (WheelCell A)) :
    { W with heap := heap }.insertIdx.1 = W.insertIdx.1 := by
  rw [insertIdx, insertIdx]
  split_ifs <;> rfl

theorem insertIdx_current (hmode : W.insertMode = insertModeCurrent) : W.insertIdx = (W.cur, W) :=
  if_pos hmode

theorem insertIdx_snd (W : TimeWheel A) : W.insertIdx.2.heap = W.heap ∧ W.insertIdx.2.n = W.n ∧
    W.insertIdx.2.cur = W.cur ∧ W.insertIdx.2.insertMode = W.insertMode ∧
    W.insertIdx.2.unitMs = W.unitMs ∧ W.insertIdx.2.tc = W.tc := by
  rw [insertIdx]
  split_ifs <;> exact ⟨rfl, rfl, rfl, rfl, rfl, rfl⟩

namespace Holds

variable (h : W.Holds slots)
include h

theorem eq_of_mem (hi : i < W.n) (hj : j < W.n) (hai : a ∈ slots i) (haj : a ∈ slots j) : i = j :=
  h.links.disjoint i hi j hj (.node a) (node_mem_cells.mpr hai) (node_mem_cells.mpr haj)

theorem nodup (hi : i < W.n) : (slots i).Nodup :=
  ((h.links.each i hi).nodup.of_cons.of_append_left).of_map _

theorem exists_cell (hi : i < W.n) {p : WheelPtr A}
    (hp : p ∈ .head i :: ptrs slots i ++ [.tail i]) : dataOf W.heap p = some () := by
  cases p with
  | head j =>
    obtain rfl : j = i := by simpa [ptrs] using hp
    exact h.head j hi
  | tail j =>
    obtain rfl : j = i := by simpa [ptrs] using hp
    exact h.tail j hi
  | node a => exact h.node a

theorem next_head (hi : i < W.n) :
    nextOf W.heap (.head i) = some (after (ptrs slots i) (.tail i)) :=
  (h.links.each i hi).next_head

theorem next_node (hi : i < W.n) (hl : slots i = l₁ ++ a :: l₂) :
    nextOf W.heap (.node a) = some (after (l₂.map .node) (.tail i)) := by
  have hlist := h.links.each i hi
  rw [ptrs, hl, List.map_append, List.map_cons] at hlist
  exact hlist.next_eq

theorem prev_node (hi : i < W.n) (hl : slots i = l₁ ++ a :: l₂) :
    prevOf W.heap (.node a) = some (before (.head i) (l₁.map .node)) := by
  have hlist := h.links.each i hi
  rw [ptrs, hl, List.map_append, List.map_cons] at hlist
  exact hlist.prev_eq

theorem insertIdx_lt : W.insertIdx.1 < W.n := by
  have hn := h.cur_lt
  rw [insertIdx]
  split_ifs
  · exact hn
  · exact Nat.mod_lt _ (Nat.zero_lt_of_lt hn)
  · exact Nat.zero_lt_of_lt hn

theorem of_heap {W' : TimeWheel A} (hheap : W'.heap = W.heap) (hn : W'.n = W.n)
    (hcur : W'.cur < W.n) : W'.Holds slots := by
  refine ⟨?_, ?_, ?_, ?_, hn ▸ hcur⟩
  · rw [hheap, hn]
    exact h.links
  · rw [hheap, hn]
    exact h.head
  · rw [hheap, hn]
    exact h.tail
  · rw [hheap]
    exact h.node

theorem advance : W.advance.Holds slots :=
  h.of_heap rfl rfl (Nat.mod_lt _ (Nat.zero_lt_of_lt h.cur_lt))

theorem of_links {heap : WheelPtr A → Option (WheelCell A)} {slots' : ℕ → List A}
    (hlinks : AreBetween {i | i < W.n} (nextOf heap) (prevOf heap) .head .tail (ptrs slots'))
    (hdata : dataOf heap = dataOf W.heap) : { W with heap := heap }.Holds slots' :=
  ⟨hlinks, fun i hi => hdata ▸ h.head i hi, fun i hi => hdata ▸ h.tail i hi,
    fun a => hdata ▸ h.node a, h.cur_lt⟩

variable [DecidableEq A]

theorem insert (hnew : ∀ j < W.n, a ∉ slots j) : ∃ heap,
    W.insert a = some { W.insertIdx.2 with heap := heap } ∧
      { W.insertIdx.2 with heap := heap }.Holds
        (Function.update slots W.insertIdx.1 (a :: slots W.insertIdx.1)) ∧
      nextOf heap (.node a) =
        some (after (ptrs slots W.insertIdx.1) (.tail W.insertIdx.1)) := by
  have hi := h.insertIdx_lt
  obtain ⟨hheap, hn, hcur, -⟩ := insertIdx_snd W
  have h' : W.insertIdx.2.Holds slots := h.of_heap hheap hn (hcur ▸ h.cur_lt)
  rw [← hn] at hi hnew
  set W₂ := W.insertIdx.2
  set i := W.insertIdx.1
  have hnext := h'.next_head hi
  have hafter := h'.exists_cell hi (after_mem (.head i) (.tail i) [] (ptrs slots i))
  have hfresh : ∀ j < W₂.n, WheelPtr.node a ∉ .head j :: ptrs slots j ++ [.tail j] :=
    fun j hj hmem => hnew j hj (node_mem_cells.mp hmem)
  have hne : WheelPtr.node a ≠ after (ptrs slots i) (.tail i) := by
    intro heq
    exact hfresh i hi (heq ▸ after_mem (.head i) (.tail i) [] (ptrs slots i))
  obtain ⟨h₁, hm₁, hn₁, hp₁, hd₁⟩ := modify_setPrev hafter (some (.node a))
  obtain ⟨h₂, hrun, hn₂, hp₂, hd₂⟩ := CellWrite.exists_run h₁
    [.next (.node a) (some (after (ptrs slots i) (.tail i))), .prev (.node a) (some (.head i)),
      .next (.head i) (some (.node a))] (by simp [CellWrite.addr, hd₁, h'.node, h'.head i hi])
  rw [hn₁] at hn₂
  rw [hp₁] at hp₂
  refine ⟨h₂, ?_, h'.of_links ?_ (hd₂.trans hd₁), ?_⟩
  · change (do
      let next ← nextOf W₂.heap (.head i)
      let heap ← OwnedHeap.modify W₂.heap next (·.setPrev (some (.node a)))
      let heap ← OwnedHeap.modify heap (.node a) (·.setNext (nextOf heap (.head i)))
      let heap ← OwnedHeap.modify heap (.node a) (·.setPrev (some (.head i)))
      let heap ← OwnedHeap.modify heap (.head i) (·.setNext (some (.node a)))
      return { W₂ with heap := heap }) = _
    simp only [hnext, hm₁, hn₁, Option.bind_eq_bind, Option.bind_some]
    exact hrun _
  · rw [hn₂, hp₂.trans (update_comm hne.symm ..), ptrs_update]
    exact h'.links.insert hi (List.nil_append (ptrs slots i)).symm hfresh
  · rw [hn₂]
    simp [CellWrite.onNext]

theorem remove (hi : i < W.n) (hl : slots i = l₁ ++ a :: l₂) : ∃ heap,
    W.remove a = some { W with heap := heap } ∧
      { W with heap := heap }.Holds (Function.update slots i (l₁ ++ l₂)) ∧
      nextOf heap (.node a) = some (after (l₂.map .node) (.tail i)) := by
  have hnext := h.next_node hi hl
  have hprev := h.prev_node hi hl
  have hptrs : ptrs slots i = l₁.map .node ++ .node a :: l₂.map .node := by
    rw [ptrs, hl, List.map_append, List.map_cons]
  have hlist := h.links.each i hi
  rw [hptrs] at hlist
  have hmem : ∀ p ∈ WheelPtr.head i :: (l₁.map .node ++ l₂.map .node) ++ [.tail i],
      dataOf W.heap p = some () ∧ p ≠ .node a := by
    intro p hp
    refine ⟨h.exists_cell hi ?_, ?_⟩
    · rw [hptrs]
      simp only [List.cons_append, List.append_assoc, List.mem_cons, List.mem_append] at hp ⊢
      tauto
    · rintro rfl
      exact hlist.notMem hp
  obtain ⟨hbefore, hbne⟩ := hmem _ (before_mem ..)
  obtain ⟨hafter, hane⟩ := hmem _ (after_mem ..)
  obtain ⟨h₁, hm₁, hn₁, hp₁, hd₁⟩ := modify_setPrev hafter (some (before (.head i) (l₁.map .node)))
  obtain ⟨h₂, hm₂, hn₂, hp₂, hd₂⟩ := modify_setNext (hd₁ ▸ hbefore)
    (some (after (l₂.map .node) (.tail i)))
  have hprev₁ : prevOf h₁ (.node a) = some (before (.head i) (l₁.map .node)) := by
    rw [hp₁, update_of_ne hane.symm, hprev]
  rw [hn₁] at hn₂
  refine ⟨h₂, ?_, h.of_links ?_ (hd₂.trans hd₁), ?_⟩
  · simp [TimeWheel.remove, hnext, hprev, hm₁, hprev₁, hn₁, hm₂]
  · rw [hn₂, hp₂, hp₁, ptrs_update, List.map_append]
    exact h.links.unlink hi hptrs
  · rw [hn₂, update_of_ne hbne.symm, hnext]

end Holds

def advanceBy (W : TimeWheel A) (k : ℕ) : TimeWheel A := { W with cur := (W.cur + k) % W.n }

theorem Holds.advanceBy (h : W.Holds slots) (k : ℕ) : (W.advanceBy k).Holds slots :=
  h.of_heap rfl rfl (Nat.mod_lt _ (Nat.zero_lt_of_lt h.cur_lt))

theorem advance_advanceBy (W : TimeWheel A) (k : ℕ) :
    W.advance.advanceBy k = W.advanceBy (k + 1) := by
  simp [TimeWheel.advance, TimeWheel.advanceBy, Nat.add_assoc, Nat.add_comm 1 k]

def ticksFrom (W : TimeWheel A) (slots : ℕ → List A) (k : ℕ) : List (List A) :=
  (List.range k).map fun t => slots ((W.cur + t) % W.n)

theorem Holds.ticksFrom_succ (h : W.Holds slots) (k : ℕ) :
    W.ticksFrom slots (k + 1) = slots W.cur :: W.advance.ticksFrom slots k := by
  rw [ticksFrom, List.range_succ_eq_map, List.map_cons, List.map_map, Nat.add_zero,
    Nat.mod_eq_of_lt h.cur_lt]
  refine congrArg _ (List.map_congr_left fun t _ => ?_)
  simp [TimeWheel.advance, Nat.add_assoc, Nat.add_comm 1 t]

variable [DecidableEq A]

def leave : Callback A := fun _ _ W => some W

theorem Holds.walk_leave (h : W.Holds slots) (hi : i < W.n) (hl : slots i = l₁ ++ l₂)
    (rounds : ℕ) (calls : List A) :
    walk leave i rounds (some (after (l₂.map .node) (.tail i))) W calls =
      if l₂.length < rounds then .ok (W, calls ++ l₂) else .error .rounds := by
  induction l₂ generalizing l₁ rounds calls with
  | nil =>
    cases rounds with
    | zero => rfl
    | succ rounds => simp [walk]
  | cons a l₂ ih =>
    cases rounds with
    | zero => rfl
    | succ rounds =>
      have hnext := h.next_node hi hl
      have hrest := ih (hl.trans (List.append_cons l₁ a l₂)) rounds (calls ++ [a])
      rw [List.append_assoc, List.singleton_append] at hrest
      rw [List.map_cons, after_cons, walk, if_neg (by simp)]
      simp only [leave, hnext, List.length_cons, Nat.succ_lt_succ_iff]
      exact hrest

theorem Holds.tick_leave (h : W.Holds slots) (rounds : ℕ) : W.tick leave rounds =
    if (slots W.cur).length < rounds then .ok (W.advance, slots W.cur) else .error .rounds := by
  rw [tick, h.next_head h.cur_lt]
  exact h.advance.walk_leave h.cur_lt (List.nil_append _).symm rounds []

theorem Holds.updateN_leave (h : W.Holds slots) (rounds k : ℕ) : W.updateN leave rounds k =
    if ∀ l ∈ W.ticksFrom slots k, l.length < rounds then
      .ok (W.advanceBy k, W.ticksFrom slots k) else .error .rounds := by
  induction k generalizing W with
  | zero =>
    have hcur : W.advanceBy 0 = W := by
      simp [TimeWheel.advanceBy, Nat.mod_eq_of_lt h.cur_lt]
    rw [hcur, if_pos (by simp [ticksFrom])]
    rfl
  | succ k ih =>
    rw [updateN, h.tick_leave, h.ticksFrom_succ, ← advance_advanceBy]
    by_cases hlen : (slots W.cur).length < rounds
    · rw [if_pos hlen]
      change (updateN leave rounds k W.advance).bind
        (fun q => .ok (q.1, slots W.cur :: q.2)) = _
      simp only [ih h.advance, List.forall_mem_cons, hlen, true_and]
      split_ifs <;> rfl
    · rw [if_neg hlen, if_neg (fun hall => hlen (hall _ List.mem_cons_self))]
      rfl

end TimeWheel

end Mugglec
