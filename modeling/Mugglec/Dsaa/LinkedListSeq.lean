import Mugglec.Machinery.Steps
import Mugglec.Dsaa.LinkedList

/-!
# Dsaa/LinkedListSeq — the linked list is a sequence

The nodes between the sentinels, with their data, are a **sequence** (`Holds`), and each call edits
it at one place, a split `l₁ ++ l₂`.
-/

namespace Mugglec

open Function LinkedList OwnedHeap

variable {A V : Type}

abbrev ListEntry (A V : Type) := A × Option V

namespace LinkedListT

def ptrs (l : List (ListEntry A V)) : List (ListPtr A) := l.map fun e => .node e.1

structure Holds (L : LinkedListT A V) (l : List (ListEntry A V)) : Prop where
  links : IsBetween (nextOf L.heap) (prevOf L.heap) .head .tail (ptrs l)
  data : ∀ a q, dataOf L.heap (.node a) = some q ↔ (a, q) ∈ l
  head : ∃ d, dataOf L.heap .head = some d
  tail : ∃ d, dataOf L.heap .tail = some d
  size : L.size = l.length

variable {L : LinkedListT A V} {l l₁ l₂ : List (ListEntry A V)} {e : ListEntry A V} {a : A}

theorem ptrs_append (l₁ l₂ : List (ListEntry A V)) : ptrs (l₁ ++ l₂) = ptrs l₁ ++ ptrs l₂ :=
  List.map_append

theorem ptrs_cons (e : ListEntry A V) (l : List (ListEntry A V)) :
    ptrs (e :: l) = .node e.1 :: ptrs l := rfl

theorem ptrs_concat (l : List (ListEntry A V)) (e : ListEntry A V) :
    ptrs (l ++ [e]) = ptrs l ++ [.node e.1] := ptrs_append l [e]

theorem ptrs_reverse (l : List (ListEntry A V)) : ptrs l.reverse = (ptrs l).reverse :=
  List.map_reverse

theorem mem_ptrs : .node a ∈ ptrs l ↔ ∃ q, (a, q) ∈ l := by
  simp [ptrs]

theorem holds_init {capacity : ℕ} {pool poolInit : Bool}
    (h : init capacity pool poolInit = some L) : L.Holds [] := by
  have hL : (⟨initHeap, 0, []⟩ : LinkedListT A V) = L := by
    rw [init] at h
    split_ifs at h
    · obtain ⟨_, -, h⟩ := Option.bind_eq_some_iff.mp h
      obtain ⟨_, -, h⟩ := Option.bind_eq_some_iff.mp h
      exact Option.some.inj h
    · exact Option.some.inj h
  subst hL
  refine ⟨⟨?_, by simp [ptrs]⟩, fun a q => ?_, ⟨none, rfl⟩, ⟨none, rfl⟩, rfl⟩
  · exact List.isChain_cons_cons.mpr ⟨⟨rfl, rfl⟩, List.isChain_singleton _⟩
  · simp [dataOf, initHeap]

namespace Holds

variable (h : L.Holds l)
include h

theorem exists_data {p : ListPtr A} (hp : p ∈ .head :: ptrs l ++ [.tail]) :
    ∃ d, dataOf L.heap p = some d := by
  cases p with
  | head => exact h.head
  | tail => exact h.tail
  | node a =>
    obtain ⟨q, hq⟩ := mem_ptrs.mp (by simpa using hp)
    exact ⟨q, (h.data a q).mpr hq⟩

theorem nodup : (l.map Prod.fst).Nodup := by
  have hnodup := h.links.nodup.of_cons.of_append_left
  rw [ptrs, show (fun e : ListEntry A V => ListPtr.node e.1) = .node ∘ Prod.fst from rfl,
    ← List.map_map] at hnodup
  exact hnodup.of_map _

theorem fresh (hfree : L.heap (.node a) = none) : .node a ∉ .head :: ptrs l ++ [.tail] := by
  intro hmem
  obtain ⟨d, hd⟩ := h.exists_data hmem
  rw [dataOf, hfree] at hd
  cases hd

end Holds

theorem Holds.heap_node (h : L.Holds (l₁ ++ e :: l₂)) : L.heap (.node e.1) =
    some ⟨some (before .head (ptrs l₁)), some (after (ptrs l₂) .tail), e.2⟩ := by
  have hlinks := h.links
  rw [ptrs_append, ptrs_cons] at hlinks
  rw [eq_some_of_dataOf ((h.data e.1 e.2).mpr (by simp)), hlinks.prev_eq, hlinks.next_eq]

theorem walkFrom_eq {step : ListPtr A → Option (Option (ListPtr A))}
    (hstep : ∀ l₁ e l₂, l = l₁ ++ e :: l₂ → step (.node e.1) = some (ptrs l₂).head?)
    (hl : l = l₁ ++ l₂) {n : ℕ} (hn : l₂.length < n) :
    walkFrom step n (ptrs l₂).head? = some (ptrs l₂) := by
  induction l₂ generalizing l₁ n with
  | nil =>
    obtain ⟨n, rfl⟩ := Nat.exists_eq_add_of_lt hn
    rfl
  | cons e l₂ ih =>
    obtain ⟨n, rfl⟩ := Nat.exists_eq_add_of_lt hn
    have hrest := ih (hl.trans (List.append_cons l₁ e l₂)) (Nat.lt_of_succ_lt_succ hn)
    simp only [ptrs_cons, List.head?_cons, walkFrom, hstep l₁ e l₂ hl, Option.bind_eq_bind,
      Option.bind_some, hrest]
    rfl

theorem Holds.own (h : L.Holds l) : Own (dataOf L.heap ∘ .node) (l : Multiset (ListEntry A V)) :=
  ⟨h.nodup, h.data⟩

variable [DecidableEq A]

theorem Holds.next_head (h : L.Holds l) : L.next .head = some (ptrs l).head? := by
  obtain ⟨d, hd⟩ := h.head
  rw [LinkedListT.next, eq_some_of_dataOf hd, h.links.next_head]
  cases l <;> simp [ptrs]

theorem Holds.next_node (h : L.Holds (l₁ ++ e :: l₂)) :
    L.next (.node e.1) = some (ptrs l₂).head? := by
  rw [LinkedListT.next, h.heap_node]
  cases l₂ <;> simp [ptrs]

theorem Holds.prev_tail (h : L.Holds l) : L.prev .tail = some (ptrs l).getLast? := by
  obtain ⟨d, hd⟩ := h.tail
  rw [LinkedListT.prev, eq_some_of_dataOf hd, h.links.prev_tail]
  rcases l.eq_nil_or_concat' with rfl | ⟨l, e, rfl⟩ <;> simp [ptrs]

theorem Holds.prev_node (h : L.Holds (l₁ ++ e :: l₂)) :
    L.prev (.node e.1) = some (ptrs l₁).getLast? := by
  rw [LinkedListT.prev, h.heap_node]
  rcases l₁.eq_nil_or_concat' with rfl | ⟨l₁, e, rfl⟩ <;> simp [ptrs]

theorem Holds.forward (h : L.Holds l) : L.forward = some (ptrs l) := by
  rw [LinkedListT.forward, first, h.next_head]
  exact walkFrom_eq (fun l₁ e l₂ hl => (hl ▸ h).next_node) (List.nil_append l).symm
    (by rw [h.size]; exact Nat.lt_succ_self _)

theorem Holds.backward (h : L.Holds l) : L.backward = some (ptrs l).reverse := by
  rw [LinkedListT.backward, last, h.prev_tail, ← List.head?_reverse, ← ptrs_reverse]
  refine walkFrom_eq (fun l₁ e l₂ hl => ?_) (List.nil_append _).symm
    (by rw [h.size, List.length_reverse]; exact Nat.lt_succ_self _)
  have hl' : l = l₂.reverse ++ e :: l₁.reverse := by
    rw [← List.reverse_reverse l, hl]
    simp
  rw [hl'] at h
  rw [h.prev_node, ptrs_reverse, List.getLast?_reverse]

theorem Holds.findLoop (h : L.Holds (l₁ ++ l₂)) (cmp : Option V → Option V → ℤ) (data : Option V)
    {n : ℕ} (hn : l₂.length < n) :
    LinkedListT.findLoop cmp L.heap data n (after (ptrs l₂) .tail) =
      some ((l₂.find? fun e => cmp e.2 data = 0).map fun e => .node e.1) := by
  induction l₂ generalizing l₁ n with
  | nil =>
    obtain ⟨n, rfl⟩ := Nat.exists_eq_add_of_lt hn
    rfl
  | cons e l₂ ih =>
    obtain ⟨n, rfl⟩ := Nat.exists_eq_add_of_lt hn
    simp only [ptrs_cons, after_cons, LinkedListT.findLoop, reduceCtorEq, if_false, h.heap_node,
      Option.bind_eq_bind, Option.bind_some]
    by_cases heq : cmp e.2 data = 0
    · simp [heq]
    · have h' : L.Holds ((l₁ ++ [e]) ++ l₂) := by simpa using h
      rw [if_neg heq, ih h' (Nat.lt_of_succ_lt_succ hn),
        List.find?_cons_of_neg (by simpa using heq)]

theorem Holds.edit (h : L.Holds l₁) {L' : LinkedListT A V} {v : Option (Option V)}
    (hdata : dataOf L'.heap = update (dataOf L.heap) (.node a) v)
    (hown : Own (update (dataOf L.heap ∘ .node) a v) (l : Multiset (ListEntry A V)))
    (hlinks : IsBetween (nextOf L'.heap) (prevOf L'.heap) .head .tail (ptrs l))
    (hsize : L'.size = l.length) : L'.Holds l := by
  rw [← update_comp_eq_of_injective _ (fun _ _ => ListPtr.node.inj), ← hdata] at hown
  refine ⟨hlinks, hown.mem, ?_, ?_, hsize⟩
  · rw [hdata, update_of_ne (by simp)]
    exact h.head
  · rw [hdata, update_of_ne (by simp)]
    exact h.tail

def alloc (L : LinkedListT A V) (a : A) (q : Option V) : ListPtr A → Option (ListCell A V) :=
  update L.heap (.node a) (some ⟨none, none, q⟩)

theorem Holds.alloc (h : L.Holds (l₁ ++ l₂)) (hfree : L.heap (.node a) = none) (q : Option V) :
    (∃ d, dataOf (L.alloc a q) (before .head (ptrs l₁)) = some d) ∧
      (∃ d, dataOf (L.alloc a q) (after (ptrs l₂) .tail) = some d) ∧
      dataOf (L.alloc a q) (.node a) = some q ∧
      ListPtr.node a ≠ before .head (ptrs l₁) ∧ ListPtr.node a ≠ after (ptrs l₂) .tail ∧
      nextOf (L.alloc a q) (before .head (ptrs l₁)) = some (after (ptrs l₂) .tail) ∧
      prevOf (L.alloc a q) (after (ptrs l₂) .tail) = some (before .head (ptrs l₁)) := by
  have hnew := h.fresh hfree
  have hdata := fun p => h.exists_data (p := p)
  have hlinks := h.links
  rw [ptrs_append] at hnew hdata hlinks
  have hbefore := before_mem ListPtr.head .tail (ptrs l₁) (ptrs l₂)
  have hafter := after_mem ListPtr.head .tail (ptrs l₁) (ptrs l₂)
  have hne : ListPtr.node a ≠ before .head (ptrs l₁) := fun heq => hnew (heq ▸ hbefore)
  have hne' : ListPtr.node a ≠ after (ptrs l₂) .tail := fun heq => hnew (heq ▸ hafter)
  rw [LinkedListT.alloc, dataOf_update, nextOf_update, prevOf_update, update_of_ne hne.symm,
    update_of_ne hne'.symm, update_of_ne hne.symm, update_of_ne hne'.symm, update_self]
  exact ⟨hdata _ hbefore, hdata _ hafter, rfl, hne, hne', hlinks.joined⟩

theorem Holds.link (h : L.Holds (l₁ ++ l₂)) (hfree : L.heap (.node a) = none) {q : Option V}
    {heap : ListPtr A → Option (ListCell A V)}
    (hnext : nextOf heap = update
      (update (nextOf (L.alloc a q)) (.node a) (some (after (ptrs l₂) .tail)))
      (before .head (ptrs l₁)) (some (.node a)))
    (hprev : prevOf heap = update
      (update (prevOf (L.alloc a q)) (.node a) (some (before .head (ptrs l₁))))
      (after (ptrs l₂) .tail) (some (.node a)))
    (hdata : dataOf heap = dataOf (L.alloc a q)) :
    Holds { L with heap := heap, size := L.size + 1 } (l₁ ++ (a, q) :: l₂) := by
  have hnew := h.fresh hfree
  have hlinks := h.links
  rw [ptrs_append] at hlinks hnew
  rw [LinkedListT.alloc, nextOf_update, update_idem] at hnext
  rw [LinkedListT.alloc, prevOf_update, update_idem] at hprev
  rw [LinkedListT.alloc, dataOf_update, Option.map_some] at hdata
  have hown := h.own.alloc (a := a) (by rw [comp_apply, dataOf, hfree, Option.map_none]) q
  refine h.edit hdata (hown.congr ?_) ?_ ?_
  · exact Multiset.coe_eq_coe.mpr (show ((a, q) :: (l₁ ++ l₂)).Perm _ from List.perm_middle.symm)
  · rw [ptrs_append, ptrs_cons, hnext, hprev]
    exact hlinks.insert hnew
  · simp only [h.size, List.length_append, List.length_cons]
    omega

theorem Holds.insert (h : L.Holds (l₁ ++ l₂)) (hfree : L.heap (.node a) = none)
    {node : Option (ListPtr A)}
    (hnode : node.or (nextOf L.heap .head) = some (after (ptrs l₂) .tail)) (q : Option V) :
    ∃ L', L.insert node q (some a) = some (some (.node a), L') ∧ L'.Holds (l₁ ++ (a, q) :: l₂) ∧
      L'.freed = L.freed := by
  obtain ⟨⟨da, hda⟩, ⟨db, hdb⟩, hdn, hne, -, -, hprev⟩ := h.alloc hfree q
  set p := before .head (ptrs l₁)
  set n := after (ptrs l₂) .tail
  obtain ⟨heap, hrun, hn, hp, hd⟩ := CellWrite.exists_run (L.alloc a q)
    [.next p (some (.node a)), .prev (.node a) (some p), .next (.node a) (some n),
      .prev n (some (.node a))] (by simp [CellWrite.addr, hda, hdb, hdn])
  have hnode' : node.or (nextOf (L.alloc a q) .head) = some n := by
    rw [LinkedListT.alloc, nextOf_update, update_of_ne (by simp), hnode]
  refine ⟨{ L with heap := heap, size := L.size + 1 }, ?_,
    h.link hfree (hn.trans (update_comm hne.symm ..)) hp hd, rfl⟩
  simp only [LinkedListT.insert, Option.bind_eq_bind]
  rw [← LinkedListT.alloc, hnode', Option.bind_some, hprev, Option.bind_some]
  exact hrun _

theorem Holds.append (h : L.Holds (l₁ ++ l₂)) (hfree : L.heap (.node a) = none)
    {node : Option (ListPtr A)}
    (hnode : node.or (prevOf L.heap .tail) = some (before .head (ptrs l₁))) (q : Option V) :
    ∃ L', L.append node q (some a) = some (some (.node a), L') ∧ L'.Holds (l₁ ++ (a, q) :: l₂) ∧
      L'.freed = L.freed := by
  obtain ⟨⟨da, hda⟩, ⟨db, hdb⟩, hdn, -, hne, hnext, -⟩ := h.alloc hfree q
  set p := before .head (ptrs l₁)
  set n := after (ptrs l₂) .tail
  obtain ⟨heap, hrun, hn, hp, hd⟩ := CellWrite.exists_run (L.alloc a q)
    [.prev n (some (.node a)), .next (.node a) (some n), .prev (.node a) (some p),
      .next p (some (.node a))] (by simp [CellWrite.addr, hda, hdb, hdn])
  have hnode' : node.or (prevOf (L.alloc a q) .tail) = some p := by
    rw [LinkedListT.alloc, prevOf_update, update_of_ne (by simp), hnode]
  refine ⟨{ L with heap := heap, size := L.size + 1 }, ?_,
    h.link hfree hn (hp.trans (update_comm hne.symm ..)) hd, rfl⟩
  simp only [LinkedListT.append, Option.bind_eq_bind]
  rw [← LinkedListT.alloc, hnode', Option.bind_some, hnext, Option.bind_some]
  exact hrun _

theorem Holds.drop (h : L.Holds (l₁ ++ e :: l₂)) (freeGiven : Bool) :
    ∃ L' L'', L.freeData (.node e.1) freeGiven = some L' ∧ L'.freeNode (.node e.1) = some L'' ∧
      L''.Holds (l₁ ++ l₂) ∧ L''.freed = L.freed ++ Mugglec.freed freeGiven e.2 := by
  obtain ⟨a, q⟩ := e
  have hd := (h.data a q).mpr (by simp)
  have hlinks := h.links
  rw [ptrs_append, ptrs_cons] at hlinks
  have hne : ∀ x ∈ .head :: (ptrs l₁ ++ ptrs l₂) ++ [.tail], x ≠ ListPtr.node a := by
    rintro x hx rfl
    exact hlinks.notMem hx
  obtain ⟨h₁, hm₁, hn₁, hp₁, hd₁⟩ := modify_mapData hd fun _ => none
  have hexists : ∀ x ∈ .head :: (ptrs l₁ ++ ptrs l₂) ++ [.tail], ∃ d, dataOf h₁ x = some d := by
    intro x hx
    rw [hd₁, update_of_ne (hne x hx)]
    refine h.exists_data ?_
    rw [ptrs_append, ptrs_cons]
    simp only [List.cons_append, List.append_assoc, List.mem_cons, List.mem_append] at hx ⊢
    tauto
  have hbefore := hexists _ (before_mem ..)
  have hafter := hexists _ (after_mem ..)
  have hcell : h₁ (.node a) =
      some ⟨some (before .head (ptrs l₁)), some (after (ptrs l₂) .tail), none⟩ := by
    have hd₁' : dataOf h₁ (.node a) = some none := by rw [hd₁, update_self]
    rw [eq_some_of_dataOf hd₁', hp₁, hn₁, hlinks.prev_eq, hlinks.next_eq]
  set p := before .head (ptrs l₁)
  set n := after (ptrs l₂) .tail
  obtain ⟨h₂, hrun, hn₂, hp₂, hd₂⟩ := CellWrite.exists_run h₁ [.next p (some n), .prev n (some p)]
    (by simp [CellWrite.addr, hbefore, hafter])
  set freed := L.freed ++ Mugglec.freed freeGiven q
  refine ⟨{ L with heap := h₁, freed := freed },
    ⟨update h₂ (.node a) none, L.size - 1, freed⟩, ?_, ?_, ?_, rfl⟩
  · rw [freeData, eq_some_of_dataOf hd, hm₁]
    rfl
  · simp only [freeNode, hcell, Option.bind_eq_bind, Option.bind_some]
    exact hrun _
  · have hown := h.own.congr (Multiset.coe_eq_coe.mpr List.perm_middle)
    refine h.edit (a := a) (v := none) ?_ hown.free ?_ ?_
    · rw [dataOf_update, show dataOf h₂ = _ from hd₂.trans hd₁, update_idem]
      rfl
    · rw [ptrs_append]
      refine hlinks.unlink.congr (fun x hx => ?_) fun x hx => ?_
      · rw [nextOf_update, update_of_ne (hne x hx), hn₂, hn₁]
        rfl
      · rw [prevOf_update, update_of_ne (hne x hx), hp₂, hp₁]
        rfl
    · simp only [h.size, List.length_append, List.length_cons]
      omega

theorem Holds.remove (h : L.Holds (l₁ ++ e :: l₂)) (freeGiven : Bool) : ∃ L',
    L.remove (.node e.1) freeGiven = some ((ptrs l₂).head?, L') ∧ L'.Holds (l₁ ++ l₂) ∧
      L'.freed = L.freed ++ Mugglec.freed freeGiven e.2 := by
  obtain ⟨L', L'', hdata, hnode, h', hfreed⟩ := h.drop freeGiven
  refine ⟨L'', ?_, h', hfreed⟩
  rw [LinkedListT.remove, h.next_node]
  simp only [Option.bind_eq_bind, Option.bind_some, hdata, hnode]
  rfl

theorem Holds.clearLoop (h : L.Holds l) (freeGiven : Bool) {n : ℕ} (hn : l.length < n) : ∃ L',
    LinkedListT.clearLoop freeGiven n L (after (ptrs l) .tail) = some L' ∧ L'.Holds [] ∧
      L'.freed = L.freed ++ l.flatMap fun e => Mugglec.freed freeGiven e.2 := by
  induction l generalizing L n with
  | nil =>
    obtain ⟨n, rfl⟩ := Nat.exists_eq_add_of_lt hn
    exact ⟨L, rfl, h, by simp⟩
  | cons e l ih =>
    obtain ⟨n, rfl⟩ := Nat.exists_eq_add_of_lt hn
    have hfront : L.Holds ([] ++ e :: l) := h
    obtain ⟨L₁, L₂, hdata, hnode, h₂, hfreed⟩ := hfront.drop freeGiven
    obtain ⟨L', hloop, h', hfreed'⟩ := ih h₂ (Nat.lt_of_succ_lt_succ hn)
    refine ⟨L', ?_, h', ?_⟩
    · simp only [ptrs_cons, after_cons, LinkedListT.clearLoop, reduceCtorEq, if_false, nextOf,
        hfront.heap_node, Option.bind_eq_bind, Option.bind_some, hdata, hnode]
      exact hloop
    · rw [hfreed', hfreed, List.flatMap_cons, List.append_assoc]

theorem Holds.clear (h : L.Holds l) (freeGiven : Bool) : ∃ L',
    L.clear freeGiven = some L' ∧ L'.Holds [] ∧
      L'.freed = L.freed ++ l.flatMap fun e => Mugglec.freed freeGiven e.2 := by
  obtain ⟨L', hloop, h', hfreed⟩ := h.clearLoop freeGiven (Nat.lt_succ_self _)
  refine ⟨{ L' with size := 0 }, ?_, ⟨h'.links, h'.data, h'.head, h'.tail, rfl⟩, hfreed⟩
  rw [LinkedListT.clear, h.links.next_head, h.size]
  simp only [Option.bind_eq_bind, Option.bind_some, hloop]
  rfl

end LinkedListT

inductive ListCall (A V : Type)
  | insert (node : Option A) (data : Option V) (mem : Option A)
  | append (node : Option A) (data : Option V) (mem : Option A)
  | remove (node : A) (freeGiven : Bool)
  | clear (freeGiven : Bool)

structure ListRun (A V : Type) where
  list : LinkedListT A V
  seq : List (ListEntry A V)

variable [DecidableEq A]

def LinkedListT.call (L : LinkedListT A V) :
    ListCall A V → Option (Option (ListPtr A) × LinkedListT A V)
  | .insert node data mem => L.insert (node.map .node) data mem
  | .append node data mem => L.append (node.map .node) data mem
  | .remove node freeGiven => L.remove (.node node) freeGiven
  | .clear freeGiven => (L.clear freeGiven).map fun L' => (none, L')

def posOf (seq : List (ListEntry A V)) (node : A) : ℕ := seq.findIdx fun e => e.1 = node

namespace ListCall

def edit (seq : List (ListEntry A V)) : ListCall A V → List (ListEntry A V)
  | .insert node data (some a) => seq.insertIdx (node.elim 0 (posOf seq)) (a, data)
  | .append node data (some a) =>
    seq.insertIdx (node.elim seq.length fun b => posOf seq b + 1) (a, data)
  | .insert _ _ none | .append _ _ none => seq
  | .remove node _ => seq.eraseIdx (posOf seq node)
  | .clear _ => []

def answer (seq : List (ListEntry A V)) : ListCall A V → Option (ListPtr A)
  | .insert _ _ mem | .append _ _ mem => mem.map .node
  | .remove node _ => seq[posOf seq node + 1]?.map fun e => .node e.1
  | .clear _ => none

def frees (seq : List (ListEntry A V)) : ListCall A V → List V
  | .remove node freeGiven => freed freeGiven (seq[posOf seq node]?.bind Prod.snd)
  | .clear freeGiven => seq.flatMap fun e => freed freeGiven e.2
  | _ => []

def Refused : ListCall A V → Prop
  | .insert _ _ none | .append _ _ none => True
  | _ => False

end ListCall

namespace ListRun

def Legal (s : ListRun A V) : ListCall A V → Prop
  | .insert node _ mem | .append node _ mem =>
    (∀ b ∈ node, b ∈ s.seq.map Prod.fst) ∧ ∀ a ∈ mem, (s.list.heap (.node a)).isNone
  | .remove node _ => node ∈ s.seq.map Prod.fst
  | .clear _ => True

instance (s : ListRun A V) (c : ListCall A V) : Decidable (s.Legal c) :=
  match c with
  | .insert _ _ _ | .append _ _ _ => inferInstanceAs (Decidable (_ ∧ _))
  | .remove _ _ => inferInstanceAs (Decidable (_ ∈ _))
  | .clear _ => .isTrue trivial

def next (s : ListRun A V) (c : ListCall A V) : Option (ListRun A V) :=
  (s.list.call c).map fun res => ⟨res.2, c.edit s.seq⟩

structure Represents (s : ListRun A V) : Prop where
  forward : s.list.forward = some (LinkedListT.ptrs s.seq)
  backward : s.list.backward = some (LinkedListT.ptrs s.seq).reverse
  data : ∀ e ∈ s.seq, dataOf s.list.heap (.node e.1) = some e.2
  size : s.list.size = s.seq.length
  isEmpty : s.list.isEmpty = some s.seq.isEmpty
  find (cmp : Option V → Option V → ℤ) (node : Option A) (data : Option V)
    (hnode : ∀ b ∈ node, b ∈ s.seq.map Prod.fst) :
    s.list.find cmp (node.map .node) data =
      some (((s.seq.drop (node.elim 0 (posOf s.seq))).find? fun e => cmp e.2 data = 0).map
        fun e => .node e.1)
  calls (c : ListCall A V) (hc : s.Legal c) : ∃ L',
    s.list.call c = some (c.answer s.seq, L') ∧ L'.freed = s.list.freed ++ c.frees s.seq ∧
      (c.Refused → L' = s.list)

variable {L : LinkedListT A V} {l l₁ l₂ : List (ListEntry A V)} {a : A}

theorem exists_posOf (hnodup : (l.map Prod.fst).Nodup) (ha : a ∈ l.map Prod.fst) :
    ∃ l₁ q l₂, l = l₁ ++ (a, q) :: l₂ ∧ posOf l a = l₁.length := by
  obtain ⟨⟨b, q⟩, hmem, rfl⟩ := List.mem_map.mp ha
  obtain ⟨l₁, l₂, rfl⟩ := List.append_of_mem hmem
  rw [List.map_append, List.map_cons, List.nodup_middle, List.nodup_cons] at hnodup
  refine ⟨l₁, q, l₂, rfl, ?_⟩
  have hfirst : ∀ e ∈ l₁, decide (e.1 = b) = false := by
    rintro e he
    refine decide_eq_false ?_
    rintro rfl
    exact hnodup.1 (List.mem_append_left _ (List.mem_map.mpr ⟨e, he, rfl⟩))
  rw [posOf, List.findIdx_append, List.findIdx_eq_length_of_false hfirst]
  simp [List.findIdx_cons]

omit [DecidableEq A] in
theorem insertIdx_length (l₁ l₂ : List (ListEntry A V)) (e : ListEntry A V) :
    (l₁ ++ l₂).insertIdx l₁.length e = l₁ ++ e :: l₂ := by
  induction l₁ with
  | nil => rfl
  | cons x l₁ ih => rw [List.cons_append, List.length_cons, List.insertIdx_succ_cons, ih]; rfl

variable {s : ListRun A V}

theorem exists_before (h : L.Holds l) {node : Option A} (hnode : ∀ b ∈ node, b ∈ l.map Prod.fst) :
    ∃ l₁ l₂, l = l₁ ++ l₂ ∧ node.elim 0 (posOf l) = l₁.length ∧
      (node.map .node).or (nextOf L.heap .head) = some (after (LinkedListT.ptrs l₂) .tail) := by
  cases node with
  | none => exact ⟨[], l, rfl, rfl, h.links.next_head⟩
  | some b =>
    obtain ⟨l₁, q, l₂, hl, hpos⟩ := exists_posOf h.nodup (hnode b rfl)
    exact ⟨l₁, (b, q) :: l₂, hl, hpos, rfl⟩

theorem exists_after (h : L.Holds l) {node : Option A} (hnode : ∀ b ∈ node, b ∈ l.map Prod.fst) :
    ∃ l₁ l₂, l = l₁ ++ l₂ ∧ (node.elim l.length fun b => posOf l b + 1) = l₁.length ∧
      (node.map .node).or (prevOf L.heap .tail) = some (before .head (LinkedListT.ptrs l₁)) := by
  cases node with
  | none => exact ⟨l, [], (List.append_nil l).symm, rfl, h.links.prev_tail⟩
  | some b =>
    obtain ⟨l₁, q, l₂, hl, hpos⟩ := exists_posOf h.nodup (hnode b rfl)
    refine ⟨l₁ ++ [(b, q)], l₂, hl.trans (List.append_cons ..), ?_, ?_⟩
    · simp [hpos]
    · rw [LinkedListT.ptrs_concat, before_concat]
      rfl

theorem holds_edit (h : s.list.Holds s.seq) (c : ListCall A V) (hc : s.Legal c) : ∃ L',
    s.list.call c = some (c.answer s.seq, L') ∧ L'.Holds (c.edit s.seq) ∧
      L'.freed = s.list.freed ++ c.frees s.seq ∧ (c.Refused → L' = s.list) := by
  obtain ⟨L, l⟩ := s
  change L.Holds l at h
  have hnone : L.Holds l ∧ L.freed = L.freed ++ [] := ⟨h, (List.append_nil _).symm⟩
  cases c with
  | insert node data mem =>
    cases mem with
    | none => exact ⟨L, rfl, hnone.1, hnone.2, fun _ => rfl⟩
    | some a =>
      obtain ⟨l₁, l₂, rfl, hpos, hnode⟩ := exists_before h hc.1
      obtain ⟨L', hcall, h', hfreed⟩ :=
        h.insert (Option.isNone_iff_eq_none.mp (hc.2 a rfl)) hnode data
      refine ⟨L', hcall, ?_, hfreed.trans hnone.2, False.elim⟩
      rwa [ListCall.edit, hpos, insertIdx_length]
  | append node data mem =>
    cases mem with
    | none => exact ⟨L, rfl, hnone.1, hnone.2, fun _ => rfl⟩
    | some a =>
      obtain ⟨l₁, l₂, rfl, hpos, hnode⟩ := exists_after h hc.1
      obtain ⟨L', hcall, h', hfreed⟩ :=
        h.append (Option.isNone_iff_eq_none.mp (hc.2 a rfl)) hnode data
      refine ⟨L', hcall, ?_, hfreed.trans hnone.2, False.elim⟩
      rwa [ListCall.edit, hpos, insertIdx_length]
  | remove b freeGiven =>
    obtain ⟨l₁, q, l₂, rfl, hpos⟩ := exists_posOf h.nodup hc
    obtain ⟨L', hcall, h', hfreed⟩ := h.remove freeGiven
    refine ⟨L', ?_, ?_, ?_, False.elim⟩
    · rw [ListCall.answer, hpos, List.getElem?_append_right (by omega)]
      simpa [LinkedListT.call, LinkedListT.ptrs, List.head?_eq_getElem?] using hcall
    · rw [ListCall.edit, hpos, List.eraseIdx_append_of_length_le le_rfl]
      simpa using h'
    · rw [ListCall.frees, hpos, List.getElem?_append_right le_rfl]
      simpa using hfreed
  | clear freeGiven =>
    obtain ⟨L', hcall, h', hfreed⟩ := h.clear freeGiven
    exact ⟨L', by rw [LinkedListT.call, hcall]; rfl, h', hfreed, False.elim⟩

theorem represents_of_holds (h : s.list.Holds s.seq) : s.Represents where
  forward := h.forward
  backward := h.backward
  data e he := (h.data e.1 e.2).mpr he
  size := h.size
  isEmpty := by
    obtain ⟨d, hd⟩ := h.head
    rw [LinkedListT.isEmpty, eq_some_of_dataOf hd, h.links.next_head]
    cases s.seq <;> simp [LinkedListT.ptrs]
  find cmp node data hnode := by
    obtain ⟨l₁, l₂, hseq, hpos, hptr⟩ := exists_before h hnode
    have hn : l₂.length < s.list.size + 1 := by
      rw [h.size, hseq, List.length_append]
      omega
    rw [LinkedListT.find, hptr, hpos, hseq, List.drop_left]
    exact (hseq ▸ h).findLoop cmp data hn
  calls c hc := by
    obtain ⟨L', hcall, -, hfreed, hrefused⟩ := holds_edit h c hc
    exact ⟨L', hcall, hfreed, hrefused⟩

theorem represents_of_reach {capacity : ℕ} {pool poolInit : Bool} {L : LinkedListT A V}
    (hL : LinkedListT.init capacity pool poolInit = some L)
    (hs : Steps.Reach next Legal ⟨L, []⟩ s) : s.Represents := by
  have hholds : s.list.Holds s.seq :=
    hs.invariant (P := fun s => s.list.Holds s.seq) (LinkedListT.holds_init hL)
      fun s c s' h hc hnext => by
        obtain ⟨L', hcall, h', -⟩ := holds_edit h c hc
        rw [next, hcall, Option.map_some] at hnext
        cases hnext
        exact h'
  exact represents_of_holds hholds

def threeNodes : List (ListCall ℕ ℕ) :=
  [.append none (some 10) (some 0), .insert (some 0) (some 20) (some 1),
   .append (some 0) (some 30) (some 2), .insert none (some 40) none, .remove 0 true]

theorem represents_threeNodes : ∃ s : ListRun ℕ ℕ,
    (s.seq, s.list.freed) = ([(1, some 20), (2, some 30)], [10]) ∧ s.Represents := by
  have hinit : LinkedListT.init 0 false false =
    some (⟨LinkedListT.initHeap, 0, []⟩ : LinkedListT ℕ ℕ) := rfl
  exact Steps.exists_of_execWhen ⟨_, []⟩ threeNodes (by decide) fun _ hs _ =>
    represents_of_reach hinit hs

end ListRun

end Mugglec
