import Mugglec.Machinery.OwnedHeap

/-!
# Machinery/LinkedList — doubly linked lists as paths

The cells of a heap are linked by two partial functions, `next` and `prev`.  A list of addresses is
a **path** (`IsPath`) when each is linked to the one after it in both directions.
-/

namespace LinkedList

open Function

variable {A : Type*}

def Joined (next prev : A → Option A) (x y : A) : Prop := next x = some y ∧ prev y = some x

def IsPath (next prev : A → Option A) (l : List A) : Prop := l.IsChain (Joined next prev)

variable {next prev next' prev' : A → Option A} {xs ys : List A} {a b c : A}

theorem IsPath.congr {l : List A} (h : IsPath next prev l) (hn : ∀ x ∈ l, next' x = next x)
    (hp : ∀ x ∈ l, prev' x = prev x) : IsPath next' prev' l := by
  refine List.IsChain.imp_of_mem_tail_imp (fun x y hx hy hxy => ?_) h
  exact ⟨(hn x hx).trans hxy.1, (hp y (List.mem_of_mem_tail hy)).trans hxy.2⟩

theorem isPath_append_cons_cons : IsPath next prev (xs ++ a :: b :: ys) ↔
    IsPath next prev (xs ++ [a]) ∧ Joined next prev a b ∧ IsPath next prev (b :: ys) :=
  List.isChain_append_cons_cons

structure IsList (next prev : A → Option A) (l : List A) : Prop where
  path : IsPath next prev l
  end_eq : ∀ x ∈ l.getLast?, next x = none

theorem IsList.congr {l : List A} (h : IsList next prev l) (hn : ∀ x ∈ l, next' x = next x)
    (hp : ∀ x ∈ l, prev' x = prev x) : IsList next' prev' l :=
  ⟨h.path.congr hn hp, fun x hx => (hn x (List.mem_of_getLast? hx)).trans (h.end_eq x hx)⟩

theorem IsList.next_eq (h : IsList next prev (xs ++ a :: ys)) : next a = ys.head? := by
  cases ys with
  | nil => exact h.end_eq a (by simp)
  | cons b ys => exact (isPath_append_cons_cons.mp h.path).2.1.1

theorem IsList.next_head (h : IsList next prev (a :: ys)) : next a = ys.head? :=
  (show IsList next prev ([] ++ a :: ys) from h).next_eq

theorem IsList.prev_eq (h : IsList next prev (xs ++ a :: b :: ys)) : prev b = some a :=
  (isPath_append_cons_cons.mp h.path).2.1.2

variable [DecidableEq A]

theorem IsPath.update_next (h : IsPath next prev (xs ++ [a])) (ha : a ∉ xs) (v : Option A) :
    IsPath (update next a v) prev (xs ++ [a]) := by
  rw [IsPath, List.isChain_iff_forall₂] at h ⊢
  rw [List.dropLast_concat] at h ⊢
  refine List.forall₂_iff_get.mpr ⟨h.length_eq, fun i hi hi' => ?_⟩
  obtain ⟨h₁, h₂⟩ := (List.forall₂_iff_get.mp h).2 i hi hi'
  refine ⟨?_, h₂⟩
  rw [update_of_ne]
  · exact h₁
  · rintro heq
    exact ha (heq ▸ List.get_mem xs ⟨i, hi⟩)

theorem IsPath.update_prev (h : IsPath next prev (b :: ys)) (hb : b ∉ ys) (v : Option A) :
    IsPath next (update prev b v) (b :: ys) := by
  refine List.IsChain.imp_of_mem_tail_imp (fun x y _ hy hxy => ⟨hxy.1, ?_⟩) h
  rw [update_of_ne]
  · exact hxy.2
  · rintro rfl
    exact hb hy

theorem IsPath.join (hl : IsPath next prev (xs ++ [a])) (hr : IsPath next prev (b :: ys))
    (hnodup : (xs ++ a :: b :: ys).Nodup) :
    IsPath (update next a (some b)) (update prev b (some a))
      (xs ++ a :: b :: ys) := by
  have hleft : (xs ++ [a]).Nodup ∧ b ∉ xs ++ [a] := by grind
  have hright : (b :: ys).Nodup ∧ a ∉ b :: ys := by grind
  refine isPath_append_cons_cons.mpr ⟨?_, ⟨update_self .., update_self ..⟩, ?_⟩
  · refine (hl.update_next (by grind) (some b)).congr (fun _ _ => rfl) fun x hx => ?_
    exact update_of_ne (by rintro rfl; exact hleft.2 hx) _ _
  · refine (hr.update_prev (by grind) (some a)).congr (fun x hx => ?_) fun _ _ => rfl
    exact update_of_ne (by rintro rfl; exact hright.2 hx) _ _

theorem IsPath.unlink (h : IsPath next prev (xs ++ a :: c :: b :: ys))
    (hnodup : (xs ++ a :: c :: b :: ys).Nodup) :
    IsPath (update next a (some b)) (update prev b (some a))
      (xs ++ a :: b :: ys) := by
  obtain ⟨hl, -, hr⟩ := isPath_append_cons_cons.mp h
  exact hl.join (List.isChain_cons_cons.mp hr).2
    (hnodup.sublist (List.Sublist.append_left (by simp) xs))

theorem IsPath.insert (h : IsPath next prev (xs ++ a :: b :: ys))
    (hnodup : (xs ++ a :: c :: b :: ys).Nodup) :
    IsPath (update (update next c (some b)) a (some c))
      (update (update prev c (some a)) b (some c)) (xs ++ a :: c :: b :: ys) := by
  obtain ⟨hl, -, hr⟩ := isPath_append_cons_cons.mp h
  rw [update_comm (show c ≠ b by grind)]
  have hright : IsPath (update next c (some b)) (update prev b (some c))
      ([] ++ c :: b :: ys) :=
    IsPath.join (List.isChain_singleton c) hr (hnodup.sublist (by simp))
  refine IsPath.join (hl.congr (fun x hx => ?_) fun x hx => ?_) hright hnodup
  · exact update_of_ne (by grind) _ _
  · exact update_of_ne (by grind) _ _

def relink (prev : A → Option A) (o v : Option A) : A → Option A :=
  o.elim prev fun b => update prev b v

theorem relink_of_ne {o v : Option A} {x : A} (h : ∀ b ∈ o, x ≠ b) :
    relink prev o v x = prev x := by
  cases o with
  | none => rfl
  | some b => exact update_of_ne (h b rfl) _ _

theorem IsList.unlink (h : IsList next prev (xs ++ a :: c :: ys))
    (hnodup : (xs ++ a :: c :: ys).Nodup) :
    IsList (update next a ys.head?) (relink prev ys.head? (some a)) (xs ++ a :: ys) := by
  cases ys with
  | nil =>
    obtain ⟨hl, -, -⟩ := isPath_append_cons_cons.mp h.path
    refine ⟨hl.update_next (by grind) none, fun x hx => ?_⟩
    obtain rfl : a = x := by simpa using hx
    exact update_self ..
  | cons b ys =>
    refine ⟨h.path.unlink hnodup, fun x hx => ?_⟩
    have hx' : x ∈ (b :: ys).getLast? := by simpa [List.getLast?_append] using hx
    have hmem : x ∈ b :: ys := List.mem_of_getLast? hx'
    rw [update_of_ne (by grind)]
    exact h.end_eq x (by simpa [List.getLast?_append] using hx')

theorem IsList.insert (h : IsList next prev (a :: ys)) (hnodup : (a :: c :: ys).Nodup) :
    IsList (update (update next c ys.head?) a (some c))
      (relink (update prev c (some a)) ys.head? (some c)) (a :: c :: ys) := by
  have hne : c ≠ a := by grind
  cases ys with
  | nil =>
    refine ⟨List.isChain_cons_cons.mpr ⟨⟨update_self .., update_self ..⟩,
      List.isChain_singleton c⟩, fun x hx => ?_⟩
    obtain rfl : c = x := by simpa using hx
    rw [update_of_ne hne, update_self]
    rfl
  | cons b ys =>
    have hpath : IsPath next prev ([] ++ a :: b :: ys) := h.path
    refine ⟨hpath.insert hnodup, fun x hx => ?_⟩
    have hx' : x ∈ (b :: ys).getLast? := by simpa using hx
    have hmem : x ∈ b :: ys := List.mem_of_getLast? hx'
    rw [update_of_ne (by grind), update_of_ne (by grind)]
    exact h.end_eq x (by simpa using hx')

structure Cell (A D : Type*) where
  prev : Option A
  next : Option A
  data : D
deriving DecidableEq, Repr

section Heap

variable {A D : Type*}

def Cell.setPrev (v : Option A) (c : Cell A D) : Cell A D := { c with prev := v }

def Cell.setNext (v : Option A) (c : Cell A D) : Cell A D := { c with next := v }

def Cell.mapData (f : D → D) (c : Cell A D) : Cell A D := { c with data := f c.data }

def nextOf (h : A → Option (Cell A D)) (a : A) : Option A := (h a).bind Cell.next

def prevOf (h : A → Option (Cell A D)) (a : A) : Option A := (h a).bind Cell.prev

def dataOf (h : A → Option (Cell A D)) (a : A) : Option D := (h a).map Cell.data

variable {h : A → Option (Cell A D)} {a : A} {d : D}

theorem eq_some_of_dataOf (hd : dataOf h a = some d) :
    h a = some ⟨prevOf h a, nextOf h a, d⟩ := by
  obtain ⟨c, hc, rfl⟩ := Option.map_eq_some_iff.mp hd
  simp [prevOf, nextOf, hc]

variable [DecidableEq A]

theorem nextOf_update (h : A → Option (Cell A D)) (a : A) (c : Option (Cell A D)) :
    nextOf (update h a c) = update (nextOf h) a (c.bind Cell.next) := by
  funext b
  by_cases hb : b = a
  · subst hb
    simp [nextOf]
  · simp [nextOf, hb]

theorem prevOf_update (h : A → Option (Cell A D)) (a : A) (c : Option (Cell A D)) :
    prevOf (update h a c) = update (prevOf h) a (c.bind Cell.prev) := by
  funext b
  by_cases hb : b = a
  · subst hb
    simp [prevOf]
  · simp [prevOf, hb]

theorem dataOf_update (h : A → Option (Cell A D)) (a : A) (c : Option (Cell A D)) :
    dataOf (update h a c) = update (dataOf h) a (c.map Cell.data) := by
  funext b
  by_cases hb : b = a
  · subst hb
    simp [dataOf]
  · simp [dataOf, hb]

theorem modify_eq_some (hd : dataOf h a = some d) (f : Cell A D → Cell A D) :
    OwnedHeap.modify h a f =
      some (update h a (some (f ⟨prevOf h a, nextOf h a, d⟩))) := by
  rw [OwnedHeap.modify, eq_some_of_dataOf hd, Option.map_some]

theorem modify_setNext (hd : dataOf h a = some d) (v : Option A) :
    ∃ h', OwnedHeap.modify h a (·.setNext v) = some h' ∧
      nextOf h' = update (nextOf h) a v ∧ prevOf h' = prevOf h ∧ dataOf h' = dataOf h := by
  refine ⟨_, modify_eq_some hd _, nextOf_update .., ?_, ?_⟩
  · rw [prevOf_update]
    exact update_eq_self a _
  · rw [dataOf_update]
    exact update_eq_iff.mpr ⟨hd.symm, fun _ _ => rfl⟩

theorem modify_setPrev (hd : dataOf h a = some d) (v : Option A) :
    ∃ h', OwnedHeap.modify h a (·.setPrev v) = some h' ∧
      nextOf h' = nextOf h ∧ prevOf h' = update (prevOf h) a v ∧ dataOf h' = dataOf h := by
  refine ⟨_, modify_eq_some hd _, ?_, prevOf_update .., ?_⟩
  · rw [nextOf_update]
    exact update_eq_self a _
  · rw [dataOf_update]
    exact update_eq_iff.mpr ⟨hd.symm, fun _ _ => rfl⟩

theorem modify_mapData (hd : dataOf h a = some d) (f : D → D) :
    ∃ h', OwnedHeap.modify h a (·.mapData f) = some h' ∧ nextOf h' = nextOf h ∧
      prevOf h' = prevOf h ∧ dataOf h' = update (dataOf h) a (some (f d)) := by
  refine ⟨_, modify_eq_some hd _, ?_, ?_, dataOf_update ..⟩
  · rw [nextOf_update]
    exact update_eq_self a _
  · rw [prevOf_update]
    exact update_eq_self a _

inductive CellWrite (A D : Type*)
  | next (a : A) (v : Option A)
  | prev (a : A) (v : Option A)
  | data (a : A) (f : D → D)

namespace CellWrite

def addr : CellWrite A D → A
  | .next a _ | .prev a _ | .data a _ => a

def onNext (next : A → Option A) : CellWrite A D → A → Option A
  | .next a v => update next a v
  | _ => next

def onPrev (prev : A → Option A) : CellWrite A D → A → Option A
  | .prev a v => update prev a v
  | _ => prev

def onData (data : A → Option D) : CellWrite A D → A → Option D
  | .data a f => update data a ((data a).map f)
  | _ => data

def write (h : A → Option (Cell A D)) : CellWrite A D → Option (A → Option (Cell A D))
  | .next a v => OwnedHeap.modify h a (·.setNext v)
  | .prev a v => OwnedHeap.modify h a (·.setPrev v)
  | .data a f => OwnedHeap.modify h a (·.mapData f)

theorem write_eq {w : CellWrite A D} (hd : dataOf h w.addr = some d) : ∃ h', w.write h = some h' ∧
    nextOf h' = w.onNext (nextOf h) ∧ prevOf h' = w.onPrev (prevOf h) ∧
    dataOf h' = w.onData (dataOf h) := by
  cases w with
  | next a v => exact modify_setNext hd v
  | prev a v => exact modify_setPrev hd v
  | data a f =>
    obtain ⟨h', hm, hn, hp, hd'⟩ := modify_mapData hd f
    refine ⟨h', hm, hn, hp, hd'.trans ?_⟩
    rw [onData, show dataOf h a = some d from hd, Option.map_some]
    rfl

theorem exists_onData {data : A → Option D} (w : CellWrite A D) (ha : ∃ d, data a = some d) :
    ∃ d, w.onData data a = some d := by
  obtain ⟨d, hd⟩ := ha
  cases w with
  | data b f =>
    by_cases hab : a = b
    · subst hab
      exact ⟨f d, by rw [onData, update_self, hd, Option.map_some]⟩
    · exact ⟨d, by rw [onData, update_of_ne hab, hd]⟩
  | _ => exact ⟨d, hd⟩

def run {β : Type} (k : (A → Option (Cell A D)) → Option β) :
    List (CellWrite A D) → (A → Option (Cell A D)) → Option β
  | [], h => k h
  | w :: ws, h => (w.write h).bind (run k ws)

theorem exists_run (h : A → Option (Cell A D)) (ws : List (CellWrite A D))
    (hex : ∀ w ∈ ws, ∃ d, dataOf h w.addr = some d) :
    ∃ h', (∀ {β : Type} (k : (A → Option (Cell A D)) → Option β), run k ws h = k h') ∧
      nextOf h' = ws.foldl onNext (nextOf h) ∧ prevOf h' = ws.foldl onPrev (prevOf h) ∧
      dataOf h' = ws.foldl onData (dataOf h) := by
  induction ws generalizing h with
  | nil => exact ⟨h, fun _ => rfl, rfl, rfl, rfl⟩
  | cons w ws ih =>
    obtain ⟨d, hd⟩ := hex w List.mem_cons_self
    obtain ⟨h₁, hm, hn, hp, hd₁⟩ := write_eq hd
    obtain ⟨h', hrun, hn', hp', hd'⟩ := ih h₁ fun w' hw' =>
      hd₁ ▸ w.exists_onData (hex w' (List.mem_cons_of_mem w hw'))
    refine ⟨h', fun k => ?_, by rw [hn', hn]; rfl, by rw [hp', hp]; rfl, by rw [hd', hd₁]; rfl⟩
    rw [run, hm, Option.bind_some, hrun]

end CellWrite

end Heap

end LinkedList
