import Mugglec.Machinery.Comparator
import Mugglec.Machinery.HeapOrder
import Mugglec.Dsaa.Heap

/-!
# Dsaa/HeapSift — the three loops of the heap, as moves of a hole

While a loop runs the heap has a hole at its index (`HasHole`), and the entry `x` that is to be
placed stands outside.  A move takes the hole to a neighbour and changes nothing else (`Moved`); a
loop ends with the hole where `x` fits (`Placed`).
-/

namespace Mugglec

open Function Comparator HeapOrder

variable {K V : Type} {cmp : Option K → Option K → ℤ}

def keyLe (cmp : Option K → Option K → ℤ) (p q : Option K × Option V) : Prop := cmp p.1 q.1 ≤ 0

section Preorder

variable [Std.TransCmp (ordering cmp)]

instance : Std.Refl (keyLe cmp (V := V)) := ⟨fun _ => eq_self.le⟩

instance : IsTrans _ (keyLe cmp (V := V)) := ⟨fun _ _ _ => nonpos_trans⟩

end Preorder

namespace Heap

variable {H H' H'' : Heap K V} {f f' f'' : ℕ → Option K × Option V} {x : Option K × Option V}
  {i i' i'' n lastNode : ℕ}

structure HasHole (cmp : Option K → Option K → ℤ) (H : Heap K V) (f : ℕ → Option K × Option V)
    (i : ℕ) : Prop where
  fits : H.size ≤ H.capacity
  nodes : ∀ j, 1 ≤ j → j ≤ H.size → j ≠ i → H.nodes j = some (f j)
  hole : Hole (keyLe cmp) H.size i f

structure Moved (cmp : Option K → Option K → ℤ) (x : Option K × Option V) (H : Heap K V)
    (f : ℕ → Option K × Option V) (i : ℕ) (H' : Heap K V) (f' : ℕ → Option K × Option V) (i' : ℕ) :
    Prop extends HasHole cmp H' f' i' where
  frame : H' = { H with nodes := H'.nodes }
  beyond : ∀ j, H.size < j → H'.nodes j = H.nodes j
  contents : contents H.size (update f' i' x) = contents H.size (update f i x)

def Above (cmp : Option K → Option K → ℤ) (f : ℕ → Option K × Option V) (i : ℕ)
    (x : Option K × Option V) : Prop := 2 ≤ i → keyLe cmp (f (i / 2)) x

def Below (cmp : Option K → Option K → ℤ) (n : ℕ) (f : ℕ → Option K × Option V) (i : ℕ)
    (x : Option K × Option V) : Prop := ∀ j, j ≤ n → j / 2 = i → cmp x.1 (f j).1 < 0

structure Placed (cmp : Option K → Option K → ℤ) (x : Option K × Option V) (H : Heap K V)
    (f : ℕ → Option K × Option V) (i : ℕ) (H' : Heap K V) (f' : ℕ → Option K × Option V) (i' : ℕ) :
    Prop extends Moved cmp x H f i H' f' i' where
  above : Above cmp f' i' x
  below : Below cmp H'.size f' i' x

theorem HasHole.moved (h : HasHole cmp H f i) : Moved cmp x H f i H f i :=
  ⟨h, rfl, fun _ _ => rfl, rfl⟩

theorem Moved.size (h : Moved cmp x H f i H' f' i') : H'.size = H.size := by
  rw [h.frame]

theorem Moved.trans (h : Moved cmp x H f i H' f' i') (h' : Moved cmp x H' f' i' H'' f'' i'') :
    Moved cmp x H f i H'' f'' i'' where
  toHasHole := h'.toHasHole
  frame := by rw [h'.frame, h.frame]
  beyond j hj := by rw [h'.beyond j (h.size ▸ hj), h.beyond j hj]
  contents := by
    have hcontents := h'.contents
    rw [h.size] at hcontents
    rw [hcontents, h.contents]

/-- The result `r` of a loop that starts with the hole at `i`: the hole is where `x` fits. -/
def Places (cmp : Option K → Option K → ℤ) (x : Option K × Option V) (r : Option (Heap K V × ℕ))
    (H : Heap K V) (f : ℕ → Option K × Option V) (i : ℕ) : Prop :=
  ∃ H' f' i', r = some (H', i') ∧ Placed cmp x H f i H' f' i'

theorem HasHole.places (h : HasHole cmp H f i) (habove : Above cmp f i x)
    (hbelow : Below cmp H.size f i x) : Places cmp x (some (H, i)) H f i :=
  ⟨H, f, i, rfl, h.moved, habove, hbelow⟩

theorem Moved.places {r : Option (Heap K V × ℕ)} (h : Moved cmp x H f i H' f' i') :
    Places cmp x r H' f' i' → Places cmp x r H f i
  | ⟨H'', f'', i'', hr, hplaced⟩ =>
    ⟨H'', f'', i'', hr, h.trans hplaced.toMoved, hplaced.above, hplaced.below⟩

theorem HasHole.copyNode {c : ℕ} (h : HasHole cmp H f i) (hc : 1 ≤ c) (hcn : c ≤ H.size)
    (hci : c ≠ i) (hole : Hole (keyLe cmp) H.size c (update f i (f c))) : ∃ H',
    H.copyNode c i = some H' ∧ Moved cmp x H f i H' (update f i (f c)) c := by
  have hi := h.hole.le_size
  refine ⟨{ H with nodes := update H.nodes i (some (f c)) }, ?_, ⟨h.fits, ?_, hole⟩, rfl,
    ?_, contents_move h.hole.pos hi hc hcn hci x⟩
  · rw [Heap.copyNode, h.nodes c hc hcn hci, Option.bind_eq_bind, Option.bind_some, setNode, guard,
      if_pos (hi.trans h.fits)]
    rfl
  · intro j hj hjn hjc
    obtain rfl | hji := eq_or_ne j i
    · simp only [update_self]
    · simp only [update_of_ne hji]
      exact h.nodes j hj hjn hji
  · intro j hj
    exact update_of_ne (by omega) ..

section Moves

theorem HasHole.sink {c : ℕ} (h : HasHole cmp H f i) (hc : c / 2 = i) (hcn : c ≤ H.size)
    (hmin : ∀ j, j ≤ H.size → j / 2 = i → keyLe cmp (f c) (f j)) (hle : keyLe cmp (f c) x) :
    ∃ H' f', H.copyNode c i = some H' ∧ Moved cmp x H f i H' f' c ∧ Above cmp f' c x := by
  have hi := h.hole.pos
  obtain ⟨H', heq, hmoved⟩ :=
    h.copyNode (x := x) (by omega) hcn (by omega) (h.hole.sink hc hcn hmin)
  refine ⟨H', _, heq, hmoved, fun _ => ?_⟩
  rwa [hc, update_self]

variable [Std.TransCmp (ordering cmp)]

theorem HasHole.rise (h : HasHole cmp H f i) (hi : 2 ≤ i) (hlt : cmp x.1 (f (i / 2)).1 < 0) :
    ∃ H' f', H.copyNode (i / 2) i = some H' ∧ Moved cmp x H f i H' f' (i / 2) ∧
      Below cmp H'.size f' (i / 2) x := by
  have hin := h.hole.le_size
  obtain ⟨H', heq, hmoved⟩ :=
    h.copyNode (x := x) (by omega) (by omega) (by omega) (h.hole.rise hi)
  refine ⟨H', _, heq, hmoved, fun j hjn hj => ?_⟩
  rw [hmoved.size] at hjn
  obtain rfl | hji := eq_or_ne j i
  · rwa [update_self]
  · -- the sibling is above the parent
    have hsibling := h.hole.edge j (by omega) hjn hji (by omega)
    rw [hj] at hsibling
    rw [update_of_ne hji]
    exact neg_of_neg_of_nonpos hlt hsibling

theorem HasHole.smallerChild {more : Bool} (h : HasHole cmp H f i) (hi : i * 2 ≤ H.size)
    (hmore : more = true ↔ i * 2 < H.size) : ∃ c, smallerChild cmp H (i * 2) more = some c ∧
      c / 2 = i ∧ c ≤ H.size ∧ ∀ j, j ≤ H.size → j / 2 = i → keyLe cmp (f c) (f j) := by
  have hpos := h.hole.pos
  have hleft := h.nodes (i * 2) (by omega) hi (by omega)
  cases more with
  | false =>
    -- an only child
    refine ⟨i * 2, rfl, by omega, hi, fun j hjn hj => ?_⟩
    have hsize : ¬ i * 2 < H.size := by simpa using hmore
    obtain rfl : j = i * 2 := by omega
    exact refl _
  | true =>
    have hsize : i * 2 < H.size := hmore.mp rfl
    have hright := h.nodes (i * 2 + 1) (by omega) hsize (by omega)
    simp only [Heap.smallerChild, if_true, hright, hleft, Option.bind_eq_bind, Option.bind_some]
    have hchildren : ∀ j, j / 2 = i → j = i * 2 ∨ j = i * 2 + 1 := by omega
    split_ifs with hlt
    · refine ⟨i * 2 + 1, rfl, by omega, hsize, fun j hjn hj => ?_⟩
      obtain rfl | rfl := hchildren j hj
      · exact hlt.le
      · exact refl _
    · refine ⟨i * 2, rfl, by omega, hi, fun j hjn hj => ?_⟩
      obtain rfl | rfl := hchildren j hj
      · exact refl _
      · exact nonpos_iff.mpr (not_lt.mp hlt)

theorem HasHole.percolate {more : Bool} (h : HasHole cmp H f i) (hlast : H.nodes lastNode = some x)
    (hi : i * 2 ≤ H.size) (hmore : more = true ↔ i * 2 < H.size) : ∃ res,
    percolate cmp H lastNode i more = some res ∧ (res = none → Below cmp H.size f i x) ∧
      ∀ c, res = some c → c / 2 = i ∧ c ≤ H.size ∧
        (∀ j, j ≤ H.size → j / 2 = i → keyLe cmp (f c) (f j)) ∧ keyLe cmp (f c) x := by
  obtain ⟨c, hchild, hc, hcn, hmin⟩ := h.smallerChild hi hmore
  have hpos := h.hole.pos
  have hnode := h.nodes c (by omega) hcn (by omega)
  simp only [Heap.percolate, hchild, hlast, hnode, Option.bind_eq_bind, Option.bind_some]
  refine ⟨_, rfl, fun hnone => ?_, fun c' hsome => ?_⟩
  · split_ifs at hnone with hge
    exact fun j hjn hj => neg_of_neg_of_nonpos (not_le.mp hge) (hmin j hjn hj)
  · split_ifs at hsome with hge
    cases hsome
    exact ⟨hc, hcn, hmin, nonpos_iff.mpr hge⟩

theorem HasHole.moveUp (h : HasHole cmp H f i) (hlast : H.nodes lastNode = some x) : ∃ res,
    moveUp cmp H lastNode i = some res ∧ (res = none → Above cmp f i x) ∧
      ∀ p, res = some p → 2 ≤ i ∧ p = i / 2 ∧ cmp x.1 (f (i / 2)).1 < 0 := by
  have hpos := h.hole.pos
  have hin := h.hole.le_size
  by_cases hi : i / 2 = 0
  · simp only [Heap.moveUp, hi, ne_eq, not_true_eq_false, if_false]
    exact ⟨none, rfl, fun _ _ => by omega, by simp⟩
  · have hparent := h.nodes (i / 2) (by omega) (by omega) (by omega)
    simp only [Heap.moveUp, hi, ne_eq, not_false_eq_true, if_true, hparent, hlast,
      Option.bind_eq_bind, Option.bind_some]
    refine ⟨_, rfl, fun hnone _ => ?_, fun p hsome => ?_⟩
    · split_ifs at hnone with hlt
      exact nonpos_iff.mpr (not_lt.mp hlt)
    · split_ifs at hsome with hlt
      exact ⟨by omega, (Option.some.inj hsome).symm, hlt⟩

theorem HasHole.insertLoop : ∀ {n i : ℕ} {H : Heap K V} {f : ℕ → Option K × Option V},
    HasHole cmp H f i → Below cmp H.size f i x → i ≤ n →
    Places cmp x (insertLoop cmp x.1 n H i) H f i
  | 0, i, _, _, h, _, hn => absurd h.hole.pos (by omega)
  | n + 1, i, H, f, h, hbelow, hn => by
    have hpos := h.hole.pos
    have hin := h.hole.le_size
    rw [Heap.insertLoop]
    by_cases hi : i / 2 = 0
    · simp only [hi, if_true]
      exact h.places (fun _ => by omega) hbelow
    · have hparent := h.nodes (i / 2) (by omega) (by omega) (by omega)
      simp only [hi, if_false, hparent, Option.bind_eq_bind, Option.bind_some]
      split_ifs with hle
      · exact h.places (fun _ => hle) hbelow
      · obtain ⟨H₁, f₁, heq, hmoved, hbelow₁⟩ :=
          h.rise (x := x) (by omega) (pos_iff.mp (not_le.mp hle))
        rw [heq, Option.bind_some]
        exact hmoved.places (HasHole.insertLoop hmoved.toHasHole hbelow₁ (by omega))

theorem HasHole.extractLoop : ∀ {n i : ℕ} {H : Heap K V} {f : ℕ → Option K × Option V},
    HasHole cmp H f i → H.nodes lastNode = some x → H.size < lastNode → Above cmp f i x →
    H.size + 2 ≤ n + i →
    Places cmp x (extractLoop cmp lastNode n H i) H f i
  | 0, i, H, _, h, _, _, _, hn => absurd h.hole.le_size (by omega)
  | n + 1, i, H, f, h, hlast, hout, habove, hn => by
    have hpos := h.hole.pos
    rw [Heap.extractLoop]
    split_ifs with hi
    · have hmore : decide (i * 2 ≠ H.size) = true ↔ i * 2 < H.size := by
        rw [decide_eq_true_eq]
        omega
      obtain ⟨res, hres, hnone, hsome⟩ := h.percolate hlast hi hmore
      rw [hres]
      cases res with
      | none => exact h.places habove (hnone rfl)
      | some c =>
        obtain ⟨hc, hcn, hmin, hle⟩ := hsome c rfl
        obtain ⟨H₁, f₁, heq, hmoved, habove₁⟩ := h.sink hc hcn hmin hle
        simp only [Option.bind_eq_bind, Option.bind_some, heq]
        exact hmoved.places (HasHole.extractLoop hmoved.toHasHole
          ((hmoved.beyond _ hout).trans hlast) (hmoved.size ▸ hout) habove₁
          (by rw [hmoved.size]; omega))
    · exact h.places habove fun j hjn hj => by omega

theorem HasHole.removeLoop_rising : ∀ {n i : ℕ} {H : Heap K V} {f : ℕ → Option K × Option V},
    HasHole cmp H f i → H.nodes lastNode = some x → H.size < lastNode →
    Below cmp H.size f i x → i ≤ n →
    Places cmp x (removeLoop cmp lastNode n H i) H f i
  | 0, i, _, _, h, _, _, _, hn => absurd h.hole.pos (by omega)
  | n + 1, i, H, f, h, hlast, hout, hbelow, hn => by
    have hpos := h.hole.pos
    rw [Heap.removeLoop]
    obtain ⟨res, hres, hnone, hsome⟩ := h.moveUp hlast
    rw [hres]
    cases res with
    | some p =>
      obtain ⟨hi, rfl, hlt⟩ := hsome p rfl
      obtain ⟨H₁, f₁, heq, hmoved, hbelow₁⟩ := h.rise (x := x) hi hlt
      simp only [Option.bind_eq_bind, Option.bind_some, heq]
      exact hmoved.places (HasHole.removeLoop_rising hmoved.toHasHole
        ((hmoved.beyond _ hout).trans hlast) (hmoved.size ▸ hout) hbelow₁ (by omega))
    | none =>
      have hplaces := h.places (hnone rfl) hbelow
      simp only [Option.bind_eq_bind, Option.bind_some]
      split_ifs with hi
      · -- it does not turn
        obtain ⟨res, hres, -, hsome⟩ := h.percolate hlast hi decide_eq_true_iff
        rw [hres]
        cases res with
        | none => exact hplaces
        | some c =>
          obtain ⟨hc, hcn, -, hle⟩ := hsome c rfl
          exact absurd (hbelow c hcn hc) (not_lt.mpr (nonpos_iff.mp hle))
      · exact hplaces

theorem HasHole.removeLoop_sinking : ∀ {n i : ℕ} {H : Heap K V} {f : ℕ → Option K × Option V},
    HasHole cmp H f i → H.nodes lastNode = some x → H.size < lastNode → Above cmp f i x →
    H.size + 2 ≤ n + i →
    Places cmp x (removeLoop cmp lastNode n H i) H f i
  | 0, i, H, _, h, _, _, _, hn => absurd h.hole.le_size (by omega)
  | n + 1, i, H, f, h, hlast, hout, habove, hn => by
    have hpos := h.hole.pos
    rw [Heap.removeLoop]
    obtain ⟨res, hres, -, hsome⟩ := h.moveUp hlast
    rw [hres]
    cases res with
    | some p =>
      -- it does not turn
      obtain ⟨hi, -, hlt⟩ := hsome p rfl
      exact absurd hlt (not_lt.mpr (nonpos_iff.mp (habove hi)))
    | none =>
      simp only [Option.bind_eq_bind, Option.bind_some]
      split_ifs with hi
      · obtain ⟨res, hres, hnone, hsome⟩ := h.percolate hlast hi decide_eq_true_iff
        rw [hres]
        cases res with
        | none => exact h.places habove (hnone rfl)
        | some c =>
          obtain ⟨hc, hcn, hmin, hle⟩ := hsome c rfl
          obtain ⟨H₁, f₁, heq, hmoved, habove₁⟩ := h.sink hc hcn hmin hle
          simp only [Option.bind_some, heq]
          exact hmoved.places (HasHole.removeLoop_sinking hmoved.toHasHole
            ((hmoved.beyond _ hout).trans hlast) (hmoved.size ▸ hout) habove₁
            (by rw [hmoved.size]; omega))
      · exact h.places habove fun j hjn hj => by omega

theorem HasHole.removeLoop (h : HasHole cmp H f i) (hlast : H.nodes lastNode = some x)
    (hout : H.size < lastNode) (hn : H.size + 1 ≤ n) :
    Places cmp x (removeLoop cmp lastNode n H i) H f i := by
  have hpos := h.hole.pos
  have hin := h.hole.le_size
  by_cases hup : 2 ≤ i ∧ cmp x.1 (f (i / 2)).1 < 0
  · obtain ⟨hi, hlt⟩ := hup
    obtain ⟨n, rfl⟩ : ∃ m, n = m + 1 := ⟨n - 1, by omega⟩
    obtain ⟨res, hres, hnone, hsome⟩ := h.moveUp hlast
    cases res with
    | none => exact absurd hlt (not_lt.mpr (nonpos_iff.mp (hnone rfl hi)))
    | some p =>
      obtain ⟨-, rfl, -⟩ := hsome p rfl
      obtain ⟨H₁, f₁, heq, hmoved, hbelow₁⟩ := h.rise (x := x) hi hlt
      simp only [Heap.removeLoop, hres, Option.bind_eq_bind, Option.bind_some, heq]
      exact hmoved.places (HasHole.removeLoop_rising hmoved.toHasHole
        ((hmoved.beyond _ hout).trans hlast) (hmoved.size ▸ hout) hbelow₁ (by omega))
  · refine h.removeLoop_sinking hlast hout (fun hi => ?_) (by omega)
    exact nonpos_iff.mpr (not_lt.mp fun hlt => hup ⟨hi, hlt⟩)

end Moves

end Heap

end Mugglec
