import Mugglec.Machinery.Steps
import Mugglec.Dsaa.ArrayList

/-!
# Dsaa/ArrayListSeq — the array list is a sequence

The entries in use are a **sequence** (`Holds`), and an index names a position in it, counted from
the end where it is negative (`position`).
-/

namespace Mugglec

open Function

variable {V : Type}

namespace ArrayList

def position (n : ℕ) (index : ℤ) : Option ℕ :=
  if 0 ≤ index then if index < n then some index.toNat else none
  else if -index ≤ n then some (n + index).toNat else none

theorem position_lt {n i : ℕ} {index : ℤ} (h : position n index = some i) : i < n := by
  rw [position] at h
  split_ifs at h <;> have := Option.some.inj h <;> omega

structure Holds (L : ArrayList V) (seq : List (Option V)) : Prop where
  size : L.size = seq.length
  le : L.size ≤ L.capacity
  pos : 0 < L.capacity
  lt : L.capacity < 2 ^ 31
  nodes : ∀ i d, seq[i]? = some d → L.nodes i = some d

variable {L : ArrayList V} {seq : List (Option V)} {index : ℤ}

theorem toInt_of_lt {n : ℕ} (h : n < 2 ^ 31) : toInt n = n := by
  rw [toInt, u32_of_lt (h.trans (by norm_num)), i32_of_lt h]

theorem holds_init {capacity : ℕ} {mem : Bool} (h : init capacity mem = some L) : L.Holds [] := by
  simp only [init, Option.bind_eq_bind, Option.bind_eq_some_iff] at h
  obtain ⟨_, hcap, _, -, h⟩ := h
  cases h
  have hvalid : dsCapIsValid (if capacity = 0 then 8 else capacity) := by
    by_contra hnot
    rw [guard, if_neg hnot] at hcap
    cases hcap
  refine ⟨rfl, Nat.zero_le _, ?_, by simpa [dsCapIsValid] using hvalid, by simp⟩
  change 0 < if capacity = 0 then 8 else capacity
  split_ifs <;> omega

namespace Holds

variable (h : L.Holds seq)
include h

theorem toInt_size : toInt L.size = L.size := toInt_of_lt (h.le.trans_lt h.lt)

theorem getIndex_eq (index : ℤ) :
    L.getIndex index = (position seq.length index).elim (-1) fun i => (i : ℤ) := by
  have hlt : ∀ k, L.size - k < 2 ^ 31 := fun k => (Nat.sub_le ..).trans_lt (h.le.trans_lt h.lt)
  rw [getIndex, position, toInt_of_lt (hlt _), h.size]
  split_ifs <;> simp <;> omega

theorem node_eq {i : ℕ} (hi : i < seq.length) : L.nodes i = some seq[i] :=
  h.nodes i seq[i] (List.getElem?_eq_getElem hi)

theorem index_eq (index : ℤ) : L.index index = position seq.length index := by
  rw [ArrayList.index, h.getIndex_eq]
  cases position seq.length index with
  | none => rfl
  | some i => exact if_neg (by simp)

theorem findLoop_eq (cmp : Option V → Option V → ℤ) (data : Option V) {n i : ℕ}
    (hi : i ≤ seq.length) (hn : seq.length - i < n) :
    findLoop cmp L data n i =
      some (((seq.drop i).findIdx? fun d => cmp d data = 0).elim (-1)
        fun k => ((i + k : ℕ) : ℤ)) := by
  induction n generalizing i with
  | zero => omega
  | succ n ih =>
    rw [findLoop, h.size]
    rcases eq_or_lt_of_le hi with rfl | hlt
    · simp
    · rw [if_pos hlt, h.node_eq hlt, List.drop_eq_getElem_cons hlt, List.findIdx?_cons]
      by_cases heq : cmp seq[i] data = 0
      · have hint : toInt i = i := toInt_of_lt ((h.size ▸ hlt).trans_le (h.le.trans h.lt.le))
        simp [heq, hint]
      · simp only [Option.bind_eq_bind, Option.bind_some, if_neg heq, decide_eq_false heq,
          Bool.false_eq_true, if_false]
        rw [ih hlt (by omega)]
        cases (seq.drop (i + 1)).findIdx? fun d => cmp d data = 0 with
        | none => rfl
        | some k =>
          simp only [Option.map_some, Option.elim_some]
          congr 2
          omega

theorem find_eq (cmp : Option V → Option V → ℤ) (index : ℤ) (data : Option V) :
    L.find cmp index data = some ((position seq.length index).elim (-1) fun i =>
      ((seq.drop i).findIdx? fun d => cmp d data = 0).elim (-1) fun k => ((i + k : ℕ) : ℤ)) := by
  rw [ArrayList.find, h.getIndex_eq]
  cases hpos : position seq.length index with
  | none => rfl
  | some i =>
    have hi := position_lt hpos
    have hloop := h.findLoop_eq cmp data hi.le (n := L.size + 1) (by rw [h.size]; omega)
    simp only [Option.elim_some, Int.toNat_natCast, hloop]
    exact if_neg (by omega)

end Holds

theorem getNode_natCast (L : ArrayList V) (i : ℕ) : L.getNode i = L.nodes i := by
  simp [getNode]

theorem setNode_natCast {i : ℕ} (hi : i < L.capacity) (data : Option V) :
    L.setNode i data = some { L with nodes := update L.nodes i (some data) } := by
  simp [setNode, hi]

theorem shiftUp_eq (idx : ℕ) : ∀ (k : ℕ) {n : ℕ} {L : ArrayList V}, k < n → idx + k < L.capacity →
    (∀ j, idx ≤ j → j < idx + k → (L.nodes j).isSome) →
    shiftUp idx n L ((idx + k : ℕ) - 1) = some { L with
      nodes := fun j => if idx < j ∧ j ≤ idx + k then L.nodes (j - 1) else L.nodes j } := by
  intro k
  induction k with
  | zero =>
    intro n L hn _ _
    obtain _ | n := n
    · cases hn
    rw [shiftUp, if_neg (by omega)]
    refine congrArg (fun f => some { L with nodes := f }) (funext fun j => ?_)
    rw [if_neg (by omega)]
  | succ k ih =>
    intro n L hn hcap hnodes
    obtain _ | n := n
    · cases hn
    obtain ⟨d, hd⟩ := Option.isSome_iff_exists.mp (hnodes (idx + k) (by omega) (by omega))
    have hi : ((idx + (k + 1) : ℕ) - 1 : ℤ) = (idx + k : ℕ) := by omega
    have hi' : ((idx + k : ℕ) + 1 : ℤ) = (idx + (k + 1) : ℕ) := by omega
    have hrest := ih (n := n)
      (L := { L with nodes := update L.nodes (idx + (k + 1)) (some d) }) (by omega)
      (Nat.lt_of_succ_lt hcap) fun j h₁ h₂ => by
        simp only
        rw [update_of_ne (by omega)]
        exact hnodes j h₁ (by omega)
    rw [shiftUp, if_pos (by omega), hi, getNode_natCast, hd, Option.bind_eq_bind, Option.bind_some,
      hi', setNode_natCast hcap, Option.bind_eq_bind, Option.bind_some, hrest]
    refine congrArg (fun f => some { L with nodes := f }) (funext fun j => ?_)
    dsimp only
    by_cases hj : j = idx + (k + 1)
    · subst hj
      rw [if_neg (by omega), update_self, if_pos (by omega)]
      exact hd.symm
    · by_cases hin : idx < j ∧ j ≤ idx + k
      · rw [if_pos hin, if_pos (by omega), update_of_ne (by omega)]
      · rw [if_neg hin, if_neg (by omega), update_of_ne hj]

theorem shiftDown_eq (last : ℕ) : ∀ (k : ℕ) {n i : ℕ} {L : ArrayList V}, k < n → i + k = last →
    last < L.capacity → (∀ j, i < j → j ≤ last → (L.nodes j).isSome) →
    shiftDown last n L i = some { L with
      nodes := fun j => if i ≤ j ∧ j < last then L.nodes (j + 1) else L.nodes j } := by
  intro k
  induction k with
  | zero =>
    intro n i L hn hlast _ _
    obtain _ | n := n
    · cases hn
    rw [shiftDown, if_neg (by omega)]
    refine congrArg (fun f => some { L with nodes := f }) (funext fun j => ?_)
    rw [if_neg (by omega)]
  | succ k ih =>
    intro n i L hn hlast hcap hnodes
    obtain _ | n := n
    · cases hn
    obtain ⟨d, hd⟩ := Option.isSome_iff_exists.mp (hnodes (i + 1) (by omega) (by omega))
    have hi : ((i : ℤ) + 1) = (i + 1 : ℕ) := by omega
    have hrest := ih (n := n) (i := i + 1)
      (L := { L with nodes := update L.nodes i (some d) }) (by omega) (by omega) hcap
      fun j h₁ h₂ => by
        simp only
        rw [update_of_ne (by omega)]
        exact hnodes j (by omega) h₂
    rw [shiftDown, if_pos (by omega), hi, getNode_natCast, hd, Option.bind_eq_bind,
      Option.bind_some, setNode_natCast (by omega), Option.bind_eq_bind, Option.bind_some, hrest]
    refine congrArg (fun f => some { L with nodes := f }) (funext fun j => ?_)
    dsimp only
    by_cases hj : j = i
    · subst hj
      rw [if_neg (by omega), update_self, if_pos (by omega)]
      exact hd.symm
    · by_cases hin : i + 1 ≤ j ∧ j < last
      · rw [if_pos hin, if_pos (by omega), update_of_ne (by omega)]
      · rw [if_neg hin, if_neg (by omega), update_of_ne hj]

def Roomy (L : ArrayList V) (mem : Bool) : Prop :=
  L.size = L.capacity → dsCapIsValid (L.capacity * 2) ∧ mem

instance (L : ArrayList V) (mem : Bool) : Decidable (L.Roomy mem) :=
  inferInstanceAs (Decidable (_ → _))

def place (n : ℕ) (index : ℤ) : Option ℕ :=
  if n = 0 ∧ (index = 0 ∨ index = -1) then some 0 else position n index

theorem place_lt {n i : ℕ} (h : place n index = some i) (hn : n ≠ 0) : i < n := by
  rw [place, if_neg (by omega)] at h
  exact position_lt h

theorem place_le {n i : ℕ} (h : place n index = some i) : i ≤ n := by
  rcases eq_or_ne n 0 with rfl | hn
  · rw [place] at h
    split_ifs at h with hempty
    · exact (Option.some.inj h).ge
    · exact (position_lt h).le
  · exact (place_lt h hn).le

namespace Holds

theorem ensureCapacity (h : L.Holds seq) (capacity : ℕ) (mem : Bool) :
    ((L.capacity < capacity → dsCapIsValid capacity ∧ mem) ∧
      ∃ L', L.ensureCapacity capacity mem = (true, L') ∧ L'.Holds seq ∧ capacity ≤ L'.capacity ∧
        L'.freed = L.freed) ∨
    (¬ (L.capacity < capacity → dsCapIsValid capacity ∧ mem) ∧
      L.ensureCapacity capacity mem = (false, L)) := by
  rw [ArrayList.ensureCapacity]
  by_cases hge : L.capacity ≥ capacity
  · rw [if_pos hge]
    exact .inl ⟨fun hlt => absurd hlt (not_lt.mpr hge), L, rfl, h, hge, rfl⟩
  have hlt : L.capacity < capacity := not_le.mp hge
  rw [if_neg hge]
  cases hvalid : dsCapIsValid capacity with
  | false => exact .inr ⟨fun himp => absurd (himp hlt).1 (by simp), rfl⟩
  | true =>
    cases mem with
    | false => exact .inr ⟨fun himp => absurd (himp hlt).2 (by simp), rfl⟩
    | true =>
      refine .inl ⟨fun _ => ⟨rfl, rfl⟩, _, rfl, ⟨h.size, h.le.trans hlt.le, h.pos.trans hlt, ?_,
        fun i d hi => ?_⟩, le_rfl, rfl⟩
      · simpa [dsCapIsValid] using hvalid
      · have hi' : i < L.size := h.size ▸ (List.getElem?_eq_some_iff.mp hi).1
        exact (if_pos hi').trans (h.nodes i d hi)

theorem prepare (h : L.Holds seq) (index : ℤ) (mem : Bool) :
    ∃ L', L'.Holds seq ∧ L'.freed = L.freed ∧
      ((L.Roomy mem ∧ L'.size < L'.capacity ∧
        L.prepare index mem = ((place seq.length index).elim (-1) fun i => (i : ℤ), L')) ∨
      (¬ L.Roomy mem ∧ L' = L ∧ L.prepare index mem = (-1, L))) := by
  have hplace : ∀ L' : ArrayList V, L'.Holds seq →
      (if L'.getIndex index < 0 then
        if (index = 0 ∨ index = -1) ∧ L'.size = 0 then (0, L') else (-1, L')
        else (L'.getIndex index, L')) =
      ((place seq.length index).elim (-1) fun i => (i : ℤ), L') := by
    intro L' h'
    rw [h'.getIndex_eq, h'.size, place]
    by_cases hempty : seq.length = 0 ∧ (index = 0 ∨ index = -1)
    · have hpos : position seq.length index = none := by
        cases hpos : position seq.length index with
        | none => rfl
        | some i => exact absurd (position_lt hpos) (by omega)
      rw [hpos]
      simp [hempty]
    · rw [if_neg hempty]
      cases position seq.length index with
      | none => rw [if_pos (by simp), if_neg (by tauto)]; rfl
      | some i => exact if_neg (by simp)
  rw [ArrayList.prepare]
  by_cases hfull : L.size = L.capacity
  · have hpos := h.pos
    rw [if_pos hfull]
    obtain ⟨hroom, L', hgrow, h', hcap, hfreed⟩ | ⟨hroom, hgrow⟩ :=
      h.ensureCapacity (L.capacity * 2) mem
    · refine ⟨L', h', hfreed, .inl ⟨fun _ => hroom (by omega), ?_, ?_⟩⟩
      · rw [h'.size, ← h.size]
        omega
      · rw [hgrow]
        exact hplace L' h'
    · refine ⟨L, h, rfl, .inr ⟨fun hroomy => hroom fun _ => hroomy hfull, rfl, ?_⟩⟩
      rw [hgrow]
  · refine ⟨L, h, rfl, .inl ⟨fun heq => absurd heq hfull, lt_of_le_of_ne h.le hfull, ?_⟩⟩
    rw [if_neg hfull]
    exact hplace L h

theorem putIn (h : L.Holds seq) (hroom : L.size < L.capacity) {i : ℕ} (hi : i ≤ seq.length)
    (data : Option V) : ∃ L₁ L₂, shiftUp i (L.size + 1) L (toInt L.size - 1) = some L₁ ∧
      L₁.setNode i data = some L₂ ∧ L₁.size = L.size ∧ L₂.size = L.size ∧ L₂.freed = L.freed ∧
      Holds { L₂ with size := L₂.size + 1 } (seq.insertIdx i data) := by
  have hsize := h.size
  have hlast : toInt L.size - 1 = ((i + (L.size - i) : ℕ) : ℤ) - 1 := by
    rw [h.toInt_size]
    omega
  have hshift := shiftUp_eq i (L.size - i) (n := L.size + 1) (L := L) (by omega) (by omega)
    fun j _ hj => by
      rw [h.node_eq (by omega)]
      rfl
  rw [← hlast] at hshift
  refine ⟨_, _, hshift, setNode_natCast (hi.trans_lt (hsize ▸ hroom)) data, rfl, rfl, rfl, ?_⟩
  refine ⟨?_, Nat.succ_le_of_lt hroom, h.pos, h.lt, fun j d hj => ?_⟩
  · rw [List.length_insertIdx_of_le_length hi]
    exact congrArg (· + 1) hsize
  · simp only
    rw [List.getElem?_insertIdx] at hj
    by_cases hji : j = i
    · subst hji
      rw [if_neg (lt_irrefl j), if_pos rfl, if_pos hi] at hj
      rw [update_self, hj]
    · rw [update_of_ne hji]
      by_cases hlt : j < i
      · rw [if_pos hlt] at hj
        rw [if_neg (by omega)]
        exact h.nodes j d hj
      · rw [if_neg hlt, if_neg hji] at hj
        have := (List.getElem?_eq_some_iff.mp hj).1
        rw [if_pos (by omega)]
        exact h.nodes (j - 1) d hj

theorem insert (h : L.Holds seq) (index : ℤ) (data : Option V) (mem : Bool) : ∃ L',
    L.insert index data mem =
        some (if L.Roomy mem then place seq.length index else none, L') ∧
      L'.freed = L.freed ∧ L'.Holds (if L.Roomy mem then
        (place seq.length index).elim seq fun i => seq.insertIdx i data else seq) := by
  obtain ⟨L', h', hfreed, ⟨hroomy, hlt, hprep⟩ | ⟨hroomy, rfl, hprep⟩⟩ := h.prepare index mem
  · rw [if_pos hroomy, if_pos hroomy]
    cases hplace : place seq.length index with
    | none =>
      rw [hplace] at hprep
      exact ⟨L', by rw [ArrayList.insert, hprep]; rfl, hfreed, h'⟩
    | some i =>
      rw [hplace, Option.elim_some] at hprep
      obtain ⟨L₁, L₂, hshift, hset, -, -, hfreed₂, h₂⟩ := h'.putIn hlt (place_le hplace) data
      refine ⟨{ L₂ with size := L₂.size + 1 }, ?_, hfreed₂.trans hfreed, h₂⟩
      simp only [ArrayList.insert, hprep]
      rw [hshift, Option.bind_eq_bind, Option.bind_some, hset]
      rfl
  · refine ⟨L', ?_, rfl, by rwa [if_neg hroomy]⟩
    simp [ArrayList.insert, hprep, hroomy]

theorem append (h : L.Holds seq) (index : ℤ) (data : Option V) (mem : Bool) : ∃ L',
    L.append index data mem = some (if L.Roomy mem then
        (place seq.length index).map fun i => min (i + 1) seq.length else none, L') ∧
      L'.freed = L.freed ∧ L'.Holds (if L.Roomy mem then
        (place seq.length index).elim seq fun i => seq.insertIdx (min (i + 1) seq.length) data
        else seq) := by
  obtain ⟨L', h', hfreed, ⟨hroomy, hlt, hprep⟩ | ⟨hroomy, rfl, hprep⟩⟩ := h.prepare index mem
  · rw [if_pos hroomy, if_pos hroomy]
    cases hplace : place seq.length index with
    | none =>
      rw [hplace] at hprep
      exact ⟨L', by rw [ArrayList.append, hprep]; rfl, hfreed, h'⟩
    | some i =>
      rw [hplace, Option.elim_some] at hprep
      have hsize := h'.size
      obtain ⟨L₁, L₂, hshift, hset, hsize₁, -, hfreed₂, h₂⟩ :=
        h'.putIn hlt (min_le_right (i + 1) seq.length) data
      refine ⟨{ L₂ with size := L₂.size + 1 }, ?_, hfreed₂.trans hfreed, h₂⟩
      -- an empty list has its one place, and nothing to move
      have hloop : shiftUp ((i : ℤ) + 1) (L'.size + 1) L' (toInt L'.size - 1) = some L₁ := by
        rw [← hshift]
        by_cases hempty : seq.length = 0
        · rw [h'.toInt_size, hsize, hempty, shiftUp, shiftUp, if_neg (by omega), if_neg (by simp)]
        · rw [min_eq_left (place_lt hplace hempty)]
          rfl
      have hidx : (if L₁.size = 0 then 0 else (i : ℤ) + 1) = (min (i + 1) seq.length : ℕ) := by
        rw [hsize₁, hsize]
        split_ifs with hempty
        · rw [hempty]
          rfl
        · rw [min_eq_left (place_lt hplace hempty)]
          rfl
      simp only [ArrayList.append, hprep]
      rw [if_neg (show ¬ (i : ℤ) < 0 by omega), hloop, Option.bind_eq_bind, Option.bind_some, hidx,
        hset]
      rfl
  · refine ⟨L', ?_, rfl, by rwa [if_neg hroomy]⟩
    simp [ArrayList.append, hprep, hroomy]

theorem remove (h : L.Holds seq) (index : ℤ) (freeGiven : Bool) : ∃ L',
    L.remove index freeGiven = some ((position seq.length index).isSome, L') ∧
      L'.freed = L.freed ++ (if freeGiven then
        ((position seq.length index).bind (seq[·]?)).toList else []) ∧
      L'.Holds ((position seq.length index).elim seq seq.eraseIdx) := by
  have hindex := h.getIndex_eq index
  cases hpos : position seq.length index with
  | none =>
    rw [hpos] at hindex
    exact ⟨L, by rw [ArrayList.remove, hindex]; rfl, by simp, h⟩
  | some i =>
    rw [hpos, Option.elim_some] at hindex
    have hi := position_lt hpos
    have hsize := h.size
    have hle := h.le
    -- the record of the free function's calls is no part of the sequence
    set L₁ : ArrayList V := { L with freed := L.freed ++ if freeGiven then [seq[i]] else [] }
    have hfree : L.freeNode i freeGiven = some L₁ := by
      rw [freeNode, getNode_natCast, h.node_eq hi]
      cases freeGiven with
      | false => simp [L₁]
      | true => rfl
    have hlast : toInt L₁.size - 1 = ((L.size - 1 : ℕ) : ℤ) := by
      rw [h.toInt_size]
      omega
    have hshift := shiftDown_eq (L.size - 1) (L.size - 1 - i) (n := L.size + 1) (L := L₁)
      (i := i) (by omega) (by omega) (by change L.size - 1 < L.capacity; omega) fun j _ hj => by
        rw [h.node_eq (by omega)]
        rfl
    refine ⟨{ L₁ with
      nodes := fun j => if i ≤ j ∧ j < L.size - 1 then L.nodes (j + 1) else L.nodes j
      size := L.size - 1 }, ?_, ?_, ⟨?_, ?_, h.pos, h.lt, fun j d hj => ?_⟩⟩
    · simp only [ArrayList.remove, hindex]
      rw [if_neg (show ¬ (i : ℤ) < 0 by omega), hfree, Option.bind_eq_bind, Option.bind_some, hlast,
        hshift]
      rfl
    · simp [L₁, List.getElem?_eq_getElem hi]
    · simp only [Option.elim_some, List.length_eraseIdx_of_lt hi, hsize]
    · exact (Nat.sub_le ..).trans hle
    · simp only [Option.elim_some, List.getElem?_eraseIdx] at hj ⊢
      by_cases hlt : j < i
      · rw [if_pos hlt] at hj
        rw [if_neg (by omega)]
        exact h.nodes j d hj
      · rw [if_neg hlt] at hj
        have := (List.getElem?_eq_some_iff.mp hj).1
        rw [if_pos (by omega)]
        exact h.nodes (j + 1) d hj

theorem clearLoop_eq {k : ℕ} : ∀ {i : ℕ} {L : ArrayList V}, L.Holds seq → i + k = seq.length →
    L.clearLoop (List.range' i k) =
      some { L with freed := L.freed ++ (seq.drop i).filter Option.isSome } := by
  induction k with
  | zero =>
    intro i L _ hlen
    rw [show i = seq.length from hlen]
    simp [clearLoop]
  | succ k ih =>
    intro i L h hlen
    have hi : i < seq.length := by omega
    have hrest := ih (i := i + 1)
      (L := { L with freed := if seq[i].isSome then L.freed ++ [seq[i]] else L.freed })
      ⟨h.size, h.le, h.pos, h.lt, h.nodes⟩ (by omega)
    rw [List.range'_succ, clearLoop, h.node_eq hi, Option.bind_eq_bind, Option.bind_some, hrest,
      List.drop_eq_getElem_cons hi, List.filter_cons]
    cases seq[i].isSome <;> simp

theorem clear (h : L.Holds seq) (freeGiven : Bool) : ∃ L', L.clear freeGiven = some L' ∧
    L'.freed = L.freed ++ (if freeGiven then seq.filter Option.isSome else []) ∧
    L'.Holds [] := by
  cases freeGiven with
  | false =>
    exact ⟨{ L with size := 0 }, rfl, by simp, ⟨rfl, Nat.zero_le _, h.pos, h.lt, by simp⟩⟩
  | true =>
    have hloop := clearLoop_eq h (Nat.zero_add _)
    rw [← List.range_eq_range', ← h.size] at hloop
    refine ⟨{ L with size := 0, freed := L.freed ++ seq.filter Option.isSome }, ?_, rfl,
      ⟨rfl, Nat.zero_le _, h.pos, h.lt, by simp⟩⟩
    rw [ArrayList.clear, hloop]
    rfl

end Holds

end ArrayList

inductive ArrayCall (V : Type) where
  | insert (index : ℤ) (data : Option V) (mem : Bool)
  | append (index : ℤ) (data : Option V) (mem : Bool)
  | remove (index : ℤ) (freeGiven : Bool)
  | clear (freeGiven : Bool)
  | ensureCapacity (capacity : ℕ) (mem : Bool)

inductive ArrayAnswer where
  | entry (i : Option ℕ)
  | done (ok : Bool)
deriving DecidableEq

def ArrayList.call (L : ArrayList V) : ArrayCall V → Option (ArrayAnswer × ArrayList V)
  | .insert index data mem => (L.insert index data mem).map fun r => (.entry r.1, r.2)
  | .append index data mem => (L.append index data mem).map fun r => (.entry r.1, r.2)
  | .remove index freeGiven => (L.remove index freeGiven).map fun r => (.done r.1, r.2)
  | .clear freeGiven => (L.clear freeGiven).map fun L => (.done true, L)
  | .ensureCapacity capacity mem =>
    let r := L.ensureCapacity capacity mem
    some (.done r.1, r.2)

structure ArrayRun (V : Type) where
  list : ArrayList V
  seq : List (Option V)

namespace ArrayRun

open ArrayList

def target (s : ArrayRun V) : ArrayCall V → Option ℕ
  | .insert index _ mem => if s.list.Roomy mem then place s.seq.length index else none
  | .append index _ mem =>
    if s.list.Roomy mem then (place s.seq.length index).map fun i => min (i + 1) s.seq.length
    else none
  | _ => none

def edit (s : ArrayRun V) : ArrayCall V → List (Option V)
  | .insert index data mem =>
    (s.target (.insert index data mem)).elim s.seq fun i => s.seq.insertIdx i data
  | .append index data mem =>
    (s.target (.append index data mem)).elim s.seq fun i => s.seq.insertIdx i data
  | .remove index _ => (position s.seq.length index).elim s.seq s.seq.eraseIdx
  | .clear _ => []
  | .ensureCapacity _ _ => s.seq

def answer (s : ArrayRun V) : ArrayCall V → ArrayAnswer
  | .insert index data mem => .entry (s.target (.insert index data mem))
  | .append index data mem => .entry (s.target (.append index data mem))
  | .remove index _ => .done (position s.seq.length index).isSome
  | .clear _ => .done true
  | .ensureCapacity capacity mem =>
    .done (decide (s.list.capacity < capacity → dsCapIsValid capacity ∧ mem))

def frees (s : ArrayRun V) : ArrayCall V → List (Option V)
  | .remove index freeGiven =>
    if freeGiven then ((position s.seq.length index).bind (s.seq[·]?)).toList else []
  | .clear freeGiven => if freeGiven then s.seq.filter Option.isSome else []
  | _ => []

/-- **An `int` index other than `INT_MIN`.** -/
def Legal (_ : ArrayRun V) : ArrayCall V → Prop
  | .insert index _ _ | .append index _ _ | .remove index _ => -2 ^ 31 < index ∧ index < 2 ^ 31
  | _ => True

instance (s : ArrayRun V) (c : ArrayCall V) : Decidable (s.Legal c) :=
  match c with
  | .insert _ _ _ | .append _ _ _ | .remove _ _ => inferInstanceAs (Decidable (_ ∧ _))
  | .clear _ | .ensureCapacity _ _ => .isTrue trivial

def next (s : ArrayRun V) (c : ArrayCall V) : Option (ArrayRun V) :=
  (s.list.call c).map fun r => ⟨r.2, s.edit c⟩

structure Represents (s : ArrayRun V) : Prop where
  size : s.list.size = s.seq.length
  isEmpty : s.list.isEmpty = s.seq.isEmpty
  nodes : ∀ i d, s.seq[i]? = some d → s.list.nodes i = some d
  index (index : ℤ) : s.list.index index = position s.seq.length index
  find (cmp : Option V → Option V → ℤ) (index : ℤ) (data : Option V) :
    s.list.find cmp index data = some ((position s.seq.length index).elim (-1) fun i =>
      ((s.seq.drop i).findIdx? fun d => cmp d data = 0).elim (-1) fun k => ((i + k : ℕ) : ℤ))
  calls (c : ArrayCall V) (hc : s.Legal c) : ∃ L', s.list.call c = some (s.answer c, L') ∧
    L'.freed = s.list.freed ++ s.frees c

variable {s : ArrayRun V}

theorem holds_edit (h : s.list.Holds s.seq) (c : ArrayCall V) : ∃ L',
    s.list.call c = some (s.answer c, L') ∧ L'.freed = s.list.freed ++ s.frees c ∧
      L'.Holds (s.edit c) := by
  cases c with
  | insert index data mem =>
    obtain ⟨L', hcall, hfreed, h'⟩ := h.insert index data mem
    refine ⟨L', by rw [call, hcall]; rfl, by simpa [frees] using hfreed, ?_⟩
    rw [edit, target]
    split_ifs at h' ⊢ <;> exact h'
  | append index data mem =>
    obtain ⟨L', hcall, hfreed, h'⟩ := h.append index data mem
    refine ⟨L', by rw [call, hcall]; rfl, by simpa [frees] using hfreed, ?_⟩
    rw [edit, target]
    split_ifs at h' ⊢
    · cases hplace : place s.seq.length index <;> rw [hplace] at h' <;> exact h'
    · exact h'
  | remove index freeGiven =>
    obtain ⟨L', hcall, hfreed, h'⟩ := h.remove index freeGiven
    exact ⟨L', by rw [call, hcall]; rfl, hfreed, h'⟩
  | clear freeGiven =>
    obtain ⟨L', hcall, hfreed, h'⟩ := h.clear freeGiven
    exact ⟨L', by rw [call, hcall]; rfl, hfreed, h'⟩
  | ensureCapacity capacity mem =>
    obtain ⟨hroom, L', hcall, h', -, hfreed⟩ | ⟨hroom, hcall⟩ := h.ensureCapacity capacity mem
    · exact ⟨L', by rw [call, hcall, answer, decide_eq_true hroom], by simpa [frees] using hfreed,
        h'⟩
    · exact ⟨s.list, by rw [call, hcall, answer, decide_eq_false hroom], by simp [frees], h⟩

theorem represents_of_holds (h : s.list.Holds s.seq) : s.Represents where
  size := h.size
  isEmpty := by
    rw [ArrayList.isEmpty, h.size]
    cases s.seq <;> simp
  nodes := h.nodes
  index := h.index_eq
  find := h.find_eq
  calls c _ := by
    obtain ⟨L', hcall, hfreed, -⟩ := holds_edit h c
    exact ⟨L', hcall, hfreed⟩

theorem array_represents_of_reach {capacity : ℕ} {mem : Bool} {L : ArrayList V}
    (hL : ArrayList.init capacity mem = some L) (hs : Steps.Reach next Legal ⟨L, []⟩ s) :
    s.Represents := by
  have hholds : s.list.Holds s.seq :=
    hs.invariant (P := fun s => s.list.Holds s.seq) (holds_init hL) fun s c s' h _ hnext => by
      obtain ⟨L', hcall, -, h'⟩ := holds_edit h c
      rw [next, hcall] at hnext
      cases hnext
      exact h'
  exact represents_of_holds hholds

def threeEntries : List (ArrayCall ℕ) :=
  [.insert (-1) (some 10) true, .append (-1) (some 20) true, .insert (-1) (some 30) true,
   .append 0 (some 40) true, .insert 0 (some 50) false, .append 4 none true, .remove (-2) true]

theorem represents_threeEntries : ∃ s : ArrayRun ℕ,
    (s.seq, s.list.freed) = ([some 10, some 40, some 20], [some 30]) ∧ s.Represents := by
  have hinit : ArrayList.init 1 true = some (⟨1, 0, fun _ => none, []⟩ : ArrayList ℕ) := rfl
  exact Steps.exists_of_execWhen ⟨_, []⟩ threeEntries (by decide) fun _ hs _ =>
    array_represents_of_reach hinit hs

end ArrayRun

end Mugglec
