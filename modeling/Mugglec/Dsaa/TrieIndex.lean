import Mugglec.Dsaa.TrieMap

/-!
# Dsaa/TrieIndex — the indices a call of the trie uses, where `char` is signed

The calls index `children` by `(int)(*p)`, for one byte of the key after the other.
-/

namespace Mugglec

open Walk

variable {A V : Type}

namespace Trie

def charIndex (c : UInt8) : ℤ := c.toInt8.toInt

def InChildren (x : ℤ) : Prop := 0 ≤ x ∧ x < TRIE_CHILDREN_SIZE

instance (x : ℤ) : Decidable (InChildren x) := inferInstanceAs (Decidable (_ ∧ _))

/-- The indices that the loop of `muggle_trie_find` uses. -/
def findLoopIndices (T : Trie A V) : TriePtr A → List UInt8 → List ℤ
  | _, [] => []
  | node, c :: p =>
    charIndex c :: match (childIndex c).bind (T.childOf node) with
      | none => []
      | some child => findLoopIndices T child p

def findIndices (T : Trie A V) (key : List UInt8) : List ℤ :=
  match key with
  | [] => [charIndex 0]
  | c :: p => T.findLoopIndices .root (c :: p)

/-- The indices that the loop of `muggle_trie_insert` uses. -/
def insertLoopIndices [DecidableEq A] (T : Trie A V) (mem : List (Option A)) :
    TriePtr A → List UInt8 → List ℤ
  | _, [] => []
  | node, c :: p =>
    charIndex c :: match childIndex c with
      | none => []
      | some i =>
        match T.childOf node i with
        | some child => insertLoopIndices T mem child p
        | none =>
          match T.allocateNode mem with
          | (none, _, _) => []
          | (some child, T, mem) =>
            match T.setChild node i child with
            | none => []
            | some T => insertLoopIndices T mem child p

def insertIndices [DecidableEq A] (T : Trie A V) (mem : List (Option A)) (key : List UInt8) :
    List ℤ :=
  match key with
  | [] => [charIndex 0]
  | c :: p => T.insertLoopIndices mem .root (c :: p)

variable {T : Trie A V} {mem : List (Option A)} {node : TriePtr A} {c : UInt8} {p key : List UInt8}

theorem charIndex_eq (c : UInt8) :
    charIndex c = if c.toNat < 128 then (c.toNat : ℤ) else c.toNat - 256 := by
  have hnat : c.toInt8.toBitVec.toNat = c.toNat := rfl
  rw [charIndex, Int8.toInt, BitVec.toInt_eq_toNat_cond, hnat]
  split_ifs <;> omega

theorem charIndex_injective : Function.Injective charIndex := by
  intro c d h
  have hc := c.toNat_lt
  have hd := d.toNat_lt
  rw [charIndex_eq, charIndex_eq] at h
  refine UInt8.toNat_inj.mp ?_
  split_ifs at h <;> omega

theorem inChildren_charIndex_iff : InChildren (charIndex c) ↔ c.toNat < 128 := by
  have hc := c.toNat_lt
  rw [InChildren, charIndex_eq, TRIE_CHILDREN_SIZE]
  split_ifs <;> omega

theorem childIndex_eq_none (h : ¬ c.toNat < 128) : childIndex c = none := dif_neg h

def byteAt (key : List UInt8) (i : ℕ) : UInt8 := key.getD i 0

theorem findLoopIndices_subset (T : Trie A V) (node : TriePtr A) (p : List UInt8) :
    T.findLoopIndices node p <+: p.map charIndex := by
  induction p generalizing node with
  | nil => exact List.prefix_refl _
  | cons c p ih =>
    rw [findLoopIndices, List.map_cons]
    refine List.cons_prefix_cons.mpr ⟨rfl, ?_⟩
    cases (childIndex c).bind (T.childOf node) with
    | none => exact List.nil_prefix
    | some child => exact ih child

theorem insertLoopIndices_subset [DecidableEq A] (T : Trie A V) (mem : List (Option A))
    (node : TriePtr A) (p : List UInt8) : T.insertLoopIndices mem node p <+: p.map charIndex := by
  induction p generalizing T mem node with
  | nil => exact List.prefix_refl _
  | cons c p ih =>
    rw [insertLoopIndices, List.map_cons]
    refine List.cons_prefix_cons.mpr ⟨rfl, ?_⟩
    split
    · exact List.nil_prefix
    · split
      · exact ih ..
      · split
        · exact List.nil_prefix
        · split
          · exact List.nil_prefix
          · exact ih ..

theorem eq_charIndex_of_prefix_map {l : List ℤ} {i : ℕ} {x : ℤ} (h : l <+: p.map charIndex)
    (hx : l[i]? = some x) : x = charIndex (byteAt p i) := by
  obtain ⟨hi, rfl⟩ := List.getElem?_eq_some_iff.mp hx
  have hi' : i < p.length := by simpa using hi.trans_le h.length_le
  rw [h.getElem hi, List.getElem_map, byteAt, List.getD_eq_getElem?_getD,
    List.getElem?_eq_getElem hi', Option.getD_some]

theorem findIndices_eq {i : ℕ} {x : ℤ} (hx : (T.findIndices key)[i]? = some x) :
    x = charIndex (byteAt key i) := by
  cases key with
  | nil =>
    obtain ⟨hi, rfl⟩ := List.getElem?_eq_some_iff.mp hx
    obtain rfl : i = 0 := by simpa [findIndices] using hi
    rfl
  | cons c p => exact eq_charIndex_of_prefix_map (findLoopIndices_subset T .root (c :: p)) hx

theorem insertIndices_eq [DecidableEq A] {i : ℕ} {x : ℤ}
    (hx : (T.insertIndices mem key)[i]? = some x) : x = charIndex (byteAt key i) := by
  cases key with
  | nil =>
    obtain ⟨hi, rfl⟩ := List.getElem?_eq_some_iff.mp hx
    obtain rfl : i = 0 := by simpa [insertIndices] using hi
    rfl
  | cons c p => exact eq_charIndex_of_prefix_map (insertLoopIndices_subset T mem .root (c :: p)) hx

theorem inChildren_of_byteAt (h : ∀ c ∈ key, c.toNat < 128) (i : ℕ) :
    InChildren (charIndex (byteAt key i)) := by
  refine inChildren_charIndex_iff.mpr ?_
  rw [byteAt, List.getD_eq_getElem?_getD]
  cases hi : key[i]? with
  | none => decide
  | some c => exact h c (List.mem_of_getElem? hi)

theorem WellFormed.findLoop_eq_none_iff (h : T.WellFormed) (hnode : (T.heap node).isSome) :
    T.findLoop node p = none ↔ ∃ x ∈ T.findLoopIndices node p, ¬ InChildren x := by
  induction p generalizing node with
  | nil => simp [findLoop, findLoopIndices]
  | cons c p ih =>
    obtain ⟨n, hn⟩ := Option.isSome_iff_exists.mp hnode
    rw [findLoop, findLoopIndices, hn]
    by_cases hc : c.toNat < 128
    · have hedge := childOf_eq hn (index c)
      have hin := inChildren_charIndex_iff.mpr hc
      simp only [childIndex_eq hc, Option.bind_eq_bind, Option.bind_some, hedge]
      cases hchild : n.children (index c) with
      | none => simp [hin]
      | some child =>
        have hrest := ih (h.live (hedge.trans hchild))
        simp only [hrest, List.exists_mem_cons_iff, not_true_eq_false, hin, false_or]
    · have hout := mt inChildren_charIndex_iff.mp hc
      simp [childIndex_eq_none hc, hout]

variable [DecidableEq A]

theorem WellFormed.insertLoop_cons (h : T.WellFormed) (hnode : (T.heap node).isSome)
    (hc : c.toNat < 128) (hmem : T.Fresh mem) (p : List UInt8) :
    (mem.head?.join = none ∧ T.insertLoop mem node (c :: p) = some (none, T) ∧
      T.insertLoopIndices mem node (c :: p) = [charIndex c]) ∨
    ∃ (T' : Trie A V) (mem' : List (Option A)) (child : TriePtr A), T'.WellFormed ∧
      (T'.heap child).isSome ∧ T'.Fresh mem' ∧ (mem' = mem ∨ ∃ a, mem = some a :: mem') ∧
      T.insertLoop mem node (c :: p) = T'.insertLoop mem' child p ∧
      T.insertLoopIndices mem node (c :: p) =
        charIndex c :: T'.insertLoopIndices mem' child p := by
  obtain ⟨n, hn⟩ := Option.isSome_iff_exists.mp hnode
  have hedge := childOf_eq hn (index c)
  simp only [Trie.insertLoop, insertLoopIndices, hn, childIndex_eq hc, hedge, Option.bind_eq_bind,
    Option.bind_some]
  cases hchild : n.children (index c) with
  | some child =>
    exact .inr ⟨T, mem, child, h, h.live (hedge.trans hchild), hmem, .inl rfl, rfl, rfl⟩
  | none =>
    obtain _ | ⟨_ | a, mem⟩ := mem
    · exact .inl ⟨rfl, rfl, rfl⟩
    · exact .inl ⟨rfl, rfl, rfl⟩
    · have hfree := hmem.head
      refine .inr ⟨T.addLeaf node n (index c) a none, mem, .node a, h.addLeaf hn hfree hchild, ?_,
        hmem.tail hn, .inr ⟨a, rfl⟩, ?_, ?_⟩
      · rw [heap_addLeaf_node hn hfree]
        rfl
      · simp only [allocateNode, setChild_allocateNode hn hfree, Option.bind_some]
      · simp only [allocateNode, setChild_allocateNode hn hfree]

theorem insertLoop_outside (T : Trie A V) (mem : List (Option A)) (node : TriePtr A)
    (p : List UInt8) (hc : ¬ c.toNat < 128) :
    T.insertLoop mem node (c :: p) = none ∧
      T.insertLoopIndices mem node (c :: p) = [charIndex c] := by
  rw [Trie.insertLoop, insertLoopIndices, childIndex_eq_none hc]
  cases T.heap node <;> exact ⟨rfl, rfl⟩

theorem WellFormed.insertLoop_eq_none_iff (h : T.WellFormed) (hnode : (T.heap node).isSome)
    (hmem : T.Fresh mem) :
    T.insertLoop mem node p = none ↔ ∃ x ∈ T.insertLoopIndices mem node p, ¬ InChildren x := by
  induction p generalizing T node mem with
  | nil => simp [Trie.insertLoop, insertLoopIndices]
  | cons c p ih =>
    by_cases hc : c.toNat < 128
    · have hin := inChildren_charIndex_iff.mpr hc
      obtain ⟨-, hloop, hidx⟩ | ⟨T', mem', child, h', hlive, hfresh, -, hloop, hidx⟩ :=
        h.insertLoop_cons hnode hc hmem p
      · simp [hloop, hidx, hin]
      · rw [hloop, hidx, ih h' hlive hfresh]
        simp only [List.exists_mem_cons_iff, hin, not_true_eq_false, false_or]
    · have hout := mt inChildren_charIndex_iff.mp hc
      obtain ⟨hloop, hidx⟩ := insertLoop_outside T mem node p hc
      simp [hloop, hidx, hout]

theorem WellFormed.exists_outside (h : T.WellFormed) (hnode : (T.heap node).isSome) {l : List A}
    (hmem : T.Fresh (l.map some)) (hlen : p.length ≤ l.length) (hbad : ∃ c ∈ p, ¬ c.toNat < 128) :
    ∃ x ∈ T.insertLoopIndices (l.map some) node p, ¬ InChildren x := by
  induction p generalizing T node l with
  | nil => simp at hbad
  | cons c p ih =>
    by_cases hc : c.toNat < 128
    · have hbad' : ∃ c ∈ p, ¬ c.toNat < 128 := by simpa [not_le.mpr hc] using hbad
      rw [List.length_cons] at hlen
      obtain ⟨hnone, -, -⟩ | ⟨T', mem', child, h', hlive, hfresh, hrest, -, hidx⟩ :=
        h.insertLoop_cons hnode hc hmem p
      · cases l with
        | nil => simp at hlen
        | cons a l => simp at hnone
      · -- what is left of the memory is enough for the rest of the key
        obtain ⟨l', rfl, hlen'⟩ : ∃ l' : List A, mem' = l'.map some ∧ p.length ≤ l'.length := by
          obtain rfl | ⟨a, ha⟩ := hrest
          · exact ⟨l, rfl, by omega⟩
          · cases l with
            | nil => simp at ha
            | cons b l => exact ⟨l, (List.cons.inj ha).2.symm, by simpa using hlen⟩
        obtain ⟨x, hx, hout⟩ := ih h' hlive hfresh hlen' hbad'
        exact ⟨x, by rw [hidx]; exact List.mem_cons_of_mem _ hx, hout⟩
    · obtain ⟨-, hidx⟩ := insertLoop_outside T (l.map some) node p hc
      exact ⟨charIndex c, by rw [hidx]; exact List.mem_singleton_self _,
        mt inChildren_charIndex_iff.mp hc⟩

end Trie

namespace TrieRun

variable [DecidableEq A]

def Uses (T : Trie A V) (mem : List (Option A)) (key : List UInt8) (i : ℕ) (x : ℤ) : Prop :=
  (T.findIndices key)[i]? = some x ∨ (T.insertIndices mem key)[i]? = some x

theorem Uses.eq {T : Trie A V} {mem : List (Option A)} {key : List UInt8} {i : ℕ} {x : ℤ}
    (h : Uses T mem key i x) : x = Trie.charIndex (Trie.byteAt key i) :=
  h.elim Trie.findIndices_eq Trie.insertIndices_eq

/-- **All indices for a key are inside the array exactly if its bytes are at most 127.** -/
theorem uses_inChildren_iff [Infinite A] (key : List UInt8) :
    ((∀ s : TrieRun A V, Steps.Reach next Legal start s → ∀ mem, s.trie.Fresh mem →
        ∀ i x, Uses s.trie mem key i x → Trie.InChildren x) ↔ ∀ c ∈ key, c.toNat < 128) ∧
    ∀ (key' : List UInt8) (T T' : Trie A V) (mem mem' : List (Option A)) (i : ℕ) (x y : ℤ),
      Trie.byteAt key i ≠ Trie.byteAt key' i → Uses T mem key i x → Uses T' mem' key' i y →
        x ≠ y := by
  refine ⟨⟨fun h => ?_, fun h s _ mem _ i x hx => ?_⟩, fun key' T T' mem mem' i x y hne hx hy => ?_⟩
  · -- a key with another byte is inserted into the new trie, with memory enough
    by_contra hbad
    push Not at hbad
    obtain ⟨S, hcard⟩ := Infinite.exists_subset_card_eq A key.length
    have hfresh : (Trie.init : Trie A V).Fresh (S.toList.map some) := by
      refine ⟨by simpa using S.nodup_toList, fun a _ => rfl⟩
    cases key with
    | nil => simp at hbad
    | cons c p =>
      have hlen : (c :: p).length ≤ S.toList.length := by rw [Finset.length_toList, hcard]
      obtain ⟨x, hx, hout⟩ := Trie.wellFormed_init.exists_outside Trie.wellFormed_init.root hfresh
        hlen (by simpa using hbad)
      obtain ⟨i, hi⟩ := List.mem_iff_getElem?.mp hx
      exact hout (h start .start _ hfresh i x (.inr hi))
  · rw [hx.eq]
    exact Trie.inChildren_of_byteAt h i
  · rw [hx.eq, hy.eq]
    exact Trie.charIndex_injective.ne hne

/-- `"é"`, of the bytes 195 and 169, looked up in a new trie. -/
theorem uses_outside_children : Uses (Trie.init : Trie ℕ ℕ) [] [195, 169] 0 (-61) ∧
    ¬ Trie.InChildren (-61) ∧ (Trie.init : Trie ℕ ℕ).find [195, 169] = none :=
  ⟨.inl rfl, by decide, rfl⟩

theorem uses_inChildren_ab : (∀ s : TrieRun ℕ ℕ, Steps.Reach next Legal start s →
      ∀ mem, s.trie.Fresh mem → ∀ i x, Uses s.trie mem [97, 98] i x → Trie.InChildren x) ∧
    ∀ (T : Trie ℕ ℕ) (x y : ℤ), Uses T [] [97, 98] 1 x → Uses T [] [97, 99] 1 y → x ≠ y := by
  obtain ⟨hin, hne⟩ := uses_inChildren_iff (A := ℕ) (V := ℕ) [97, 98]
  exact ⟨hin.mpr (by simp), fun T x y => hne [97, 99] T T [] [] 1 x y (by decide)⟩

end TrieRun

end Mugglec
