import Mugglec.Sync.RingBufferWrite

/-!
# Sync/RingBufferRead — what the readers of a broadcast ring receive

The cursor stands for the number `W` of values written, modulo the capacity `C`.  A reader that asks
for the value of index `i` finds it as long as `W ≤ i + (C - 1)`; past that it is **lapped**, and
reads what has been written over it.
-/

namespace Mugglec

open Function

variable {T R α : Type*}

theorem getElem?_concat_of_some {l : List α} {i : ℕ} {a : α} (h : l[i]? = some a) (b : α) :
    (l ++ [b])[i]? = some a := by
  obtain ⟨hlt, -⟩ := List.getElem?_eq_some_iff.mp h
  rw [List.getElem?_append_left hlt, h]

namespace RingState

variable {rb : RingBuffer}

def Place (written : List α) (asked : ℕ) (lapped : Bool) : RingReaderPc α → Prop
  | .idle => True
  | .lock i | .poll i | .wait i _ | .asleep i => i = asked
  | .fetch i => i = asked ∧ i < written.length
  | .advance i data | .unlock i data | .ret i data =>
    i = asked ∧ i < written.length ∧ (lapped = false → written[i]? = some data)

structure ReaderOk (c : ℕ) (written : List α) (x : RingReader α) : Prop where
  asked_le : x.asked ≤ written.length
  near : x.pc ≠ .idle → x.lapped = false → written.length ≤ x.asked + (c - 1)
  place : Place written x.asked x.lapped x.pc
  inOrder : x.got.map RingRead.idx = List.range x.asked
  value : ∀ e ∈ x.got, e.lapped = false → written[e.idx]? = some e.data

section ReaderOk

variable {c i asked : ℕ} {written : List α} {x : RingReader α} {pc : RingReaderPc α} {data : α}
variable {lapped : Bool}

theorem Place.resume (h : Place written asked lapped pc) :
    Place written asked lapped (resume rb pc) := by
  cases pc with
  | asleep i =>
    rw [RingState.resume]
    split_ifs <;> exact h
  | _ => exact h

theorem Place.publish (h : Place written asked lapped pc) (b : Bool) (data : α) :
    Place (written ++ [data]) asked (lapped || b) pc := by
  have hlen : (written ++ [data]).length = written.length + 1 := List.length_append
  have hfound : ∀ {i a}, (lapped = false → written[i]? = some a) →
      (lapped || b) = false → (written ++ [data])[i]? = some a := fun hval hb =>
    getElem?_concat_of_some (hval (Bool.or_eq_false_iff.mp hb).1) data
  cases pc with
  | fetch i => exact ⟨h.1, hlen ▸ Nat.lt_succ_of_lt h.2⟩
  | advance | unlock | ret => exact ⟨h.1, hlen ▸ Nat.lt_succ_of_lt h.2.1, hfound h.2.2⟩
  | _ => exact h

theorem ReaderOk.goto (h : ReaderOk c written x) (hidle : x.pc ≠ .idle)
    (hplace : Place written x.asked x.lapped pc) : ReaderOk c written { x with pc := pc } :=
  ⟨h.asked_le, fun _ => h.near hidle, hplace, h.inOrder, h.value⟩

theorem ReaderOk.resume (h : ReaderOk c written x) :
    ReaderOk c written { x with pc := resume rb x.pc } := by
  refine ⟨h.asked_le, fun hidle => h.near ?_, h.place.resume, h.inOrder, h.value⟩
  intro hpc
  rw [hpc] at hidle
  exact hidle rfl

theorem ReaderOk.call (h : ReaderOk c written x)
    (hplace : ∀ lapped, Place written x.asked lapped pc) :
    ReaderOk c written ((x.call pc).observe c written.length) where
  asked_le := h.asked_le
  near := fun _ hlapped => not_lt.mp (of_decide_eq_false hlapped)
  place := hplace _
  inOrder := h.inOrder
  value := h.value

theorem ReaderOk.finish (h : ReaderOk c written x) (hpc : x.pc = .ret i data) :
    ReaderOk c written (x.finish i data) := by
  have hplace := h.place
  rw [hpc] at hplace
  obtain ⟨rfl, hlt, hval⟩ := hplace
  refine ⟨hlt, fun hidle => absurd rfl hidle, trivial, ?_, fun e he => ?_⟩
  · rw [RingReader.finish, List.map_append, h.inOrder, List.range_succ]
    rfl
  · rcases List.mem_append.mp he with he | he
    · exact h.value e he
    · obtain rfl := List.mem_singleton.mp he
      exact hval

theorem ReaderOk.publish (h : ReaderOk c written x) (data : α) :
    ReaderOk c (written ++ [data]) (x.observe c (written.length + 1)) := by
  have hlen : (written ++ [data]).length = written.length + 1 := List.length_append
  refine ⟨?_, fun hidle hlapped => ?_, h.place.publish _ data, h.inOrder, fun e he hl => ?_⟩
  · rw [hlen]
    exact Nat.le_succ_of_le h.asked_le
  · rw [hlen]
    exact not_lt.mp (of_decide_eq_false (Bool.or_eq_false_iff.mp hlapped).2)
  · exact getElem?_concat_of_some (h.value e he hl) data

end ReaderOk

section Broadcast

variable {s s' : RingState T R α} {t : T} {r : R}

def Readers (rb : RingBuffer) (s : RingState T R α) : Prop :=
  ∀ r, ReaderOk rb.capacity s.written (s.readers r)

theorem readers_start (junk : ℕ → α) : Readers rb (start junk : RingState T R α) := fun _ =>
  ⟨le_refl 0, fun hidle => absurd rfl hidle, trivial, rfl, fun _ he => absurd he List.not_mem_nil⟩

theorem Readers.roused (h : Readers rb s) (hs : Roused rb s s') : Readers rb s' := by
  intro r
  rw [hs.mem]
  rcases hs.readers r with heq | heq <;> rw [heq]
  · exact h r
  · exact (h r).resume

theorem Readers.writerStep [DecidableEq T] (h : Readers rb s)
    (hnext : s.writerStep rb t = some s') : Readers rb s' := by
  rw [RingState.writerStep] at hnext
  cases hpc : s.writers t <;> simp only [hpc, reduceCtorEq] at hnext <;>
    (try split_ifs at hnext) <;> cases hnext
  case publish data rpos => exact fun r => (h r).publish data
  all_goals exact h

theorem block_of_ne_once (hmode : rb.readMode ≠ .once) (m : RingMem R α) (i : ℕ) :
    block rb m i = rb.rpos i := by
  rw [block]
  cases h : rb.readMode <;> first | rfl | exact absurd h hmode

variable [DecidableEq R]

theorem Readers.update (h : Readers rb s) {x : RingReader α}
    (hx : ReaderOk rb.capacity s.written x) (r : R) :
    ∀ u, ReaderOk rb.capacity s.written (update s.readers r x u) :=
  (forall_update_iff s.readers fun _ x => ReaderOk rb.capacity s.written x).mpr
    ⟨hx, fun u _ => h u⟩

theorem Readers.readerStep (hrb : rb.Sized) (hmode : rb.readMode ≠ .once) (hw : WriteSide rb s)
    (h : Readers rb s) (hnext : s.readerStep rb r = some s') : Readers rb s' := by
  have hplace := (h r).place
  have hle := (h r).asked_le
  have hnear := (h r).near
  have hgoto : (s.readers r).pc ≠ .idle → ∀ pc, Place s.written (s.readers r).asked
      (s.readers r).lapped pc → Readers rb (s.gotoReader r pc) := fun hidle pc hpc =>
    h.update ((h r).goto hidle hpc) r
  rw [RingState.readerStep] at hnext
  cases hpc : (s.readers r).pc <;> simp only [hpc, reduceCtorEq, Option.some.injEq] at hnext <;>
    rw [hpc] at hplace hnear hgoto
  case lock i =>
    split_ifs at hnext
    cases hnext
    exact hgoto (by simp) (.poll i) hplace
  case poll i =>
    rw [block_of_ne_once hmode, hrb.rpos_eq] at hnext
    split_ifs at hnext with hne hbusy <;> cases hnext
    · obtain rfl := hplace
      exact hgoto (by simp) (.fetch _) ⟨rfl, hw.ring.lt_of_ne hle hne⟩
    · exact h
    · exact hgoto (by simp) (.wait i _) hplace
  case wait i wpos =>
    split_ifs at hnext <;> cases hnext
    · exact hgoto (by simp) (.asleep i) hplace
    · exact hgoto (by simp) (.poll i) hplace
    · exact hgoto (by simp) (.asleep i) hplace
  case fetch i =>
    obtain ⟨rfl, hlt⟩ := hplace
    rw [block_of_ne_once hmode, hrb.rpos_eq, if_neg hmode] at hnext
    have hval : (s.readers r).lapped = false → s.written[(s.readers r).asked]? =
        some (s.blocks ((s.readers r).asked % rb.capacity)) := fun hlapped =>
      hw.ring.fetch hlt (hnear (by simp) hlapped)
    split_ifs at hnext <;> cases hnext
    · exact hgoto (by simp) (.unlock _ _) ⟨rfl, hlt, hval⟩
    · exact hgoto (by simp) (.ret _ _) ⟨rfl, hlt, hval⟩
  case advance i data =>
    subst hnext
    exact hgoto (by simp) (.unlock i data) hplace
  case unlock i data =>
    subst hnext
    exact hgoto (by simp) (.ret i data) hplace
  case ret i data =>
    subst hnext
    exact h.update ((h r).finish hpc) r

variable [DecidableEq T]

theorem Readers.next (hrb : rb.Sized) (hmode : rb.readMode ≠ .once) (hw : WriteSide rb s)
    (h : Readers rb s) {a : RingStep T R α} (hnext : s.next rb a = some s') : Readers rb s' := by
  cases a with
  | write t data =>
    rw [RingState.next] at hnext
    cases hpc : s.writers t <;> simp only [hpc, reduceCtorEq] at hnext
    cases hnext
    exact h
  | writer t => exact h.writerStep hnext
  | wake t who =>
    obtain ⟨s₁, hs₁, rfl⟩ := roused_of_wake hnext
    exact fun r => h.roused hs₁ r
  | read r =>
    rw [RingState.next] at hnext
    cases hpc : (s.readers r).pc <;> simp only [hpc, reduceCtorEq] at hnext
    cases hnext
    refine h.update ((h r).call fun lapped => ?_) r
    split_ifs <;> rfl
  | reader r => exact h.readerStep hrb hmode hw hnext
  | spurious r => exact h.roused (roused_of_spurious hnext)

end Broadcast

def Holding (useSync : Bool) : RingReaderPc α → Prop
  | .poll _ | .wait _ _ | .fetch _ | .advance _ _ | .unlock _ _ => True
  | .asleep _ => useSync = true
  | _ => False

def inHand : RingReaderPc α → List α
  | .unlock _ data | .ret _ data => [data]
  | _ => []

def Taking (written : List α) (n : ℕ) (overrun : Bool) : RingReaderPc α → Prop
  | .fetch _ => n < written.length
  | .advance _ data => n < written.length ∧ (overrun = false → written[n]? = some data)
  | _ => True

theorem taking_of_not_holding {useSync : Bool} {pc : RingReaderPc α} (h : ¬ Holding useSync pc)
    (written : List α) (n : ℕ) (overrun : Bool) : Taking written n overrun pc := by
  cases pc <;> first | trivial | exact absurd trivial h

theorem Taking.publish {written : List α} {n : ℕ} {overrun : Bool} {pc : RingReaderPc α}
    (h : Taking written n overrun pc) (b : Bool) (data : α) :
    Taking (written ++ [data]) n (overrun || b) pc := by
  have hlt : n < written.length → n < (written ++ [data]).length := fun hn =>
    List.length_append ▸ Nat.lt_add_right _ hn
  cases pc with
  | fetch i => exact hlt h
  | advance i a =>
    exact ⟨hlt h.1, fun hover =>
      getElem?_concat_of_some (h.2 (Bool.or_eq_false_iff.mp hover).1) data⟩
  | _ => trivial

structure Delivered (c readCursor : ℕ) (written : List α) (delivered : List (R × α))
    (overrun : Bool) : Prop where
  cursor : readCursor = delivered.length % c
  le : delivered.length ≤ written.length
  near : overrun = false → written.length ≤ delivered.length + (c - 1)
  inOrder : overrun = false → delivered.map Prod.snd = written.take delivered.length

section Delivered

variable {c readCursor : ℕ} {written : List α} {delivered : List (R × α)} {overrun : Bool}

theorem Delivered.publish (h : Delivered c readCursor written delivered overrun) (data : α) :
    Delivered c readCursor (written ++ [data]) delivered
      (overrun || decide (delivered.length + (c - 1) < written.length + 1)) := by
  have hlen : (written ++ [data]).length = written.length + 1 := List.length_append
  refine ⟨h.cursor, hlen ▸ Nat.le_succ_of_le h.le, fun hover => ?_, fun hover => ?_⟩
  · rw [hlen]
    exact not_lt.mp (of_decide_eq_false (Bool.or_eq_false_iff.mp hover).2)
  · rw [List.take_append_of_le_length h.le]
    exact h.inOrder (Bool.or_eq_false_iff.mp hover).1

theorem Delivered.deliver (h : Delivered c readCursor written delivered overrun) {data : α}
    (hlt : delivered.length < written.length)
    (hdata : overrun = false → written[delivered.length]? = some data) (r : R) :
    Delivered c ((delivered.length + 1) % c) written (delivered ++ [(r, data)]) overrun := by
  have hlen : (delivered ++ [(r, data)]).length = delivered.length + 1 := List.length_append
  refine ⟨by rw [hlen], hlen ▸ hlt, fun hover => ?_, fun hover => ?_⟩
  · have hnear := h.near hover
    omega
  · rw [hlen, List.take_add_one, hdata hover, List.map_append, h.inOrder hover]
    rfl

end Delivered

def deliveredTo [DecidableEq R] (delivered : List (R × α)) (r : R) : List α :=
  (delivered.filter fun d => d.1 = r).map Prod.snd

theorem deliveredTo_concat [DecidableEq R] (delivered : List (R × α)) (r u : R) (data : α) :
    deliveredTo (delivered ++ [(r, data)]) u =
      deliveredTo delivered u ++ if r = u then [data] else [] := by
  simp only [deliveredTo, List.filter_append, List.map_append]
  by_cases h : r = u <;> simp [h]

structure Once [DecidableEq R] (rb : RingBuffer) (s : RingState T R α) : Prop where
  ledger : Delivered rb.capacity s.readCursor s.written s.delivered s.overrun
  reader : ∀ r, Holding rb.useSync (s.readers r).pc → s.readMutex = some (.reader r)
  writer : ∀ t, s.writers t = .wakeUnlock → s.readMutex = some (.writer t)
  taking : ∀ r, Taking s.written s.delivered.length s.overrun (s.readers r).pc
  returned : ∀ r, (s.readers r).got.map RingRead.data ++ inHand (s.readers r).pc =
    deliveredTo s.delivered r

section Once

variable {s s' : RingState T R α} {t : T} {r : R}

theorem block_once (hmode : rb.readMode = .once) (m : RingMem R α) (i : ℕ) :
    block rb m i = m.readCursor := by
  rw [block, hmode]

theorem wakePc_ne_wakeUnlock : (wakePc rb : RingWriterPc α) ≠ .wakeUnlock := by
  rw [wakePc]
  cases rb.readMode <;> cases rb.useSync <;> simp

variable [DecidableEq R]

theorem once_start (junk : ℕ → α) : Once rb (start junk : RingState T R α) where
  ledger := ⟨(Nat.zero_mod _).symm, le_refl 0, fun _ => Nat.zero_le _, fun _ => rfl⟩
  reader := fun _ h => absurd h id
  writer := fun _ h => absurd h (by simp [start])
  taking := fun _ => trivial
  returned := fun _ => rfl

theorem Once.setSleepers (h : Once rb s) (sleepers : Finset R) :
    Once rb { s with sleepers := sleepers } :=
  ⟨h.ledger, h.reader, h.writer, h.taking, h.returned⟩

theorem Once.alone (h : Once rb s) (hr : Holding rb.useSync (s.readers r).pc) :
    ∀ u ≠ r, ¬ Holding rb.useSync (s.readers u).pc := fun u hu hold =>
  hu (RingHolder.reader.inj (Option.some.inj ((h.reader u hold).symm.trans (h.reader r hr))))

theorem Once.noWriter (h : Once rb s) (hr : Holding rb.useSync (s.readers r).pc) (t : T) :
    s.writers t ≠ .wakeUnlock := fun ht =>
  absurd ((h.writer t ht).symm.trans (h.reader r hr)) (by simp)

theorem Once.update (h : Once rb s) {x : RingReader α} {mutex : Option (RingHolder T R)}
    (hreader : ∀ u ≠ r, Holding rb.useSync (s.readers u).pc → mutex = some (.reader u))
    (hwriter : ∀ t, s.writers t = .wakeUnlock → mutex = some (.writer t))
    (hhold : Holding rb.useSync x.pc → mutex = some (.reader r))
    (htaking : Taking s.written s.delivered.length s.overrun x.pc)
    (hreturned : x.got.map RingRead.data ++ inHand x.pc =
      (s.readers r).got.map RingRead.data ++ inHand (s.readers r).pc) :
    Once rb { s with readers := update s.readers r x, readMutex := mutex } where
  ledger := h.ledger
  reader := (forall_update_iff s.readers fun u x =>
    Holding rb.useSync x.pc → mutex = some (.reader u)).mpr ⟨hhold, hreader⟩
  writer := hwriter
  taking := (forall_update_iff s.readers fun _ x =>
    Taking s.written s.delivered.length s.overrun x.pc).mpr ⟨htaking, fun u _ => h.taking u⟩
  returned := (forall_update_iff s.readers fun u x =>
    x.got.map RingRead.data ++ inHand x.pc = deliveredTo s.delivered u).mpr
      ⟨hreturned.trans (h.returned r), fun u _ => h.returned u⟩

theorem Once.goto (h : Once rb s) (hr : Holding rb.useSync (s.readers r).pc)
    (pc : RingReaderPc α) (htaking : Taking s.written s.delivered.length s.overrun pc)
    (hhand : inHand pc = inHand (s.readers r).pc) : Once rb (s.gotoReader r pc) :=
  h.update (fun u _ => h.reader u) h.writer (fun _ => h.reader r hr) htaking
    (congrArg (_ ++ ·) hhand)

theorem Once.release (h : Once rb s) (hr : Holding rb.useSync (s.readers r).pc)
    (pc : RingReaderPc α) (hpc : ¬ Holding rb.useSync pc)
    (htaking : Taking s.written s.delivered.length s.overrun pc)
    (hhand : inHand pc = inHand (s.readers r).pc) :
    Once rb { s.gotoReader r pc with readMutex := none } :=
  h.update (fun u hu hold => absurd hold (h.alone hr u hu))
    (fun t ht => absurd ht (h.noWriter hr t)) (fun hold => absurd hold hpc) htaking
    (congrArg (_ ++ ·) hhand)

theorem Once.deliver (hrb : rb.Sized) (h : Once rb s) {i : ℕ} {data : α}
    (hpc : (s.readers r).pc = .advance i data) :
    Once rb { s.gotoReader r (.unlock i data) with
      readCursor := rb.bump s.readCursor
      delivered := s.delivered ++ [(r, data)] } := by
  have hr : Holding rb.useSync (s.readers r).pc := by rw [hpc]; trivial
  have htaking := h.taking r
  have hreturned := h.returned r
  rw [hpc] at htaking hreturned
  refine ⟨?_, ?_, h.writer, ?_, ?_⟩
  · have hledger := h.ledger.deliver htaking.1 htaking.2 r
    rw [← hrb.bump_eq, ← h.ledger.cursor] at hledger
    exact hledger
  · exact (forall_update_iff s.readers fun u x =>
      Holding rb.useSync x.pc → s.readMutex = some (.reader u)).mpr
        ⟨fun _ => h.reader r hr, fun u _ => h.reader u⟩
  · exact (forall_update_iff s.readers fun _ x =>
      Taking s.written _ s.overrun x.pc).mpr
        ⟨trivial, fun u hu => taking_of_not_holding (h.alone hr u hu) _ _ _⟩
  · refine (forall_update_iff s.readers fun u x =>
      x.got.map RingRead.data ++ inHand x.pc = deliveredTo (s.delivered ++ [(r, data)]) u).mpr
        ⟨?_, fun u hu => ?_⟩
    · rw [deliveredTo_concat, if_pos rfl, ← hreturned, List.append_assoc]
      rfl
    · rw [deliveredTo_concat, if_neg hu.symm, List.append_nil, h.returned u]

theorem Once.roused (h : Once rb s) (hs : Roused rb s s') : Once rb s' := by
  -- a sleeper that held the mutex holds it still, and nothing else about it matters
  have hpc : ∀ r, (s'.readers r).got = (s.readers r).got ∧
      inHand (s'.readers r).pc = inHand (s.readers r).pc ∧
      (Holding rb.useSync (s'.readers r).pc → Holding rb.useSync (s.readers r).pc) ∧
      (Taking s.written s.delivered.length s.overrun (s'.readers r).pc) := by
    intro r
    have htaking := h.taking r
    rcases hs.readers r with heq | heq <;> rw [heq]
    · exact ⟨rfl, rfl, id, htaking⟩
    · cases hr : (s.readers r).pc with
      | asleep i =>
        rw [resume]
        split_ifs with hsync
        · exact ⟨rfl, rfl, fun _ => hsync, trivial⟩
        · exact ⟨rfl, rfl, False.elim, trivial⟩
      | _ =>
        rw [hr] at htaking
        exact ⟨rfl, rfl, id, htaking⟩
  refine ⟨?_, fun r hold => ?_, fun t ht => ?_, fun r => ?_, fun r => ?_⟩
  · rw [hs.mem]
    exact h.ledger
  · rw [hs.mutex]
    exact h.reader r ((hpc r).2.2.1 hold)
  · rw [hs.mutex]
    exact h.writer t (hs.writers ▸ ht)
  · rw [hs.mem]
    exact (hpc r).2.2.2
  · rw [hs.mem, (hpc r).1, (hpc r).2.1]
    exact h.returned r

theorem Once.readerStep (hrb : rb.Sized) (hmode : rb.readMode = .once) (hw : WriteSide rb s)
    (h : Once rb s) (hnext : s.readerStep rb r = some s') : Once rb s' := by
  have hr := h.goto (r := r)
  have hrelease := h.release (r := r)
  have htaking := h.taking r
  rw [RingState.readerStep] at hnext
  cases hpc : (s.readers r).pc <;> simp only [hpc, reduceCtorEq, Option.some.injEq] at hnext <;>
    rw [hpc] at hr hrelease htaking
  case lock i =>
    split_ifs at hnext with hfree
    cases hnext
    refine h.update (fun u _ hold => ?_) (fun t ht => ?_) (fun _ => rfl) trivial ?_
    · exact absurd (hfree.symm.trans (h.reader u hold)) (by simp)
    · exact absurd (hfree.symm.trans (h.writer t ht)) (by simp)
    · rw [hpc]
      rfl
  case poll i =>
    rw [block_once hmode] at hnext
    split_ifs at hnext with hne hbusy <;> cases hnext
    · refine hr trivial (.fetch i) ?_ rfl
      exact hw.ring.lt_of_ne h.ledger.le (h.ledger.cursor ▸ hne)
    · exact h
    · exact hr trivial (.wait i _) trivial rfl
  case wait i wpos =>
    split_ifs at hnext with hsync heq <;> cases hnext
    · exact (hr trivial (.asleep i) trivial rfl).setSleepers _
    · exact hr trivial (.poll i) trivial rfl
    · exact (hrelease trivial (.asleep i) hsync trivial rfl).setSleepers _
  case fetch i =>
    rw [block_once hmode, h.ledger.cursor, if_pos hmode] at hnext
    cases hnext
    refine hr trivial (.advance i _) ⟨htaking, fun hover => ?_⟩ rfl
    exact hw.ring.fetch htaking (h.ledger.near hover)
  case advance i data =>
    subst hnext
    exact h.deliver hrb hpc
  case unlock i data =>
    subst hnext
    exact hrelease trivial (.ret i data) id trivial rfl
  case ret i data =>
    subst hnext
    refine h.update (fun u _ => h.reader u) h.writer False.elim trivial ?_
    rw [hpc, RingReader.finish, List.map_append, List.append_assoc]
    rfl

variable [DecidableEq T]

theorem Once.writerGoto (h : Once rb s) {pc : RingWriterPc α} (hpc : pc ≠ .wakeUnlock) (t : T) :
    Once rb (s.goto t pc) :=
  ⟨h.ledger, h.reader, (forall_update_iff s.writers fun t pc =>
    pc = .wakeUnlock → s.readMutex = some (.writer t)).mpr
      ⟨fun hu => absurd hu hpc, fun u _ => h.writer u⟩, h.taking, h.returned⟩

theorem Once.writerStep (h : Once rb s) (hnext : s.writerStep rb t = some s') : Once rb s' := by
  have hwriter : ∀ pc, pc ≠ .wakeUnlock → ∀ u, Function.update s.writers t pc u = .wakeUnlock →
      s.readMutex = some (.writer u) := fun pc hpc => (h.writerGoto hpc t).writer
  rw [RingState.writerStep] at hnext
  cases hpc : s.writers t <;> simp only [hpc, reduceCtorEq] at hnext
  case publish data rpos =>
    cases hnext
    exact ⟨h.ledger.publish data, h.reader, hwriter .unlock (by simp),
      fun r => (h.taking r).publish _ data, h.returned⟩
  case unlock =>
    cases hnext
    exact ⟨h.ledger, h.reader, hwriter (wakePc rb) wakePc_ne_wakeUnlock, h.taking, h.returned⟩
  case wakeLock =>
    split_ifs at hnext with hfree
    cases hnext
    refine ⟨h.ledger, fun r hold => ?_, ?_, h.taking, h.returned⟩
    · exact absurd (hfree.symm.trans (h.reader r hold)) (by simp)
    · refine (forall_update_iff s.writers fun u pc =>
        pc = .wakeUnlock → some (RingHolder.writer t) = some (.writer u)).mpr
          ⟨fun _ => rfl, fun u _ hu => ?_⟩
      exact absurd (hfree.symm.trans (h.writer u hu)) (by simp)
  case wakeUnlock =>
    cases hnext
    have howner := h.writer t hpc
    refine ⟨h.ledger, fun r hold => ?_, ?_, h.taking, h.returned⟩
    · exact absurd (howner.symm.trans (h.reader r hold)) (by simp)
    · refine (forall_update_iff s.writers fun u pc =>
        pc = .wakeUnlock → none = some (RingHolder.writer u)).mpr
          ⟨fun hu => absurd hu (by simp), fun u hne hu => ?_⟩
      exact absurd (RingHolder.writer.inj (Option.some.inj ((h.writer u hu).symm.trans howner))) hne
  -- the other steps leave the readers and their mutex alone
  all_goals
    try split_ifs at hnext
    cases hnext
    exact ⟨h.ledger, h.reader, hwriter _ (by simp), h.taking, h.returned⟩

theorem Once.next (hrb : rb.Sized) (hmode : rb.readMode = .once) (hw : WriteSide rb s)
    (h : Once rb s) {a : RingStep T R α} (hnext : s.next rb a = some s') : Once rb s' := by
  cases a with
  | write t data =>
    rw [RingState.next] at hnext
    cases hpc : s.writers t <;> simp only [hpc, reduceCtorEq] at hnext
    cases hnext
    exact h.writerGoto (by simp) t
  | writer t => exact h.writerStep hnext
  | wake t who =>
    obtain ⟨s₁, hs₁, rfl⟩ := roused_of_wake hnext
    exact (h.roused hs₁).writerGoto (by simp) t
  | read r =>
    rw [RingState.next] at hnext
    cases hpc : (s.readers r).pc <;> simp only [hpc, reduceCtorEq] at hnext
    cases hnext
    have hlock : rb.underMutex = true := by rw [RingBuffer.underMutex, hmode]
    rw [hlock]
    refine h.update (fun u _ => h.reader u) h.writer False.elim trivial ?_
    rw [hpc]
    rfl
  | reader r => exact h.readerStep hrb hmode hw hnext
  | spurious r => exact h.roused (roused_of_spurious hnext)

end Once

section Reach

variable [DecidableEq T] [DecidableEq R]

structure Received (rb : RingBuffer) (s : RingState T R α) : Prop where
  inOrder : rb.readMode ≠ .once → ∀ r,
    (s.readers r).got.map RingRead.idx = List.range (s.readers r).asked
  value : rb.readMode ≠ .once → ∀ r, ∀ e ∈ (s.readers r).got,
    e.lapped = false → s.written[e.idx]? = some e.data
  heldUp : rb.readMode ≠ .once → ∀ r, (s.readers r).pc ≠ .idle → (s.readers r).lapped = false →
    (s.cursor = rb.rpos (s.readers r).asked ↔ (s.readers r).asked = s.written.length)
  delivered : rb.readMode = .once → s.overrun = false → s.delivered.map Prod.snd <+: s.written
  returned : rb.readMode = .once → ∀ r,
    (s.readers r).got.map RingRead.data ++ inHand (s.readers r).pc = deliveredTo s.delivered r
  caughtUp : rb.readMode = .once → s.overrun = false →
    (s.cursor = s.readCursor ↔ s.delivered.map Prod.snd = s.written)

variable {rb : RingBuffer} {useSync : Bool} {g : RingBuffer.Grants} {capacity flag : ℕ}
variable {s : RingState T R α}

/-- **Every reader receives the values in the order they were written.** -/
theorem received_of_reach (junk : ℕ → α) (hlt : capacity < 2 ^ 32)
    (hinit : RingBuffer.init useSync g capacity flag = .ok rb)
    (hs : Steps.Reach (next rb) Steps.anyStep (start junk) s) : Received rb s := by
  have hrb := RingBuffer.sized_of_init hlt hinit
  have hw : WriteSide rb s := hs.invariant (writeSide_start junk)
    fun _ _ _ h _ hnext => h.next hrb hnext
  have hreaders : rb.readMode ≠ .once → Readers rb s := fun hmode =>
    (hs.invariant (P := fun s => WriteSide rb s ∧ Readers rb s)
      ⟨writeSide_start junk, readers_start junk⟩
      fun _ _ _ h _ hnext => ⟨h.1.next hrb hnext, h.2.next hrb hmode h.1 hnext⟩).2
  have honce : rb.readMode = .once → Once rb s := fun hmode =>
    (hs.invariant (P := fun s => WriteSide rb s ∧ Once rb s)
      ⟨writeSide_start junk, once_start junk⟩
      fun _ _ _ h _ hnext => ⟨h.1.next hrb hnext, h.2.next hrb hmode h.1 hnext⟩).2
  refine ⟨fun hmode r => (hreaders hmode r).inOrder, fun hmode r => (hreaders hmode r).value, ?_,
    ?_, fun hmode => (honce hmode).returned, ?_⟩
  · intro hmode r hidle hlapped
    have hr := hreaders hmode r
    rw [hrb.rpos_eq]
    exact hw.ring.eq_iff hrb.pos hr.asked_le (hr.near hidle hlapped)
  · intro hmode hover
    rw [(honce hmode).ledger.inOrder hover]
    exact List.take_prefix _ _
  · intro hmode hover
    have hledger := (honce hmode).ledger
    rw [hledger.cursor, hw.ring.eq_iff hrb.pos hledger.le (hledger.near hover),
      hledger.inOrder hover, List.take_eq_self_iff]
    exact ⟨fun h => h.ge, fun h => le_antisymm hledger.le h⟩

def writeCall (data : α) (who : Option R) : List (RingStep Unit R α) :=
  RingStep.write () data :: List.replicate 6 (.writer ()) ++ [RingStep.wake () who]

def readRoundTheRing : List (RingStep Unit Bool ℕ) := List.flatten
  [[.read true, .reader true, .reader true], writeCall 7 none,
   [.reader true, .reader true, .reader true], writeCall 8 none,
   [.read true, .reader true, .reader true, .reader true], writeCall 9 none,
   [.read true, .reader true, .reader true, .reader true,
    .read false, .reader false, .reader false, .reader false]]

def readOnceByTwo : List (RingStep Unit Bool ℕ) := List.flatten
  [[.read true, .reader true, .reader true, .reader true, .read false], writeCall 7 (some true),
   [.reader true, .reader true, .reader true, .reader true], writeCall 8 none,
   [.reader false, .reader false, .reader false, .reader false, .reader false, .reader false,
    .reader true, .read true, .reader true], writeCall 9 none,
   [.reader true, .reader true, .reader true, .reader true, .reader true]]

theorem received_roundTheRing :
    (∃ s, Steps.exec (next ⟨true, 2, .lock, .wait⟩) (start fun _ => 0) readRoundTheRing = some s ∧
      (s.written, (s.readers true).got, (s.readers false).got) =
        ([7, 8, 9], [⟨0, 7, false⟩, ⟨1, 8, false⟩, ⟨2, 9, false⟩], [⟨0, 9, true⟩]) ∧
      Received ⟨true, 2, .lock, .wait⟩ s) ∧
    ∃ s, Steps.exec (next ⟨true, 2, .lock, .once⟩) (start fun _ => 0) readOnceByTwo = some s ∧
      (s.written, s.delivered, s.overrun) =
        ([7, 8, 9], [(true, 7), (false, 8), (true, 9)], false) ∧
      Received ⟨true, 2, .lock, .once⟩ s := by
  have hall : RingBuffer.init true .all 2 0 = .ok ⟨true, 2, .lock, .wait⟩ := rfl
  have honce : RingBuffer.init true .all 2 0x10 = .ok ⟨true, 2, .lock, .once⟩ := rfl
  exact ⟨Steps.exists_exec (by decide) fun _ hs _ => received_of_reach _ (by omega) hall hs,
    Steps.exists_exec (by decide) fun _ hs _ => received_of_reach _ (by omega) honce hs⟩

end Reach

end RingState

end Mugglec
