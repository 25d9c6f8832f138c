import Mugglec.Sync.DoubleBuffer

/-!
# Sync/DoubleBufferBatch — the batches are what was written

    written  =  batches taken  ++  batch in the reader's hands  ++  back buffer

Every step keeps this equation (`Inv.step`), with any number of threads.
-/

namespace Mugglec

open Function

variable {T α : Type*}

namespace SingleBuffer

variable {b : SingleBuffer α}

theorem length_values (b : SingleBuffer α) : b.values.length = b.cnt := by
  rw [values, List.length_map, List.length_range]

theorem values_push (b : SingleBuffer α) (data : α) :
    (b.push data).values = b.values ++ [data] := by
  have hkept : (List.range b.cnt).map (update b.datas b.cnt data) = b.values :=
    List.map_congr_left fun i hi => update_of_ne (List.mem_range.mp hi).ne data b.datas
  rw [← hkept]
  simp only [values, push, List.range_succ, List.map_append, List.map_singleton,
    update_self]

theorem values_eq_nil (h : b.cnt = 0) : b.values = [] :=
  List.length_eq_zero_iff.mp ((length_values b).trans h)

theorem values_ne_nil (h : b.cnt ≠ 0) : b.values ≠ [] := fun hnil =>
  h ((length_values b).symm.trans (congrArg List.length hnil))

end SingleBuffer

namespace DoubleBufferState

def places (s : DoubleBufferState T α) : BufferThread T → Monitor.Place BufferCv
  | .reader => s.reader.place
  | .writer t => (s.writers t).place

abbrev Inside (s : DoubleBufferState T α) (u : BufferThread T) : Prop := s.places u = .inside

variable [DecidableEq T] {s s' : DoubleBufferState T α} {t : T}
variable {m : Monitor (BufferThread T) BufferCv}

theorem places_goto (s : DoubleBufferState T α) (t : T) (pc : BufferWriterPc α) :
    (s.goto t pc).places = update s.places (.writer t) pc.place := by
  funext u
  cases u with
  | reader => rfl
  | writer u =>
    rcases eq_or_ne u t with rfl | hne
    · simp only [places, goto, update_self]
    · have hne' : BufferThread.writer u ≠ .writer t := fun h => hne (BufferThread.writer.inj h)
      simp only [places, goto, update_of_ne hne, update_of_ne hne']

theorem places_setReader (s : DoubleBufferState T α) (pc : BufferReaderPc) :
    ({ s with reader := pc } : DoubleBufferState T α).places =
      update s.places .reader pc.place := by
  funext u
  cases u with
  | reader => rw [update_self]; rfl
  | writer u => rw [update_of_ne (by simp)]; rfl

def WriterOk (b : DoubleBuffer α) : BufferWriterPc α → Prop
  | .test _ p => p = b.back
  | .store _ p => p = b.back ∧ (b.buf p).cnt ≠ b.capacity
  | _ => True

def ReaderOk (b : DoubleBuffer α) : BufferReaderPc → Prop
  | .swap => (b.buf b.back).cnt ≠ 0
  | .notify | .unlock | .ret => (b.buf b.front).cnt ≠ 0
  | .holding p => p = b.front ∧ (b.buf p).cnt ≠ 0
  | _ => True

def handed (b : DoubleBuffer α) : BufferReaderPc → List α
  | .notify | .unlock | .ret | .holding _ => (b.buf b.front).values
  | _ => []

structure Ledger (c : ℕ) (b : DoubleBuffer α) (reader : BufferReaderPc) (written : List α)
    (taken : List (List α)) : Prop where
  capacity : b.capacity = c
  distinct : b.front ≠ b.back
  cnt_le : ∀ p, (b.buf p).cnt ≤ c
  delivered : taken.flatten ++ handed b reader ++ (b.buf b.back).values = written
  taken : ∀ batch ∈ taken, batch ≠ [] ∧ batch.length ≤ c

structure Inv (c : ℕ) (s : DoubleBufferState T α) : Prop where
  seats : s.monitor.Seats s.places
  ledger : Ledger c s.buffer s.reader s.written s.taken
  writers : ∀ t, WriterOk s.buffer (s.writers t)
  reader : ReaderOk s.buffer s.reader
  decided : ∀ d ∈ s.decided, d.1 = .full ↔ d.2 = c

variable {c : ℕ}

theorem inv_start {b : DoubleBuffer α} (hb : Ledger c b .idle [] []) :
    Inv c (start b : DoubleBufferState T α) := by
  refine ⟨?_, hb, fun _ => trivial, trivial, fun _ h => absurd h List.not_mem_nil⟩
  have hplaces : (start b : DoubleBufferState T α).places = fun _ => .outside := by
    funext u
    cases u <;> rfl
  rw [hplaces]
  exact Monitor.seats_init

section Ledger

variable {b : DoubleBuffer α} {reader : BufferReaderPc} {written : List α} {taken : List (List α)}

theorem Ledger.append (h : Ledger c b reader written taken) {p : Fin 2} (hp : p = b.back)
    (hroom : (b.buf p).cnt ≠ b.capacity) (data : α) :
    Ledger c (b.append p data) reader (written ++ [data]) taken := by
  subst hp
  have hback : ((b.append b.back data).buf b.back) = (b.buf b.back).push data :=
    update_self ..
  have hfront : ((b.append b.back data).buf b.front) = b.buf b.front :=
    update_of_ne h.distinct ..
  have hhanded : handed (b.append b.back data) reader = handed b reader := by
    cases reader <;> first | rfl | exact congrArg SingleBuffer.values hfront
  refine ⟨h.capacity, h.distinct, ?_, ?_, h.taken⟩
  · refine (forall_update_iff b.buf fun _ (q : SingleBuffer α) => q.cnt ≤ c).mpr
      ⟨?_, fun p _ => h.cnt_le p⟩
    exact lt_of_le_of_ne (h.cnt_le b.back) (h.capacity ▸ hroom)
  · rw [hhanded]
    change taken.flatten ++ handed b reader ++ ((b.append b.back data).buf b.back).values = _
    rw [hback, SingleBuffer.values_push, ← List.append_assoc, h.delivered]

theorem Ledger.swap (h : Ledger c b .swap written taken) :
    Ledger c b.swap .notify written taken := by
  have hfront : b.swap.buf b.swap.front = b.buf b.back :=
    update_of_ne h.distinct.symm ..
  have hback : b.swap.buf b.swap.back = { b.buf b.front with cnt := 0 } :=
    update_self ..
  refine ⟨h.capacity, h.distinct.symm, ?_, ?_, h.taken⟩
  · exact (forall_update_iff b.buf fun _ (q : SingleBuffer α) => q.cnt ≤ c).mpr
      ⟨Nat.zero_le c, fun p _ => h.cnt_le p⟩
  · have hdelivered := h.delivered
    simp only [handed, List.append_nil] at hdelivered ⊢
    have hempty : ({ b.buf b.front with cnt := 0 } : SingleBuffer α).values = [] :=
      SingleBuffer.values_eq_nil rfl
    rw [hback, hfront, hempty, List.append_nil, hdelivered]

theorem Ledger.take {p : Fin 2} (h : Ledger c b (.holding p) written taken) (hp : p = b.front)
    (hne : (b.buf p).cnt ≠ 0) :
    Ledger c b .lock written (taken ++ [(b.buf p).values]) := by
  refine ⟨h.capacity, h.distinct, h.cnt_le, ?_, List.forall_mem_append.mpr
    ⟨h.taken, List.forall_mem_singleton.mpr ⟨SingleBuffer.values_ne_nil hne, ?_⟩⟩⟩
  · have hdelivered := h.delivered
    simp only [handed, List.append_nil] at hdelivered ⊢
    rw [List.flatten_append, List.flatten_singleton, hp, hdelivered]
  · exact (SingleBuffer.length_values _).trans_le (h.cnt_le p)

theorem Ledger.move (h : Ledger c b reader written taken) {reader' : BufferReaderPc}
    (hhanded : handed b reader' = handed b reader) : Ledger c b reader' written taken :=
  ⟨h.capacity, h.distinct, h.cnt_le, hhanded ▸ h.delivered, h.taken⟩

end Ledger

theorem Inv.alone (h : Inv c s) {u v : BufferThread T} (hu : s.Inside u) (hv : s.Inside v) :
    u = v :=
  Option.some.inj (((h.seats.inside u).mp hu).symm.trans ((h.seats.inside v).mp hv))

theorem WriterOk.of_not_inside {b : DoubleBuffer α} {pc : BufferWriterPc α}
    (h : pc.place ≠ .inside) : WriterOk b pc := by
  cases pc <;> first | exact trivial | exact absurd rfl h

theorem Inv.move (h : Inv c s) (pc : BufferWriterPc α)
    (hseats : m.Seats (update s.places (.writer t) pc.place))
    (hok : WriterOk s.buffer pc) {decided : List (Err × ℕ)}
    (hdecided : ∀ d ∈ decided, d.1 = .full ↔ d.2 = c) :
    Inv c { s.goto t pc with monitor := m, decided := decided } where
  seats := places_goto s t pc ▸ hseats
  ledger := h.ledger
  writers := (forall_update_iff s.writers fun _ pc => WriterOk s.buffer pc).mpr
    ⟨hok, fun t' _ => h.writers t'⟩
  reader := h.reader
  decided := hdecided

theorem Inv.resolve (h : Inv c s) (pc : BufferWriterPc α)
    (hplace : (s.writers t).place = pc.place) (hok : WriterOk s.buffer pc) {ret : Err}
    (hret : ret = .full ↔ (s.buffer.buf s.buffer.back).cnt = c) : Inv c (s.resolve t pc ret) := by
  refine h.move pc (h.seats.stay hplace) hok (List.forall_mem_append.mpr
    ⟨h.decided, List.forall_mem_singleton.mpr ?_⟩)
  rwa [SingleBuffer.length_values]

theorem Inv.moveReader (h : Inv c s) (pc : BufferReaderPc)
    (hseats : m.Seats (update s.places .reader pc.place)) (hok : ReaderOk s.buffer pc)
    (hhanded : handed s.buffer pc = handed s.buffer s.reader) : Inv c (s.enterReader pc m) where
  seats := places_setReader s pc ▸ hseats
  ledger := h.ledger.move hhanded
  writers := h.writers
  reader := hok
  decided := h.decided

theorem Inv.store (h : Inv c s) {data : α} {p : Fin 2} (hpc : s.writers t = .store data p) :
    Inv c { s.goto t .notify with
      buffer := s.buffer.append p data, written := s.written ++ [data] } := by
  have hin : s.Inside (.writer t) := congrArg BufferWriterPc.place hpc
  have hok := h.writers t
  rw [hpc] at hok
  obtain ⟨rfl, hroom⟩ := hok
  refine ⟨?_, h.ledger.append rfl hroom data, ?_, ?_, h.decided⟩
  · exact places_goto s t .notify ▸ h.seats.stay hin
  · refine (forall_update_iff s.writers fun _ pc => WriterOk _ pc).mpr
      ⟨trivial, fun t' hne => .of_not_inside fun hin' => hne ?_⟩
    exact BufferThread.writer.inj (h.alone hin' hin)
  · have hout : ¬ s.Inside .reader := fun hin' => absurd (h.alone hin' hin) nofun
    have hreader := h.reader
    have hfront : (s.buffer.append s.buffer.back data).buf s.buffer.front =
        s.buffer.buf s.buffer.front := update_of_ne h.ledger.distinct ..
    change ReaderOk _ s.reader
    cases hr : s.reader with
    | swap | notify | unlock => exact absurd (congrArg BufferReaderPc.place hr) hout
    | ret =>
      rw [hr] at hreader
      exact (congrArg SingleBuffer.cnt hfront).trans_ne hreader
    | holding p =>
      rw [hr] at hreader
      obtain ⟨rfl, hne⟩ := hreader
      exact ⟨rfl, (congrArg SingleBuffer.cnt hfront).trans_ne hne⟩
    | _ => trivial

theorem Inv.swap (h : Inv c s) (hpc : s.reader = .swap) :
    Inv c { s with reader := .notify, buffer := s.buffer.swap } := by
  have hin : s.Inside .reader := congrArg BufferReaderPc.place hpc
  have hreader := h.reader
  rw [hpc] at hreader
  have hfront : s.buffer.swap.buf s.buffer.swap.front = s.buffer.buf s.buffer.back :=
    update_of_ne h.ledger.distinct.symm ..
  refine ⟨?_, (hpc ▸ h.ledger).swap, fun t => .of_not_inside fun hin' => ?_, ?_, h.decided⟩
  · exact places_setReader s .notify ▸ h.seats.stay hin
  · exact absurd (h.alone hin (v := .writer t) hin') nofun
  · exact (congrArg SingleBuffer.cnt hfront).trans_ne hreader

theorem Inv.writerStep (h : Inv c s) (hnext : s.writerStep t = some s') : Inv c s' := by
  have hok := h.writers t
  have hat : s.places (.writer t) = (s.writers t).place := rfl
  rw [DoubleBufferState.writerStep] at hnext
  generalize hpc : s.writers t = pc at hnext hat hok
  cases pc with
  | idle => cases hnext
  | lock data =>
    simp only [Option.map_eq_some_iff] at hnext
    obtain ⟨m, hm, rfl⟩ := hnext
    exact h.move (.load data) (h.seats.lock hat hm) trivial h.decided
  | load data =>
    cases hnext
    exact h.move (.test data s.buffer.back) (h.seats.stay hat) rfl h.decided
  | test data p =>
    dsimp only at hnext
    obtain rfl := hok
    split_ifs at hnext with hfull hnb <;> cases hnext
    · exact h.resolve (.unlock .full) (hat.trans rfl) trivial
        (iff_of_true rfl (hfull.trans h.ledger.capacity))
    · exact h.move (.blocked data) (h.seats.wait hat .notFull) trivial h.decided
    · refine h.resolve (.store data s.buffer.back) (hat.trans rfl) ⟨rfl, hfull⟩
        (iff_of_false nofun ?_)
      exact fun hc => hfull (hc.trans h.ledger.capacity.symm)
  | blocked data =>
    simp only [Option.map_eq_some_iff] at hnext
    obtain ⟨m, hm, rfl⟩ := hnext
    exact h.move (.load data) (h.seats.resume hat hm) trivial h.decided
  | store data p =>
    simp only [Option.some.injEq] at hnext
    exact hnext ▸ h.store hpc
  | notify => cases hnext
  | unlock ret =>
    cases hnext
    exact h.move .idle (h.seats.unlock hat) trivial h.decided

theorem Inv.readerStep (h : Inv c s) (hnext : s.readerStep = some s') : Inv c s' := by
  have hok := h.reader
  have hat : s.places .reader = s.reader.place := rfl
  rw [DoubleBufferState.readerStep] at hnext
  generalize hpc : s.reader = pc at hnext hat hok
  cases pc with
  | idle => cases hnext
  | holding p => cases hnext
  | lock =>
    simp only [Option.map_eq_some_iff] at hnext
    obtain ⟨m, hm, rfl⟩ := hnext
    exact h.moveReader _ (h.seats.lock hat hm) trivial (by rw [hpc]; rfl)
  | test =>
    dsimp only at hnext
    split_ifs at hnext with hempty <;> cases hnext
    · exact h.moveReader _ (h.seats.wait hat .notEmpty) trivial (by rw [hpc]; rfl)
    · exact h.moveReader .swap (h.seats.stay hat) hempty (by rw [hpc]; rfl)
  | blocked =>
    simp only [Option.map_eq_some_iff] at hnext
    obtain ⟨m, hm, rfl⟩ := hnext
    exact h.moveReader _ (h.seats.resume hat hm) trivial (by rw [hpc]; rfl)
  | swap =>
    simp only [Option.some.injEq] at hnext
    exact hnext ▸ h.swap hpc
  | notify => cases hnext
  | unlock =>
    cases hnext
    exact h.moveReader _ (h.seats.unlock hat) hok (by rw [hpc]; rfl)
  | ret =>
    cases hnext
    exact h.moveReader (.holding s.buffer.front) (h.seats.stay hat) ⟨rfl, hok⟩ (by rw [hpc]; rfl)

theorem Inv.step {a : DoubleBufferStep T α} (h : Inv c s) (hnext : s.next a = some s') :
    Inv c s' := by
  have hat : ∀ {t pc}, s.writers t = pc → s.places (.writer t) = pc.place :=
    fun hpc => congrArg BufferWriterPc.place hpc
  have hatReader : ∀ {pc}, s.reader = pc → s.places .reader = pc.place :=
    fun hpc => congrArg BufferReaderPc.place hpc
  cases a with
  | write t data =>
    rw [next] at hnext
    cases hpc : s.writers t <;> simp only [hpc, reduceCtorEq] at hnext
    cases hnext
    exact h.move (.lock data) (h.seats.stay ((hat hpc).trans rfl)) trivial h.decided
  | writer t => exact h.writerStep hnext
  | notifyReader t who =>
    rw [next] at hnext
    cases hpc : s.writers t <;> simp only [hpc, reduceCtorEq, Option.map_eq_some_iff] at hnext
    obtain ⟨m, hm, rfl⟩ := hnext
    exact h.move (.unlock .ok) ((h.seats.notifyOne hm).stay ((hat hpc).trans rfl)) trivial h.decided
  | read =>
    rw [next] at hnext
    cases hpc : s.reader <;> simp only [hpc, reduceCtorEq, Option.some.injEq] at hnext
    · subst hnext
      exact h.moveReader .lock (h.seats.stay ((hatReader hpc).trans rfl)) trivial (by rw [hpc]; rfl)
    · have hok := h.reader
      rw [hpc] at hok
      subst hnext
      refine ⟨?_, (hpc ▸ h.ledger).take hok.1 hok.2, h.writers, trivial, h.decided⟩
      exact places_setReader s .lock ▸ h.seats.stay ((hatReader hpc).trans rfl)
  | reader => exact h.readerStep hnext
  | notifyWriter who =>
    rw [next] at hnext
    cases hpc : s.reader <;> simp only [hpc, reduceCtorEq, Option.map_eq_some_iff] at hnext
    obtain ⟨m, hm, rfl⟩ := hnext
    have hok := h.reader
    rw [hpc] at hok
    exact h.moveReader .unlock ((h.seats.notifyOne hm).stay ((hatReader hpc).trans rfl)) hok
      (by rw [hpc]; rfl)
  | spuriousWriter t =>
    rw [next] at hnext
    cases hpc : s.writers t <;> simp only [hpc, reduceCtorEq, Option.map_eq_some_iff] at hnext
    obtain ⟨m, hm, rfl⟩ := hnext
    exact ⟨h.seats.spurious hm, h.ledger, h.writers, h.reader, h.decided⟩
  | spuriousReader =>
    rw [next] at hnext
    cases hpc : s.reader <;> simp only [hpc, reduceCtorEq, Option.map_eq_some_iff] at hnext
    obtain ⟨m, hm, rfl⟩ := hnext
    exact ⟨h.seats.spurious hm, h.ledger, h.writers, h.reader, h.decided⟩

structure Batched (c : ℕ) (s : DoubleBufferState T α) : Prop where
  delivered : s.taken.flatten ++ handed s.buffer s.reader ++
    (s.buffer.buf s.buffer.back).values = s.written
  taken : ∀ batch ∈ s.taken, batch ≠ [] ∧ batch.length ≤ c
  held : ∀ p, s.reader = .holding p → p = s.buffer.front ∧
    (s.buffer.buf p).values ≠ [] ∧ (s.buffer.buf p).values.length ≤ c
  untouched : ∀ t data p, s.writers t = .store data p → p ≠ s.buffer.front
  decided : ∀ d ∈ s.decided, d.1 = .full ↔ d.2 = c

theorem Inv.batched (h : Inv c s) : Batched c s where
  delivered := h.ledger.delivered
  taken := h.ledger.taken
  held := fun p hp => by
    have hok := h.reader
    rw [hp] at hok
    refine ⟨hok.1, SingleBuffer.values_ne_nil hok.2, ?_⟩
    exact (SingleBuffer.length_values _).trans_le (h.ledger.cnt_le p)
  untouched := fun t data p hp => by
    have hok := h.writers t
    rw [hp] at hok
    exact hok.1 ▸ h.ledger.distinct.symm
  decided := h.decided

omit [DecidableEq T] in
theorem ledger_of_init {g : DoubleBuffer.Grants} {capacity : ℤ} {nonBlocking : Bool}
    {junk : Fin 2 → ℕ → α} {b : DoubleBuffer α}
    (hinit : DoubleBuffer.init g capacity nonBlocking junk = .ok b) :
    Ledger b.capacity b .idle [] [] := by
  rw [DoubleBuffer.init] at hinit
  split_ifs at hinit with hcap hdatas hmutex hfull hempty
  obtain rfl := Except.ok.inj hinit
  exact ⟨rfl, Fin.zero_ne_one, fun _ => Nat.zero_le _, rfl, fun _ h => absurd h List.not_mem_nil⟩

/-- **What is read is what was written**, in batches, in every interleaving. -/
theorem batched_of_reach {g : DoubleBuffer.Grants} {capacity : ℤ} {nonBlocking : Bool}
    {junk : Fin 2 → ℕ → α} {b : DoubleBuffer α}
    (hinit : DoubleBuffer.init g capacity nonBlocking junk = .ok b)
    (hs : Steps.Reach next Steps.anyStep (start b) s) : Batched b.capacity s := by
  have hinv : Inv b.capacity s :=
    hs.invariant (inv_start (ledger_of_init hinit)) fun _ _ _ h _ => h.step
  exact hinv.batched

def refusedWhileHeld : List (DoubleBufferStep Bool ℕ) :=
  [.write true 7, .writer true, .writer true, .writer true, .writer true, .notifyReader true none,
   .writer true, .read, .reader, .reader, .reader, .notifyWriter none, .reader, .reader,
   .write true 8, .writer true, .writer true, .writer true, .writer true, .notifyReader true none,
   .writer true, .write false 9, .writer false, .writer false, .writer false, .writer false]

theorem batched_refusedWhileHeld : ∃ s,
    Steps.exec next (start ⟨fun _ => ⟨fun _ => 0, 0⟩, 0, 1, 1, true⟩) refusedWhileHeld = some s ∧
    (s.written, handed s.buffer s.reader, s.decided) =
      ([7, 8], [7], [(.ok, 0), (.ok, 0), (.full, 1)]) ∧ Batched 1 s := by
  have hinit : DoubleBuffer.init .all 1 true (fun _ _ => 0) =
      .ok ⟨fun _ => ⟨fun _ => 0, 0⟩, 0, 1, 1, true⟩ := rfl
  exact Steps.exists_exec (by decide) fun _ hs _ => batched_of_reach hinit hs

end DoubleBufferState

end Mugglec
