import Mugglec.Sync.DoubleBufferBatch

/-!
# Sync/DoubleBufferWake — one notification for a whole buffer

A write makes room for one value less and a read for `C` values more, but both notify one thread.
-/

namespace Mugglec

open Function

variable {T α : Type*}

def DoubleBuffer.slack (b : DoubleBuffer α) : BufferCv → ℕ
  | .notFull => b.free
  | .notEmpty => (b.buf b.back).cnt

def BufferWriterPc.owes (pc : BufferWriterPc α) (cv : BufferCv) : ℕ :=
  match pc, cv with
  | .load _, .notFull | .test _ _, .notFull | .store _ _, .notFull => 1
  | .notify, .notEmpty => 1
  | _, _ => 0

def BufferReaderPc.owes (c : ℕ) (pc : BufferReaderPc) (cv : BufferCv) : ℕ :=
  match pc, cv with
  | .test, .notEmpty | .swap, .notEmpty => 1
  | .notify, .notFull => c
  | _, _ => 0

namespace DoubleBufferState

def due (c : ℕ) (writers : T → BufferWriterPc α) (reader : BufferReaderPc) :
    Option (BufferThread T) → BufferCv → ℕ
  | none, _ => 0
  | some .reader, cv => reader.owes c cv
  | some (.writer t), cv => (writers t).owes cv

def todo (s : DoubleBufferState T α) (cv : BufferCv) : ℕ :=
  s.buffer.slack cv - due s.buffer.capacity s.writers s.reader s.monitor.owner cv

variable {s s' : DoubleBufferState T α} {t : T} {c : ℕ}
variable {m : Monitor (BufferThread T) BufferCv}

theorem todo_le_slack (s : DoubleBufferState T α) (cv : BufferCv) :
    s.todo cv ≤ s.buffer.slack cv := Nat.sub_le _ _

theorem todo_of_free (h : s.monitor.owner = none) (cv : BufferCv) :
    s.todo cv = s.buffer.slack cv := by
  rw [todo, h]
  rfl

theorem todo_of_writer (h : s.monitor.owner = some (.writer t)) (cv : BufferCv) :
    s.todo cv = s.buffer.slack cv - (s.writers t).owes cv := by
  rw [todo, h]
  rfl

theorem todo_of_reader (h : s.monitor.owner = some .reader) (cv : BufferCv) :
    s.todo cv = s.buffer.slack cv - s.reader.owes s.buffer.capacity cv := by
  rw [todo, h]
  rfl

theorem todo_setReader (s : DoubleBufferState T α) (pc : BufferReaderPc) (taken : List (List α))
    (h : s.monitor.owner ≠ some .reader) :
    ({ s with reader := pc, taken := taken } : DoubleBufferState T α).todo = s.todo := by
  funext cv
  simp only [todo]
  rcases howner : s.monitor.owner with _ | _ | u
  · rfl
  · exact absurd howner h
  · rfl

variable [DecidableEq T]

theorem todo_goto (s : DoubleBufferState T α) (pc : BufferWriterPc α)
    (h : s.monitor.owner ≠ some (.writer t)) : (s.goto t pc).todo = s.todo := by
  funext cv
  simp only [todo, goto]
  rcases howner : s.monitor.owner with _ | _ | u
  · rfl
  · rfl
  · have hne : u ≠ t := fun hut => h (hut ▸ howner)
    simp only [due, update_of_ne hne]

theorem covers_goto (hcov : s.monitor.Covers s.todo) (howner : s.monitor.owner = some (.writer t))
    (pc : BufferWriterPc α) {decided : List (Err × ℕ)}
    (hle : ∀ cv, s.buffer.slack cv - pc.owes cv ≤ s.buffer.slack cv - (s.writers t).owes cv) :
    ({ s.goto t pc with decided := decided } : DoubleBufferState T α).monitor.Covers
      ({ s.goto t pc with decided := decided } : DoubleBufferState T α).todo := by
  refine hcov.mono fun cv => ?_
  rw [todo_of_writer howner]
  simpa only [todo, goto, howner, due, update_self] using hle cv

theorem covers_resume (hcov : s.monitor.Covers s.todo) {u : BufferThread T} {k : BufferCv}
    (hm : s.monitor.resume u k = some m) (hmonitor : s'.monitor = m)
    (hbuffer : s'.buffer = s.buffer) (hone : s'.todo k ≤ s.buffer.slack k - 1) :
    s'.monitor.Covers s'.todo := by
  have hfree := Monitor.free_of_resume hm
  subst hmonitor
  refine hcov.resume hm ?_ fun cv _ => ?_
  · rwa [todo_of_free hfree]
  · rw [todo_of_free hfree, ← hbuffer]
    exact todo_le_slack s' cv

theorem free_eq_zero {b : DoubleBuffer α} (h : (b.buf b.back).cnt = b.capacity) :
    b.slack .notFull = 0 := by
  rw [DoubleBuffer.slack, DoubleBuffer.free, h, Nat.sub_self]

theorem covers_writerStep (hcov : s.monitor.Covers s.todo) (h : Inv c s)
    (hnext : s.writerStep t = some s') : s'.monitor.Covers s'.todo := by
  have hok := h.writers t
  have howner : (s.writers t).place = .inside → s.monitor.owner = some (.writer t) :=
    (h.seats.inside (.writer t)).mp
  rw [DoubleBufferState.writerStep] at hnext
  generalize hpc : s.writers t = pc at hnext howner hok
  cases pc with
  | idle => cases hnext
  | lock data =>
    simp only [Option.map_eq_some_iff] at hnext
    obtain ⟨m, hm, rfl⟩ := hnext
    refine (hcov.lock hm).mono fun cv => ?_
    rw [todo_of_free (Monitor.free_of_lock hm)]
    exact todo_le_slack _ cv
  | load data =>
    cases hnext
    exact covers_goto hcov (howner rfl) _ fun cv => by rw [hpc]; cases cv <;> exact le_rfl
  | test data p =>
    dsimp only at hnext
    obtain rfl := hok
    split_ifs at hnext with hfull hnb <;> cases hnext
    · refine covers_goto hcov (howner rfl) _ fun cv => ?_
      cases cv with
      | notFull => rw [free_eq_zero hfull, Nat.zero_sub, Nat.zero_sub]
      | notEmpty => rw [hpc]; exact le_rfl
    · refine hcov.wait (free_eq_zero hfull) fun cv hcv => ?_
      rw [todo_of_writer (howner rfl), hpc]
      cases cv with
      | notFull => exact absurd rfl hcv
      | notEmpty => exact le_rfl
    · exact covers_goto hcov (howner rfl) _ fun cv => by rw [hpc]; cases cv <;> exact le_rfl
  | blocked data =>
    simp only [Option.map_eq_some_iff] at hnext
    obtain ⟨m, hm, rfl⟩ := hnext
    refine covers_resume hcov hm rfl rfl ?_
    simp only [todo, enter, goto, Monitor.owner_resume hm, due, update_self,
      BufferWriterPc.owes, le_refl]
  | store data p =>
    simp only [Option.some.injEq] at hnext
    obtain ⟨rfl, hroom⟩ := hok
    subst hnext
    have hback : (s.buffer.append s.buffer.back data).buf s.buffer.back =
        (s.buffer.buf s.buffer.back).push data := update_self ..
    refine hcov.mono fun cv => ?_
    rw [todo_of_writer (howner rfl), hpc]
    simp only [todo, goto, howner rfl, due, update_self]
    cases cv with
    | notFull =>
      change s.buffer.capacity - ((s.buffer.append s.buffer.back data).buf s.buffer.back).cnt - 0 ≤
        s.buffer.capacity - (s.buffer.buf s.buffer.back).cnt - 1
      rw [hback, Nat.sub_zero, Nat.sub_sub]
      exact le_rfl
    | notEmpty =>
      change ((s.buffer.append s.buffer.back data).buf s.buffer.back).cnt - 1 ≤ _
      rw [hback]
      exact le_rfl
  | notify => cases hnext
  | unlock ret =>
    cases hnext
    refine hcov.mono fun cv => ?_
    rw [todo_of_writer (howner rfl), hpc]
    exact todo_le_slack _ cv

theorem covers_readerStep (hcov : s.monitor.Covers s.todo) (h : Inv c s)
    (hnext : s.readerStep = some s') : s'.monitor.Covers s'.todo := by
  have howner : s.reader.place = .inside → s.monitor.owner = some .reader :=
    (h.seats.inside .reader).mp
  rw [DoubleBufferState.readerStep] at hnext
  generalize hpc : s.reader = pc at hnext howner
  cases pc with
  | idle => cases hnext
  | holding p => cases hnext
  | lock =>
    simp only [Option.map_eq_some_iff] at hnext
    obtain ⟨m, hm, rfl⟩ := hnext
    refine (hcov.lock hm).mono fun cv => ?_
    rw [todo_of_free (Monitor.free_of_lock hm)]
    exact todo_le_slack _ cv
  | test =>
    dsimp only at hnext
    split_ifs at hnext with hempty <;> cases hnext
    · refine hcov.wait hempty fun cv hcv => ?_
      rw [todo_of_reader (howner rfl), hpc]
      cases cv with
      | notFull => exact le_rfl
      | notEmpty => exact absurd rfl hcv
    · refine hcov.mono fun cv => ?_
      rw [todo_of_reader (howner rfl), hpc]
      simp only [todo, howner rfl, due]
      cases cv <;> exact le_rfl
  | blocked =>
    simp only [Option.map_eq_some_iff] at hnext
    obtain ⟨m, hm, rfl⟩ := hnext
    refine covers_resume hcov hm rfl rfl ?_
    simp only [todo, enterReader, Monitor.owner_resume hm, due, BufferReaderPc.owes, le_refl]
  | swap =>
    cases hnext
    have hback : s.buffer.swap.buf s.buffer.front = { s.buffer.buf s.buffer.front with cnt := 0 } :=
      update_self ..
    refine hcov.mono fun cv => ?_
    simp only [todo, howner rfl, due]
    cases cv with
    | notFull =>
      change s.buffer.capacity - (s.buffer.swap.buf s.buffer.front).cnt - s.buffer.capacity ≤ _
      omega
    | notEmpty =>
      change (s.buffer.swap.buf s.buffer.front).cnt - 0 ≤ _
      rw [hback]
      exact Nat.zero_le _
  | notify => cases hnext
  | unlock =>
    cases hnext
    refine hcov.mono fun cv => ?_
    rw [todo_of_reader (howner rfl), hpc]
    exact todo_le_slack _ cv
  | ret =>
    cases hnext
    have hout : s.monitor.owner ≠ some .reader := fun hin =>
      absurd ((h.seats.inside .reader).mpr hin) (by simp [places, hpc, BufferReaderPc.place])
    exact todo_setReader s (.holding s.buffer.front) s.taken hout ▸ hcov

def Enough (s : DoubleBufferState T α) : DoubleBufferStep T α → Prop
  | .notifyWriter _ => (s.monitor.cvs .notFull).waiting.card ≤ 1 ∨
      s.buffer.capacity ≤ (s.monitor.cvs .notFull).signalled.card + 1
  | _ => True

instance (s : DoubleBufferState T α) : DecidablePred (Enough s)
  | .notifyWriter _ => inferInstanceAs (Decidable (_ ∨ _))
  | .write _ _ | .writer _ | .notifyReader _ _ | .read | .reader | .spuriousWriter _
  | .spuriousReader => isTrue trivial

theorem covers_step (hcov : s.monitor.Covers s.todo) (h : Inv c s) {a : DoubleBufferStep T α}
    (hok : Enough s a) (hnext : s.next a = some s') : s'.monitor.Covers s'.todo := by
  have hout : s.reader.place = .outside → s.monitor.owner ≠ some .reader := fun hplace hin =>
    absurd (((h.seats.inside .reader).mpr hin).symm.trans hplace) nofun
  cases a with
  | write t data =>
    rw [next] at hnext
    cases hpc : s.writers t <;> simp only [hpc, reduceCtorEq] at hnext
    cases hnext
    have hne : s.monitor.owner ≠ some (.writer t) := fun hin =>
      absurd ((h.seats.inside (.writer t)).mpr hin) (by simp [places, hpc, BufferWriterPc.place])
    exact todo_goto s (.lock data) hne ▸ hcov
  | writer t => exact covers_writerStep hcov h hnext
  | notifyReader t who =>
    rw [next] at hnext
    cases hpc : s.writers t <;> simp only [hpc, reduceCtorEq, Option.map_eq_some_iff] at hnext
    obtain ⟨m, hm, rfl⟩ := hnext
    have howner : s.monitor.owner = some (.writer t) :=
      (h.seats.inside (.writer t)).mp (congrArg BufferWriterPc.place hpc)
    have htodo : ∀ cv, (s.enter t (.unlock .ok) m).todo cv = s.buffer.slack cv := fun cv => by
      simp only [todo, enter, goto, Monitor.owner_notifyOne hm, howner, due, update_self]
      cases cv <;> rfl
    refine hcov.notifyOne hm ?_ fun cv hcv => ?_
    · rw [htodo, todo_of_writer howner, hpc]
      exact Nat.sub_le_iff_le_add.mp le_rfl
    · rw [htodo, todo_of_writer howner, hpc]
      cases cv with
      | notFull => exact le_rfl
      | notEmpty => exact absurd rfl hcv
  | read =>
    rw [next] at hnext
    cases hpc : s.reader <;> simp only [hpc, reduceCtorEq, Option.some.injEq] at hnext
    · subst hnext
      exact todo_setReader s .lock s.taken (hout (hpc ▸ rfl)) ▸ hcov
    · subst hnext
      exact todo_setReader s .lock _ (hout (hpc ▸ rfl)) ▸ hcov
  | reader => exact covers_readerStep hcov h hnext
  | notifyWriter who =>
    rw [next] at hnext
    cases hpc : s.reader <;> simp only [hpc, reduceCtorEq, Option.map_eq_some_iff] at hnext
    obtain ⟨m, hm, rfl⟩ := hnext
    have howner : s.monitor.owner = some .reader :=
      (h.seats.inside .reader).mp (congrArg BufferReaderPc.place hpc)
    refine hcov.notifyLast hm (hok.imp_right fun hall => ?_) fun cv hcv => ?_
    · exact (todo_le_slack _ _).trans ((Nat.sub_le _ _).trans hall)
    · rw [todo_of_reader howner, hpc]
      cases cv with
      | notFull => exact absurd rfl hcv
      | notEmpty => exact todo_le_slack _ _
  | spuriousWriter t =>
    rw [next] at hnext
    cases hpc : s.writers t <;> simp only [hpc, reduceCtorEq, Option.map_eq_some_iff] at hnext
    obtain ⟨m, hm, rfl⟩ := hnext
    refine (hcov.spurious hm).mono fun cv => ?_
    simp only [todo, setMonitor, Monitor.owner_spurious hm, le_refl]
  | spuriousReader =>
    rw [next] at hnext
    cases hpc : s.reader <;> simp only [hpc, reduceCtorEq, Option.map_eq_some_iff] at hnext
    obtain ⟨m, hm, rfl⟩ := hnext
    refine (hcov.spurious hm).mono fun cv => ?_
    simp only [todo, setMonitor, Monitor.owner_spurious hm, le_refl]

def RoomCovered (s : DoubleBufferState T α) : Prop :=
  s.monitor.owner = none → (s.monitor.cvs .notFull).waiting.Nonempty →
    s.buffer.free ≤ (s.monitor.cvs .notFull).signalled.card

theorem covers_of_reach {g : DoubleBuffer.Grants} {capacity : ℤ} {nonBlocking : Bool}
    {junk : Fin 2 → ℕ → α} {b : DoubleBuffer α}
    (hinit : DoubleBuffer.init g capacity nonBlocking junk = .ok b)
    (hs : Steps.Reach next Enough (start b) s) : s.monitor.Covers s.todo := by
  have hall := hs.invariant (P := fun s => Inv b.capacity s ∧ s.monitor.Covers s.todo)
    ⟨inv_start (ledger_of_init hinit), Monitor.covers_init⟩
    fun _ _ _ h hok hnext => ⟨h.1.step hnext, covers_step h.2 h.1 hok hnext⟩
  exact hall.2

/-- **While every read notifies enough, no writer stays blocked while there is room.** -/
theorem roomCovered_of_reach {g : DoubleBuffer.Grants} {capacity : ℤ} {nonBlocking : Bool}
    {junk : Fin 2 → ℕ → α} {b : DoubleBuffer α}
    (hinit : DoubleBuffer.init g capacity nonBlocking junk = .ok b)
    (hs : Steps.Reach next Enough (start b) s) : RoomCovered s := by
  intro hfree hne
  have hcov := covers_of_reach hinit hs .notFull hne
  rwa [todo_of_free hfree] at hcov

def wholeWrite (t data : ℕ) : List (DoubleBufferStep ℕ ℕ) :=
  [.write t data, .writer t, .writer t, .writer t, .writer t, .notifyReader t none, .writer t]

def blockedWrite (t data : ℕ) : List (DoubleBufferStep ℕ ℕ) :=
  [.write t data, .writer t, .writer t, .writer t]

def wholeRead : List (DoubleBufferStep ℕ ℕ) :=
  [.read, .reader, .reader, .reader, .notifyWriter (some (.writer 1)), .reader]

def oneBlocked : List (DoubleBufferStep ℕ ℕ) :=
  wholeWrite 0 7 ++ wholeWrite 0 8 ++ blockedWrite 1 9 ++ wholeRead

theorem roomCovered_oneBlocked : ∃ s,
    Steps.execWhen next (fun s a => decide (Enough s a))
      (start ⟨fun _ => ⟨fun _ => 0, 0⟩, 0, 1, 2, false⟩) oneBlocked = some s ∧
    (s.monitor.cvs .notFull).signalled = {.writer 1} ∧ RoomCovered s := by
  have hinit : DoubleBuffer.init .all 2 false (fun _ _ => 0) =
      .ok ⟨fun _ => ⟨fun _ => 0, 0⟩, 0, 1, 2, false⟩ := rfl
  obtain ⟨s, hs, hsignalled⟩ : ∃ s, Steps.execWhen next (fun s a => decide (Enough s a))
      (start ⟨fun _ => ⟨fun _ => 0, 0⟩, 0, 1, 2, false⟩) oneBlocked = some s ∧
      (s.monitor.cvs .notFull).signalled = {.writer 1} := by
    decide
  exact ⟨s, hs, hsignalled, roomCovered_of_reach hinit (Steps.Reach.of_decide hs)⟩

def twoBlocked : List (DoubleBufferStep ℕ ℕ) :=
  wholeWrite 0 7 ++ wholeWrite 0 8 ++ blockedWrite 1 9 ++ blockedWrite 2 10 ++ wholeRead

theorem blocked_twoBlocked : ∃ b : DoubleBuffer ℕ, ∃ s,
    DoubleBuffer.init .all 2 false (fun _ _ => 0) = .ok b ∧
    Steps.exec next (start b) twoBlocked = some s ∧ ¬ RoomCovered s := by
  obtain ⟨s, hs, hfree, hroom, hwaiting, hsignalled⟩ : ∃ s,
      Steps.exec next (start ⟨fun _ => ⟨fun _ => 0, 0⟩, 0, 1, 2, false⟩) twoBlocked = some s ∧
      s.monitor.owner = none ∧ s.buffer.free = 2 ∧
      (s.monitor.cvs .notFull).waiting = {.writer 2} ∧
      (s.monitor.cvs .notFull).signalled.card = 1 := by
    decide
  refine ⟨_, s, rfl, hs, fun hcovered => ?_⟩
  have hle := hcovered hfree (hwaiting ▸ Finset.singleton_nonempty _)
  omega

end DoubleBufferState

end Mugglec
