import Mugglec.Sync.ChannelWake

/-!
# Sync/ChannelCalls — what one call does to the values written and read

A caller of the channel sees of each call only where the value goes.  Of a write it is one of three
things, and `writerStep_cases` says which step does it.
-/

namespace Mugglec

def WriterPc.data {α : Type*} : WriterPc α → Option α
  | .idle | .unlockRead _ | .unlock _ | .wake => none
  | .lock data | .loadRead data | .compare data _ _ | .lockRead data | .advance data
  | .test data _ | .reload data _ | .recache data _ _ _ | .retest data _ _ | .index data _
  | .store data _ _ | .publish data _ => some data

def WriterPc.isIdle {α : Type*} : WriterPc α → Bool
  | .idle => true
  | _ => false

theorem WriterPc.isIdle_iff {α : Type*} {pc : WriterPc α} : pc.isIdle = true ↔ pc = .idle := by
  cases pc <;> simp [isIdle]

namespace ChannelState

variable {T α : Type*} {ch : Channel} {s s' : ChannelState T α} {t : T}

def ReaderSync (s : ChannelState T α) : Prop := s.reader ≠ .lock ∧ s.reader ≠ .unlock

theorem readerStep_cases (hm : ch.readMode = .sync) (hs : s.ReaderSync)
    (h : s.readerStep ch = some s') :
    s'.writers = s.writers ∧ s'.written = s.written ∧ s'.fulls = s.fulls ∧ s'.ReaderSync ∧
      (s'.reader ≠ .idle ∧ s'.returned = s.returned ∨
        ∃ d, s'.reader = .idle ∧ s'.returned = s.returned ++ [d]) := by
  rw [readerStep] at h
  generalize hpc : s.reader = pc at h
  cases pc with
  | idle => cases h
  | lock => exact absurd hpc hs.1
  | head | fetch =>
    cases h
    exact ⟨rfl, rfl, rfl, by simp [ReaderSync], .inl ⟨by simp, rfl⟩⟩
  | poll =>
    simp only [hm, reduceCtorEq, if_false] at h
    split_ifs at h <;> cases h <;>
      exact ⟨rfl, rfl, rfl, by simp [ReaderSync], .inl ⟨by simp, rfl⟩⟩
  | wait =>
    simp only [hm] at h
    split_ifs at h <;> cases h <;>
      exact ⟨rfl, rfl, rfl, by simp [ReaderSync], .inl ⟨by simp, rfl⟩⟩
  | asleep => cases h
  | publish rpos data =>
    simp only [hm, reduceCtorEq, if_false] at h
    cases h
    exact ⟨rfl, rfl, rfl, by simp [ReaderSync], .inr ⟨data, rfl, rfl⟩⟩
  | unlock => exact absurd hpc hs.2

theorem ReaderSync.resume (hm : ch.readMode = .sync) (hs : s.ReaderSync)
    (h : s'.reader = s.reader ∨ s'.reader = resume ch s.reader) : s'.ReaderSync := by
  rcases h with h | h
  · rwa [ReaderSync, h]
  · rw [ReaderSync, h]
    cases hpc : s.reader <;> simp_all [ChannelState.resume, ReaderSync]

def OneBlockWriter : WriterPc α → Prop
  | .idle | .lock _ | .loadRead _ => True
  | .compare _ rpos _ => rpos = 0
  | .unlock ret => ret = .full
  | _ => False

def OneBlockReader : ReaderPc α → Prop
  | .idle | .head => True
  | .asleep rpos | .poll rpos | .wait rpos _ => rpos = 0
  | _ => False

structure OneBlock (s : ChannelState T α) : Prop where
  writeCursor : s.writeCursor = 0
  readCursor : s.readCursor = 0
  written : s.written = []
  returned : s.returned = []
  writers : ∀ t, OneBlockWriter (s.writers t)
  reader : OneBlockReader s.reader

theorem oneBlock_start (hc : ch.capacity = 1) (null : α) :
    OneBlock (start ch null : ChannelState T α) :=
  ⟨rfl, by rw [start, hc], rfl, rfl, fun _ => trivial, trivial⟩

theorem OneBlock.setReader (h : OneBlock s) (pc : ReaderPc α) (hpc : OneBlockReader pc) :
    OneBlock { s with reader := pc } :=
  ⟨h.writeCursor, h.readCursor, h.written, h.returned, h.writers, hpc⟩

variable [DecidableEq T]

inductive WriteEffect (pc pc' : WriterPc α) (s s' : ChannelState T α) : Prop
  | onTheWay (hdata : pc'.data = pc.data) (hwritten : s'.written = s.written)
      (hfulls : s'.fulls = s.fulls)
  | accepted (data : α) (hdata : pc.data = some data) (hnone : pc'.data = none)
      (hidle : pc'.isIdle = false) (hwritten : s'.written = s.written ++ [data])
      (hfulls : s'.fulls = s.fulls)
  | refused (data : α) (hdata : pc.data = some data) (hnone : pc'.data = none)
      (hidle : pc'.isIdle = false) (hwritten : s'.written = s.written) (n : ℕ)
      (hfulls : s'.fulls = s.fulls ++ [n])

theorem writerStep_cases (h : s.writerStep ch t = some s') : ∃ pc,
    s'.writers = Function.update s.writers t pc ∧ s'.returned = s.returned ∧
      (s'.reader = s.reader ∨ s'.reader = resume ch s.reader) ∧
      WriteEffect (s.writers t) pc s s' := by
  rw [writerStep] at h
  generalize hpc : s.writers t = pc at h
  cases pc with
  | idle => cases h
  | lock data =>
    simp only [Option.ite_none_right_eq_some, Option.some.injEq] at h
    obtain ⟨-, rfl⟩ := h
    refine ⟨enter ch data, rfl, rfl, .inl rfl, .onTheWay ?_ rfl rfl⟩
    rw [enter]
    split <;> rfl
  | lockRead data =>
    simp only [Option.ite_none_right_eq_some, Option.some.injEq] at h
    obtain ⟨-, rfl⟩ := h
    exact ⟨_, rfl, rfl, .inl rfl, .onTheWay rfl rfl rfl⟩
  | loadRead | advance | reload | recache | index | store | unlockRead =>
    cases h
    exact ⟨_, rfl, rfl, .inl rfl, .onTheWay rfl rfl rfl⟩
  | wake =>
    cases h
    exact ⟨_, rfl, rfl, .inr rfl, .onTheWay rfl rfl rfl⟩
  | compare data | retest data =>
    dsimp only at h
    split_ifs at h <;> cases h
    · exact ⟨_, rfl, rfl, .inl rfl, .refused data rfl rfl rfl rfl _ rfl⟩
    · exact ⟨_, rfl, rfl, .inl rfl, .onTheWay rfl rfl rfl⟩
  | test data =>
    dsimp only at h
    split at h <;> split_ifs at h <;> cases h
    · exact ⟨_, rfl, rfl, .inl rfl, .onTheWay rfl rfl rfl⟩
    · exact ⟨_, rfl, rfl, .inl rfl, .onTheWay rfl rfl rfl⟩
    · exact ⟨_, rfl, rfl, .inl rfl, .refused data rfl rfl rfl rfl _ rfl⟩
    · exact ⟨_, rfl, rfl, .inl rfl, .onTheWay rfl rfl rfl⟩
  | publish data =>
    cases h
    refine ⟨_, rfl, rfl, .inl rfl, .accepted data rfl ?_ ?_ rfl rfl⟩
    · split <;> rfl
    · split <;> rfl
  | unlock ret =>
    cases h
    refine ⟨_, rfl, rfl, .inl rfl, .onTheWay ?_ rfl rfl⟩
    split <;> rfl

theorem next_write {data : α} (h : s.next ch (.write t data) = some s') :
    s.writers t = .idle ∧ s' = s.goto t (.lock data) := by
  simp only [next] at h
  split at h
  · next hidle => exact ⟨hidle, (Option.some.inj h).symm⟩
  · simp at h

theorem next_spurious (hm : ch.readMode = .sync) (h : s.next ch .spurious = some s') :
    ∃ rpos, s.reader = .asleep rpos ∧ s' = { s with reader := .poll rpos } := by
  simp only [next] at h
  split at h
  · next rpos hpc =>
    refine ⟨rpos, hpc, ?_⟩
    simp only [resume, hm, Option.some.injEq] at h
    exact h.symm
  · simp at h

theorem next_read (hm : ch.readMode = .sync) (h : s.next ch .read = some s') :
    s.reader = .idle ∧ s' = { s with reader := .head } := by
  simp only [next, hm, reduceCtorEq, if_false] at h
  split at h
  · next hidle => exact ⟨hidle, (Option.some.inj h).symm⟩
  · simp at h

theorem bump_eq_zero (hc : ch.capacity = 1) (cursor : ℕ) : bump ch cursor = 0 := by
  have := idx_eq_mod (k := 0) (by omega) (u32 (cursor + 1))
  rw [pow_zero, Nat.mod_one] at this
  rw [bump, hc, this]

theorem OneBlock.goto (h : OneBlock s) (pc : WriterPc α) (hpc : OneBlockWriter pc)
    (lock : Option T) (fulls : List ℕ) :
    OneBlock { s.goto t pc with writeLock := lock, fulls := fulls } where
  writeCursor := h.writeCursor
  readCursor := h.readCursor
  written := h.written
  returned := h.returned
  writers := (Function.forall_update_iff s.writers fun _ => OneBlockWriter).mpr
    ⟨hpc, fun t' _ => h.writers t'⟩
  reader := h.reader

theorem OneBlock.writerStep (hc : ch.capacity = 1) (hm : ch.readMode = .sync) (h : OneBlock s)
    (hnext : s.writerStep ch t = some s') : OneBlock s' := by
  have hok := h.writers t
  rw [ChannelState.writerStep] at hnext
  generalize hpc : s.writers t = pc at hnext hok
  cases pc with
  | idle => cases hnext
  | lock data =>
    simp only [Option.ite_none_right_eq_some, Option.some.injEq] at hnext
    obtain ⟨-, rfl⟩ := hnext
    exact h.goto _ (by rw [enter, hm]; trivial) ..
  | loadRead data =>
    cases hnext
    exact h.goto (.compare data s.readCursor s.unread) h.readCursor ..
  | compare data rpos unread =>
    simp only [bump_eq_zero hc, show rpos = 0 from hok, if_true] at hnext
    cases hnext
    exact h.goto (.unlock .full) rfl ..
  | unlock ret =>
    simp only [show ret = .full from hok, reduceCtorEq, if_false] at hnext
    cases hnext
    exact h.goto .idle trivial ..
  | _ =>
    exact hok.elim

omit [DecidableEq T] in
theorem OneBlock.readerStep (hc : ch.capacity = 1) (hm : ch.readMode = .sync) (h : OneBlock s)
    (hnext : s.readerStep ch = some s') : OneBlock s' := by
  have hok := h.reader
  rw [ChannelState.readerStep] at hnext
  generalize hpc : s.reader = pc at hnext hok
  cases pc with
  | idle => cases hnext
  | head =>
    simp only [bump_eq_zero hc] at hnext
    cases hnext
    exact h.setReader _ rfl
  | poll rpos =>
    simp only [hm, h.writeCursor, show rpos = 0 from hok, ne_eq, not_true_eq_false, if_false,
      reduceCtorEq, Option.some.injEq] at hnext
    subst hnext
    exact h.setReader (.wait 0 0) rfl
  | wait rpos wpos =>
    simp only [hm] at hnext
    split_ifs at hnext <;> cases hnext
    · exact h.setReader _ hok
    · exact h.setReader _ hok
  | asleep => cases hnext
  | _ =>
    exact hok.elim

theorem OneBlock.step (hc : ch.capacity = 1) (hm : ch.readMode = .sync) (h : OneBlock s)
    {a : ChannelStep T α} (hnext : s.next ch a = some s') : OneBlock s' := by
  cases a with
  | write t data =>
    simp only [next] at hnext
    split at hnext
    · cases hnext
      exact h.goto (.lock data) trivial ..
    · simp at hnext
  | writer t => exact h.writerStep hc hm hnext
  | read =>
    simp only [next, hm, reduceCtorEq, if_false] at hnext
    split at hnext
    · cases hnext
      exact h.setReader _ trivial
    · simp at hnext
  | reader => exact h.readerStep hc hm hnext
  | spurious =>
    simp only [next] at hnext
    split at hnext
    · next rpos hpc =>
      cases hnext
      have hok := h.reader
      rw [hpc] at hok
      simp only [resume, hm]
      exact h.setReader _ hok
    · simp at hnext

end ChannelState

end Mugglec
