import Mugglec.Sync.ChannelFifo

/-!
# Sync/ChannelWake — a sleeping reader is woken

A reader sleeps only after it found the channel empty, and a value written since is followed by a
wake of the writer that wrote it.
-/

namespace Mugglec

open Function

def WriterPc.HoldsRead {α : Type*} : WriterPc α → Prop
  | .idle | .lock _ | .lockRead _ | .unlock _ | .wake => False
  | _ => True

def WriterPc.Waking {α : Type*} : WriterPc α → Prop
  | .unlockRead ret | .unlock ret => ret = .ok
  | .wake => True
  | _ => False

def ReaderPc.HoldsRead {α : Type*} : ReaderPc α → Prop
  | .head | .poll _ | .wait _ _ | .fetch _ | .publish _ _ | .unlock => True
  | _ => False

namespace ChannelState

open RingQueue

variable {T α : Type*} {ch : Channel} {s : ChannelState T α} {pc : ReaderPc α}
  {s' : ChannelState T α}

def Attended (ch : Channel) (s : ChannelState T α) : ReaderPc α → Prop
  | .wait rpos wpos => wpos = rpos ∧ (ch.readMode = .mutex → s.writeCursor = rpos)
  | .asleep _ => s.unread = 0 ∨ ∃ t, (s.writers t).Waking
  | _ => True

/-- `read_mutex` excludes, and the reader is attended to. -/
structure WakeInv (ch : Channel) (s : ChannelState T α) : Prop where
  writers : ch.readMode = .mutex → ∀ t, (s.writers t).HoldsRead → s.readMutex = some (.writer t)
  reader : ch.readMode = .mutex → s.reader.HoldsRead → s.readMutex = some .reader
  attended : Attended ch s s.reader

theorem wakeInv_start (null : α) : WakeInv ch (start ch null : ChannelState T α) :=
  ⟨fun _ _ => False.elim, fun _ => False.elim, trivial⟩

theorem Inv.unread_eq_zero (h : Inv ch s) (h2 : 2 ≤ ch.capacity)
    (hmeet : s.writeCursor = s.returned.length % ch.capacity) : s.unread = 0 := by
  have hle := h.ring.holds.le
  have hroom := h.ring.room.1
  rw [h.ring.writeCursor] at hmeet
  have heq := (mod_eq_iff hle (by omega)).mp hmeet.symm
  rw [ChannelMem.unread, heq, Nat.sub_self]

theorem WakeInv.setReader (h : WakeInv ch s) (hok : Attended ch s pc)
    (hhold : pc.HoldsRead → s.reader.HoldsRead) : WakeInv ch { s with reader := pc } where
  writers := h.writers
  reader := fun hm hpc => h.reader hm (hhold hpc)
  attended := hok

theorem WakeInv.release (h : WakeInv ch s) (hs : s.reader.HoldsRead) (hok : Attended ch s pc)
    (hpc : ¬ pc.HoldsRead) :
    WakeInv ch { s with reader := pc, readMutex := none } where
  writers := fun hm t ht => by
    have hnot := (h.writers hm t ht).symm.trans (h.reader hm hs)
    cases hnot
  reader := fun _ h => absurd h hpc
  attended := hok

theorem Attended.resume (h : Attended ch s pc) (hcursor : s'.writeCursor = s.writeCursor) :
    Attended ch s' (resume ch pc) := by
  cases pc <;> cases hm : ch.readMode <;> simp_all [ChannelState.resume, Attended]

theorem holdsRead_resume (hm : ch.readMode = .mutex) (h : (resume ch pc).HoldsRead) :
    pc.HoldsRead := by
  cases pc <;> simp_all [ChannelState.resume, ReaderPc.HoldsRead]

theorem WakeInv.awaken (h : WakeInv ch s) {writers : T → WriterPc α}
    (hhold : ∀ t, (writers t).HoldsRead → (s.writers t).HoldsRead) :
    WakeInv ch { s with writers := writers, reader := resume ch s.reader } where
  writers := fun hm t ht => h.writers hm t (hhold t ht)
  reader := fun hm hpc => h.reader hm (holdsRead_resume hm hpc)
  attended := h.attended.resume rfl

theorem WakeInv.readerStep (h : WakeInv ch s) (hinv : Inv ch s) (h2 : 2 ≤ ch.capacity)
    (hnext : s.readerStep ch = some s') : WakeInv ch s' := by
  have hok := hinv.reader
  have hatt := h.attended
  have hhold : ∀ pc : ReaderPc α, s.reader = pc → pc.HoldsRead → s.reader.HoldsRead :=
    fun _ hpc hh => hpc ▸ hh
  rw [ChannelState.readerStep] at hnext
  generalize hpc : s.reader = pc at hnext hok hatt
  cases pc with
  | idle => cases hnext
  | lock =>
    simp only [Option.ite_none_right_eq_some, Option.some.injEq] at hnext
    obtain ⟨hfree, rfl⟩ := hnext
    refine ⟨fun hm t ht => ?_, fun _ _ => rfl, trivial⟩
    exact absurd (hfree.symm.trans (h.writers hm t ht)) (by simp)
  | head =>
    obtain rfl := Option.some.inj hnext
    exact h.setReader trivial fun _ => hhold _ hpc trivial
  | poll rpos =>
    dsimp only at hnext
    split_ifs at hnext with hne hbusy <;> obtain rfl := Option.some.inj hnext
    · exact h.setReader trivial fun _ => hhold _ hpc trivial
    · exact h
    · have hmeet := not_not.mp hne
      exact h.setReader ⟨hmeet, fun _ => hmeet⟩ fun _ => hhold _ hpc trivial
  | wait rpos wpos =>
    dsimp only at hnext
    obtain ⟨rfl, hmutex⟩ := hatt
    split at hnext
    · next hm =>
      obtain rfl := Option.some.inj hnext
      have hzero := hinv.unread_eq_zero h2 ((hmutex hm).trans hok)
      exact h.release (hhold _ hpc trivial) (.inl hzero) not_false
    · next hm =>
      split_ifs at hnext with hmeet <;> obtain rfl := Option.some.inj hnext
      · have hzero := hinv.unread_eq_zero h2 (hmeet.trans hok)
        exact h.setReader (.inl hzero) False.elim
      · exact h.setReader trivial fun _ => hhold _ hpc trivial
  | asleep rpos => cases hnext
  | fetch rpos =>
    obtain rfl := Option.some.inj hnext
    exact h.setReader trivial fun _ => hhold _ hpc trivial
  | publish rpos data =>
    obtain rfl := Option.some.inj hnext
    refine ⟨h.writers, fun hm _ => h.reader hm (hhold _ hpc trivial), ?_⟩
    dsimp only
    split <;> trivial
  | unlock =>
    obtain rfl := Option.some.inj hnext
    exact h.release (hhold _ hpc trivial) trivial not_false

variable {t : T} {pc : WriterPc α}

theorem WakeInv.setRest (h : WakeInv ch s) (lock : Option T) (blocks : ℕ → α) (cached : ℕ)
    (fulls : List ℕ) : WakeInv ch
      { s with writeLock := lock, blocks := blocks, cachedRCur := cached, fulls := fulls } :=
  ⟨h.writers, h.reader, h.attended⟩

variable [DecidableEq T]

theorem Attended.goto (h : Attended ch s s.reader) (hwake : (s.writers t).Waking → pc.Waking) :
    Attended ch (s.goto t pc) s.reader := by
  cases hpc : s.reader with
  | wait =>
    rw [hpc] at h
    exact h
  | asleep =>
    rw [hpc] at h
    refine h.imp_right fun ⟨t', ht'⟩ => ⟨t', ?_⟩
    rcases eq_or_ne t' t with rfl | hne
    · simpa only [ChannelState.goto, update_self] using hwake ht'
    · simpa only [ChannelState.goto, update_of_ne hne] using ht'
  | _ => trivial

theorem WakeInv.goto (h : WakeInv ch s)
    (hhold : ch.readMode = .mutex → pc.HoldsRead → (s.writers t).HoldsRead)
    (hwake : (s.writers t).Waking → pc.Waking) : WakeInv ch (s.goto t pc) where
  writers := fun hm =>
    (forall_update_iff s.writers
      fun t pc => pc.HoldsRead → s.readMutex = some (.writer t)).mpr
      ⟨fun hpc => h.writers hm t (hhold hm hpc), fun t' _ => h.writers hm t'⟩
  reader := h.reader
  attended := h.attended.goto hwake

theorem WakeInv.lockRead (h : WakeInv ch s) (hfree : s.readMutex = none)
    (hwake : (s.writers t).Waking → pc.Waking) :
    WakeInv ch { s.goto t pc with readMutex := some (.writer t) } where
  writers := fun hm =>
    (forall_update_iff s.writers
      fun t' pc => pc.HoldsRead → some (Holder.writer t) = some (.writer t')).mpr
      ⟨fun _ => rfl, fun t' _ ht' => absurd (hfree.symm.trans (h.writers hm t' ht')) (by simp)⟩
  reader := fun hm hpc => absurd (hfree.symm.trans (h.reader hm hpc)) (by simp)
  attended := h.attended.goto hwake

theorem WakeInv.unlockRead (h : WakeInv ch s) (ht : (s.writers t).HoldsRead) (hpc : ¬ pc.HoldsRead)
    (hwake : (s.writers t).Waking → pc.Waking) :
    WakeInv ch { s.goto t pc with readMutex := none } where
  writers := fun hm =>
    (forall_update_iff s.writers
      fun t' pc => pc.HoldsRead → none = some (Holder.writer t')).mpr
      ⟨fun h => absurd h hpc, fun t' hne ht' => by
        have hsame := (h.writers hm t' ht').symm.trans (h.writers hm t ht)
        simp [hne] at hsame⟩
  reader := fun hm hr => by
    have hsame := (h.reader hm hr).symm.trans (h.writers hm t ht)
    simp at hsame
  attended := h.attended.goto hwake

theorem WakeInv.publish (h : WakeInv ch s) (ht : (s.writers t).HoldsRead) {wpos : ℕ} {data : α}
    (hwake : pc.Waking) :
    WakeInv ch { s.goto t pc with writeCursor := wpos, written := s.written ++ [data] } where
  writers := (h.goto (fun _ _ => ht) fun _ => hwake).writers
  reader := h.reader
  attended := by
    have hatt := h.attended
    change Attended ch _ s.reader
    cases hpc : s.reader with
    | wait rpos wpos' =>
      simp only [hpc, Attended] at hatt ⊢
      refine ⟨hatt.1, fun hm => ?_⟩
      have hsame := (h.reader hm (hpc ▸ trivial)).symm.trans (h.writers hm t ht)
      simp at hsame
    | asleep rpos =>
      refine .inr ⟨t, ?_⟩
      simpa only [ChannelState.goto, update_self] using hwake
    | _ => trivial

theorem WakeInv.writerStep (h : WakeInv ch s) (hnext : s.writerStep ch t = some s') :
    WakeInv ch s' := by
  -- most places only move on: they neither take the mutex nor leave out a wake
  have keep {pc p : WriterPc α} (hpc : s.writers t = pc) (hhold : p.HoldsRead → pc.HoldsRead)
      (hwake : pc.Waking → p.Waking) : WakeInv ch (s.goto t p) :=
    h.goto (fun _ => hpc ▸ hhold) (hpc ▸ hwake)
  rw [ChannelState.writerStep] at hnext
  generalize hpc : s.writers t = pc at hnext
  cases pc with
  | idle => cases hnext
  | lock data =>
    simp only [Option.ite_none_right_eq_some, Option.some.injEq] at hnext
    obtain ⟨-, rfl⟩ := hnext
    have henter : WakeInv ch (s.goto t (enter ch data)) :=
      h.goto (fun hm hh => by simp [enter, hm, WriterPc.HoldsRead] at hh) (hpc ▸ False.elim)
    exact henter.setRest ..
  | loadRead | advance | reload | index =>
    obtain rfl := Option.some.inj hnext
    exact keep hpc (fun _ => trivial) False.elim
  | compare =>
    dsimp only at hnext
    split_ifs at hnext <;> obtain rfl := Option.some.inj hnext
    · exact (keep (p := .unlock .full) hpc False.elim False.elim).setRest ..
    · exact keep hpc (fun _ => trivial) False.elim
  | lockRead =>
    simp only [Option.ite_none_right_eq_some, Option.some.injEq] at hnext
    obtain ⟨hfree, rfl⟩ := hnext
    exact h.lockRead hfree (hpc ▸ False.elim)
  | test =>
    dsimp only at hnext
    split at hnext <;> split_ifs at hnext <;> obtain rfl := Option.some.inj hnext
    · exact keep hpc (fun _ => trivial) False.elim
    · exact keep hpc (fun _ => trivial) False.elim
    · exact (keep (p := .unlockRead .full) hpc (fun _ => trivial) False.elim).setRest ..
    · exact keep hpc (fun _ => trivial) False.elim
  | recache data wpos rpos unread =>
    obtain rfl := Option.some.inj hnext
    exact (keep (p := .retest data wpos unread) hpc (fun _ => trivial) False.elim).setRest ..
  | retest =>
    dsimp only at hnext
    split_ifs at hnext <;> obtain rfl := Option.some.inj hnext
    · exact (keep (p := .unlock .full) hpc False.elim False.elim).setRest ..
    · exact keep hpc (fun _ => trivial) False.elim
  | store data wpos idx =>
    obtain rfl := Option.some.inj hnext
    exact (keep (p := .publish data wpos) hpc (fun _ => trivial) False.elim).setRest ..
  | publish data wpos =>
    obtain rfl := Option.some.inj hnext
    refine h.publish (hpc ▸ trivial) ?_
    split <;> rfl
  | unlockRead ret =>
    obtain rfl := Option.some.inj hnext
    exact h.unlockRead (hpc ▸ trivial) not_false (hpc ▸ id)
  | unlock ret =>
    obtain rfl := Option.some.inj hnext
    split
    · exact (keep (p := .wake) hpc False.elim fun _ => trivial).setRest ..
    · next hne => exact (keep (p := .idle) hpc False.elim fun hret => hne hret).setRest ..
  | wake =>
    obtain rfl := Option.some.inj hnext
    refine h.awaken ((forall_update_iff s.writers
      fun t pc => pc.HoldsRead → (s.writers t).HoldsRead).mpr ⟨False.elim, fun _ _ => id⟩)

theorem WakeInv.step (h : WakeInv ch s) (hinv : Inv ch s) (h2 : 2 ≤ ch.capacity)
    {a : ChannelStep T α} (hnext : s.next ch a = some s') :
    WakeInv ch s' := by
  cases a with
  | write t data =>
    simp only [next] at hnext
    cases hpc : s.writers t <;> simp only [hpc, reduceCtorEq] at hnext
    cases hnext
    exact h.goto (fun _ => False.elim) (hpc ▸ False.elim)
  | writer t => exact h.writerStep hnext
  | read =>
    simp only [next] at hnext
    cases hpc : s.reader <;> simp only [hpc, reduceCtorEq] at hnext
    cases hnext
    refine ⟨h.writers, fun hm hh => ?_, ?_⟩
    · simp [hm, ReaderPc.HoldsRead] at hh
    · dsimp only
      split <;> trivial
  | reader => exact h.readerStep hinv h2 hnext
  | spurious =>
    simp only [next] at hnext
    cases hpc : s.reader <;> simp only [hpc, reduceCtorEq] at hnext
    cases hnext
    exact hpc ▸ h.awaken fun _ => id

/-- **No wakeup is lost**: while the reader sleeps and a value is unread, some writer has yet to
call `fn_wake`. -/
theorem waking_of_asleep {g : Channel.Grants} {capacity flags : ℕ} (hcap : capacity < 2 ^ 32)
    (hinit : Channel.init g capacity flags = .ok ch) (h4 : 4 ≤ ch.capacity) (null : α)
    (hs : Steps.Reach (next ch) Steps.anyStep (start ch null) s) {rpos : ℕ}
    (hasleep : s.reader = .asleep rpos) (hunread : 0 < s.unread) :
    ∃ t, (s.writers t).Waking := by
  obtain ⟨k, hk, hc⟩ := capacity_of_init hcap hinit
  have h2 : 2 ≤ ch.capacity := by omega
  have hall := hs.invariant (P := fun s => Inv ch s ∧ WakeInv ch s)
    ⟨inv_start hc null, wakeInv_start null⟩
    fun _ _ _ h _ hnext => ⟨h.1.step hc hk h2 hnext, h.2.step h.1 h2 hnext⟩
  have hatt := hall.2.attended
  rw [hasleep] at hatt
  exact hatt.resolve_left hunread.ne'

def wroteWhileAsleep : List (ChannelStep Bool ℕ) :=
  ChannelStep.read :: List.replicate 3 .reader ++
    ChannelStep.write false 7 :: List.replicate 7 (.writer false)

theorem waking_wroteWhileAsleep : ∃ s,
    Steps.exec (next ⟨4, .mutex, .sync⟩) (start ⟨4, .mutex, .sync⟩ 0) wroteWhileAsleep = some s ∧
    (s.reader, s.unread) = (.asleep 0, 1) ∧ ∃ t, (s.writers t).Waking := by
  have hinit : Channel.init .all 3 0x00 = .ok ⟨4, .mutex, .sync⟩ := rfl
  refine Steps.exists_exec (by rfl) fun s hs hview => ?_
  obtain ⟨hasleep, hunread⟩ := Prod.mk.inj hview
  exact waking_of_asleep (by decide) hinit (by decide) 0 hs hasleep (hunread ▸ one_pos)

end ChannelState

end Mugglec
