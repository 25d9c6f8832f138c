import Mugglec.Sync.RingBuffer
import Mugglec.Machinery.RingQueue

/-!
# Sync/RingBufferWrite — what the writers of a broadcast ring keep in it

The cursor is the number `W` of values written, modulo the capacity `C`, and the last `C - 1` values
are in their blocks.
-/

namespace Mugglec

open Function

variable {T R α : Type*}

namespace RingBuffer

variable {rb : RingBuffer}

/-- The capacity is a power of two within the range of an index. -/
def Sized (rb : RingBuffer) : Prop := ∃ k < 32, rb.capacity = 2 ^ k

theorem ok_of_init {useSync : Bool} {g : Grants} {capacity flag : ℕ}
    (hinit : init useSync g capacity flag = .ok rb) :
    capacity ≠ 0 ∧ 0 < i32 (u32 (nextPowOf2 capacity)) ∧
      rb.capacity = (i32 (u32 (nextPowOf2 capacity))).toNat := by
  rw [init] at hinit
  by_cases hzero : capacity = 0
  · simp [hzero] at hinit
  by_cases hpos : i32 (u32 (nextPowOf2 capacity)) ≤ 0
  · simp [hzero, hpos] at hinit
  rw [if_neg hzero, if_neg hpos] at hinit
  refine ⟨hzero, not_le.mp hpos, ?_⟩
  cases hmode : getMode flag with
  | error e => simp [hmode] at hinit
  | ok modes =>
    simp only [hmode] at hinit
    split_ifs at hinit
    obtain rfl := Except.ok.inj hinit
    rfl

theorem sized_of_init {useSync : Bool} {g : Grants} {capacity flag : ℕ} (hlt : capacity < 2 ^ 32)
    (hinit : init useSync g capacity flag = .ok rb) : rb.Sized := by
  obtain ⟨hzero, hpos, hcap⟩ := ok_of_init hinit
  have hne : u32 (nextPowOf2 capacity) ≠ 0 := by
    intro h
    rw [h] at hpos
    exact absurd hpos (by decide)
  obtain ⟨k, hk, hpow⟩ := u32_nextPowOf2 hzero hlt hne
  -- a capacity of `2 ^ 31` would be negative as a `muggle_atomic_int`
  have hlt' : 2 ^ k < 2 ^ 31 := by
    by_contra hge
    have : 2 ^ k < 2 ^ 32 := Nat.pow_lt_pow_right (by omega) hk
    rw [hpow, i32, if_neg hge] at hpos
    omega
  refine ⟨k, hk, ?_⟩
  rw [hcap, hpow, i32_of_lt hlt', Int.toNat_natCast]

theorem Sized.pos (h : rb.Sized) : 0 < rb.capacity := by
  obtain ⟨k, -, hk⟩ := h
  rw [hk]
  exact Nat.two_pow_pos k

theorem Sized.pos_u32 (h : rb.Sized) (n : ℕ) : rb.pos (u32 n) = n % rb.capacity := by
  obtain ⟨k, hlt, hk⟩ := h
  rw [RingBuffer.pos, hk, idx_eq_mod hlt, u32, Nat.mod_mod_of_dvd n (pow_dvd_pow 2 hlt.le)]

theorem Sized.rpos_eq (h : rb.Sized) (i : ℕ) : rb.rpos i = i % rb.capacity := by
  rw [rpos, h.pos_u32]
  obtain ⟨k, hlt, hk⟩ := h
  rw [RingBuffer.pos, hk, idx_eq_mod hlt, Nat.mod_mod]

theorem Sized.bump_eq (h : rb.Sized) (n : ℕ) :
    rb.bump (n % rb.capacity) = (n + 1) % rb.capacity := by
  rw [bump, h.pos_u32, Nat.mod_add_mod]

end RingBuffer

structure Ring (c cursor : ℕ) (blocks : ℕ → α) (written : List α) : Prop where
  cursor : cursor = written.length % c
  kept : RingQueue.Holds c blocks written (written.length - (c - 1))

section Ring

variable {c cursor i : ℕ} {blocks : ℕ → α} {written : List α}

theorem Ring.store (h : Ring c cursor blocks written) (hc : 0 < c) (data : α) :
    Ring c cursor (update blocks cursor data) written := by
  refine ⟨h.cursor, ?_⟩
  rw [h.cursor]
  exact h.kept.set (by omega) data

theorem Ring.publish (h : Ring c cursor blocks written) {data : α} (hdata : blocks cursor = data) :
    Ring c ((written.length + 1) % c) blocks (written ++ [data]) := by
  have hlen : (written ++ [data]).length = written.length + 1 := List.length_append
  rw [h.cursor] at hdata
  refine ⟨by rw [hlen], (h.kept.push hdata).mono ?_ ?_⟩ <;> omega

theorem Ring.fetch (h : Ring c cursor blocks written) (hlt : i < written.length)
    (hnear : written.length ≤ i + (c - 1)) : written[i]? = some (blocks (i % c)) :=
  h.kept.kept i (by omega) hlt

theorem Ring.lt_of_ne (h : Ring c cursor blocks written) (hle : i ≤ written.length)
    (hne : cursor ≠ i % c) : i < written.length := by
  refine lt_of_le_of_ne hle ?_
  rintro rfl
  exact hne h.cursor

theorem Ring.eq_iff (h : Ring c cursor blocks written) (hc : 0 < c) (hle : i ≤ written.length)
    (hnear : written.length ≤ i + (c - 1)) : cursor = i % c ↔ i = written.length := by
  rw [h.cursor, eq_comm, RingQueue.mod_eq_iff hle (by omega)]

end Ring

namespace RingState

variable {rb : RingBuffer} {s s' : RingState T R α} {t : T}

def Critical : RingWriterPc α → Prop
  | .index _ | .store _ _ | .advance _ | .publish _ _ | .unlock => True
  | _ => False

def WriterOk (rb : RingBuffer) (cursor : ℕ) (blocks : ℕ → α) : RingWriterPc α → Prop
  | .store _ idx => idx = cursor
  | .advance data => blocks cursor = data
  | .publish data rpos => blocks cursor = data ∧ rpos = rb.bump cursor
  | _ => True

theorem writerOk_of_not_critical {pc : RingWriterPc α} (h : ¬ Critical pc) (cursor : ℕ)
    (blocks : ℕ → α) : WriterOk rb cursor blocks pc := by
  cases pc <;> first | trivial | exact absurd trivial h

theorem not_critical_wakePc : ¬ Critical (wakePc rb : RingWriterPc α) := by
  rw [wakePc]
  cases rb.readMode <;> cases rb.useSync <;> exact id

structure WriteSide (rb : RingBuffer) (s : RingState T R α) : Prop where
  ring : Ring rb.capacity s.cursor s.blocks s.written
  owner : ∀ t, Critical (s.writers t) → s.writeSpin = some t
  writers : ∀ t, WriterOk rb s.cursor s.blocks (s.writers t)

theorem writeSide_start (junk : ℕ → α) : WriteSide rb (start junk : RingState T R α) where
  ring := ⟨(Nat.zero_mod _).symm, (Nat.zero_sub (rb.capacity - 1)).symm ▸ RingQueue.holds_nil _ _⟩
  owner := fun _ h => absurd h id
  writers := fun _ => trivial

theorem WriteSide.setMutex (h : WriteSide rb s) (mutex : Option (RingHolder T R)) :
    WriteSide rb { s with readMutex := mutex } :=
  ⟨h.ring, h.owner, h.writers⟩

theorem WriteSide.alone (h : WriteSide rb s) (ht : Critical (s.writers t)) :
    ∀ u ≠ t, ¬ Critical (s.writers u) := fun u hu hcrit =>
  hu (Option.some.inj ((h.owner u hcrit).symm.trans (h.owner t ht)))

section

variable [DecidableEq T] {pc : RingWriterPc α}

theorem WriteSide.goto (h : WriteSide rb s) (hcrit : Critical pc → s.writeSpin = some t)
    (hpc : WriterOk rb s.cursor s.blocks pc) : WriteSide rb (s.goto t pc) where
  ring := h.ring
  owner := (forall_update_iff s.writers fun t pc => Critical pc → s.writeSpin = some t).mpr
    ⟨hcrit, fun t _ => h.owner t⟩
  writers := (forall_update_iff s.writers fun _ pc => WriterOk rb s.cursor s.blocks pc).mpr
    ⟨hpc, fun t _ => h.writers t⟩

theorem WriteSide.gotoOutside (h : WriteSide rb s) (t : T) (hout : ¬ Critical pc) :
    WriteSide rb (s.goto t pc) :=
  h.goto (fun hc => absurd hc hout) (writerOk_of_not_critical hout _ _)

theorem WriteSide.change (h : WriteSide rb s) (ht : Critical (s.writers t))
    (hwriters : s'.writers = update s.writers t pc)
    (hspin : s'.writeSpin = s.writeSpin)
    (hring : Ring rb.capacity s'.cursor s'.blocks s'.written)
    (hpc : WriterOk rb s'.cursor s'.blocks pc) : WriteSide rb s' where
  ring := hring
  owner := by
    rw [hwriters, hspin]
    exact (forall_update_iff s.writers fun t pc => Critical pc → _ = some t).mpr
      ⟨fun _ => h.owner t ht, fun t _ => h.owner t⟩
  writers := by
    rw [hwriters]
    exact (forall_update_iff s.writers fun _ pc => WriterOk rb _ _ pc).mpr
      ⟨hpc, fun u hu => writerOk_of_not_critical (h.alone ht u hu) _ _⟩

theorem WriteSide.setSpin (h : WriteSide rb s) {spin : Option T}
    (hothers : ∀ u ≠ t, ¬ Critical (s.writers u)) (hcrit : Critical pc → spin = some t)
    (hpc : WriterOk rb s.cursor s.blocks pc) :
    WriteSide rb { s.goto t pc with writeSpin := spin } where
  ring := h.ring
  owner := (forall_update_iff s.writers fun t pc => Critical pc → spin = some t).mpr
    ⟨hcrit, fun u hu hc => absurd hc (hothers u hu)⟩
  writers := (forall_update_iff s.writers fun _ pc => WriterOk rb s.cursor s.blocks pc).mpr
    ⟨hpc, fun t _ => h.writers t⟩

theorem WriteSide.writerStep (hrb : rb.Sized) (h : WriteSide rb s)
    (hnext : s.writerStep rb t = some s') : WriteSide rb s' := by
  have hwriter := h.writers t
  have howner := h.owner t
  have halone := h.alone (t := t)
  rw [RingState.writerStep] at hnext
  cases hpc : s.writers t <;> simp only [hpc, reduceCtorEq, Option.some.injEq] at hnext <;>
    rw [hpc] at hwriter howner halone
  case lock data =>
    split_ifs at hnext with hfree
    cases hnext
    refine h.setSpin (fun u _ hu => ?_) (fun _ => rfl) trivial
    exact absurd (hfree.symm.trans (h.owner u hu)) (by simp)
  case index data =>
    subst hnext
    exact h.goto (fun _ => howner trivial) rfl
  case store data idx =>
    subst hnext hwriter
    refine h.change (by rw [hpc]; trivial) rfl rfl (h.ring.store hrb.pos data) ?_
    exact update_self ..
  case advance data =>
    subst hnext
    exact h.goto (fun _ => howner trivial) ⟨hwriter, rfl⟩
  case publish data rpos =>
    obtain ⟨hdata, rfl⟩ := hwriter
    subst hnext
    refine h.change (by rw [hpc]; trivial) rfl rfl ?_ trivial
    have hring := h.ring.publish hdata
    rw [← hrb.bump_eq, ← h.ring.cursor] at hring
    exact hring
  case unlock =>
    subst hnext
    exact h.setSpin (halone trivial) (fun hc => absurd hc not_critical_wakePc)
      (writerOk_of_not_critical not_critical_wakePc _ _)
  case wakeLock =>
    split_ifs at hnext
    cases hnext
    exact (h.gotoOutside t id).setMutex _
  case wakeUnlock =>
    subst hnext
    exact (h.gotoOutside t id).setMutex _

end

structure Roused (rb : RingBuffer) (s s' : RingState T R α) : Prop where
  mem : s'.toRingMem = s.toRingMem
  spin : s'.writeSpin = s.writeSpin
  mutex : s'.readMutex = s.readMutex
  writers : s'.writers = s.writers
  readers : ∀ r, s'.readers r = s.readers r ∨
    s'.readers r = { s.readers r with pc := resume rb (s.readers r).pc }

theorem WriteSide.roused (h : WriteSide rb s) (hs : Roused rb s s') : WriteSide rb s' where
  ring := by rw [hs.mem]; exact h.ring
  owner := by rw [hs.spin, hs.writers]; exact h.owner
  writers := by rw [hs.mem, hs.writers]; exact h.writers

variable [DecidableEq R]

theorem roused_awaken (s : RingState T R α) (r : R) : Roused rb s (s.awaken rb r) := by
  refine ⟨rfl, rfl, rfl, rfl, fun r' => ?_⟩
  rcases eq_or_ne r' r with rfl | hne
  · exact .inr (update_self ..)
  · exact .inl (update_of_ne hne ..)

theorem roused_awakenAll (s : RingState T R α) : Roused rb s (s.awakenAll rb) := by
  refine ⟨rfl, rfl, rfl, rfl, fun r => ?_⟩
  by_cases hr : r ∈ s.sleepers
  · exact .inr (if_pos hr)
  · exact .inl (if_neg hr)

theorem roused_awakenOne {who : Option R} (h : s.awakenOne rb who = some s') :
    Roused rb s s' := by
  cases who with
  | none =>
    rw [awakenOne] at h
    split_ifs at h
    cases h
    exact ⟨rfl, rfl, rfl, rfl, fun _ => .inl rfl⟩
  | some r =>
    rw [awakenOne] at h
    split_ifs at h
    cases h
    exact roused_awaken s r

theorem WriteSide.readerStep {r : R} (h : WriteSide rb s) (hnext : s.readerStep rb r = some s') :
    WriteSide rb s' := by
  rw [RingState.readerStep] at hnext
  cases hpc : (s.readers r).pc <;> simp only [hpc, reduceCtorEq] at hnext <;>
    (try split_ifs at hnext) <;> cases hnext <;>
    exact ⟨h.ring, h.owner, h.writers⟩

variable [DecidableEq T]

theorem roused_of_wake {who : Option R} (h : s.next rb (.wake t who) = some s') :
    ∃ s₁, Roused rb s s₁ ∧ s' = s₁.goto t .idle := by
  rw [next] at h
  cases hpc : s.writers t <;> simp only [hpc, reduceCtorEq] at h
  obtain ⟨s₁, hs₁, rfl⟩ := Option.map_eq_some_iff.mp h
  refine ⟨s₁, ?_, rfl⟩
  split_ifs at hs₁
  · cases hs₁
    exact roused_awakenAll s
  · exact roused_awakenOne hs₁

theorem roused_of_spurious {r : R} (h : s.next rb (.spurious r) = some s') : Roused rb s s' := by
  rw [next] at h
  split_ifs at h
  cases h
  exact roused_awaken s r

theorem WriteSide.next (hrb : rb.Sized) (h : WriteSide rb s) {a : RingStep T R α}
    (hnext : s.next rb a = some s') : WriteSide rb s' := by
  cases a with
  | write t data =>
    rw [RingState.next] at hnext
    cases hpc : s.writers t <;> simp only [hpc, reduceCtorEq] at hnext
    cases hnext
    exact h.gotoOutside t id
  | writer t => exact h.writerStep hrb hnext
  | wake t who =>
    obtain ⟨s₁, hs₁, rfl⟩ := roused_of_wake hnext
    exact (h.roused hs₁).gotoOutside t id
  | read r =>
    rw [RingState.next] at hnext
    cases hpc : (s.readers r).pc <;> simp only [hpc, reduceCtorEq] at hnext
    cases hnext
    exact ⟨h.ring, h.owner, h.writers⟩
  | reader r => exact h.readerStep hnext
  | spurious r => exact h.roused (roused_of_spurious hnext)

end RingState

end Mugglec
