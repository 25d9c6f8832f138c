import Mugglec.Sync.ChannelCalls

/-!
# Sync/ChannelRoom — a channel with nothing unread has room

A drained ring of `C` blocks has `readCursor` one behind `writeCursor`, and a write is refused when
the block after `writeCursor` is the one at `readCursor`.
-/

namespace Mugglec

open Function

namespace ChannelState

variable {T α : Type*} {ch : Channel} {s : ChannelState T α} {t : T}

theorem Inv.room_of_drained {k : ℕ} (hc : ch.capacity = 2 ^ k) (hk : k < 32)
    (h4 : 4 ≤ ch.capacity) (h : Inv ch s) (hunread : s.unread = 0) :
    bump ch s.writeCursor ≠ s.readCursor := by
  rw [h.ring.writeCursor, bump_mod hc hk]
  intro hmet
  have hfull := (h.ring.seen.full_iff (by omega)).mp hmet
  omega

variable [DecidableEq T]

def Quiet (s : ChannelState T α) : Prop := s.writeLock = none ∧ s.readMutex = none

def WriteSucceeds (ch : Channel) (s : ChannelState T α) (t : T) (data : α) : Prop :=
  ∃ n s', Steps.exec (next ch) s (.write t data :: List.replicate n (.writer t)) = some s' ∧
    s'.writers t = .idle ∧ s'.written = s.written ++ [data] ∧ s'.fulls = s.fulls

structure DrainedAccepts (T : Type*) {α : Type*} [DecidableEq T] (ch : Channel) (null : α) :
    Prop where
  refused : ∀ s : ChannelState T α,
    Steps.Reach (next ch) Steps.anyStep (start ch null) s → 0 ∉ s.fulls
  accepted : ∀ s : ChannelState T α,
    Steps.Reach (next ch) Steps.anyStep (start ch null) s → s.unread = 0 → s.Quiet →
    ∀ t data, s.writers t = .idle → WriteSucceeds ch s t data

/-- By steps of thread `t` alone the channel comes to a state with `Q`. -/
def Gets (ch : Channel) (t : T) (Q : ChannelState T α → Prop) (s : ChannelState T α) : Prop :=
  ∃ n s', Steps.exec (next ch) s (List.replicate n (.writer t)) = some s' ∧ Q s'

variable {Q : ChannelState T α → Prop} {data : α}

theorem Gets.here (h : Q s) : Gets ch t Q s := ⟨0, s, rfl, h⟩

theorem Gets.step {s₁ : ChannelState T α} (hstep : s.writerStep ch t = some s₁)
    (h : Gets ch t Q s₁) : Gets ch t Q s := by
  obtain ⟨n, s', hrun, hQ⟩ := h
  refine ⟨n + 1, s', ?_, hQ⟩
  rw [List.replicate_succ, Steps.exec, next, hstep, Option.bind_some, hrun]

theorem Gets.branch {p : Prop} [Decidable p] {s₁ s₂ : ChannelState T α}
    (hstep : s.writerStep ch t = if p then some s₁ else some s₂) (hthen : p → Gets ch t Q s₁)
    (helse : ¬p → Gets ch t Q s₂) : Gets ch t Q s := by
  by_cases hp : p
  · exact .step (hstep.trans (if_pos hp)) (hthen hp)
  · exact .step (hstep.trans (if_neg hp)) (helse hp)

def Wrote (t : T) (data : α) (s s' : ChannelState T α) : Prop :=
  s'.writers t = .idle ∧ s'.written = s.written ++ [data] ∧ s'.fulls = s.fulls

theorem gets_of_unlock {s₀ : ChannelState T α} (hpc : s.writers t = .unlock .ok)
    (hwritten : s.written = s₀.written ++ [data]) (hfulls : s.fulls = s₀.fulls) :
    Gets ch t (Wrote t data s₀) s := by
  refine .step (by rw [writerStep, hpc]) ?_
  refine .step (by simp only [writerStep, goto, update_self, if_true]; rfl) (.here ?_)
  exact ⟨update_self .., hwritten, hfulls⟩

theorem gets_of_index {s₀ : ChannelState T α} {wpos : ℕ} (hpc : s.writers t = .index data wpos)
    (hwritten : s.written = s₀.written) (hfulls : s.fulls = s₀.fulls) :
    Gets ch t (Wrote t data s₀) s := by
  refine .step (by rw [writerStep, hpc]) ?_
  refine .step (by simp only [writerStep, goto, update_self]; rfl) ?_
  refine .step (by simp only [writerStep, goto, update_self]; rfl) ?_
  by_cases hm : ch.readMode = .mutex
  · refine .step (by simp only [writerStep, update_self, if_pos hm]; rfl) ?_
    exact gets_of_unlock (update_self ..) (congrArg (· ++ _) hwritten) hfulls
  · exact gets_of_unlock (by simp [hm]) (congrArg (· ++ _) hwritten) hfulls

/-- From the lock the write comes to its block, or logs that the ring is full. -/
theorem gets_of_lock (hpc : s.writers t = .lock data) (hquiet : s.Quiet)
    (hindex : ∀ s₁ wpos, s₁.writers t = .index data wpos → s₁.written = s.written →
      s₁.fulls = s.fulls → (bump ch s.writeCursor = s.readCursor → s.cachedRCur ≠ s.readCursor) →
      Gets ch t Q s₁)
    (hfull : ∀ s₁, s₁.fulls = s.fulls ++ [s.unread] → bump ch s.writeCursor = s.readCursor →
      Gets ch t Q s₁) : Gets ch t Q s := by
  obtain ⟨hwrite, hread⟩ := hquiet
  refine .step (by rw [writerStep, hpc, hwrite]; exact if_pos rfl) ?_
  cases hm : ch.readMode with
  | sync =>
    refine .step (by simp only [writerStep, goto, enter, hm, update_self]; rfl) ?_
    refine .branch (by simp only [writerStep, goto, update_self]; rfl) ?_ ?_
    · exact hfull _ rfl
    · exact fun hne => hindex _ _ (update_self ..) rfl rfl (absurd · hne)
  | mutex =>
    refine .step (by simp only [writerStep, goto, enter, hm, update_self, hread]; rfl) ?_
    refine .step (by simp only [writerStep, update_self]; rfl) ?_
    refine .branch (by simp only [writerStep, goto, update_self, hm]; rfl) ?_ ?_
    · exact hfull _ rfl
    · exact fun hne => hindex _ _ (update_self ..) rfl rfl (absurd · hne)
  | busy =>
    refine .step (by simp only [writerStep, goto, enter, hm, update_self]; rfl) ?_
    refine .branch (by simp only [writerStep, goto, update_self, hm]; rfl) (fun _ => ?_) ?_
    · refine .step (by simp only [writerStep, update_self]; rfl) ?_
      refine .step (by simp only [writerStep, goto, update_self]; rfl) ?_
      refine .branch (by simp only [writerStep, goto, update_self]; rfl) ?_ ?_
      · exact hfull _ rfl
      · exact fun hne => hindex _ _ (update_self ..) rfl rfl (absurd · hne)
    · exact fun hne => hindex _ _ (update_self ..) rfl rfl fun h h' =>
        hne (h.trans h'.symm)

theorem writeSucceeds_of_room (hidle : s.writers t = .idle) (hquiet : s.Quiet)
    (hroom : bump ch s.writeCursor ≠ s.readCursor) (data : α) : WriteSucceeds ch s t data := by
  obtain ⟨n, s', hrun, hwrote⟩ : Gets ch t (Wrote t data s) (s.goto t (.lock data)) :=
    gets_of_lock (update_self ..) hquiet
      (fun _ _ hpc hwritten hfulls _ => gets_of_index hpc hwritten hfulls)
      fun _ _ hmet => absurd hmet hroom
  refine ⟨n, s', ?_, hwrote⟩
  rw [Steps.exec, next, hidle, Option.bind_some, hrun]

theorem refused_of_met (hmet : bump ch 0 = ch.capacity - 1) (null : α) (t : T) :
    ∃ s : ChannelState T α,
      Steps.Reach (next ch) Steps.anyStep (start ch null) s ∧ 0 ∈ s.fulls := by
  obtain ⟨n, s, hrun, hfull⟩ :
      Gets ch t (fun s => 0 ∈ s.fulls) ((start ch null).goto t (.lock null)) :=
    gets_of_lock (update_self ..) ⟨rfl, rfl⟩
      (fun _ _ _ _ _ hne => absurd rfl (hne hmet)) fun s₁ hfulls _ => .here <| by
        rw [hfulls]
        simp [goto, start, ChannelMem.unread]
  exact ⟨s, .of_exec (.write t null :: List.replicate n (.writer t)) hrun, hfull⟩

theorem bump_zero_eq {k : ℕ} (hc : ch.capacity = 2 ^ k) (hk : k ≤ 1) :
    bump ch 0 = ch.capacity - 1 := by
  have h01 : k = 0 ∨ k = 1 := by omega
  rcases h01 with rfl | rfl <;> rw [bump, hc] <;> decide

theorem log_capacity {g : Channel.Grants} {capacity flags : ℕ} (hcap : capacity < 2 ^ 32)
    (hinit : Channel.init g capacity flags = .ok ch) :
    ∃ k, k < 32 ∧ ch.capacity = 2 ^ k ∧ (2 ≤ k ↔ 3 ≤ capacity) := by
  obtain ⟨hpos, hzero, heq⟩ := init_eq_ok hinit
  obtain ⟨k, hk, hpow, hleast⟩ := u32_nextPowOf2_least hpos hcap hzero
  refine ⟨k, hk, heq.trans hpow, ?_⟩
  have hone := hleast 1
  omega

/-- **A drained channel accepts a write exactly when three blocks or more were asked for**, in
every write and read mode. -/
theorem drainedAccepts_iff [Nonempty T] {g : Channel.Grants} {capacity flags : ℕ}
    (hcap : capacity < 2 ^ 32) (hinit : Channel.init g capacity flags = .ok ch) (null : α) :
    DrainedAccepts T ch null ↔ 3 ≤ capacity := by
  obtain ⟨k, hk, hc, hthree⟩ := log_capacity hcap hinit
  rw [← hthree]
  constructor
  · intro haccepts
    by_contra hlt
    obtain ⟨t⟩ := ‹Nonempty T›
    obtain ⟨s, hs, hfull⟩ := refused_of_met (bump_zero_eq hc (by omega)) null t
    exact haccepts.refused s hs hfull
  · intro hle
    have h4 : 2 ^ 2 ≤ ch.capacity := hc ▸ Nat.pow_le_pow_right two_pos hle
    have h2 : 2 ≤ ch.capacity := le_trans (by decide) h4
    have hinv : ∀ s : ChannelState T α,
        Steps.Reach (next ch) Steps.anyStep (start ch null) s → Inv ch s := fun s hs =>
      hs.invariant (inv_start hc null) fun _ _ _ h _ => h.step hc hk h2
    refine ⟨fun s hs hzero => ?_, fun s hs hunread hquiet t data hidle => ?_⟩
    · have hcap := (hinv s hs).fulls 0 hzero
      omega
    · exact writeSucceeds_of_room hidle hquiet ((hinv s hs).room_of_drained hc hk h4 hunread) data

theorem drainedAccepts_three : DrainedAccepts Bool ⟨4, .mutex, .sync⟩ 0 :=
  have hinit : Channel.init .all 3 0x00 = .ok ⟨4, .mutex, .sync⟩ := rfl
  (drainedAccepts_iff (by decide) hinit 0).mpr (le_refl 3)

theorem first_write_refused : Channel.init .all 2 0x00 = .ok ⟨2, .mutex, .sync⟩ ∧
    (Steps.exec (next ⟨2, .mutex, .sync⟩) (start ⟨2, .mutex, .sync⟩ 0)
      (.write false 7 :: List.replicate 4 (.writer false))).map
        (fun s => (s.writers false, s.written, s.fulls)) = some (.idle, [], [0]) :=
  ⟨rfl, rfl⟩

end ChannelState

end Mugglec
