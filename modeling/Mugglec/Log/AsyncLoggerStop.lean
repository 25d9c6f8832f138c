import Mugglec.Log.AsyncLogger

/-!
# Log/AsyncLoggerStop — the backend is told to stop

The join in `muggle_async_logger_destroy` returns once the backend has read the null pointer.
Whether there is one to be read depends on the channel write before the join, whose result is
ignored.
-/

namespace Mugglec

open Function

namespace AsyncLogger

open ChannelState

variable {T : Type} {L : Logger} {ch : Channel} {s s' : AsyncLogger T}
  {a : LogStep T} {channelCapacity : ℤ} {c c' : ChannelState (Option T) (Option LogMsg)}

theorem idle_iff_of_resumed (h : c'.reader = c.reader ∨ c'.reader = resume ch c.reader) :
    c'.reader = .idle ↔ c.reader = .idle := by
  rcases h with h | h
  · rw [h]
  · rw [h]
    cases hpc : c.reader <;> cases hm : ch.readMode <;> simp [resume, hm]

theorem data_of_effect {w : Option T} {pc : WriterPc (Option LogMsg)} {d : Option LogMsg}
    (h : WriteEffect (c.writers w) pc c c') (hd : pc.data = some d) :
    (c.writers w).data = some d := by
  cases h with
  | onTheWay hdata => exact hdata ▸ hd
  | accepted _ _ hnone => exact absurd (hnone.symm.trans hd) (by simp)
  | refused _ _ hnone => exact absurd (hnone.symm.trans hd) (by simp)

def Heard (c : ChannelState (Option T) (Option LogMsg)) : BackendPc → Prop
  | .exited => ∃ l, c.returned = l ++ [none] ∧ none ∉ l
  | .reading => none ∉ c.returned ∧ c.reader ≠ .idle
  | .read | .write _ | .freePayload _ | .freeMsg _ => none ∉ c.returned ∧ c.reader = .idle

theorem Heard.congr {pc : BackendPc} (h : Heard c pc) (hreturned : c'.returned = c.returned)
    (hreader : c'.reader = .idle ↔ c.reader = .idle) : Heard c' pc := by
  cases pc with
  | exited => rwa [Heard, hreturned]
  | reading => rwa [Heard, hreturned, ne_eq, hreader]
  | read | write | freePayload | freeMsg => rwa [Heard, hreturned, hreader]

theorem heard_afterRead (h : none ∉ c.returned)
    (hcases : c'.reader ≠ .idle ∧ c'.returned = c.returned ∨
      ∃ d, c'.reader = .idle ∧ c'.returned = c.returned ++ [d]) : Heard c' (afterRead c') := by
  rcases hcases with ⟨hreader, hreturned⟩ | ⟨d, hreader, hreturned⟩
  · rw [afterRead_of_ne hreader]
    exact ⟨hreturned ▸ h, hreader⟩
  · rw [afterRead_of_idle hreader hreturned]
    cases d with
    | none => exact ⟨c.returned, hreturned, h⟩
    | some msg =>
      refine ⟨?_, hreader⟩
      rw [hreturned, List.mem_append, List.mem_singleton, not_or]
      exact ⟨h, by simp⟩

def readLeft : ReaderPc (Option LogMsg) → ℕ
  | .head | .wait _ _ => 4
  | .poll _ => 3
  | .fetch _ => 2
  | .publish _ _ => 1
  | _ => 0

def stepsLeft (c : ChannelState (Option T) (Option LogMsg)) : BackendPc → ℕ
  | .write _ => 8
  | .freePayload _ => 7
  | .freeMsg _ => 6
  | .read => 5
  | .reading => readLeft c.reader
  | .exited => 0

theorem stepsLeft_afterRead_le (h : c.reader = .idle) : stepsLeft c (afterRead c) ≤ 8 := by
  rw [afterRead, h]
  simp only
  split <;> simp [stepsLeft]

structure Calls (s : AsyncLogger T) : Prop where
  sync : s.chan.ReaderSync
  thread : ∀ t, s.threads t ≠ .writing → s.chan.writers (some t) = .idle
  destroyer : s.destroyer ≠ .writing → s.chan.writers none = .idle
  nothing : ∀ d, (s.chan.writers none).data = some d → d = none
  something : ∀ t d, (s.chan.writers (some t)).data = some d → d ≠ none
  heard : Heard s.chan s.backend

theorem calls_start : Calls (start ch : AsyncLogger T) where
  sync := ⟨by simp [start, ChannelState.start], by simp [start, ChannelState.start]⟩
  thread t _ := rfl
  destroyer _ := rfl
  nothing d hd := absurd hd (by simp [start, ChannelState.start, WriterPc.data])
  something t d hd := absurd hd (by simp [start, ChannelState.start, WriterPc.data])
  heard := ⟨by simp [start, ChannelState.start], rfl⟩

theorem Calls.setBackend (h : Calls s) (pc : BackendPc) (hpc : Heard s.chan pc)
    (writes : List (ℕ × LogMsg)) (freedPayloads freedMsgs : List ℕ) :
    Calls { s with
      backend := pc, writes := writes, freedPayloads := freedPayloads, freedMsgs := freedMsgs } :=
  ⟨h.sync, h.thread, h.destroyer, h.nothing, h.something, hpc⟩

variable [DecidableEq T]

theorem Took.chan (hm : ch.readMode = .sync) (h : Took L ch s a s') :
    s'.chan = s.chan ∨ ∃ b, s.chan.next ch b = some s'.chan := by
  cases h with
  | write t _ msg _ hidle =>
    exact .inr ⟨.write (some t) (some msg), by simp only [ChannelState.next, hidle]⟩
  | writing t _ c _ hc => exact .inr ⟨.writer (some t), hc⟩
  | read _ hidle => exact .inr ⟨.read, by simp [ChannelState.next, hidle, hm]⟩
  | reading c _ hc => exact .inr ⟨.reader, hc⟩
  | spurious rpos hasleep =>
    exact .inr ⟨.spurious, by simp [ChannelState.next, hasleep, resume, hm]⟩
  | destroy _ hidle => exact .inr ⟨.write none none, by simp only [ChannelState.next, hidle]⟩
  | destroyWriting c _ hc => exact .inr ⟨.writer none, hc⟩
  | _ => exact .inl rfl

theorem chan_invariant {P : ChannelState (Option T) (Option LogMsg) → Prop}
    {ok : AsyncLogger T → LogStep T → Prop} (hm : ch.readMode = .sync)
    (hstart : P (ChannelState.start ch none))
    (hstep : ∀ c b c', P c → c.next ch b = some c' → P c')
    (hs : Steps.Reach (next L ch) ok (start ch) s) : P s.chan := by
  refine hs.invariant (P := fun s => P s.chan) hstart fun s a s' h _ hnext => ?_
  obtain heq | ⟨b, hb⟩ := (next_cases hm hnext).chan hm
  · rwa [heq]
  · exact hstep _ b _ h hb

theorem chan_of_init {g : Channel.Grants} {thread ret : Err}
    (hinit : init g thread channelCapacity = (ret, some ch)) :
    (∃ k, k < 32 ∧ ch.capacity = 2 ^ k) ∧ ch.readMode = .sync := by
  simp only [init] at hinit
  split at hinit
  · next ch' hch =>
    obtain rfl : ch' = ch := Option.some.inj (Prod.mk.inj hinit).2
    refine ⟨capacity_of_init (by omega) hch, ?_⟩
    rw [Channel.init] at hch
    split_ifs at hch
    · split at hch
      · simp at hch
      · rw [← Except.ok.inj hch]
        rfl
    · split at hch <;> simp at hch
  · simp at hinit
  · simp at hinit

theorem Calls.goto (h : Calls s) {t : T} {pc : LogPc} (ht : s.threads t ≠ .writing)
    (msgs payloads : ℕ) : Calls { s.goto t pc with msgs := msgs, payloads := payloads } := by
  refine ⟨h.sync, fun t' ht' => ?_, h.destroyer, h.nothing, h.something, h.heard⟩
  obtain rfl | hne := eq_or_ne t' t
  · exact h.thread t' ht
  · refine h.thread t' ?_
    simpa only [AsyncLogger.goto, update_of_ne hne] using ht'

theorem Calls.step (hm : ch.readMode = .sync) (h : Calls s) (hstep : Took L ch s a s') :
    Calls s' := by
  cases hstep with
  | filtered => exact h
  | log t level ht => exact h.goto (by simp [ht]) ..
  | noMsg t level ht => exact h.goto (by simp [ht]) ..
  | alloc t level ht => exact h.goto (by simp [ht]) ..
  | payload t id level ht => exact h.goto (by simp [ht]) ..
  | write t mem msg ht hidle =>
    refine ⟨h.sync, fun t' ht' => ?_, h.destroyer, h.nothing, fun t' d hd => ?_, h.heard⟩ <;>
      simp only [AsyncLogger.goto, ChannelState.goto] at *
    · obtain rfl | hne := eq_or_ne t' t
      · exact absurd (update_self ..) ht'
      · rw [update_of_ne hne] at ht'
        rw [update_of_ne (by simpa using hne)]
        exact h.thread t' ht'
    · obtain rfl | hne := eq_or_ne t' t
      · rw [update_self] at hd
        rw [← Option.some.inj hd]
        simp
      · rw [update_of_ne (by simpa using hne)] at hd
        exact h.something t' d hd
  | writing t mem c ht hc =>
    obtain ⟨pc, hwriters, hreturned, hreader, heffect⟩ := writerStep_cases hc
    refine ⟨h.sync.resume hm hreader, fun t' ht' => ?_, fun hd => ?_, fun d hd => ?_,
      fun t' d hd => ?_, h.heard.congr hreturned (idle_iff_of_resumed hreader)⟩ <;>
      simp only [AsyncLogger.goto, hwriters] at *
    · obtain rfl | hne := eq_or_ne t' t
      · simp only [update_self] at ht' ⊢
        split_ifs at ht' with hidle
        · exact WriterPc.isIdle_iff.mp hidle
        · exact absurd rfl ht'
      · rw [update_of_ne hne] at ht'
        rw [update_of_ne (by simpa using hne)]
        exact h.thread t' ht'
    · rw [update_of_ne (by simp)]
      exact h.destroyer hd
    · rw [update_of_ne (by simp)] at hd
      exact h.nothing d hd
    · obtain rfl | hne := eq_or_ne t' t
      · rw [update_self] at hd
        exact h.something t' d (data_of_effect heffect hd)
      · rw [update_of_ne (by simpa using hne)] at hd
        exact h.something t' d hd
  | read hb hidle =>
    have hheard := h.heard
    rw [hb] at hheard
    exact ⟨by simp [ReaderSync], h.thread, h.destroyer, h.nothing, h.something, hheard.1, by simp⟩
  | reading c hb hc =>
    obtain ⟨hwriters, hwritten, -, hsync, hcases⟩ := readerStep_cases hm h.sync hc
    have hheard := h.heard
    rw [hb] at hheard
    refine ⟨hsync, fun t ht => ?_, fun hd => ?_, fun d hd => ?_, fun t d hd => ?_,
      heard_afterRead hheard.1 hcases⟩
    · exact hwriters ▸ h.thread t ht
    · exact hwriters ▸ h.destroyer hd
    · exact h.nothing d (hwriters ▸ hd)
    · exact h.something t d (hwriters ▸ hd)
  | handle msg hb =>
    have hheard := h.heard
    rw [hb] at hheard
    exact h.setBackend (.freePayload msg) hheard ..
  | freePayload msg hb =>
    have hheard := h.heard
    rw [hb] at hheard
    exact h.setBackend (.freeMsg msg) hheard ..
  | freeMsg msg hb =>
    have hheard := h.heard
    rw [hb] at hheard
    exact h.setBackend .read hheard ..
  | spurious rpos hasleep =>
    refine ⟨by simp [ReaderSync], h.thread, h.destroyer, h.nothing, h.something,
      h.heard.congr rfl ?_⟩
    simp [hasleep]
  | destroy hd hidle =>
    refine ⟨h.sync, fun t ht => ?_, fun hne => absurd rfl hne, fun d hd' => ?_, fun t d hd' => ?_,
      h.heard⟩ <;> simp only [ChannelState.goto] at *
    · rw [update_of_ne (by simp)]
      exact h.thread t ht
    · rw [update_self] at hd'
      exact (Option.some.inj hd').symm
    · rw [update_of_ne (by simp)] at hd'
      exact h.something t d hd'
  | destroyWriting c hd hc =>
    obtain ⟨pc, hwriters, hreturned, hreader, heffect⟩ := writerStep_cases hc
    refine ⟨h.sync.resume hm hreader, fun t ht => ?_, fun hne => ?_, fun d hd' => ?_,
      fun t d hd' => ?_, h.heard.congr hreturned (idle_iff_of_resumed hreader)⟩ <;>
      simp only [hwriters] at *
    · rw [update_of_ne (by simp)]
      exact h.thread t ht
    · simp only [update_self] at hne ⊢
      split_ifs at hne with hidle
      · exact WriterPc.isIdle_iff.mp hidle
      · exact absurd rfl hne
    · rw [update_self] at hd'
      exact h.nothing d (data_of_effect heffect hd')
    · rw [update_of_ne (by simp)] at hd'
      exact h.something t d hd'
  | join hd hb => exact ⟨h.sync, h.thread, fun _ => h.destroyer (by simp [hd]), h.nothing,
      h.something, h.heard⟩

def DestroyAccepted (L : Logger) (ch : Channel) (s : AsyncLogger T) : LogStep T → Prop
  | .destroyer => ∀ s' ∈ s.next L ch .destroyer, s'.chan.fulls = s.chan.fulls
  | _ => True

instance (a : LogStep T) : Decidable (DestroyAccepted L ch s a) :=
  match a with
  | .destroyer =>
    inferInstanceAs (Decidable (∀ s' ∈ s.next L ch .destroyer, s'.chan.fulls = s.chan.fulls))
  | .log _ _ | .thread _ _ | .backend | .spurious | .destroy => .isTrue trivial

def Told (s : AsyncLogger T) : Prop :=
  s.destroyer ≠ .running → (s.chan.writers none).data = none → none ∈ s.chan.written

theorem Told.step (hm : ch.readMode = .sync) (hcalls : Calls s) (h : Told s)
    (hok : DestroyAccepted L ch s a) (hnext : s.next L ch a = some s') : Told s' := by
  cases next_cases hm hnext with
  | write t mem msg ht hidle =>
    intro hd hnone
    refine h hd ?_
    simpa only [ChannelState.goto, update_of_ne (by simp : (none : Option T) ≠ some t)]
      using hnone
  | writing t mem c ht hc =>
    obtain ⟨pc, hwriters, -, -, heffect⟩ := writerStep_cases hc
    intro hd hnone
    simp only [hwriters, update_of_ne (by simp : (none : Option T) ≠ some t)] at hnone
    have hmem := h hd hnone
    cases heffect with
    | onTheWay _ hwritten => exact hwritten ▸ hmem
    | accepted _ _ _ _ hwritten => exact hwritten ▸ List.mem_append_left _ hmem
    | refused _ _ _ _ hwritten => exact hwritten ▸ hmem
  | reading c hb hc =>
    obtain ⟨hwriters, hwritten, -⟩ := readerStep_cases hm hcalls.sync hc
    intro hd hnone
    exact hwritten ▸ h hd (hwriters ▸ hnone)
  | destroy hd hidle =>
    intro _ hnone
    simp [ChannelState.goto, WriterPc.data] at hnone
  | destroyWriting c hd hc =>
    obtain ⟨pc, hwriters, -, -, heffect⟩ := writerStep_cases hc
    intro _ hnone
    simp only [hwriters, update_self] at hnone
    cases heffect with
    | onTheWay hdata hwritten => exact hwritten ▸ h (by simp [hd]) (hdata ▸ hnone)
    | accepted d hdata _ _ hwritten =>
      obtain rfl := hcalls.nothing d hdata
      exact hwritten ▸ List.mem_append_right _ (List.mem_singleton_self _)
    | refused _ _ _ _ _ n hfulls => simpa [hfulls] using hok _ hnext
  | join hd hb => exact fun _ => h (by simp [hd])
  | _ => exact h

/-- No write is under way and the null pointer is in the channel. -/
structure Quiet (ch : Channel) (s : AsyncLogger T) : Prop where
  inv : Inv ch s.chan
  wake : WakeInv ch s.chan
  calls : Calls s
  idle : ∀ w, s.chan.writers w = .idle
  told : none ∈ s.chan.written

def left (s : AsyncLogger T) : ℕ := 9 * s.chan.unread + stepsLeft s.chan s.backend

omit [DecidableEq T] in
theorem Quiet.unread_pos (h : Quiet ch s) (hnone : none ∉ s.chan.returned) : 0 < s.chan.unread := by
  obtain ⟨rest, hrest⟩ := h.inv.ring.returned
  have hne : rest ≠ [] := by
    rintro rfl
    rw [List.append_nil] at hrest
    exact hnone (hrest ▸ h.told)
  have hlen := congrArg List.length hrest
  have hpos := List.length_pos_of_ne_nil hne
  rw [List.length_append] at hlen
  rw [ChannelMem.unread]
  omega

omit [DecidableEq T] in
theorem Quiet.readerStep (h : Quiet ch s) (hm : ch.readMode = .sync) (h2 : 2 ≤ ch.capacity)
    (hreading : s.backend = .reading) : ∃ c, s.chan.readerStep ch = some c ∧
      9 * c.unread + stepsLeft c (afterRead c) < left s := by
  have hheard := h.calls.heard
  rw [hreading] at hheard
  obtain ⟨hnone, hbusy⟩ := hheard
  have hpos := h.unread_pos hnone
  have hok := h.inv.reader
  have hatt := h.wake.attended
  have hapart : ∀ rpos, rpos = s.chan.returned.length % ch.capacity → s.chan.writeCursor ≠ rpos :=
    fun rpos hrpos hmeet => hpos.ne' (h.inv.unread_eq_zero h2 (hmeet.trans hrpos))
  rw [left, hreading, stepsLeft, ChannelState.readerStep]
  cases hpc : s.chan.reader with
  | idle => exact absurd hpc hbusy
  | lock => exact absurd hpc h.calls.sync.1
  | unlock => exact absurd hpc h.calls.sync.2
  | head =>
    refine ⟨_, rfl, ?_⟩
    simp only [afterRead, stepsLeft, readLeft, ChannelMem.unread]
    omega
  | poll rpos =>
    rw [hpc] at hok
    simp only [ne_eq, hapart rpos hok, not_false_eq_true, if_true]
    refine ⟨_, rfl, ?_⟩
    simp only [afterRead, stepsLeft, readLeft, ChannelMem.unread]
    omega
  | wait rpos wpos =>
    rw [hpc] at hok hatt
    simp only [hm, hatt.1, hapart rpos hok, if_false]
    refine ⟨_, rfl, ?_⟩
    simp only [afterRead, stepsLeft, readLeft, ChannelMem.unread]
    omega
  | asleep rpos =>
    -- somebody would be about to wake it
    rw [hpc] at hatt
    obtain hzero | ⟨w, hw⟩ := hatt
    · exact absurd hzero hpos.ne'
    · rw [h.idle w] at hw
      exact hw.elim
  | fetch rpos =>
    refine ⟨_, rfl, ?_⟩
    simp only [afterRead, stepsLeft, readLeft, ChannelMem.unread]
    omega
  | publish rpos data =>
    refine ⟨_, rfl, ?_⟩
    simp only [hm, reduceCtorEq, if_false]
    refine (Nat.add_le_add_left (stepsLeft_afterRead_le rfl) _).trans_lt ?_
    simp only [ChannelMem.unread, List.length_append, List.length_singleton, readLeft] at hpos ⊢
    omega

theorem Quiet.step (h : Quiet ch s) (hm : ch.readMode = .sync) {k : ℕ} (hc : ch.capacity = 2 ^ k)
    (hk : k < 32) (h2 : 2 ≤ ch.capacity) (hnext : s.next L ch .backend = some s') :
    Quiet ch s' ∧ s'.chan.written = s.chan.written ∧ s'.destroyer = s.destroyer := by
  have htook := next_cases hm hnext
  obtain ⟨hinv, hwake⟩ : Inv ch s'.chan ∧ WakeInv ch s'.chan := by
    obtain heq | ⟨b, hb⟩ := htook.chan hm
    · exact heq ▸ ⟨h.inv, h.wake⟩
    · exact ⟨h.inv.step hc hk h2 hb, h.wake.step h.inv h2 hb⟩
  obtain ⟨hwriters, hwritten, hd⟩ : s'.chan.writers = s.chan.writers ∧
      s'.chan.written = s.chan.written ∧ s'.destroyer = s.destroyer := by
    cases htook with
    | reading c _ hstep =>
      obtain ⟨hwriters, hwritten, -⟩ := readerStep_cases hm h.calls.sync hstep
      exact ⟨hwriters, hwritten, rfl⟩
    | _ => exact ⟨rfl, rfl, rfl⟩
  exact ⟨⟨hinv, hwake, h.calls.step hm htook, fun w => hwriters ▸ h.idle w, hwritten ▸ h.told⟩,
    hwritten, hd⟩

theorem Quiet.exists_step (h : Quiet ch s) (hm : ch.readMode = .sync) (h2 : 2 ≤ ch.capacity)
    (hb : s.backend ≠ .exited) : ∃ s', s.next L ch .backend = some s' ∧ s'.left < s.left := by
  have hheard := h.calls.heard
  simp only [next, AsyncLogger.backendStep]
  cases hpc : s.backend with
  | exited => exact absurd hpc hb
  | reading =>
    obtain ⟨c, hstep, hleft⟩ := h.readerStep hm h2 hpc
    exact ⟨_, Option.map_eq_some_iff.mpr ⟨c, hstep, rfl⟩, hleft⟩
  | read =>
    rw [hpc] at hheard
    refine ⟨_, by simp only [ChannelState.next, hheard.2]; rfl, ?_⟩
    simp only [left, hpc, stepsLeft, hm, reduceCtorEq, if_false, readLeft]
    exact Nat.lt_succ_self _
  | write | freePayload | freeMsg =>
    refine ⟨_, rfl, ?_⟩
    simp only [left, hpc, stepsLeft]
    exact Nat.lt_succ_self _

theorem Quiet.exits (hm : ch.readMode = .sync) {k : ℕ} (hc : ch.capacity = 2 ^ k) (hk : k < 32)
    (h2 : 2 ≤ ch.capacity) : ∀ {s : AsyncLogger T}, Quiet ch s → ∃ n s',
      Steps.exec (next L ch) s (List.replicate n .backend) = some s' ∧ Quiet ch s' ∧
      s'.chan.written = s.chan.written ∧ s'.destroyer = s.destroyer ∧ s'.backend = .exited := by
  intro s h
  -- by the number of steps left
  induction hn : s.left using Nat.strong_induction_on generalizing s with
  | _ n ih =>
    by_cases hb : s.backend = .exited
    · exact ⟨0, s, rfl, h, rfl, rfl, hb⟩
    · obtain ⟨s₁, hnext, hleft⟩ := h.exists_step (L := L) hm h2 hb
      obtain ⟨h₁, hwritten, hd⟩ := h.step hm hc hk h2 hnext
      obtain ⟨m, s', hexec, h', hwritten', hd', hb'⟩ := ih s₁.left (hn ▸ hleft) h₁ rfl
      refine ⟨m + 1, s', ?_, h', hwritten'.trans hwritten, hd'.trans hd, hb'⟩
      rw [List.replicate_succ, Steps.exec, hnext]
      exact hexec

def Stops (L : Logger) (ch : Channel) (s : AsyncLogger T) : Prop :=
  ∃ before after n s', s.chan.written = before ++ none :: after ∧ none ∉ before ∧
    Steps.exec (next L ch) s (List.replicate n .backend) = some s' ∧
    s'.chan.returned = before ++ [none] ∧ s'.backend = .exited ∧
    (s'.next L ch .destroyer).isSome

theorem quiet_of_reach {g : Channel.Grants} {thread ret : Err}
    (hinit : init g thread channelCapacity = (ret, some ch))
    (hs : Steps.Reach (next L ch) (DestroyAccepted L ch) (start ch) s)
    (hidle : ∀ t, s.threads t = .idle) (hd : s.destroyer = .joining) :
    Quiet ch s ∧ 2 ≤ ch.capacity := by
  obtain ⟨⟨k, hk, hc⟩, hm⟩ := chan_of_init hinit
  obtain ⟨hcalls, htold⟩ : Calls s ∧ Told s := by
    refine hs.invariant (P := fun s => Calls s ∧ Told s)
      ⟨calls_start, fun hne => absurd rfl hne⟩ fun s a s' h hok hnext => ?_
    exact ⟨h.1.step hm (next_cases hm hnext), h.2.step hm h.1 hok hnext⟩
  have hnone := hcalls.destroyer (by simp [hd])
  have hmem : none ∈ s.chan.written := htold (by simp [hd]) (by rw [hnone]; rfl)
  have h2 : 2 ≤ ch.capacity := by
    obtain rfl | hk := Nat.eq_zero_or_pos k
    · -- one block accepts nothing
      have hblock := chan_invariant (P := OneBlock) hm (oneBlock_start (hc.trans (pow_zero 2)) none)
        (fun _ _ _ h => h.step (hc.trans (pow_zero 2)) hm) hs
      rw [hblock.written] at hmem
      exact absurd hmem List.not_mem_nil
    · exact hc ▸ Nat.le_self_pow hk.ne' 2
  obtain ⟨hinv, hwake⟩ := chan_invariant (P := fun c => Inv ch c ∧ WakeInv ch c) hm
    ⟨inv_start hc none, wakeInv_start none⟩
    (fun _ _ _ h hnext => ⟨h.1.step hc hk h2 hnext, h.2.step h.1 h2 hnext⟩) hs
  refine ⟨⟨hinv, hwake, hcalls, fun w => ?_, hmem⟩, h2⟩
  cases w with
  | none => exact hnone
  | some t => exact hcalls.thread t (by simp [hidle t])

/-- **The backend is bound to receive the null pointer**, if `destroy` is not refused its write. -/
theorem stops_of_destroyAccepted {g : Channel.Grants} {thread ret : Err} {channelCapacity : ℤ}
    (hinit : init g thread channelCapacity = (ret, some ch))
    (hs : Steps.Reach (next L ch) (DestroyAccepted L ch) (start ch) s)
    (hidle : ∀ t, s.threads t = .idle) (hd : s.destroyer = .joining) : Stops L ch s := by
  obtain ⟨⟨k, hk, hc⟩, hm⟩ := chan_of_init hinit
  obtain ⟨h, h2⟩ := quiet_of_reach hinit hs hidle hd
  obtain ⟨n, s', hexec, h', hwritten, hd', hb'⟩ := h.exits (L := L) hm hc hk h2
  have hheard := h'.calls.heard
  rw [hb'] at hheard
  obtain ⟨before, hreturned, hnone⟩ := hheard
  -- what was read is the beginning of what was written
  obtain ⟨after, hafter⟩ := h'.inv.ring.returned
  rw [hreturned, hwritten, List.append_assoc, List.singleton_append] at hafter
  refine ⟨before, after, n, s', hafter.symm, hnone, hexec, hreturned, hb', ?_⟩
  simp [next, hd', hd, hb']

def logCall (t : T) (n : ℕ) : List (LogStep T) :=
  LogStep.log t 1280 :: List.replicate (3 + n) (LogStep.thread t true)

def stopWithOneUnread : List (LogStep Bool) := List.flatten
  [logCall false 8, logCall true 8, List.replicate 8 LogStep.backend,
    LogStep.destroy :: List.replicate 8 LogStep.destroyer]

theorem stops_stopWithOneUnread : ∃ ch s, init .all .ok 3 = (.ok, some ch) ∧
    Steps.execWhen (next .init ch) (fun s a => decide (DestroyAccepted .init ch s a)) (start ch)
      stopWithOneUnread = some s ∧
    s.chan.written = [some ⟨0, 1280, 0⟩, some ⟨1, 1280, 1⟩, none] ∧ s.chan.returned.length = 1 ∧
    Stops .init ch s := by
  have hinit : init .all .ok 3 = (.ok, some ⟨4, .mutex, .sync⟩) := rfl
  obtain ⟨s, hs, hwritten, hreturned, hidle, hd⟩ : ∃ s,
      Steps.execWhen (next .init ⟨4, .mutex, .sync⟩)
        (fun s a => decide (DestroyAccepted .init ⟨4, .mutex, .sync⟩ s a))
        (start ⟨4, .mutex, .sync⟩) stopWithOneUnread = some s ∧
      s.chan.written = [some ⟨0, 1280, 0⟩, some ⟨1, 1280, 1⟩, none] ∧
      s.chan.returned.length = 1 ∧ (∀ t, s.threads t = .idle) ∧ s.destroyer = .joining := by
    decide
  have hreach := Steps.Reach.of_decide hs
  exact ⟨_, s, hinit, hs, hwritten, hreturned, stops_of_destroyAccepted hinit hreach hidle hd⟩

structure Stranded (s : AsyncLogger T) : Prop where
  threads : ∀ t, s.threads t = .idle
  destroyer : s.destroyer = .joining
  backend : s.backend = .reading
  reader : ∃ rpos, s.chan.writeCursor = rpos ∧
    (s.chan.reader = .poll rpos ∨ s.chan.reader = .wait rpos rpos ∨ s.chan.reader = .asleep rpos)

theorem Stranded.step (hm : ch.readMode = .sync) (h : Stranded s)
    (hlog : ∀ t level, a ≠ .log t level) (hnext : s.next L ch a = some s') : Stranded s' := by
  obtain ⟨rpos, hcursor, hreader⟩ := h.reader
  cases next_cases hm hnext with
  | filtered t level | log t level => exact absurd rfl (hlog t level)
  | noMsg t _ ht | alloc t _ ht | payload t _ _ ht | write t _ _ ht | writing t _ _ ht =>
    rw [h.threads t] at ht
    cases ht
  | read hb | handle _ hb | freePayload _ hb | freeMsg _ hb | join _ hb =>
    rw [h.backend] at hb
    cases hb
  | destroy hd | destroyWriting _ hd =>
    rw [h.destroyer] at hd
    cases hd
  | spurious rpos' hasleep =>
    obtain rfl : rpos = rpos' := by
      rcases hreader with hr | hr | hr <;> rw [hr] at hasleep <;> simp_all
    exact ⟨h.threads, h.destroyer, h.backend, rpos, hcursor, .inl rfl⟩
  | reading c hb hc =>
    rw [ChannelState.readerStep] at hc
    rcases hreader with hr | hr | hr
    · simp only [hr, hcursor, hm, ne_eq, not_true_eq_false, if_false, reduceCtorEq,
        Option.some.injEq] at hc
      subst hc
      exact ⟨h.threads, h.destroyer, rfl, rpos, hcursor, .inr (.inl rfl)⟩
    · simp only [hr, hcursor, hm, if_true] at hc
      cases hc
      exact ⟨h.threads, h.destroyer, rfl, rpos, hcursor, .inr (.inr rfl)⟩
    · simp [hr] at hc

def stopWhenFull : List (LogStep Bool) := List.flatten
  [logCall false 8, logCall true 8, LogStep.destroy :: List.replicate 4 LogStep.destroyer,
    List.replicate 20 LogStep.backend]

theorem never_stops_stopWhenFull : ∃ ch s, init .all .ok 3 = (.ok, some ch) ∧
    Steps.exec (next .init ch) (start ch) stopWhenFull = some s ∧ (∀ t, s.threads t = .idle) ∧
    s.destroyer = .joining ∧ none ∉ s.chan.written ∧
    ∀ s', Steps.Reach (next .init ch) (fun _ a => ∀ t level, a ≠ .log t level) s s' →
      s'.destroyer = .joining ∧ s'.backend ≠ .exited := by
  have hinit : init .all .ok 3 = (.ok, some ⟨4, .mutex, .sync⟩) := rfl
  have hrun : (Steps.exec (next .init ⟨4, .mutex, .sync⟩) (start ⟨4, .mutex, .sync⟩)
      stopWhenFull).map (fun s => (s.threads false, s.threads true, s.destroyer, s.backend,
        s.chan.written, s.chan.writeCursor, s.chan.reader)) =
      some (.idle, .idle, .joining, .reading, [some ⟨0, 1280, 0⟩, some ⟨1, 1280, 1⟩], 2,
        .asleep 2) := rfl
  obtain ⟨s, hs, hview⟩ := Option.map_eq_some_iff.mp hrun
  simp only [Prod.mk.injEq] at hview
  obtain ⟨hfalse, htrue, hd, hb, hwritten, hcursor, hasleep⟩ := hview
  have hidle : ∀ t, s.threads t = .idle := Bool.forall_bool.mpr ⟨hfalse, htrue⟩
  refine ⟨_, s, hinit, hs, hidle, hd, by simp [hwritten], fun s' hs' => ?_⟩
  have hstranded : Stranded s' := hs'.invariant (P := Stranded)
    ⟨hidle, hd, hb, 2, hcursor, .inr (.inr hasleep)⟩ fun _ _ _ h hlog => h.step rfl hlog
  exact ⟨hstranded.destroyer, by simp [hstranded.backend]⟩

end AsyncLogger

end Mugglec
