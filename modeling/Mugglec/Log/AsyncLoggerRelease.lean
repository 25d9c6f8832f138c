import Mathlib.Data.List.ReduceOption
import Mugglec.Log.AsyncLoggerStop
import Mugglec.Machinery.Custody

/-!
# Log/AsyncLoggerRelease — every message is released once

A message is allocated by a log call, handed over in the channel and released by the backend.
-/

namespace Mugglec

open Function

namespace AsyncLogger

open ChannelState Tokens

variable {T : Type} {L : Logger} {ch : Channel} {s s' : AsyncLogger T}

def Served (L : Logger) (s : AsyncLogger T) (r : List LogMsg) : BackendPc → Prop
  | .write msg => ∃ l, r = l ++ [msg] ∧ s.writes = l.flatMap L.write ∧
      s.freedPayloads = l.map LogMsg.payload ∧ s.freedMsgs = l.map LogMsg.id
  | .freePayload msg => ∃ l, r = l ++ [msg] ∧ s.writes = r.flatMap L.write ∧
      s.freedPayloads = l.map LogMsg.payload ∧ s.freedMsgs = l.map LogMsg.id
  | .freeMsg msg => ∃ l, r = l ++ [msg] ∧ s.writes = r.flatMap L.write ∧
      s.freedPayloads = r.map LogMsg.payload ∧ s.freedMsgs = l.map LogMsg.id
  | .read | .reading | .exited => s.writes = r.flatMap L.write ∧
      s.freedPayloads = r.map LogMsg.payload ∧ s.freedMsgs = r.map LogMsg.id

theorem Served.released {r : List LogMsg} {pc : BackendPc} (h : Served L s r pc) :
    s.freedMsgs <+: r.map LogMsg.id ∧ s.freedPayloads <+: r.map LogMsg.payload := by
  cases pc with
  | write msg =>
    obtain ⟨l, rfl, -, hp, hm⟩ := h
    rw [hp, hm, List.map_append, List.map_append]
    exact ⟨List.prefix_append .., List.prefix_append ..⟩
  | freePayload msg =>
    obtain ⟨l, rfl, -, hp, hm⟩ := h
    rw [hp, hm, List.map_append, List.map_append]
    exact ⟨List.prefix_append .., List.prefix_append ..⟩
  | freeMsg msg =>
    obtain ⟨l, rfl, -, hp, hm⟩ := h
    rw [hp, hm, List.map_append]
    exact ⟨List.prefix_append .., List.prefix_refl _⟩
  | read | reading | exited =>
    obtain ⟨-, hp, hm⟩ := h
    rw [hp, hm]
    exact ⟨List.prefix_refl _, List.prefix_refl _⟩

structure Closing (s : AsyncLogger T) : Prop where
  closed : s.destroyer ≠ .running → ∀ t, s.threads t = .idle
  last : none ∈ s.chan.written → s.destroyer ≠ .running ∧ (s.chan.writers none).data = none ∧
    ∃ l, s.chan.written = l ++ [none] ∧ none ∉ l
  joined : s.destroyer = .joined → s.backend = .exited

theorem closing_start : Closing (start ch : AsyncLogger T) where
  closed h := absurd rfl h
  last h := absurd h (by simp [start, ChannelState.start])
  joined h := absurd h (by simp [start])

theorem Closing.running (h : Closing s) {t : T} (ht : s.threads t ≠ .idle) :
    s.destroyer = .running :=
  not_not.mp fun hd => ht (h.closed hd t)

theorem Closing.notMem (h : Closing s) (hd : s.destroyer = .running) : none ∉ s.chan.written :=
  fun hmem => (h.last hmem).1 hd

theorem Closing.setBackend (h : Closing s) {pc : BackendPc} {c} {writes : List (ℕ × LogMsg)}
    {freedPayloads freedMsgs : List ℕ} (hb : s.backend ≠ .exited)
    (hwriters : c.writers = s.chan.writers) (hwritten : c.written = s.chan.written) :
    Closing { s with
      chan := c, backend := pc, writes := writes, freedPayloads := freedPayloads,
      freedMsgs := freedMsgs } where
  closed := h.closed
  last := by simpa only [hwriters, hwritten] using h.last
  joined hj := absurd (h.joined hj) hb

variable [DecidableEq T]

theorem Served.step {a : LogStep T} (hm : ch.readMode = .sync) (hcalls : Calls s)
    (h : Served L s s.chan.returned.reduceOption s.backend) (hstep : Took L ch s a s') :
    Served L s' s'.chan.returned.reduceOption s'.backend := by
  cases hstep with
  | writing t mem c ht hc =>
    obtain ⟨pc, -, hreturned, -⟩ := writerStep_cases hc
    simp only [hreturned]
    exact h
  | destroyWriting c hd hc =>
    obtain ⟨pc, -, hreturned, -⟩ := writerStep_cases hc
    simp only [hreturned]
    exact h
  | read hb hidle =>
    rw [hb] at h
    exact h
  | reading c hb hc =>
    rw [hb] at h
    obtain ⟨-, -, -, -, ⟨hreader, hreturned⟩ | ⟨d, hreader, hreturned⟩⟩ :=
      readerStep_cases hm hcalls.sync hc
    · simp only [afterRead_of_ne hreader, hreturned]
      exact h
    · simp only [afterRead_of_idle hreader hreturned, hreturned, List.reduceOption_append]
      cases d with
      | none =>
        rw [List.reduceOption_singleton, Option.toList_none, List.append_nil]
        exact h
      | some msg => exact ⟨s.chan.returned.reduceOption, rfl, h⟩
  | handle msg hb =>
    rw [hb] at h
    obtain ⟨l, hr, hw, hp, hm⟩ := h
    refine ⟨l, hr, ?_, hp, hm⟩
    simp [hr, hw]
  | freePayload msg hb =>
    rw [hb] at h
    obtain ⟨l, hr, hw, hp, hm⟩ := h
    refine ⟨l, hr, hw, ?_, hm⟩
    simp [hr, hp]
  | freeMsg msg hb =>
    rw [hb] at h
    obtain ⟨l, hr, hw, hp, hm⟩ := h
    refine ⟨hw, hp, ?_⟩
    simp [hr, hm]
  | _ => exact h

def heldAt (early : ℕ → Option ℕ) (f : LogMsg → ℕ) (data : Option (Option LogMsg)) :
    LogPc → Option ℕ
  | .payload id _ => early id
  | .write msg => some (f msg)
  | .writing => data.join.map f
  | .idle | .alloc _ => none

def held (early : ℕ → Option ℕ) (f : LogMsg → ℕ) (c : ChannelState (Option T) (Option LogMsg))
    (threads : T → LogPc) (t : T) : Option ℕ :=
  heldAt early f (c.writers (some t)).data (threads t)

def passed (f : LogMsg → ℕ) (written : List (Option LogMsg)) : List ℕ := written.reduceOption.map f

def LogAccepted (L : Logger) (ch : Channel) (s : AsyncLogger T) : LogStep T → Prop
  | .thread t mem => ∀ s' ∈ s.next L ch (.thread t mem), s'.chan.fulls = s.chan.fulls
  | _ => True

instance (a : LogStep T) : Decidable (LogAccepted L ch s a) :=
  match a with
  | .thread _ _ => inferInstanceAs (Decidable (∀ s' ∈ s.next .., _))
  | .log _ _ | .backend | .spurious | .destroy | .destroyer => .isTrue trivial

section Custody

variable {early : ℕ → Option ℕ} {f : LogMsg → ℕ} {n : ℕ} {t : T} {pc : LogPc}
  {c c' : ChannelState (Option T) (Option LogMsg)} {threads : T → LogPc}

theorem held_update (hothers : ∀ t', t' ≠ t → c'.writers (some t') = c.writers (some t')) :
    held early f c' (update threads t pc) =
      update (held early f c threads) t
        (heldAt early f (c'.writers (some t)).data pc) := by
  funext t'
  obtain rfl | hne := eq_or_ne t' t
  · simp only [held, update_self]
  · simp only [held, update_of_ne hne, hothers t' hne]

theorem custody_goto (h : Custody n (held early f c threads) (passed f c.written))
    (hothers : ∀ t', t' ≠ t → c'.writers (some t') = c.writers (some t'))
    (hwritten : c'.written = c.written)
    (ht : heldAt early f (c'.writers (some t)).data pc = held early f c threads t) :
    Custody n (held early f c' (update threads t pc)) (passed f c'.written) := by
  rw [held_update hothers, ht, update_eq_self, hwritten]
  exact h

theorem custody_issue (h : Custody n (held early f c threads) (passed f c.written))
    (hnone : held early f c threads t = none)
    (ht : heldAt early f (c.writers (some t)).data pc = some n) :
    Custody (n + 1) (held early f c (update threads t pc)) (passed f c.written) := by
  rw [held_update fun _ _ => rfl, ht]
  exact h.issue hnone

theorem custody_writing (h : Custody n (held early f c threads) (passed f c.written))
    (hsomething : ∀ d, (c.writers (some t)).data = some d → d ≠ none)
    (ht : threads t = .writing) (hc : c.writerStep ch (some t) = some c')
    (hfulls : c'.fulls = c.fulls) :
    Custody n
      (held early f c' (update threads t
        (if (c'.writers (some t)).isIdle then .idle else .writing)))
      (passed f c'.written) := by
  obtain ⟨pc, hwriters, -, -, heffect⟩ := writerStep_cases hc
  have hpc : c'.writers (some t) = pc := by rw [hwriters, update_self]
  have hothers : ∀ t', t' ≠ t → c'.writers (some t') = c.writers (some t') := by
    intro t' hne
    rw [hwriters, update_of_ne (by simpa using hne)]
  have hheld : held early f c threads t = (c.writers (some t)).data.join.map f := by
    rw [held, ht, heldAt]
  cases heffect with
  | onTheWay hdata hwritten =>
    refine custody_goto h hothers hwritten ?_
    rw [hpc, hheld, ← hdata]
    split_ifs with hidle
    · rw [WriterPc.isIdle_iff.mp hidle]
      rfl
    · rfl
  | accepted data hdata hnone hidle hwritten _ =>
    -- the message is passed on
    obtain ⟨msg, rfl⟩ := Option.ne_none_iff_exists'.mp (hsomething data hdata)
    rw [hdata] at hheld
    have hpass := h.pass hheld
    rw [held_update hothers, hpc, hnone, hidle, hwritten, passed, List.reduceOption_append,
      List.map_append]
    exact hpass
  | refused _ _ _ _ _ m hfulls' => simp [hfulls'] at hfulls

omit [DecidableEq T] in
theorem custody_congr (h : Custody n (held early f c threads) (passed f c.written))
    (hwriters : ∀ t, c'.writers (some t) = c.writers (some t))
    (hwritten : c'.written.reduceOption = c.written.reduceOption) :
    Custody n (held early f c' threads) (passed f c'.written) := by
  have hheld : held early f c' threads = held early f c threads := by
    funext t
    rw [held, held, hwriters]
  rw [hheld, passed, hwritten]
  exact h

theorem custody_step {a : LogStep T} (hm : ch.readMode = .sync) (hcalls : Calls s)
    (hok : LogAccepted L ch s a) (hnext : s.next L ch a = some s')
    (hmsgs : s'.msgs = s.msgs) (hpayloads : s'.payloads = s.payloads)
    (h : Custody n (held early f s.chan s.threads) (passed f s.chan.written)) :
    Custody n (held early f s'.chan s'.threads) (passed f s'.chan.written) := by
  cases next_cases hm hnext with
  | log t level ht => exact custody_goto h (fun _ _ => rfl) rfl (by rw [held, ht]; rfl)
  | noMsg t level ht => exact custody_goto h (fun _ _ => rfl) rfl (by rw [held, ht]; rfl)
  | alloc => simp at hmsgs
  | payload => simp at hpayloads
  | write t mem msg ht hidle =>
    refine custody_goto h (fun t' hne => ?_) rfl ?_
    · exact update_of_ne (by simpa using hne) ..
    · simp only [held, ht, ChannelState.goto, update_self]
      rfl
  | writing t mem c ht hc => exact custody_writing h (hcalls.something t) ht hc (hok _ hnext)
  | reading c hb hc =>
    obtain ⟨hwriters, hwritten, -⟩ := readerStep_cases hm hcalls.sync hc
    exact custody_congr h (fun t => by rw [hwriters]) (by rw [hwritten])
  | destroy hd hidle =>
    refine custody_congr h (fun t => ?_) rfl
    simp only [ChannelState.goto, update_of_ne (by simp : (some t : Option T) ≠ none)]
  | destroyWriting c hd hc =>
    obtain ⟨pc, hwriters, -, -, heffect⟩ := writerStep_cases hc
    refine custody_congr h (fun t => by rw [hwriters, update_of_ne (by simp)]) ?_
    cases heffect with
    | onTheWay _ hwritten => rw [hwritten]
    | accepted data hdata _ _ hwritten =>
      obtain rfl := hcalls.nothing data hdata
      rw [hwritten, List.reduceOption_append, List.reduceOption_singleton, Option.toList_none,
        List.append_nil]
    | refused _ _ _ _ hwritten => rw [hwritten]
  | _ => exact h

theorem custody_msgs_step {a : LogStep T} (hm : ch.readMode = .sync) (hcalls : Calls s)
    (hok : LogAccepted L ch s a) (hnext : s.next L ch a = some s')
    (h : Custody s.msgs (held some LogMsg.id s.chan s.threads) (passed LogMsg.id s.chan.written)) :
    Custody s'.msgs (held some LogMsg.id s'.chan s'.threads)
      (passed LogMsg.id s'.chan.written) := by
  have hkeep := fun hmsgs hpayloads => custody_step hm hcalls hok hnext hmsgs hpayloads h
  cases next_cases hm hnext with
  | alloc t level ht => exact custody_issue h (by rw [held, ht]; rfl) rfl
  | payload t id level ht => exact custody_goto h (fun _ _ => rfl) rfl (by rw [held, ht]; rfl)
  | _ => exact hkeep rfl rfl

theorem custody_payloads_step {a : LogStep T} (hm : ch.readMode = .sync) (hcalls : Calls s)
    (hok : LogAccepted L ch s a) (hnext : s.next L ch a = some s')
    (h : Custody s.payloads (held (fun _ => none) LogMsg.payload s.chan s.threads)
      (passed LogMsg.payload s.chan.written)) :
    Custody s'.payloads (held (fun _ => none) LogMsg.payload s'.chan s'.threads)
      (passed LogMsg.payload s'.chan.written) := by
  have hkeep := fun hmsgs hpayloads => custody_step hm hcalls hok hnext hmsgs hpayloads h
  cases next_cases hm hnext with
  | alloc t level ht => exact custody_goto h (fun _ _ => rfl) rfl (by rw [held, ht]; rfl)
  | payload t id level ht => exact custody_issue h (by rw [held, ht]; rfl) rfl
  | _ => exact hkeep rfl rfl

end Custody

def Orderly (s : AsyncLogger T) : LogStep T → Prop
  | .log _ _ => s.destroyer = .running
  | .destroy => ∀ t, s.threads t = .idle
  | _ => True

instance [Fintype T] (a : LogStep T) : Decidable (Orderly s a) :=
  match a with
  | .log _ _ => inferInstanceAs (Decidable (_ = _))
  | .destroy => inferInstanceAs (Decidable (∀ _, _))
  | .thread _ _ | .backend | .spurious | .destroyer => .isTrue trivial

theorem closing_goto {t : T} {pc : LogPc} {c} {msgs payloads : ℕ}
    (hd : s.destroyer = .running) (hwritten : none ∉ c.written) :
    Closing { s.goto t pc with chan := c, msgs := msgs, payloads := payloads } where
  closed hne := absurd hd hne
  last hmem := absurd hmem hwritten
  joined hj := absurd (hd.symm.trans hj) (by simp)

theorem Closing.step {a : LogStep T} (hm : ch.readMode = .sync) (hcalls : Calls s) (h : Closing s)
    (horderly : Orderly s a) (hstep : Took L ch s a s') : Closing s' := by
  cases hstep with
  | filtered => exact h
  | log t level ht => exact closing_goto horderly (h.notMem horderly)
  | noMsg t level ht | alloc t level ht | payload t id level ht =>
    have hd := h.running (t := t) (by simp [ht])
    exact closing_goto hd (h.notMem hd)
  | write t mem msg ht hidle =>
    have hd := h.running (t := t) (by simp [ht])
    exact closing_goto hd (h.notMem hd)
  | writing t mem c ht hc =>
    have hd := h.running (t := t) (by simp [ht])
    obtain ⟨pc, -, -, -, heffect⟩ := writerStep_cases hc
    refine closing_goto hd ?_
    cases heffect with
    | onTheWay _ hwritten => exact hwritten ▸ h.notMem hd
    | accepted data hdata _ _ hwritten =>
      rw [hwritten, List.mem_append, List.mem_singleton, not_or]
      exact ⟨h.notMem hd, (hcalls.something t data hdata).symm⟩
    | refused _ _ _ _ hwritten => exact hwritten ▸ h.notMem hd
  | read hb hidle => exact h.setBackend (by simp [hb]) rfl rfl
  | reading c hb hc =>
    obtain ⟨hwriters, hwritten, -⟩ := readerStep_cases hm hcalls.sync hc
    exact h.setBackend (by simp [hb]) hwriters hwritten
  | handle msg hb | freePayload msg hb | freeMsg msg hb =>
    exact h.setBackend (c := s.chan) (by simp [hb]) rfl rfl
  | spurious rpos hasleep => exact ⟨h.closed, h.last, h.joined⟩
  | destroy hd hidle =>
    exact ⟨fun _ => horderly, fun hmem => absurd hmem (h.notMem hd), fun hj => absurd hj (by simp)⟩
  | destroyWriting c hd hc =>
    obtain ⟨pc, hwriters, -, -, heffect⟩ := writerStep_cases hc
    have hne : s.destroyer ≠ .running := by simp [hd]
    refine ⟨fun _ => h.closed hne, fun hmem => ⟨?_, ?_⟩, fun hj => ?_⟩
    · simp only
      split <;> simp
    · simp only [hwriters, update_self] at hmem ⊢
      cases heffect with
      | onTheWay hdata hwritten =>
        rw [hwritten] at hmem ⊢
        exact hdata ▸ (h.last hmem).2
      | accepted data hdata hnone _ hwritten =>
        obtain rfl := hcalls.nothing data hdata
        refine ⟨hnone, s.chan.written, hwritten, fun hold => ?_⟩
        exact absurd ((h.last hold).2.1.symm.trans hdata) (by simp)
      | refused data hdata hnone _ hwritten =>
        rw [hwritten] at hmem ⊢
        exact absurd ((h.last hmem).2.1.symm.trans hdata) (by simp)
    · simp only at hj
      split_ifs at hj
  | join hd hb => exact ⟨fun _ => h.closed (by simp [hd]), fun hmem => ⟨by simp, (h.last hmem).2⟩,
      fun _ => hb⟩

structure Accounted (L : Logger) (s : AsyncLogger T) : Prop where
  freedMsgs : s.freedMsgs.Nodup
  freedPayloads : s.freedPayloads.Nodup
  joined : s.destroyer = .joined → ∃ msgs : List LogMsg,
    (msgs.map LogMsg.id).Perm (List.range s.msgs) ∧
    (msgs.map LogMsg.payload).Perm (List.range s.payloads) ∧
    s.writes = msgs.flatMap L.write ∧ s.freedPayloads = msgs.map LogMsg.payload ∧
    s.freedMsgs = msgs.map LogMsg.id

structure Ledger (L : Logger) (s : AsyncLogger T) : Prop where
  calls : Calls s
  closing : Closing s
  msgs : Custody s.msgs (held some LogMsg.id s.chan s.threads) (passed LogMsg.id s.chan.written)
  payloads : Custody s.payloads (held (fun _ => none) LogMsg.payload s.chan s.threads)
    (passed LogMsg.payload s.chan.written)
  served : Served L s s.chan.returned.reduceOption s.backend

theorem ledger_of_reach (hm : ch.readMode = .sync)
    (hs : Steps.Reach (next L ch) (fun s a => Orderly s a ∧ LogAccepted L ch s a) (start ch) s) :
    Ledger L s := by
  refine hs.invariant (P := Ledger L) ⟨calls_start, closing_start, ?_, ?_, rfl, rfl, rfl⟩ ?_
  · exact custody_zero
  · exact custody_zero
  · rintro s a s' h ⟨horderly, hok⟩ hnext
    have htook := next_cases hm hnext
    exact ⟨h.calls.step hm htook, h.closing.step hm h.calls horderly htook,
      custody_msgs_step hm h.calls hok hnext h.msgs,
      custody_payloads_step hm h.calls hok hnext h.payloads, h.served.step hm h.calls htook⟩

theorem isPrefix_returned {ok : AsyncLogger T → LogStep T → Prop} {k : ℕ} (hc : ch.capacity = 2 ^ k)
    (hk : k < 32) (hm : ch.readMode = .sync) (hs : Steps.Reach (next L ch) ok (start ch) s) :
    s.chan.returned <+: s.chan.written := by
  obtain rfl | hpos := Nat.eq_zero_or_pos k
  · have hblock := chan_invariant (P := OneBlock) hm (oneBlock_start (hc.trans (pow_zero 2)) none)
      (fun _ _ _ h => h.step (hc.trans (pow_zero 2)) hm) hs
    rw [hblock.returned]
    exact List.nil_prefix
  · have h2 : 2 ≤ ch.capacity := hc ▸ Nat.le_self_pow hpos.ne' 2
    have hinv := chan_invariant (P := Inv ch) hm (inv_start hc none)
      (fun _ _ _ h => h.step hc hk h2) hs
    exact hinv.ring.returned

omit [DecidableEq T] in
theorem Ledger.accounted (h : Ledger L s) (hpre : s.chan.returned <+: s.chan.written) :
    Accounted L s := by
  have hsub : s.chan.returned.reduceOption <+: s.chan.written.reduceOption := hpre.filterMap id
  obtain ⟨hfreed, hfreed'⟩ := h.served.released
  refine ⟨?_, ?_, fun hj => ?_⟩
  · exact h.msgs.nodup.sublist (hfreed.trans (hsub.map _)).sublist
  · exact h.payloads.nodup.sublist (hfreed'.trans (hsub.map _)).sublist
  · -- the backend has read the null pointer, which was written last
    have hb := h.closing.joined hj
    have hheard := h.calls.heard
    have hserved := h.served
    rw [hb] at hheard hserved
    obtain ⟨l, hreturned, -⟩ := hheard
    obtain ⟨hwrites, hpayloads, hmsgs⟩ := hserved
    have hmem : none ∈ s.chan.written := hpre.subset (by simp [hreturned])
    obtain ⟨hne, -, l', hwritten, hnone⟩ := h.closing.last hmem
    have hall : s.chan.returned = s.chan.written := by
      rw [hreturned, hwritten] at hpre ⊢
      obtain heq | hshort := List.prefix_concat_iff.mp hpre
      · exact heq
      · exact absurd (hshort.subset (by simp)) hnone
    have hidle := h.closing.closed hne
    refine ⟨s.chan.returned.reduceOption, ?_, ?_, hwrites, hpayloads, hmsgs⟩
    · rw [hall]
      exact h.msgs.perm fun t => by rw [held, hidle t]; rfl
    · rw [hall]
      exact h.payloads.perm fun t => by rw [held, hidle t]; rfl

/-- **Every message and payload is released exactly once**, if no channel write is refused. -/
theorem accounted_of_logAccepted {g : Channel.Grants} {thread ret : Err} {channelCapacity : ℤ}
    (hinit : init g thread channelCapacity = (ret, some ch))
    (hs : Steps.Reach (next L ch) (fun s a => Orderly s a ∧ LogAccepted L ch s a) (start ch) s) :
    Accounted L s := by
  obtain ⟨⟨k, hk, hc⟩, hm⟩ := chan_of_init hinit
  exact (ledger_of_reach hm hs).accounted (isPrefix_returned hc hk hm hs)

def warnLogger : Logger := (Logger.init.addHandler 768).2

def logTwo : List (LogStep Bool) := List.flatten
  [logCall false 8, logCall true 8, List.replicate 8 LogStep.backend,
    LogStep.destroy :: List.replicate 8 LogStep.destroyer, List.replicate 13 LogStep.backend,
    [LogStep.destroyer]]

theorem accounted_logTwo : ∃ ch s, init .all .ok 3 = (.ok, some ch) ∧
    Steps.execWhen (next warnLogger ch)
      (fun s a => decide (Orderly s a ∧ LogAccepted warnLogger ch s a)) (start ch) logTwo = some s ∧
    s.destroyer = .joined ∧ s.writes = [(0, ⟨0, 1280, 0⟩), (0, ⟨1, 1280, 1⟩)] ∧
    s.freedMsgs = [0, 1] ∧ Accounted warnLogger s := by
  have hinit : init .all .ok 3 = (.ok, some ⟨4, .mutex, .sync⟩) := rfl
  obtain ⟨s, hs, hd, hwrites, hfreed⟩ : ∃ s, Steps.execWhen (next warnLogger ⟨4, .mutex, .sync⟩)
      (fun s a => decide (Orderly s a ∧ LogAccepted warnLogger ⟨4, .mutex, .sync⟩ s a))
      (start ⟨4, .mutex, .sync⟩) logTwo = some s ∧ s.destroyer = .joined ∧
      s.writes = [(0, ⟨0, 1280, 0⟩), (0, ⟨1, 1280, 1⟩)] ∧ s.freedMsgs = [0, 1] := by
    decide
  have hreach := Steps.Reach.of_decide hs
  exact ⟨_, s, hinit, hs, hd, hwrites, hfreed, accounted_of_logAccepted hinit hreach⟩

def logWhenFull : List (LogStep Bool) := List.flatten
  [logCall false 8, logCall true 8, logCall false 4, List.replicate 16 LogStep.backend,
    LogStep.destroy :: List.replicate 8 LogStep.destroyer, List.replicate 5 LogStep.backend,
    [LogStep.destroyer]]

theorem not_accounted_logWhenFull : ∃ ch s, init .all .ok 3 = (.ok, some ch) ∧
    Steps.execWhen (next warnLogger ch) (fun s a => decide (Orderly s a)) (start ch) logWhenFull =
      some s ∧
    s.destroyer = .joined ∧ s.msgs = 3 ∧ s.payloads = 3 ∧ s.freedMsgs = [0, 1] ∧
    s.freedPayloads = [0, 1] ∧ s.writes = [(0, ⟨0, 1280, 0⟩), (0, ⟨1, 1280, 1⟩)] ∧
    ¬ Accounted warnLogger s := by
  have hinit : init .all .ok 3 = (.ok, some ⟨4, .mutex, .sync⟩) := rfl
  obtain ⟨s, hs, hd, hmsgs, hpayloads, hfreed, hrest⟩ : ∃ s,
      Steps.execWhen (next warnLogger ⟨4, .mutex, .sync⟩) (fun s a => decide (Orderly s a))
        (start ⟨4, .mutex, .sync⟩) logWhenFull = some s ∧
      s.destroyer = .joined ∧ s.msgs = 3 ∧ s.payloads = 3 ∧ s.freedMsgs = [0, 1] ∧
      s.freedPayloads = [0, 1] ∧ s.writes = [(0, ⟨0, 1280, 0⟩), (0, ⟨1, 1280, 1⟩)] := by
    decide
  refine ⟨_, s, hinit, hs, hd, hmsgs, hpayloads, hfreed, hrest.1, hrest.2, fun h => ?_⟩
  obtain ⟨msgs, hperm, -, -, -, hall⟩ := h.joined hd
  have hlen := hperm.length_eq
  rw [← hall, hfreed, hmsgs] at hlen
  exact absurd hlen (by decide)

end AsyncLogger

end Mugglec
