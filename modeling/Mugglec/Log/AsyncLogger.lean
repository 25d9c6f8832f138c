import Mugglec.Sync.ChannelCalls

/-!
# Log/AsyncLogger — the logger with a thread of its own

`muggle_async_logger_log` allocates a message and its payload and writes the pointer into a channel.
The backend thread reads the channel, hands each message to the handlers and releases both, until it
reads a null pointer; `muggle_async_logger_destroy` writes that and joins the thread.
-/

namespace Mugglec

structure Logger where
  handlers : List ℤ
  lowestLogLevel : ℤ
deriving DecidableEq, Repr

structure LogMsg where
  id : ℕ
  level : ℤ
  payload : ℕ
deriving DecidableEq, Repr

namespace Logger

def MAX_HANDLER : ℕ := 8

def LEVEL_FATAL : ℤ := 5 * 2 ^ 8

def init : Logger := ⟨[], LEVEL_FATAL⟩

def addHandler (L : Logger) (level : ℤ) : Err × Logger :=
  if L.handlers.length ≥ MAX_HANDLER then (.beyondRange, L)
  else (.ok, ⟨L.handlers ++ [level], if level < L.lowestLogLevel then level else L.lowestLogLevel⟩)

def shouldWrite (handlerLevel level : ℤ) : Bool := ! (level < handlerLevel)

def write (L : Logger) (msg : LogMsg) : List (ℕ × LogMsg) :=
  (L.handlers.zipIdx.filter fun h => shouldWrite h.1 msg.level).map fun h => (h.2, msg)

/-- `muggle_sync_logger_log`, which has the handlers and the test of the lowest level in common with
the asynchronous logger. -/
def syncLog (L : Logger) (msg : LogMsg) : List (ℕ × LogMsg) :=
  if L.lowestLogLevel > msg.level then [] else L.write msg

def addHandlers (levels : List ℤ) : Logger :=
  levels.foldl (fun L level => (L.addHandler level).2) init

theorem addHandlers_concat (levels : List ℤ) (level : ℤ) :
    addHandlers (levels ++ [level]) = ((addHandlers levels).addHandler level).2 :=
  List.foldl_concat ..

theorem addHandlers_spec (levels : List ℤ) :
    (addHandlers levels).handlers = levels.take MAX_HANDLER ∧
    ∀ l ∈ (addHandlers levels).handlers, (addHandlers levels).lowestLogLevel ≤ l := by
  induction levels using List.reverseRecOn with
  | nil => simp [addHandlers, init]
  | append_singleton levels level ih =>
    obtain ⟨htake, hlowest⟩ := ih
    have hlen : (addHandlers levels).handlers.length = min MAX_HANDLER levels.length := by
      rw [htake, List.length_take]
    rw [addHandlers_concat, addHandler, ← min_def_lt]
    split_ifs with hfull
    · rw [List.take_append_of_le_length (by omega)]
      exact ⟨htake, hlowest⟩
    · constructor
      · rw [htake, List.take_of_length_le (by omega), List.take_of_length_le (by simp; omega)]
      · intro l hl
        obtain hl | hl := List.mem_append.mp hl
        · exact min_le_of_right_le (hlowest l hl)
        · exact min_le_of_left_le (List.mem_singleton.mp hl).ge

theorem syncLog_eq_write_iff (L : Logger) :
    (∀ msg, L.syncLog msg = L.write msg) ↔ ∀ l ∈ L.handlers, L.lowestLogLevel ≤ l := by
  constructor
  · intro h l hl
    by_contra hlt
    have hnil := h ⟨0, l, 0⟩
    rw [syncLog, if_pos (not_le.mp hlt), eq_comm, write, List.map_eq_nil_iff,
      List.filter_eq_nil_iff] at hnil
    obtain ⟨i, hi⟩ := List.mem_iff_getElem?.mp hl
    exact hnil (l, i) (List.mk_mem_zipIdx_iff_getElem?.mpr hi) (by simp [shouldWrite])
  · intro h msg
    rw [syncLog]
    split_ifs with hfiltered
    · rw [eq_comm, write, List.map_eq_nil_iff, List.filter_eq_nil_iff]
      intro p hp
      have hle := h p.1 (List.fst_mem_of_mem_zipIdx hp)
      simpa [shouldWrite] using hfiltered.trans_le hle
    · rfl

/-- **The test of the lowest level drops nothing a handler would take**, for whatever handlers are
added; with levels that are set later it does as soon as one is below the lowest at that time. -/
theorem syncLog_exact (levels : List ℤ) :
    (addHandlers levels).handlers = levels.take MAX_HANDLER ∧
    (∀ msg, (addHandlers levels).syncLog msg = (addHandlers levels).write msg) ∧
    ∀ later : List ℤ, (∀ msg, { addHandlers levels with handlers := later }.syncLog msg =
        { addHandlers levels with handlers := later }.write msg) ↔
      ∀ l ∈ later, (addHandlers levels).lowestLogLevel ≤ l :=
  ⟨(addHandlers_spec levels).1, (syncLog_eq_write_iff _).mpr (addHandlers_spec levels).2,
    fun _ => syncLog_eq_write_iff _⟩

end Logger

/-- Where a thread is in `muggle_async_logger_log`. -/
inductive LogPc
  | idle
  | alloc (level : ℤ)
  | payload (id : ℕ) (level : ℤ)
  | write (msg : LogMsg)
  | writing
deriving DecidableEq, Repr

/-- Where the backend is in `muggle_async_logger_run`. -/
inductive BackendPc
  | read
  | reading
  | write (msg : LogMsg)
  | freePayload (msg : LogMsg)
  | freeMsg (msg : LogMsg)
  | exited
deriving DecidableEq, Repr

inductive DestroyPc
  | running
  | writing
  | joining
  | joined
deriving DecidableEq, Repr

structure AsyncLogger (T : Type) where
  chan : ChannelState (Option T) (Option LogMsg)
  threads : T → LogPc
  backend : BackendPc
  destroyer : DestroyPc
  msgs : ℕ
  payloads : ℕ
  writes : List (ℕ × LogMsg)
  freedPayloads : List ℕ
  freedMsgs : List ℕ

inductive LogStep (T : Type)
  | log (t : T) (level : ℤ)
  | thread (t : T) (mem : Bool)
  | backend
  | spurious
  | destroy
  | destroyer

namespace AsyncLogger

def init (g : Channel.Grants) (thread : Err) (channelCapacity : ℤ) : Err × Option Channel :=
  match Channel.init g (channelCapacity % 2 ^ 32).toNat 0 with
  | .ok ch => (thread, some ch)
  | .error .ok => (thread, none)
  | .error ret => (ret, none)

variable {T : Type} [DecidableEq T] (L : Logger) (ch : Channel) (s : AsyncLogger T)

def start : AsyncLogger T where
  chan := ChannelState.start ch none
  threads := fun _ => .idle
  backend := .read
  destroyer := .running
  msgs := 0
  payloads := 0
  writes := []
  freedPayloads := []
  freedMsgs := []

def goto (t : T) (pc : LogPc) : AsyncLogger T :=
  { s with threads := Function.update s.threads t pc }

def threadStep (t : T) (mem : Bool) : Option (AsyncLogger T) :=
  match s.threads t with
  | .idle => none
  | .alloc level =>
    if mem then some { s.goto t (.payload s.msgs level) with msgs := s.msgs + 1 }
    else some (s.goto t .idle)
  | .payload id level =>
    -- the result is not checked, and `vsnprintf` would write through a null pointer
    if mem then some { s.goto t (.write ⟨id, level, s.payloads⟩) with payloads := s.payloads + 1 }
    else none
  | .write msg =>
    (s.chan.next ch (.write (some t) (some msg))).map fun c => { s.goto t .writing with chan := c }
  | .writing =>
    (s.chan.next ch (.writer (some t))).map fun c =>
      { s.goto t (if (c.writers (some t)).isIdle then .idle else .writing) with chan := c }

def afterRead (c : ChannelState (Option T) (Option LogMsg)) : BackendPc :=
  match c.reader with
  | .idle =>
    match c.returned.getLast? with
    | some (some msg) => .write msg
    | _ => .exited
  | _ => .reading

omit [DecidableEq T] in
theorem afterRead_of_ne {c : ChannelState (Option T) (Option LogMsg)} (h : c.reader ≠ .idle) :
    afterRead c = .reading := by
  rw [afterRead]
  split
  · next hidle => exact absurd hidle h
  · rfl

omit [DecidableEq T] in
theorem afterRead_of_idle {c : ChannelState (Option T) (Option LogMsg)} {l : List (Option LogMsg)}
    {d : Option LogMsg} (h : c.reader = .idle) (hreturned : c.returned = l ++ [d]) :
    afterRead c = d.elim .exited .write := by
  simp only [afterRead, h, hreturned, List.getLast?_append, List.getLast?_singleton, Option.some_or]
  cases d <;> rfl

def backendStep : Option (AsyncLogger T) :=
  match s.backend with
  | .read => (s.chan.next ch .read).map fun c => { s with chan := c, backend := .reading }
  | .reading => (s.chan.next ch .reader).map fun c => { s with chan := c, backend := afterRead c }
  | .write msg => some { s with writes := s.writes ++ L.write msg, backend := .freePayload msg }
  | .freePayload msg =>
    some { s with freedPayloads := s.freedPayloads ++ [msg.payload], backend := .freeMsg msg }
  | .freeMsg msg => some { s with freedMsgs := s.freedMsgs ++ [msg.id], backend := .read }
  | .exited => none

def next (a : LogStep T) : Option (AsyncLogger T) :=
  match a with
  | .log t level =>
    match s.threads t with
    | .idle => some (if L.lowestLogLevel > level then s else s.goto t (.alloc level))
    | _ => none
  | .thread t mem => s.threadStep ch t mem
  | .backend => s.backendStep L ch
  | .spurious => (s.chan.next ch .spurious).map fun c => { s with chan := c }
  | .destroy =>
    match s.destroyer with
    | .running =>
      (s.chan.next ch (.write none none)).map fun c => { s with chan := c, destroyer := .writing }
    | _ => none
  | .destroyer =>
    match s.destroyer with
    | .writing =>
      (s.chan.next ch (.writer none)).map fun c =>
        { s with chan := c, destroyer := if (c.writers none).isIdle then .joining else .writing }
    | .joining => if s.backend = .exited then some { s with destroyer := .joined } else none
    | _ => none

variable {L ch s}

inductive Took (L : Logger) (ch : Channel) (s : AsyncLogger T) : LogStep T → AsyncLogger T → Prop
  | filtered (t : T) (level : ℤ) (ht : s.threads t = .idle) : Took L ch s (.log t level) s
  | log (t : T) (level : ℤ) (ht : s.threads t = .idle) :
      Took L ch s (.log t level) (s.goto t (.alloc level))
  | noMsg (t : T) (level : ℤ) (ht : s.threads t = .alloc level) :
      Took L ch s (.thread t false) (s.goto t .idle)
  | alloc (t : T) (level : ℤ) (ht : s.threads t = .alloc level) :
      Took L ch s (.thread t true) { s.goto t (.payload s.msgs level) with msgs := s.msgs + 1 }
  | payload (t : T) (id : ℕ) (level : ℤ) (ht : s.threads t = .payload id level) :
      Took L ch s (.thread t true)
        { s.goto t (.write ⟨id, level, s.payloads⟩) with payloads := s.payloads + 1 }
  | write (t : T) (mem : Bool) (msg : LogMsg) (ht : s.threads t = .write msg)
      (hidle : s.chan.writers (some t) = .idle) : Took L ch s (.thread t mem)
        { s.goto t .writing with chan := s.chan.goto (some t) (.lock (some msg)) }
  | writing (t : T) (mem : Bool) (c) (ht : s.threads t = .writing)
      (hc : s.chan.writerStep ch (some t) = some c) : Took L ch s (.thread t mem)
        { s.goto t (if (c.writers (some t)).isIdle then .idle else .writing) with chan := c }
  | read (hb : s.backend = .read) (hidle : s.chan.reader = .idle) :
      Took L ch s .backend { s with chan := { s.chan with reader := .head }, backend := .reading }
  | reading (c) (hb : s.backend = .reading) (hc : s.chan.readerStep ch = some c) :
      Took L ch s .backend { s with chan := c, backend := afterRead c }
  | handle (msg : LogMsg) (hb : s.backend = .write msg) : Took L ch s .backend
      { s with writes := s.writes ++ L.write msg, backend := .freePayload msg }
  | freePayload (msg : LogMsg) (hb : s.backend = .freePayload msg) : Took L ch s .backend
      { s with freedPayloads := s.freedPayloads ++ [msg.payload], backend := .freeMsg msg }
  | freeMsg (msg : LogMsg) (hb : s.backend = .freeMsg msg) :
      Took L ch s .backend { s with freedMsgs := s.freedMsgs ++ [msg.id], backend := .read }
  | spurious (rpos : ℕ) (hasleep : s.chan.reader = .asleep rpos) :
      Took L ch s .spurious { s with chan := { s.chan with reader := .poll rpos } }
  | destroy (hd : s.destroyer = .running) (hidle : s.chan.writers none = .idle) :
      Took L ch s .destroy { s with chan := s.chan.goto none (.lock none), destroyer := .writing }
  | destroyWriting (c) (hd : s.destroyer = .writing) (hc : s.chan.writerStep ch none = some c) :
      Took L ch s .destroyer
        { s with chan := c, destroyer := if (c.writers none).isIdle then .joining else .writing }
  | join (hd : s.destroyer = .joining) (hb : s.backend = .exited) :
      Took L ch s .destroyer { s with destroyer := .joined }

theorem threadStep_cases {t : T} {mem : Bool} {s' : AsyncLogger T}
    (h : s.threadStep ch t mem = some s') : Took L ch s (.thread t mem) s' := by
  rw [threadStep] at h
  cases ht : s.threads t with
  | idle => simp [ht] at h
  | alloc level =>
    cases mem <;> simp only [ht, if_true, if_false, Bool.false_eq_true, Option.some.injEq] at h <;>
      subst h
    · exact .noMsg t level ht
    · exact .alloc t level ht
  | payload id level =>
    simp only [ht, Option.ite_none_right_eq_some, Option.some.injEq] at h
    obtain ⟨rfl, rfl⟩ := h
    exact .payload t id level ht
  | write msg =>
    simp only [ht] at h
    obtain ⟨c, hc, rfl⟩ := Option.map_eq_some_iff.mp h
    obtain ⟨hidle, rfl⟩ := ChannelState.next_write hc
    exact .write t mem msg ht hidle
  | writing =>
    simp only [ht] at h
    obtain ⟨c, hc, rfl⟩ := Option.map_eq_some_iff.mp h
    exact .writing t mem c ht hc

theorem backendStep_cases {s' : AsyncLogger T} (hm : ch.readMode = .sync)
    (h : s.backendStep L ch = some s') : Took L ch s .backend s' := by
  rw [backendStep] at h
  cases hb : s.backend with
  | read =>
    simp only [hb] at h
    obtain ⟨c, hc, rfl⟩ := Option.map_eq_some_iff.mp h
    obtain ⟨hidle, rfl⟩ := ChannelState.next_read hm hc
    exact .read hb hidle
  | reading =>
    simp only [hb] at h
    obtain ⟨c, hc, rfl⟩ := Option.map_eq_some_iff.mp h
    exact .reading c hb hc
  | write msg =>
    simp only [hb, Option.some.injEq] at h
    exact h ▸ .handle msg hb
  | freePayload msg =>
    simp only [hb, Option.some.injEq] at h
    exact h ▸ .freePayload msg hb
  | freeMsg msg =>
    simp only [hb, Option.some.injEq] at h
    exact h ▸ .freeMsg msg hb
  | exited => simp [hb] at h

theorem next_cases {a : LogStep T} {s' : AsyncLogger T} (hm : ch.readMode = .sync)
    (h : s.next L ch a = some s') : Took L ch s a s' := by
  cases a with
  | log t level =>
    simp only [next] at h
    split at h
    · next ht =>
      cases h
      split
      · exact .filtered t level ht
      · exact .log t level ht
    · simp at h
  | thread t mem => exact threadStep_cases h
  | backend => exact backendStep_cases hm h
  | spurious =>
    obtain ⟨c, hc, rfl⟩ := Option.map_eq_some_iff.mp h
    obtain ⟨rpos, hasleep, rfl⟩ := ChannelState.next_spurious hm hc
    exact .spurious rpos hasleep
  | destroy =>
    simp only [next] at h
    split at h
    · next hd =>
      obtain ⟨c, hc, rfl⟩ := Option.map_eq_some_iff.mp h
      obtain ⟨hidle, rfl⟩ := ChannelState.next_write hc
      exact .destroy hd hidle
    · simp at h
  | destroyer =>
    simp only [next] at h
    split at h
    · next hd =>
      obtain ⟨c, hc, rfl⟩ := Option.map_eq_some_iff.mp h
      exact .destroyWriting c hd hc
    · next hd =>
      split_ifs at h with hb
      exact (Option.some.inj h) ▸ .join hd hb
    · simp at h

end AsyncLogger

end Mugglec
