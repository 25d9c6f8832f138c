import Mugglec.Sync.Channel
import Mugglec.Machinery.RingQueue

/-!
# Sync/ChannelFifo — what the reader gets is what the writers wrote

Number the written values from zero.  With `W` values written and `R` of them read, value `k` is in
block `k % C`, `writeCursor` is `W % C`, and `readCursor`, the block of the last value read, is the
cursor that has passed `R` values.
-/

namespace Mugglec

open Function

/-- The thread is between `fn_lock` and `fn_unlock`. -/
def WriterPc.Critical {α : Type*} : WriterPc α → Prop
  | .idle | .lock _ | .wake => False
  | _ => True

namespace ChannelState

open RingQueue

variable {T α : Type*}

def trail (c n : ℕ) : ℕ := (n + (c - 1)) % c

section Cursors

variable {c k : ℕ}

theorem bump_mod {ch : Channel} (hc : ch.capacity = 2 ^ k) (hk : k < 32) (n : ℕ) :
    bump ch (n % ch.capacity) = (n + 1) % ch.capacity := by
  have hlt : n % 2 ^ k + 1 < 2 ^ 32 :=
    calc n % 2 ^ k + 1 ≤ 2 ^ k := Nat.mod_lt n (Nat.two_pow_pos k)
      _ < 2 ^ 32 := Nat.pow_lt_pow_right (by omega) hk
  rw [bump, hc, idx_eq_mod hk, u32_of_lt hlt, Nat.mod_add_mod]

theorem bump_trail {ch : Channel} (hc : ch.capacity = 2 ^ k) (hk : k < 32) (n : ℕ) :
    bump ch (trail ch.capacity n) = n % ch.capacity := by
  have hpos : 0 < ch.capacity := hc ▸ Nat.two_pow_pos k
  rw [trail, bump_mod hc hk, add_assoc, Nat.sub_add_cancel hpos, Nat.add_mod_right]

theorem succ_mod_eq_trail {n w : ℕ} (hc : 2 ≤ c) (hn : n ≤ w) (hw : w ≤ n + (c - 2)) :
    (w + 1) % c = trail c n ↔ w = n + (c - 2) := by
  rw [trail, mod_eq_iff (by omega) (by omega)]
  omega

end Cursors

variable (ch : Channel) (m : ChannelMem α)

def Seen (rpos unread : ℕ) : Prop :=
  ∃ n, n ≤ m.returned.length ∧ rpos = trail ch.capacity n ∧ m.written.length = n + unread ∧
    unread ≤ ch.capacity - 2

def Room (k : ℕ) : Prop :=
  m.written.length + k ≤ m.returned.length + (ch.capacity - 2) ∧
  (ch.readMode = .busy → ∃ u, Seen ch m m.cachedRCur u ∧ u + k ≤ ch.capacity - 2)

structure Ring : Prop where
  holds : Holds ch.capacity m.blocks m.written m.returned.length
  returned : m.returned <+: m.written
  writeCursor : m.writeCursor = m.written.length % ch.capacity
  readCursor : m.readCursor = trail ch.capacity m.returned.length
  room : Room ch m 0

def WriterOk : WriterPc α → Prop
  | .loadRead _ => ch.readMode = .sync
  | .compare _ rpos unread => ch.readMode = .sync ∧ Seen ch m rpos unread
  | .test _ wpos | .reload _ wpos => wpos = (m.written.length + 1) % ch.capacity
  | .recache _ wpos rpos unread =>
    wpos = (m.written.length + 1) % ch.capacity ∧ Seen ch m rpos unread
  | .retest _ wpos unread =>
    wpos = (m.written.length + 1) % ch.capacity ∧ Seen ch m m.cachedRCur unread
  | .index _ wpos => wpos = (m.written.length + 1) % ch.capacity ∧ Room ch m 1
  | .store _ wpos idx =>
    wpos = (m.written.length + 1) % ch.capacity ∧ Room ch m 1 ∧
      idx = m.written.length % ch.capacity
  | .publish data wpos =>
    wpos = (m.written.length + 1) % ch.capacity ∧ Room ch m 1 ∧
      m.blocks (m.written.length % ch.capacity) = data
  | _ => True

def ReaderOk : ReaderPc α → Prop
  | .poll rpos | .wait rpos _ | .asleep rpos => rpos = m.returned.length % ch.capacity
  | .fetch rpos =>
    rpos = m.returned.length % ch.capacity ∧ m.returned.length < m.written.length
  | .publish rpos data =>
    rpos = m.returned.length % ch.capacity ∧ m.written[m.returned.length]? = some data
  | _ => True

structure Inv (s : ChannelState T α) : Prop where
  ring : Ring ch s.toChannelMem
  owner : ∀ t, (s.writers t).Critical → s.writeLock = some t
  writers : ∀ t, WriterOk ch s.toChannelMem (s.writers t)
  reader : ReaderOk ch s.toChannelMem s.reader
  fulls : ∀ n ∈ s.fulls, n = ch.capacity - 2

variable {ch m} {m' : ChannelMem α}

theorem WriterOk.of_not_critical {pc : WriterPc α} (h : ¬ pc.Critical) : WriterOk ch m pc := by
  cases pc <;> first | exact trivial | exact absurd trivial h

theorem Seen.mono {rpos u : ℕ} (h : Seen ch m rpos u)
    (hw : m'.written = m.written) (hr : m.returned.length ≤ m'.returned.length) :
    Seen ch m' rpos u := by
  obtain ⟨n, hn, hpos, hlen, hu⟩ := h
  exact ⟨n, hn.trans hr, hpos, hw ▸ hlen, hu⟩

theorem Room.mono {k : ℕ} (h : Room ch m k) (hw : m'.written = m.written)
    (hc : m'.cachedRCur = m.cachedRCur) (hr : m.returned.length ≤ m'.returned.length) :
    Room ch m' k := by
  refine ⟨?_, fun hb => ?_⟩
  · rw [hw]
    exact h.1.trans (Nat.add_le_add_right hr _)
  · obtain ⟨u, hseen, hu⟩ := h.2 hb
    exact ⟨u, hc ▸ hseen.mono hw hr, hu⟩

theorem WriterOk.mono {pc : WriterPc α} (h : WriterOk ch m pc)
    (hw : m'.written = m.written) (hb : m'.blocks = m.blocks)
    (hc : m'.cachedRCur = m.cachedRCur) (hr : m.returned.length ≤ m'.returned.length) :
    WriterOk ch m' pc := by
  cases pc with
  | loadRead => exact h
  | compare => exact ⟨h.1, h.2.mono hw hr⟩
  | test | reload => simpa only [WriterOk, hw] using h
  | recache => exact ⟨hw ▸ h.1, h.2.mono hw hr⟩
  | retest => exact ⟨hw ▸ h.1, hc ▸ h.2.mono hw hr⟩
  | index => exact ⟨hw ▸ h.1, h.2.mono hw hc hr⟩
  | store => exact ⟨hw ▸ h.1, h.2.1.mono hw hc hr, hw ▸ h.2.2⟩
  | publish => exact ⟨hw ▸ h.1, h.2.1.mono hw hc hr, by rw [hw, hb]; exact h.2.2⟩
  | _ => trivial

theorem inv_start {k : ℕ} (hc : ch.capacity = 2 ^ k) (null : α) :
    Inv ch (start ch null : ChannelState T α) := by
  have hpos : 0 < ch.capacity := hc ▸ Nat.two_pow_pos k
  have htrail : ch.capacity - 1 = trail ch.capacity 0 := by
    rw [trail, zero_add, Nat.mod_eq_of_lt (Nat.sub_lt hpos one_pos)]
  refine ⟨⟨holds_nil _ _, List.prefix_refl _, (Nat.zero_mod _).symm, htrail, ?_, fun _ => ?_⟩,
    fun _ h => h.elim, fun _ => trivial, trivial, fun _ h => absurd h List.not_mem_nil⟩
  · exact Nat.zero_le _
  · exact ⟨0, ⟨0, le_refl 0, htrail, rfl, Nat.zero_le _⟩, Nat.zero_le _⟩

theorem Ring.seen (h : Ring ch m) : Seen ch m m.readCursor m.unread := by
  have hle := h.holds.le
  have hroom := h.room.1
  refine ⟨m.returned.length, le_refl _, h.readCursor, ?_, ?_⟩ <;> rw [ChannelMem.unread] <;> omega

theorem Seen.full_iff {rpos u : ℕ} (hc : 2 ≤ ch.capacity) (h : Seen ch m rpos u) :
    (m.written.length + 1) % ch.capacity = rpos ↔ u = ch.capacity - 2 := by
  obtain ⟨n, -, rfl, hlen, hu⟩ := h
  rw [succ_mod_eq_trail hc (by omega) (by omega)]
  omega

theorem Seen.room {rpos u : ℕ} (h : Seen ch m rpos u) (hu : u < ch.capacity - 2)
    (hcached : ch.readMode = .busy → rpos = m.cachedRCur) : Room ch m 1 := by
  refine ⟨?_, fun hb => ⟨u, hcached hb ▸ h, hu⟩⟩
  obtain ⟨n, hn, -, hlen, -⟩ := h
  omega

theorem Seen.room_of_ne {rpos u : ℕ} (hc : 2 ≤ ch.capacity) (h : Seen ch m rpos u)
    (hne : (m.written.length + 1) % ch.capacity ≠ rpos)
    (hcached : ch.readMode = .busy → rpos = m.cachedRCur) : Room ch m 1 := by
  refine h.room (lt_of_le_of_ne ?_ fun hu => hne ((h.full_iff hc).mpr hu)) hcached
  obtain ⟨_, -, -, -, hu⟩ := h
  exact hu

theorem Ring.recache (h : Ring ch m) {rpos u : ℕ} (hseen : Seen ch m rpos u) :
    Ring ch { m with cachedRCur := rpos } := by
  refine ⟨h.holds, h.returned, h.writeCursor, h.readCursor, h.room.1, fun _ => ⟨u, hseen, ?_⟩⟩
  obtain ⟨_, -, -, -, hu⟩ := hseen
  exact hu

theorem Ring.store (h : Ring ch m) (hroom : Room ch m 1) (hc : 2 ≤ ch.capacity) (data : α) :
    Ring ch { m with blocks := update m.blocks (m.written.length % ch.capacity) data } :=
  ⟨h.holds.set (by have := hroom.1; omega) data, h.returned, h.writeCursor, h.readCursor, h.room⟩

theorem Ring.publish (h : Ring ch m) (hroom : Room ch m 1) {data : α}
    (hdata : m.blocks (m.written.length % ch.capacity) = data) :
    Ring ch { m with
      writeCursor := (m.written.length + 1) % ch.capacity, written := m.written ++ [data] } := by
  have hlen : (m.written ++ [data]).length = m.written.length + 1 := by
    rw [List.length_append, List.length_singleton]
  refine ⟨h.holds.push hdata, h.returned.trans (List.prefix_append _ _), ?_, h.readCursor, ?_,
    fun hb => ?_⟩
  · exact congrArg (· % ch.capacity) hlen.symm
  · exact hlen.symm ▸ hroom.1
  · obtain ⟨u, ⟨n, hn, hpos, hw, -⟩, hu⟩ := hroom.2 hb
    exact ⟨u + 1, ⟨n, hn, hpos, by rw [hlen, hw, add_assoc], hu⟩, hu⟩

theorem Ring.read (h : Ring ch m) (hc : 2 ≤ ch.capacity) {data : α}
    (hdata : m.written[m.returned.length]? = some data) :
    Ring ch { m with
      readCursor := m.returned.length % ch.capacity, returned := m.returned ++ [data] } := by
  have hlen : (m.returned ++ [data]).length = m.returned.length + 1 := by
    rw [List.length_append, List.length_singleton]
  have hlt : m.returned.length < m.written.length := (List.getElem?_eq_some_iff.mp hdata).1
  refine ⟨?_, ?_, h.writeCursor, ?_, h.room.mono rfl rfl ?_⟩
  · exact hlen.symm ▸ h.holds.pop hlt
  · exact RingQueue.isPrefix_concat h.returned hdata
  · rw [trail, hlen, add_assoc, Nat.add_sub_of_le (by omega), Nat.add_mod_right]
  · exact hlen.symm ▸ Nat.le_succ _

theorem ReaderOk.mono {pc : ReaderPc α} (h : ReaderOk ch m pc) (hr : m'.returned = m.returned)
    (hw : m.written <+: m'.written) : ReaderOk ch m' pc := by
  cases pc with
  | poll | wait | asleep => simpa only [ReaderOk, hr] using h
  | fetch => exact ⟨hr ▸ h.1, hr ▸ h.2.trans_le hw.length_le⟩
  | publish =>
    obtain ⟨rest, hrest⟩ := hw
    refine ⟨hr ▸ h.1, ?_⟩
    rw [hr, ← hrest, List.getElem?_append_left (List.getElem?_eq_some_iff.mp h.2).1]
    exact h.2
  | _ => trivial

section Steps

variable {s : ChannelState T α} {t : T} {pc : WriterPc α}

theorem Inv.not_critical (h : Inv ch s) (ht : (s.writers t).Critical) {t' : T} (hne : t' ≠ t) :
    ¬ (s.writers t').Critical := fun ht' =>
  hne (Option.some.inj ((h.owner t' ht').symm.trans (h.owner t ht)))

theorem Inv.setMutex (h : Inv ch s) (mutex : Option (Holder T)) :
    Inv ch { s with readMutex := mutex } :=
  ⟨h.ring, h.owner, h.writers, h.reader, h.fulls⟩

theorem Inv.setReader (h : Inv ch s) {pc : ReaderPc α} {mutex : Option (Holder T)}
    (hok : ReaderOk ch s.toChannelMem pc) : Inv ch { s with reader := pc, readMutex := mutex } :=
  ⟨h.ring, h.owner, h.writers, hok, h.fulls⟩

theorem ReaderOk.resume {pc : ReaderPc α} (hok : ReaderOk ch m pc) :
    ReaderOk ch m (resume ch pc) := by
  cases pc <;> cases hm : ch.readMode <;> simp_all [ChannelState.resume, ReaderOk]

variable [DecidableEq T] {s' : ChannelState T α}

theorem Inv.goto (h : Inv ch s) (hcrit : pc.Critical → s.writeLock = some t)
    (hok : WriterOk ch s.toChannelMem pc) : Inv ch (s.goto t pc) where
  ring := h.ring
  owner := (forall_update_iff s.writers fun t pc => pc.Critical → s.writeLock = some t).mpr
    ⟨hcrit, fun t' _ => h.owner t'⟩
  writers := (forall_update_iff s.writers fun _ => WriterOk ch s.toChannelMem).mpr
    ⟨hok, fun t' _ => h.writers t'⟩
  reader := h.reader
  fulls := h.fulls

theorem Inv.full (h : Inv ch s) {u : ℕ} (hu : u = ch.capacity - 2)
    (hcrit : pc.Critical → s.writeLock = some t) (hok : WriterOk ch s.toChannelMem pc) :
    Inv ch (s.full t u pc) := by
  have hgoto := h.goto hcrit hok
  refine ⟨hgoto.ring, hgoto.owner, hgoto.writers, hgoto.reader, fun n hn => ?_⟩
  rcases List.mem_append.mp hn with hn | hn
  · exact h.fulls n hn
  · exact (List.mem_singleton.mp hn).trans hu

theorem Inv.lock (h : Inv ch s) (hfree : s.writeLock = none)
    (hok : WriterOk ch s.toChannelMem pc) : Inv ch { s.goto t pc with writeLock := some t } where
  ring := h.ring
  owner := (forall_update_iff s.writers fun t' pc => pc.Critical → some t = some t').mpr
    ⟨fun _ => rfl, fun t' _ ht' => absurd (hfree.symm.trans (h.owner t' ht')) (by simp)⟩
  writers := (forall_update_iff s.writers fun _ => WriterOk ch s.toChannelMem).mpr
    ⟨hok, fun t' _ => h.writers t'⟩
  reader := h.reader
  fulls := h.fulls

theorem Inv.unlock (h : Inv ch s) (ht : (s.writers t).Critical) (hpc : ¬ pc.Critical) :
    Inv ch { s.goto t pc with writeLock := none } where
  ring := h.ring
  owner := (forall_update_iff s.writers fun t' pc => pc.Critical → none = some t').mpr
    ⟨fun hc => absurd hc hpc, fun _ hne ht' => absurd ht' (h.not_critical ht hne)⟩
  writers := (forall_update_iff s.writers fun _ => WriterOk ch s.toChannelMem).mpr
    ⟨.of_not_critical hpc, fun t' _ => h.writers t'⟩
  reader := h.reader
  fulls := h.fulls

theorem Inv.setMem (h : Inv ch s) (ht : (s.writers t).Critical)
    (hring : Ring ch m) (hok : WriterOk ch m pc) (hreader : ReaderOk ch m s.reader) :
    Inv ch { s.goto t pc with toChannelMem := m } where
  ring := hring
  owner := (forall_update_iff s.writers fun t pc => pc.Critical → s.writeLock = some t).mpr
    ⟨fun _ => h.owner t ht, fun t' _ => h.owner t'⟩
  writers := (forall_update_iff s.writers fun _ => WriterOk ch m).mpr
    ⟨hok, fun _ hne => .of_not_critical (h.not_critical ht hne)⟩
  reader := hreader
  fulls := h.fulls

theorem Inv.writerStep {k : ℕ} (hc : ch.capacity = 2 ^ k) (hk : k < 32) (h2 : 2 ≤ ch.capacity)
    (h : Inv ch s) (hnext : s.writerStep ch t = some s') : Inv ch s' := by
  have hok := h.writers t
  have howner := h.owner t
  have hbump : bump ch s.writeCursor = (s.written.length + 1) % ch.capacity := by
    rw [h.ring.writeCursor, bump_mod hc hk]
  rw [ChannelState.writerStep] at hnext
  generalize hpc : s.writers t = pc at hnext hok howner
  cases pc with
  | idle => cases hnext
  | lock data =>
    simp only [Option.ite_none_right_eq_some, Option.some.injEq] at hnext
    obtain ⟨hfree, rfl⟩ := hnext
    refine h.lock hfree ?_
    rw [enter]
    split
    · assumption
    · trivial
    · trivial
  | loadRead data =>
    obtain rfl := Option.some.inj hnext
    exact h.goto howner ⟨hok, h.ring.seen⟩
  | compare data rpos unread =>
    simp only [hbump] at hnext
    obtain ⟨hmode, hseen⟩ := hok
    split_ifs at hnext with hfull <;> obtain rfl := Option.some.inj hnext
    · exact h.full ((hseen.full_iff h2).mp hfull) howner trivial
    · exact h.goto howner ⟨rfl, hseen.room_of_ne h2 hfull (by simp [hmode])⟩
  | lockRead data =>
    simp only [Option.ite_none_right_eq_some, Option.some.injEq] at hnext
    obtain ⟨-, rfl⟩ := hnext
    exact Inv.setMutex (s := s.goto t (.advance data)) (h.goto howner trivial) _
  | advance data =>
    obtain rfl := Option.some.inj hnext
    exact h.goto howner hbump
  | test data wpos =>
    dsimp only at hnext
    subst hok
    split at hnext
    · next hmode =>
      split_ifs at hnext with hmeet <;> obtain rfl := Option.some.inj hnext
      · exact h.goto howner rfl
      · obtain ⟨u, hseen, -⟩ := h.ring.room.2 hmode
        exact h.goto howner ⟨rfl, hseen.room_of_ne h2 hmeet fun _ => rfl⟩
    · next hmode =>
      split_ifs at hnext with hmeet <;> obtain rfl := Option.some.inj hnext
      · exact h.full ((h.ring.seen.full_iff h2).mp hmeet) howner trivial
      · exact h.goto howner ⟨rfl, h.ring.seen.room_of_ne h2 hmeet fun hb => absurd hb hmode⟩
  | reload data wpos =>
    obtain rfl := Option.some.inj hnext
    exact h.goto howner ⟨hok, h.ring.seen⟩
  | recache data wpos rpos unread =>
    obtain rfl := Option.some.inj hnext
    exact h.setMem (hpc ▸ trivial) (h.ring.recache hok.2) hok
      (h.reader.mono rfl (List.prefix_refl _))
  | retest data wpos unread =>
    dsimp only at hnext
    obtain ⟨rfl, hseen⟩ := hok
    split_ifs at hnext with hmeet <;> obtain rfl := Option.some.inj hnext
    · exact h.full ((hseen.full_iff h2).mp hmeet) howner trivial
    · exact h.goto howner ⟨rfl, hseen.room_of_ne h2 hmeet fun _ => rfl⟩
  | index data wpos =>
    obtain rfl := Option.some.inj hnext
    exact h.goto howner ⟨hok.1, hok.2, h.ring.writeCursor⟩
  | store data wpos idx =>
    obtain rfl := Option.some.inj hnext
    obtain ⟨hwpos, hroom, rfl⟩ := hok
    exact h.setMem (hpc ▸ trivial) (h.ring.store hroom h2 data)
      ⟨hwpos, hroom, update_self _ _ _⟩ (h.reader.mono rfl (List.prefix_refl _))
  | publish data wpos =>
    obtain rfl := Option.some.inj hnext
    obtain ⟨rfl, hroom, hdata⟩ := hok
    refine h.setMem (hpc ▸ trivial) (h.ring.publish hroom hdata) ?_
      (h.reader.mono rfl (List.prefix_append _ _))
    split <;> trivial
  | unlockRead ret =>
    obtain rfl := Option.some.inj hnext
    exact Inv.setMutex (s := s.goto t (.unlock ret)) (h.goto howner trivial) _
  | unlock ret =>
    obtain rfl := Option.some.inj hnext
    refine h.unlock (hpc ▸ trivial) ?_
    split <;> exact not_false
  | wake =>
    obtain rfl := Option.some.inj hnext
    have hidle : Inv ch (s.goto t .idle) := h.goto False.elim trivial
    exact hidle.setReader h.reader.resume

omit [DecidableEq T] in
theorem Inv.readerStep {k : ℕ} (hc : ch.capacity = 2 ^ k) (hk : k < 32) (h2 : 2 ≤ ch.capacity)
    (h : Inv ch s) (hnext : s.readerStep ch = some s') : Inv ch s' := by
  have hok := h.reader
  rw [ChannelState.readerStep] at hnext
  generalize hpc : s.reader = pc at hnext hok
  cases pc with
  | idle => cases hnext
  | lock =>
    simp only [Option.ite_none_right_eq_some, Option.some.injEq] at hnext
    obtain ⟨-, rfl⟩ := hnext
    exact h.setReader trivial
  | head =>
    cases hnext
    refine h.setReader ?_
    rw [h.ring.readCursor, bump_trail hc hk]
    rfl
  | poll rpos =>
    simp only [h.ring.writeCursor] at hnext
    split_ifs at hnext with hne hbusy <;> cases hnext
    · refine h.setReader ⟨hok, lt_of_le_of_ne h.ring.holds.le fun heq => hne ?_⟩
      rw [hok, heq]
    · exact h
    · exact h.setReader hok
  | wait rpos wpos =>
    dsimp only at hnext
    split at hnext
    · cases hnext
      exact h.setReader hok
    · split_ifs at hnext <;> cases hnext
      · exact h.setReader hok
      · exact h.setReader hok
  | asleep rpos => cases hnext
  | fetch rpos =>
    cases hnext
    obtain ⟨rfl, hlt⟩ := hok
    exact h.setReader ⟨rfl, h.ring.holds.kept _ (le_refl _) hlt⟩
  | publish rpos data =>
    cases hnext
    obtain ⟨rfl, hdata⟩ := hok
    refine ⟨h.ring.read h2 hdata, h.owner, fun t => (h.writers t).mono rfl rfl rfl ?_, ?_, h.fulls⟩
    · rw [List.length_append]
      exact Nat.le_add_right _ _
    · dsimp only
      split <;> trivial
  | unlock =>
    cases hnext
    exact h.setReader trivial

theorem Inv.step {k : ℕ} (hc : ch.capacity = 2 ^ k) (hk : k < 32) (h2 : 2 ≤ ch.capacity)
    {a : ChannelStep T α} (h : Inv ch s) (hnext : s.next ch a = some s') :
    Inv ch s' := by
  cases a with
  | write t data =>
    simp only [next] at hnext
    split at hnext
    · cases hnext
      exact h.goto False.elim trivial
    · simp at hnext
  | writer t => exact h.writerStep hc hk h2 hnext
  | read =>
    simp only [next] at hnext
    split at hnext
    · cases hnext
      refine h.setReader ?_
      split <;> trivial
    · simp at hnext
  | reader => exact h.readerStep hc hk h2 hnext
  | spurious =>
    simp only [next] at hnext
    split at hnext
    · next rpos hpc =>
      cases hnext
      exact h.setReader (hpc ▸ h.reader).resume
    · simp at hnext

end Steps

structure Exact (ch : Channel) (s : ChannelState T α) : Prop where
  returned : s.returned <+: s.written
  kept : ∀ k, s.returned.length ≤ k → k < s.written.length →
    s.written[k]? = some (s.blocks (k % ch.capacity))
  spared : ∀ t data wpos idx, s.writers t = .store data wpos idx →
    ∀ k, s.returned.length ≤ k → k < s.written.length → idx ≠ k % ch.capacity
  fulls : ∀ n ∈ s.fulls, n = ch.capacity - 2

theorem Inv.exact {s : ChannelState T α} (h : Inv ch s) (h2 : 2 ≤ ch.capacity) : Exact ch s := by
  refine ⟨h.ring.returned, h.ring.holds.kept, ?_, h.fulls⟩
  intro t data wpos idx hpc k hr hk heq
  have hok := h.writers t
  rw [hpc] at hok
  obtain ⟨-, ⟨hroom, -⟩, rfl⟩ := hok
  -- the block to be filled is less than a lap ahead of every unread value
  exact hk.ne ((mod_eq_iff hk.le (by omega)).mp heq.symm)

theorem init_eq_ok {g : Channel.Grants} {capacity flags : ℕ}
    (hinit : Channel.init g capacity flags = .ok ch) :
    capacity ≠ 0 ∧ u32 (nextPowOf2 capacity) ≠ 0 ∧ ch.capacity = u32 (nextPowOf2 capacity) := by
  rw [Channel.init] at hinit
  split_ifs at hinit with hpos hzero hblocks
  · split at hinit
    · simp at hinit
    · obtain rfl := Except.ok.inj hinit
      exact ⟨hpos, hzero, rfl⟩
  · split at hinit <;> simp at hinit

theorem capacity_of_init {g : Channel.Grants} {capacity flags : ℕ} (hcap : capacity < 2 ^ 32)
    (hinit : Channel.init g capacity flags = .ok ch) : ∃ k, k < 32 ∧ ch.capacity = 2 ^ k := by
  obtain ⟨hpos, hzero, heq⟩ := init_eq_ok hinit
  rw [heq]
  exact u32_nextPowOf2 hpos hcap hzero

variable [DecidableEq T]

/-- **The channel is a queue**, from four blocks on, in every mode and interleaving. -/
theorem exact_of_reach {g : Channel.Grants} {capacity flags : ℕ} (hcap : capacity < 2 ^ 32)
    (hinit : Channel.init g capacity flags = .ok ch) (hfour : 4 ≤ ch.capacity) {null : α}
    {s : ChannelState T α}
    (hs : Steps.Reach (fun s => s.next ch) Steps.anyStep (start ch null) s) : Exact ch s := by
  obtain ⟨k, hk, hc⟩ := capacity_of_init hcap hinit
  have h2 : 2 ≤ ch.capacity := by omega
  have hinv : Inv ch s := hs.invariant (inv_start hc null) fun _ _ _ h _ => h.step hc hk h2
  exact hinv.exact h2

def refusedLap : List (ChannelStep Bool ℕ) :=
  ChannelStep.write false 7 :: List.replicate 8 (ChannelStep.writer false) ++
  ChannelStep.write true 8 :: List.replicate 8 (ChannelStep.writer true) ++
  ChannelStep.write false 9 :: List.replicate 7 (ChannelStep.writer false) ++
  ChannelStep.read :: List.replicate 4 ChannelStep.reader

theorem exact_refusedLap : ∃ s,
    Steps.exec (fun s => next ⟨4, .mutex, .busy⟩ s) (start ⟨4, .mutex, .busy⟩ 0) refusedLap =
      some s ∧
    (s.written, s.returned, s.fulls) = ([7, 8], [7], [2]) ∧ Exact ⟨4, .mutex, .busy⟩ s := by
  have hinit : Channel.init .all 3 0x20 = .ok ⟨4, .mutex, .busy⟩ := rfl
  exact Steps.exists_exec (by rfl) fun _ hs _ => exact_of_reach (by decide) hinit (by decide) hs

end ChannelState

end Mugglec
