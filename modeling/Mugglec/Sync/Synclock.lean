import Mugglec.Machinery.Steps

/-!
# Sync/Synclock — the futex lock of `sync/synclock.c`

One word, `UNLOCK` or `LOCK`, and no record of whether anybody waits for it.
-/

namespace Mugglec

open Function

inductive SynclockStatus
  | unlock | lock
deriving DecidableEq, Repr

inductive SynclockPc
  | idle
  | cas (released : Bool)
  | wait
  | asleep
  | held
  | store
  | wake
deriving DecidableEq, Repr

def SynclockPc.Holds : SynclockPc → Prop
  | .held | .store => True
  | _ => False

def SynclockPc.Attends : SynclockPc → Prop
  | .wake => True
  | .cas released => released = true
  | _ => False

structure SynclockState (T : Type*) where
  word : SynclockStatus
  waiters : Finset T
  threads : T → SynclockPc

inductive SynclockStep (T : Type*)
  | lock (t : T)
  | cas (t : T) (fails : Bool)
  | wait (t : T)
  | spurious (t : T)
  | unlock (t : T)
  | store (t : T)
  | wake (t : T) (u : Option T)
deriving DecidableEq, Repr

namespace SynclockState

variable {T : Type*}

def init : SynclockState T where
  word := .unlock
  waiters := ∅
  threads := fun _ => .idle

structure Inv (owner : Option T) (s : SynclockState T) : Prop where
  word : s.word = .unlock ↔ owner = none
  holds : ∀ t, (s.threads t).Holds ↔ owner = some t
  queued : ∀ t, s.threads t = .asleep ↔ t ∈ s.waiters
  attended : s.word = .unlock → s.waiters.Nonempty → ∃ t, (s.threads t).Attends

theorem inv_init : Inv none (init : SynclockState T) where
  word := by simp [init]
  holds := by simp [init, SynclockPc.Holds]
  queued := by simp [init]
  attended := fun _ h => absurd h Finset.not_nonempty_empty

variable [DecidableEq T]

def goto (s : SynclockState T) (t : T) (pc : SynclockPc) : SynclockState T :=
  { s with threads := update s.threads t pc }

/-- `muggle_atomic_cmp_exch_weak` of thread `t`. -/
def compareExchange (s : SynclockState T) (t : T) (fails released : Bool) : SynclockState T :=
  match s.word with
  | .lock => s.goto t .wait
  | .unlock => if fails then s.goto t (.cas released) else { s.goto t .held with word := .lock }

/-- `muggle_sync_wait` of thread `t`, which expects `LOCK`. -/
def futexWait (s : SynclockState T) (t : T) : SynclockState T :=
  match s.word with
  | .lock => { s.goto t .asleep with waiters := insert t s.waiters }
  | .unlock => s.goto t (.cas false)

/-- The sleeper `u` returns from `muggle_sync_wait`. -/
def awaken (s : SynclockState T) (u : T) (released : Bool) : SynclockState T :=
  { s.goto u (.cas released) with waiters := s.waiters.erase u }

/-- `muggle_sync_wake_one`: some sleeper if there is any. -/
def futexWake (s : SynclockState T) : Option T → Option (SynclockState T)
  | none => if s.waiters = ∅ then some s else none
  | some u => if u ∈ s.waiters then some (s.awaken u true) else none

def next (s : SynclockState T) : SynclockStep T → Option (SynclockState T)
  | .lock t =>
    match s.threads t with
    | .idle => some (s.goto t (.cas false))
    | _ => none
  | .cas t fails =>
    match s.threads t with
    | .cas released => some (s.compareExchange t fails released)
    | _ => none
  | .wait t =>
    match s.threads t with
    | .wait => some (s.futexWait t)
    | _ => none
  | .spurious t =>
    match s.threads t with
    | .asleep => some (s.awaken t false)
    | _ => none
  | .unlock t =>
    match s.threads t with
    | .held => some (s.goto t .store)
    | _ => none
  | .store t =>
    match s.threads t with
    | .store => some { s.goto t .wake with word := .unlock }
    | _ => none
  | .wake t u =>
    match s.threads t with
    | .wake => (s.futexWake u).map fun s' => s'.goto t .idle
    | _ => none

variable {s s' : SynclockState T} {owner owner' : Option T} {t : T} {pc : SynclockPc}

theorem Inv.goto (h : Inv owner s) (pc : SynclockPc) {word : SynclockStatus} {waiters : Finset T}
    (hword : word = .unlock ↔ owner' = none)
    (hholds : pc.Holds ↔ owner' = some t) (howner : ∀ u ≠ t, owner = some u ↔ owner' = some u)
    (hqueued : pc = .asleep ↔ t ∈ waiters) (hwaiters : ∀ u ≠ t, u ∈ s.waiters ↔ u ∈ waiters)
    (hattended : word = .unlock → waiters.Nonempty →
      pc.Attends ∨ ∃ u ≠ t, (s.threads u).Attends) :
    Inv owner' { s.goto t pc with word := word, waiters := waiters } where
  word := hword
  holds := (forall_update_iff s.threads fun t pc => pc.Holds ↔ owner' = some t).mpr
    ⟨hholds, fun u hu => (h.holds u).trans (howner u hu)⟩
  queued := (forall_update_iff s.threads fun t pc => pc = .asleep ↔ t ∈ waiters).mpr
    ⟨hqueued, fun u hu => (h.queued u).trans (hwaiters u hu)⟩
  attended := fun hw hne => (exists_update_iff s.threads fun _ pc => pc.Attends).mpr
    (hattended hw hne)

omit [DecidableEq T] in
theorem Inv.not_mem_waiters (h : Inv owner s) (hawake : s.threads t ≠ .asleep) : t ∉ s.waiters :=
  fun ht => hawake ((h.queued t).mpr ht)

theorem Inv.pass (h : Inv owner s) (hholds : pc.Holds ↔ (s.threads t).Holds)
    (hawake : pc ≠ .asleep) (hawake' : s.threads t ≠ .asleep)
    (hattends : s.word = .unlock → s.waiters.Nonempty → (s.threads t).Attends →
      pc.Attends ∨ ∃ u ≠ t, (s.threads u).Attends) : Inv owner (s.goto t pc) := by
  refine h.goto pc h.word (hholds.trans (h.holds t)) (fun _ _ => Iff.rfl)
    (iff_of_false hawake (h.not_mem_waiters hawake')) (fun _ _ => Iff.rfl) fun hw hne => ?_
  obtain ⟨u, hu⟩ := h.attended hw hne
  rcases eq_or_ne u t with rfl | hut
  · exact hattends hw hne hu
  · exact .inr ⟨u, hut, hu⟩

theorem Inv.compareExchange (h : Inv owner s) {released : Bool} (hpc : s.threads t = .cas released)
    (fails : Bool) : ∃ owner', Inv owner' (s.compareExchange t fails released) := by
  have hheld : ¬ (s.threads t).Holds := hpc ▸ not_false
  have hawake : s.threads t ≠ .asleep := hpc ▸ nofun
  rw [SynclockState.compareExchange]
  cases hw : s.word with
  | lock => exact ⟨owner, h.pass (iff_of_false not_false hheld) nofun hawake (by simp [hw])⟩
  | unlock =>
    cases fails with
    | true =>
      exact ⟨owner, h.pass (iff_of_false not_false hheld) nofun hawake fun _ _ => hpc ▸ Or.inl⟩
    | false =>
      obtain rfl := h.word.mp hw
      refine ⟨some t, h.goto .held (by simp) (iff_of_true trivial rfl) (fun u hu => ?_)
        (iff_of_false nofun (h.not_mem_waiters hawake)) (fun _ _ => Iff.rfl) (by simp)⟩
      simp [hu.symm]

theorem Inv.futexWait (h : Inv owner s) (hpc : s.threads t = .wait) :
    Inv owner (s.futexWait t) := by
  have hheld : ¬ (s.threads t).Holds := hpc ▸ not_false
  rw [SynclockState.futexWait]
  cases hw : s.word with
  | lock =>
    exact h.goto .asleep h.word (iff_of_false not_false ((h.holds t).not.mp hheld))
      (fun _ _ => Iff.rfl) (by simp) (fun u hu => by simp [hu])
      fun hfree => absurd (hw.symm.trans hfree) nofun
  | unlock =>
    exact h.pass (iff_of_false not_false hheld) nofun (hpc ▸ nofun) fun _ _ => hpc ▸ False.elim

theorem Inv.awaken (h : Inv owner s) (hpc : s.threads t = .asleep) (released : Bool) :
    Inv owner (s.awaken t released) := by
  have hheld : ¬ (s.threads t).Holds := hpc ▸ not_false
  refine h.goto (.cas released) h.word (iff_of_false not_false ((h.holds t).not.mp hheld))
    (fun _ _ => Iff.rfl) (by simp) (fun u hu => by simp [hu]) fun hw hne => .inr ?_
  obtain ⟨u, hu⟩ := h.attended hw (hne.mono (Finset.erase_subset _ _))
  exact ⟨u, fun hut => (hpc ▸ hut ▸ hu : SynclockPc.asleep.Attends), hu⟩

theorem Inv.store (h : Inv owner s) (hpc : s.threads t = .store) :
    Inv none { s.goto t .wake with word := .unlock } := by
  have howner : owner = some t := (h.holds t).mp (hpc ▸ trivial)
  refine h.goto .wake (by simp) (by simp [SynclockPc.Holds]) (fun u hu => ?_)
    (iff_of_false nofun (h.not_mem_waiters (hpc ▸ nofun))) (fun _ _ => Iff.rfl)
    fun _ _ => .inl trivial
  simp [howner, hu.symm]

theorem Inv.wake (h : Inv owner s) (hpc : s.threads t = .wake) {u : Option T}
    (hwake : s.futexWake u = some s') : Inv owner (s'.goto t .idle) := by
  cases u with
  | none =>
    simp only [futexWake, Option.ite_none_right_eq_some, Option.some.injEq] at hwake
    obtain ⟨hnone, rfl⟩ := hwake
    exact h.pass (hpc ▸ Iff.rfl) nofun (hpc ▸ nofun) fun _ hne => absurd hnone hne.ne_empty
  | some u =>
    simp only [futexWake, Option.ite_none_right_eq_some, Option.some.injEq] at hwake
    obtain ⟨hu, rfl⟩ := hwake
    have hasleep := (h.queued u).mpr hu
    have hne : t ≠ u := fun htu => by simp [← htu, hpc] at hasleep
    have hpc' : (s.awaken u true).threads t = .wake :=
      (update_of_ne hne _ _).trans hpc
    have htries : (s.awaken u true).threads u = .cas true := update_self u _ _
    exact (h.awaken hasleep true).pass (hpc' ▸ Iff.rfl) nofun (hpc' ▸ nofun)
      fun _ _ _ => .inr ⟨u, hne.symm, htries ▸ rfl⟩

theorem Inv.step {a : SynclockStep T} (h : Inv owner s) (hnext : s.next a = some s') :
    ∃ owner', Inv owner' s' := by
  cases a with
  | lock t =>
    rw [next] at hnext
    cases hpc : s.threads t <;> simp only [hpc, reduceCtorEq] at hnext
    cases hnext
    exact ⟨owner, h.pass (hpc ▸ Iff.rfl) nofun (hpc ▸ nofun) fun _ _ => hpc ▸ False.elim⟩
  | cas t fails =>
    rw [next] at hnext
    cases hpc : s.threads t <;> simp only [hpc, reduceCtorEq] at hnext
    cases hnext
    exact h.compareExchange hpc fails
  | wait t =>
    rw [next] at hnext
    cases hpc : s.threads t <;> simp only [hpc, reduceCtorEq] at hnext
    cases hnext
    exact ⟨owner, h.futexWait hpc⟩
  | spurious t =>
    rw [next] at hnext
    cases hpc : s.threads t <;> simp only [hpc, reduceCtorEq] at hnext
    cases hnext
    exact ⟨owner, h.awaken hpc false⟩
  | unlock t =>
    rw [next] at hnext
    cases hpc : s.threads t <;> simp only [hpc, reduceCtorEq] at hnext
    cases hnext
    exact ⟨owner, h.pass (hpc ▸ Iff.rfl) nofun (hpc ▸ nofun) fun _ _ => hpc ▸ False.elim⟩
  | store t =>
    rw [next] at hnext
    cases hpc : s.threads t <;> simp only [hpc, reduceCtorEq] at hnext
    cases hnext
    exact ⟨none, h.store hpc⟩
  | wake t u =>
    rw [next] at hnext
    cases hpc : s.threads t <;>
      simp only [hpc, reduceCtorEq, Option.map_eq_some_iff] at hnext
    obtain ⟨s₁, hwake, rfl⟩ := hnext
    exact ⟨owner, h.wake hpc hwake⟩

structure Locked (s : SynclockState T) : Prop where
  exclusive : ∀ t u, (s.threads t).Holds → (s.threads u).Holds → t = u
  attended : s.word = .unlock → ∀ t, s.threads t = .asleep →
    ∃ u, s.threads u = .wake ∨ s.threads u = .cas true

omit [DecidableEq T] in
theorem Inv.locked (h : Inv owner s) : Locked s where
  exclusive := fun t u ht hu =>
    Option.some.inj (((h.holds t).mp ht).symm.trans ((h.holds u).mp hu))
  attended := fun hw t ht => by
    obtain ⟨u, hu⟩ := h.attended hw ⟨t, (h.queued t).mp ht⟩
    refine ⟨u, ?_⟩
    cases hpc : s.threads u with
    | wake => exact .inl rfl
    | cas released =>
      rw [hpc] at hu
      exact .inr (congrArg _ hu)
    | _ =>
      rw [hpc] at hu
      exact hu.elim

/-- **The lock excludes and forgets no sleeper**, in every interleaving of any number of threads
that lock and unlock in turn. -/
theorem locked_of_reach (hs : Steps.Reach next Steps.anyStep init s) : Locked s := by
  obtain ⟨owner, hinv⟩ := hs.invariant (P := fun s => ∃ owner, Inv owner s) ⟨none, inv_init⟩
    fun _ _ _ ⟨_, h⟩ _ hnext => h.step hnext
  exact hinv.locked

def oneOfTwoWoken : List (SynclockStep ℕ) :=
  [.lock 0, .cas 0 false, .lock 1, .cas 1 false, .wait 1, .lock 2, .cas 2 false, .wait 2,
   .unlock 0, .store 0, .wake 0 (some 1), .cas 1 true]

theorem locked_oneOfTwoWoken : ∃ s, Steps.exec next init oneOfTwoWoken = some s ∧
    (s.word, s.threads 1, s.threads 2) = (.unlock, .cas true, .asleep) ∧ Locked s := by
  exact Steps.exists_exec (by decide) fun _ hs _ => locked_of_reach hs

end SynclockState

end Mugglec
