import Mugglec.Machinery.EventLog
import Mugglec.Machinery.RingQueue

/-!
# Time/FlowController — the flow controller of `time/flow_controller.c`

The times of the last `n` events stand in a ring of `n` cells, the oldest of them at the cursor.  A
call at time `x` is let through if that one is at least `t` back, and takes its cell.
-/

namespace Mugglec

open EventLog RingQueue

def int64 (x : ℤ) : Option ℤ := if -2 ^ 63 ≤ x ∧ x < 2 ^ 63 then some x else none

theorem int64_eq_some {x y : ℤ} :
    int64 x = some y ↔ (-2 ^ 63 ≤ x ∧ x < 2 ^ 63) ∧ x = y := by
  rw [int64]
  split_ifs with h
  · exact ⟨fun heq => ⟨h, Option.some.inj heq⟩, fun heq => congrArg some heq.2⟩
  · exact ⟨fun heq => absurd heq (by simp), fun heq => absurd heq.1 h⟩

structure FlowController where
  arr : ℕ → ℤ
  t : ℤ
  n : ℕ
  cursor : ℕ

namespace FlowController

def init (timeRangeSec : ℤ) (n : ℕ) (initForwardSec : ℤ) (mem : Bool) :
    Option (Option FlowController) := do
  if n = 0 then return none
  if timeRangeSec ≤ 0 then return none
  if !mem then return none
  let t ← int64 (timeRangeSec * 1000000000)
  let forward ← int64 (-initForwardSec)
  let elapsedNs ← int64 (forward * 1000000000)
  return some { arr := fun _ => elapsedNs, t := t, n := n, cursor := 0 }

def check (c : FlowController) (elapsedNs : ℤ) : Option Bool := do
  let diff ← int64 (elapsedNs - c.arr c.cursor)
  return decide (diff ≥ c.t)

def update (c : FlowController) (elapsedNs : ℤ) : FlowController :=
  { c with arr := Function.update c.arr c.cursor elapsedNs, cursor := (c.cursor + 1) % c.n }

def checkAndUpdate (c : FlowController) (elapsedNs : ℤ) : Option (Bool × FlowController) := do
  if ← c.check elapsedNs then return (true, c.update elapsedNs)
  else return (false, c)

end FlowController

structure FlowSession where
  ctl : FlowController
  events : List ℤ
  accepted : List ℤ

namespace FlowSession

def start (c : FlowController) : FlowSession := ⟨c, List.replicate c.n (c.arr 0), []⟩

def call (s : FlowSession) (x : ℤ) : Option FlowSession := do
  match ← s.ctl.checkAndUpdate x with
  | (true, c) => return ⟨c, s.events ++ [x], s.accepted ++ [x]⟩
  | (false, c) => return { s with ctl := c }

structure Inv (s : FlowSession) (n : ℕ) (t initial : ℤ) : Prop where
  n_eq : s.ctl.n = n
  t_eq : s.ctl.t = t
  cursor : s.ctl.cursor = s.events.length % n
  log : s.events = List.replicate n initial ++ s.accepted
  ring : Holds n s.ctl.arr s.events (s.events.length - n)
  sorted : s.events.Pairwise (· ≤ ·)
  windowed : Windowed n t s.accepted

variable {s : FlowSession} {n : ℕ} {t initial x : ℤ} {c : FlowController} {xs : List ℤ}

theorem init_spec {sec forward : ℤ} (h : FlowController.init sec n forward true = some (some c)) :
    0 < n ∧ 0 < c.t ∧ c.t = sec * 1000000000 ∧
      c = ⟨fun _ => -forward * 1000000000, c.t, n, 0⟩ := by
  by_cases hn : n = 0
  · simp [FlowController.init, hn] at h
  by_cases hsec : sec ≤ 0
  · simp [FlowController.init, hn, hsec] at h
  simp only [FlowController.init, hn, hsec, Bool.not_true, Bool.false_eq_true, if_false] at h
  obtain ⟨t, ht, h⟩ := Option.bind_eq_some_iff.mp h
  obtain ⟨f, hf, h⟩ := Option.bind_eq_some_iff.mp h
  obtain ⟨e, he, h⟩ := Option.bind_eq_some_iff.mp h
  obtain ⟨-, rfl⟩ := int64_eq_some.mp ht
  obtain ⟨-, rfl⟩ := int64_eq_some.mp hf
  obtain ⟨-, rfl⟩ := int64_eq_some.mp he
  obtain rfl := Option.some.inj (Option.some.inj h)
  exact ⟨by omega, by simp only; omega, rfl, rfl⟩

theorem inv_start (hc : c = ⟨fun _ => initial, t, n, 0⟩) :
    (start c).Inv n t initial := by
  subst hc
  refine ⟨rfl, rfl, ?_, by simp [start], ⟨?_, fun k _ hk => ?_⟩, ?_, windowed_nil n t⟩
  · simp [start]
  · exact Nat.sub_le ..
  · simp only [start, List.length_replicate] at hk ⊢
    simp [hk]
  · exact List.pairwise_replicate.mpr (.inr le_rfl)

theorem Inv.length (h : s.Inv n t initial) : n ≤ s.events.length := by
  rw [h.log]
  simp

theorem Inv.oldest (h : s.Inv n t initial) (hn : 0 < n) :
    s.events[s.events.length - n]? = some (s.ctl.arr s.ctl.cursor) := by
  have hlen := h.length
  have hcell : (s.events.length - n) % n = s.events.length % n := by
    conv_rhs => rw [← Nat.sub_add_cancel hlen, Nat.add_mod_right]
  rw [h.ring.kept _ le_rfl (by omega), hcell, h.cursor]

def InRange (s : FlowSession) (x : ℤ) : Prop := ∀ e ∈ s.events, -2 ^ 63 ≤ x - e ∧ x - e < 2 ^ 63

theorem Inv.checkAndUpdate (h : s.Inv n t initial) (hn : 0 < n) (hx : s.InRange x) :
    s.ctl.checkAndUpdate x = some (if s.events.countP (x - t < ·) < n
      then (true, s.ctl.update x) else (false, s.ctl)) := by
  have hold := h.oldest hn
  have hcount := countP_lt_iff h.sorted hn h.length (x - t) hold
  have hdiff : int64 (x - s.ctl.arr s.ctl.cursor) = some (x - s.ctl.arr s.ctl.cursor) :=
    int64_eq_some.mpr ⟨hx _ (List.mem_of_getElem? hold), rfl⟩
  have hcheck : s.ctl.check x = some (decide (s.events.countP (x - t < ·) < n)) := by
    have hiff : x - s.ctl.arr s.ctl.cursor ≥ s.ctl.t ↔ s.events.countP (x - t < ·) < n := by
      rw [hcount, h.t_eq]
      omega
    rw [FlowController.check, hdiff]
    exact congrArg some (decide_eq_decide.mpr hiff)
  rw [FlowController.checkAndUpdate, hcheck]
  by_cases hfew : s.events.countP (x - t < ·) < n <;> simp [hfew]

theorem Inv.call (h : s.Inv n t initial) (hn : 0 < n) (ht : 0 < t) (hx : s.InRange x)
    (hlater : ∀ e ∈ s.accepted, e ≤ x) : ∃ s', s.call x = some s' ∧ s'.Inv n t initial ∧
      s'.accepted = if s.events.countP (x - t < ·) < n then s.accepted ++ [x] else s.accepted := by
  rw [FlowSession.call, h.checkAndUpdate hn hx]
  by_cases hfew : s.events.countP (x - t < ·) < n
  swap
  · exact ⟨s, by simp [hfew], h, by rw [if_neg hfew]⟩
  refine ⟨_, by simp only [if_pos hfew]; rfl, ?_, (if_pos hfew).symm⟩
  have hlen := h.length
  -- the initial events are not after the oldest one in the ring, which is `t` back
  have hinitial : initial ≤ x := by
    have hold := h.oldest hn
    have hback := (countP_lt_iff h.sorted hn hlen (x - t) hold).mp hfew
    obtain ⟨hlt, hget⟩ := List.getElem?_eq_some_iff.mp hold
    have hfirst : s.events.head? = some initial := by
      rw [h.log, List.head?_append, List.head?_replicate, if_neg hn.ne']
      rfl
    obtain ⟨rest, hrest⟩ := List.head?_eq_some_iff.mp hfirst
    have hle : initial ≤ s.ctl.arr s.ctl.cursor := by
      have hmem := List.mem_of_getElem? hold
      have hsorted := h.sorted
      rw [hrest] at hmem hsorted
      rcases List.mem_cons.mp hmem with heq | hmem
      · exact heq.ge
      · exact (List.pairwise_cons.mp hsorted).1 _ hmem
    omega
  have hevents : ∀ e ∈ s.events, e ≤ x := by
    intro e he
    rw [h.log] at he
    rcases List.mem_append.mp he with he | he
    · exact (List.eq_of_mem_replicate he).trans_le hinitial
    · exact hlater e he
  have hring : Holds n (s.ctl.update x).arr (s.events ++ [x]) ((s.events ++ [x]).length - n) := by
    have hnext : (s.events ++ [x]).length - n = s.events.length - n + 1 := by
      rw [List.length_append, List.length_singleton]
      omega
    rw [hnext, FlowController.update, h.cursor]
    exact ((h.ring.pop (by omega)).set (by omega) x).push (Function.update_self ..)
  exact {
    n_eq := h.n_eq
    t_eq := h.t_eq
    cursor := by
      rw [FlowController.update, h.cursor, h.n_eq, List.length_append, List.length_singleton,
        Nat.mod_add_mod]
    log := by rw [h.log, List.append_assoc]
    ring := hring
    sorted := by
      refine List.pairwise_append.mpr ⟨h.sorted, List.pairwise_singleton .., fun e he y hy => ?_⟩
      rw [List.mem_singleton.mp hy]
      exact hevents e he
    windowed := windowed_concat h.windowed (lt_of_le_of_lt (by
      rw [h.log, List.countP_append]
      exact Nat.le_add_left ..) hfew) }

def run (c : FlowController) (xs : List ℤ) : Option FlowSession := xs.foldlM call (start c)

@[mk_iff] structure Timely (initial : ℤ) (xs : List ℤ) : Prop where
  sorted : xs.Pairwise (· ≤ ·)
  close : ∀ x ∈ xs, ∀ e ∈ initial :: xs, -2 ^ 63 ≤ x - e ∧ x - e < 2 ^ 63

instance (initial : ℤ) (xs : List ℤ) : Decidable (Timely initial xs) :=
  decidable_of_iff' _ (timely_iff ..)

theorem Timely.left (h : Timely initial (xs ++ [x])) : Timely initial xs where
  sorted := (List.pairwise_append.mp h.sorted).1
  close y hy e he := h.close y (List.mem_append_left _ hy) e (by
    rw [← List.cons_append]
    exact List.mem_append_left _ he)

theorem Inv.timely (h : s.Inv n t initial) (hsub : s.accepted ⊆ xs)
    (hxs : Timely initial (xs ++ [x])) : s.InRange x ∧ ∀ e ∈ s.accepted, e ≤ x := by
  constructor
  · intro e he
    refine hxs.close x (by simp) e ?_
    rw [h.log] at he
    rcases List.mem_append.mp he with he | he
    · exact List.mem_cons.mpr (.inl (List.eq_of_mem_replicate he))
    · exact List.mem_cons_of_mem _ (List.mem_append_left _ (hsub he))
  · exact fun e he => (List.pairwise_append.mp hxs.sorted).2.2 e (hsub he) x (by simp)

theorem run_concat (hrun : run c xs = some s) (x : ℤ) :
    run c (xs ++ [x]) = s.call x := by
  rw [run, List.foldlM_append, ← run, hrun]
  simp

theorem exists_run (hn : 0 < n) (ht : 0 < t) (hc : c = ⟨fun _ => initial, t, n, 0⟩)
    (hxs : Timely initial xs) :
    ∃ s, run c xs = some s ∧ s.Inv n t initial ∧ s.accepted ⊆ xs := by
  induction xs using List.reverseRecOn with
  | nil => exact ⟨start c, rfl, inv_start hc, List.Subset.refl _⟩
  | append_singleton xs x ih =>
    obtain ⟨s, hrun, hinv, hsub⟩ := ih hxs.left
    obtain ⟨hrange, hlater⟩ := hinv.timely hsub hxs
    obtain ⟨s', hcall, hinv', hacc⟩ := hinv.call hn ht hrange hlater
    refine ⟨s', (run_concat hrun x).trans hcall, hinv', ?_⟩
    have hsub' : s.accepted ⊆ xs ++ [x] := fun e he => List.mem_append_left _ (hsub he)
    rw [hacc]
    split_ifs
    · exact List.append_subset.mpr ⟨hsub', by simp⟩
    · exact hsub'

/-- **Every call is accepted exactly if fewer than `n` events are later than `x - t`.** -/
theorem accepts_iff_of_run {sec forward : ℤ} {c : FlowController}
    (hinit : FlowController.init sec n forward true = some (some c)) (xs : List ℤ) (x : ℤ)
    (hxs : Timely (-forward * 1000000000) (xs ++ [x])) :
    ∃ s s', run c xs = some s ∧ run c (xs ++ [x]) = some s' ∧
      s.events = List.replicate n (-forward * 1000000000) ++ s.accepted ∧
      s'.accepted = (if s.events.countP (x - c.t < ·) < n then s.accepted ++ [x] else s.accepted) ∧
      Windowed n c.t s'.accepted := by
  obtain ⟨hn, ht, -, hc⟩ := init_spec hinit
  obtain ⟨s, hrun, hinv, hsub⟩ := exists_run hn ht hc hxs.left
  obtain ⟨hrange, hlater⟩ := hinv.timely hsub hxs
  obtain ⟨s', hcall, hinv', hacc⟩ := hinv.call hn ht hrange hlater
  exact ⟨s, s', hrun, (run_concat hrun x).trans hcall, hinv.log, hacc, hinv'.windowed⟩

theorem accepts_iff_thirdTooEarly : ∃ c s s', FlowController.init 1 2 10 true = some (some c) ∧
    run c [0, 500000000, 900000000] = some s ∧ s.accepted = [0, 500000000] ∧
    run c [0, 500000000, 900000000, 1000000000] = some s' ∧
    s'.accepted = (if s.events.countP (1000000000 - c.t < ·) < 2
      then s.accepted ++ [1000000000] else s.accepted) := by
  have hinit : FlowController.init 1 2 10 true =
      some (some ⟨fun _ => -10 * 1000000000, 1000000000, 2, 0⟩) := rfl
  have hrun : (run ⟨fun _ => -10 * 1000000000, 1000000000, 2, 0⟩ [0, 500000000, 900000000]).map
      accepted = some [0, 500000000] := by decide
  obtain ⟨s, s', hs, hs', -, hacc, -⟩ :=
    accepts_iff_of_run hinit [0, 500000000, 900000000] 1000000000 (by decide)
  rw [hs, Option.map_some, Option.some.injEq] at hrun
  exact ⟨_, s, s', hinit, hs, hrun, hs', hacc⟩

theorem not_accepted_before_initial :
    ((FlowController.init 1 1 (-10) true).bind fun c => c.bind fun c =>
        (c.checkAndUpdate 0).map fun res => (c.t, c.arr 0, res.1)) =
      some (1000000000, 10000000000, false) ∧
    [10000000000].countP (fun e : ℤ => 0 - 1000000000 < e ∧ e ≤ 0) < 1 := by
  decide

end FlowSession

end Mugglec
