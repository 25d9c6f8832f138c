import Mugglec.Sync.ArrayBlockingQueue

/-!
# Sync/ArrayBlockingQueueLinear — the queue is a bounded FIFO queue and loses no wakeup

The sequential object is a list of at most `C` values (`fifo`).  Every history is one of its atomic
use (`linear` of the invariant).
-/

namespace Mugglec

open Function Linearizability RingQueue

variable {T α : Type*}

def fifo (α : Type*) (c : ℕ) : Object (List α) (QueueOp α) (QueueRes α) where
  init := []
  apply values
    | .put data => if values.length < c then some (values ++ [data], .ok) else none
    | .take =>
      match values with
      | [] => none
      | data :: rest => some (rest, .value data)

namespace QueueState

structure Ring (c : ℕ) (q : ArrayBlockingQueue α) (puts taken : List α) : Prop where
  capacity : q.capacity = c
  holds : Holds c q.datas puts taken.length
  inOrder : taken <+: puts
  cnt : puts.length = taken.length + q.cnt
  cnt_le : q.cnt ≤ c
  putIdx : q.putIdx = puts.length % c
  takeIdx : q.takeIdx = taken.length % c

section Ring

variable {c : ℕ} {q : ArrayBlockingQueue α} {puts taken : List α}

theorem Ring.enqueue (h : Ring c q puts taken) (hc : 0 < c) (data : α)
    (hgo : q.mustWait (.put data) = false) : Ring c (q.enqueue data) (puts ++ [data]) taken := by
  have hroom : q.cnt ≠ c := by simpa [ArrayBlockingQueue.mustWait, h.capacity] using hgo
  have hcnt := h.cnt
  have hle := h.cnt_le
  have hlen : (puts ++ [data]).length = puts.length + 1 := by
    rw [List.length_append, List.length_singleton]
  refine ⟨h.capacity, ?_, h.inOrder.trans (List.prefix_append _ _), ?_, ?_, ?_, h.takeIdx⟩
  · rw [ArrayBlockingQueue.enqueue, h.putIdx]
    exact (h.holds.set (by omega) data).push (update_self _ _ _)
  · rw [hlen, h.cnt, Nat.add_assoc]
    rfl
  · exact lt_of_le_of_ne hle hroom
  · rw [hlen, ArrayBlockingQueue.enqueue, h.capacity, h.putIdx, Cyclic.bump_mod hc]

theorem Ring.front (h : Ring c q puts taken) (hgo : q.mustWait .take = false) :
    puts[taken.length]? = some q.dequeue.1 := by
  have hne : q.cnt ≠ 0 := by simpa [ArrayBlockingQueue.mustWait] using hgo
  have hcnt := h.cnt
  rw [ArrayBlockingQueue.dequeue, h.takeIdx]
  exact h.holds.kept _ le_rfl (by omega)

theorem Ring.dequeue (h : Ring c q puts taken) (hc : 0 < c) (hgo : q.mustWait .take = false) :
    Ring c q.dequeue.2 puts (taken ++ [q.dequeue.1]) := by
  have hfront := h.front hgo
  have hlt : taken.length < puts.length := (List.getElem?_eq_some_iff.mp hfront).1
  have hcnt := h.cnt
  have hle := h.cnt_le
  have hlen : (taken ++ [q.dequeue.1]).length = taken.length + 1 := by
    rw [List.length_append, List.length_singleton]
  refine ⟨h.capacity, ?_, ?_, ?_, ?_, h.putIdx, ?_⟩
  · exact hlen ▸ h.holds.pop hlt
  · exact RingQueue.isPrefix_concat h.inOrder hfront
  · rw [hlen]
    change puts.length = taken.length + 1 + (q.cnt - 1)
    omega
  · exact (Nat.sub_le _ _).trans hle
  · rw [hlen, ArrayBlockingQueue.dequeue, h.capacity, h.takeIdx, Cyclic.bump_mod hc]

theorem Ring.contents_enqueue (h : Ring c q puts taken) (data : α) :
    (puts ++ [data]).drop taken.length = puts.drop taken.length ++ [data] :=
  List.drop_append_of_le_length h.holds.le

theorem Ring.contents_dequeue (h : Ring c q puts taken) (hgo : q.mustWait .take = false) :
    puts.drop taken.length = q.dequeue.1 :: puts.drop (taken ++ [q.dequeue.1]).length := by
  obtain ⟨hlt, hget⟩ := List.getElem?_eq_some_iff.mp (h.front hgo)
  rw [List.length_append, List.length_singleton, List.drop_eq_getElem_cons hlt, hget]

end Ring

def dues (owner : Option T) (threads : T → QueuePc α) (cv : QueueCv) : ℕ :=
  owner.elim 0 fun t => (threads t).owes cv

def todo (s : QueueState T α) (cv : QueueCv) : ℕ :=
  s.queue.slack cv - dues s.monitor.owner s.threads cv

def places (s : QueueState T α) : T → Monitor.Place QueueCv := fun t => (s.threads t).place

def asUse (s : QueueState T α) : Use T (List α) (QueueOp α) (QueueRes α) where
  state := s.puts.drop s.taken.length
  phases := fun t => (s.threads t).phase
  history := s.history

variable {c : ℕ} {s s' : QueueState T α} {t : T} {pc : QueuePc α} {m : Monitor T QueueCv}
  {q : ArrayBlockingQueue α} {op : QueueOp α} {res : QueueRes α}

theorem places_eq (ht : s.threads t = pc) : s.places t = pc.place := congrArg QueuePc.place ht

theorem todo_of_free (h : s.monitor.owner = none) (cv : QueueCv) :
    s.todo cv = s.queue.slack cv := by
  rw [todo, h]
  rfl

theorem todo_of_owner (h : s.monitor.owner = some t) (cv : QueueCv) :
    s.todo cv = s.queue.slack cv - (s.threads t).owes cv := by
  rw [todo, h]
  rfl

theorem slack_of_mustWait (h : q.mustWait op = true) :
    q.slack op.cv = 0 := by
  cases op <;> simp_all [ArrayBlockingQueue.mustWait, ArrayBlockingQueue.slack, QueueOp.cv]

theorem owes_le_one (pc : QueuePc α) (cv : QueueCv) : pc.owes cv ≤ 1 := by
  cases pc with
  | test | act | notify =>
    simp only [QueuePc.owes]
    split_ifs <;> omega
  | _ => exact Nat.zero_le _

theorem ring_of_init {g : ArrayBlockingQueue.Grants} {capacity : ℤ} {junk : ℕ → α}
    (hinit : ArrayBlockingQueue.init g capacity junk = .ok q) :
    0 < q.capacity ∧ Ring q.capacity q [] [] := by
  rw [ArrayBlockingQueue.init] at hinit
  split_ifs at hinit with hcap hdatas hmutex hfull hempty
  obtain rfl := Except.ok.inj hinit
  refine ⟨by simpa using hcap, rfl, holds_nil _ _, List.prefix_refl _, rfl, Nat.zero_le _, ?_, ?_⟩
  · exact (Nat.zero_mod _).symm
  · exact (Nat.zero_mod _).symm

variable [DecidableEq T]

structure Inv (c : ℕ) (s : QueueState T α) : Prop where
  ring : Ring c s.queue s.puts s.taken
  seats : s.monitor.Seats s.places
  covers : s.monitor.Covers s.todo
  ready : ∀ t op, s.threads t = .act op → s.queue.mustWait op = false
  linear : Possible (fifo α c) s.asUse

theorem threads_goto (s : QueueState T α) (t : T) (pc : QueuePc α) :
    (s.goto t pc).threads t = pc := by
  simp only [goto, update_self]

theorem threads_enter (s : QueueState T α) (t : T) (pc : QueuePc α) (m : Monitor T QueueCv) :
    (s.enter t pc m).threads t = pc := threads_goto s t pc

theorem places_goto (s : QueueState T α) (t : T) (pc : QueuePc α) :
    (s.goto t pc).places = update s.places t pc.place :=
  comp_update QueuePc.place s.threads t pc

theorem phases_goto (s : QueueState T α) (t : T) (pc : QueuePc α) :
    (s.goto t pc).asUse.phases = update s.asUse.phases t pc.phase :=
  comp_update QueuePc.phase s.threads t pc

theorem inv_start (hq : Ring c q [] []) :
    Inv c (start q : QueueState T α) where
  ring := hq
  seats := Monitor.seats_init
  covers := Monitor.covers_init
  ready := fun _ _ h => by simp [start] at h
  linear := Steps.Reach.start

theorem todo_enter (s : QueueState T α) (pc : QueuePc α) (h : m.owner = some t) (cv : QueueCv) :
    (s.enter t pc m).todo cv = s.queue.slack cv - pc.owes cv := by
  rw [todo_of_owner (t := t) h, threads_enter]
  rfl

theorem dues_goto {owner : Option T} (threads : T → QueuePc α) (hne : owner ≠ some t) :
    dues owner (update threads t pc) = dues owner threads := by
  funext cv
  cases owner with
  | none => rfl
  | some u =>
    have hu : u ≠ t := fun hut => hne (congrArg some hut)
    rw [dues, dues, Option.elim_some, Option.elim_some, update_of_ne hu]

theorem Inv.enter (h : Inv c s) (hseats : m.Seats (update s.places t pc.place))
    (hcovers : m.Covers (s.enter t pc m).todo) (hphase : pc.phase = (s.threads t).phase)
    (hready : ∀ op, pc = .act op → s.queue.mustWait op = false) : Inv c (s.enter t pc m) where
  ring := h.ring
  seats := places_goto s t pc ▸ hseats
  covers := hcovers
  ready := (forall_update_iff s.threads fun _ pc =>
    ∀ op, pc = .act op → s.queue.mustWait op = false).mpr ⟨hready, fun t' _ => h.ready t'⟩
  linear := by
    have hphases : (s.goto t pc).asUse.phases = s.asUse.phases := by
      rw [phases_goto, hphase]
      exact update_eq_self t s.asUse.phases
    have huse : (s.enter t pc m).asUse = s.asUse := Use.ext rfl hphases rfl
    exact huse ▸ h.linear

theorem Inv.owner_eq (h : Inv c s) (ht : s.threads t = pc) (hp : pc.place = .inside) :
    s.monitor.owner = some t := (h.seats.inside t).mp ((places_eq ht).trans hp)

theorem Inv.lock (h : Inv c s) (ht : s.threads t = .lock op) (hm : s.monitor.lock t = some m) :
    Inv c (s.enter t (.test op) m) := by
  have hplace : s.places t = .outside := places_eq ht
  have hseats := h.seats.lock hplace hm
  have hfree := Monitor.free_of_lock hm
  refine h.enter hseats ((h.covers.lock hm).mono fun cv => ?_) (by rw [ht]; rfl) nofun
  rw [todo_enter s _ ((hseats.inside t).mp (update_self ..)), todo_of_free hfree]
  exact Nat.sub_le _ _

theorem Inv.resume (h : Inv c s) (ht : s.threads t = .blocked op)
    (hm : s.monitor.resume t op.cv = some m) : Inv c (s.enter t (.test op) m) := by
  have hplace : s.places t = .blocked op.cv := places_eq ht
  have hseats := h.seats.resume hplace hm
  have hfree := Monitor.free_of_resume hm
  have htodo := todo_enter s (.test op) ((hseats.inside t).mp (update_self ..))
  refine h.enter hseats (h.covers.resume hm ?_ fun cv _ => ?_) (by rw [ht]; rfl) nofun
  · rw [htodo, todo_of_free hfree, QueuePc.owes_test, if_pos rfl]
  · rw [htodo, todo_of_free hfree]
    exact Nat.sub_le _ _

theorem Inv.block (h : Inv c s) (ht : s.threads t = .test op) (hwait : s.queue.mustWait op = true) :
    Inv c (s.enter t (.blocked op) (s.monitor.wait t op.cv)) := by
  have htodo := todo_of_free (s := s.enter t (.blocked op) (s.monitor.wait t op.cv)) rfl
  refine h.enter (h.seats.wait (places_eq ht) op.cv) (h.covers.wait ?_ fun cv hcv => ?_)
    (by rw [ht]; rfl) nofun
  · rw [htodo]
    exact slack_of_mustWait hwait
  · rw [htodo, todo_of_owner (h.owner_eq ht rfl), ht, QueuePc.owes_test, if_neg hcv.symm]
    exact le_rfl

theorem Inv.go (h : Inv c s) (ht : s.threads t = .test op) (hgo : s.queue.mustWait op = false) :
    Inv c (s.goto t (.act op)) := by
  have howner := h.owner_eq ht rfl
  refine h.enter (m := s.monitor) (h.seats.stay ((places_eq ht).trans rfl))
    (h.covers.mono fun cv => ?_) (by rw [ht]; rfl) fun op' hop => ?_
  · rw [todo_enter s _ howner, todo_of_owner howner, ht]
    exact le_rfl
  · rwa [← QueuePc.act.inj hop]

theorem Inv.notify (h : Inv c s) (ht : s.threads t = .notify res) {who : Option T}
    (hm : s.monitor.notifyOne res.cv who = some m) :
    Inv c (s.enter t (.unlock res) m) := by
  have hseats : m.Seats (update s.places t .inside) :=
    (h.seats.notifyOne hm).stay (places_eq ht)
  have htodo := todo_enter s (.unlock res) ((hseats.inside t).mp (update_self ..))
  have howner := h.owner_eq ht rfl
  refine h.enter hseats (h.covers.notifyOne hm ?_ fun cv hcv => ?_) (by rw [ht]; rfl) nofun
  · rw [htodo, todo_of_owner howner, ht, QueuePc.owes_unlock, QueuePc.owes_notify, if_pos rfl]
    omega
  · rw [htodo, todo_of_owner howner, ht, QueuePc.owes_unlock, QueuePc.owes_notify, if_neg hcv.symm]

theorem Inv.unlock (h : Inv c s) (ht : s.threads t = .unlock res) :
    Inv c (s.enter t (.ret res) s.monitor.unlock) := by
  refine h.enter (h.seats.unlock (places_eq ht)) (h.covers.mono fun cv => ?_)
    (by rw [ht]; rfl) nofun
  rw [todo_of_free rfl, todo_of_owner (h.owner_eq ht rfl), ht]
  exact le_rfl

theorem Inv.outside (h : Inv c s) (ht : s.places t = .outside) (pc : QueuePc α)
    (hp : pc.place = .outside) (hready : ∀ op, pc ≠ .act op)
    {history : List (Event T (QueueOp α) (QueueRes α))}
    (hlinear : Possible (fifo α c)
      ⟨s.asUse.state, update s.asUse.phases t pc.phase, history⟩) :
    Inv c { s.goto t pc with history := history } where
  ring := h.ring
  seats := places_goto s t pc ▸ h.seats.stay (ht.trans hp.symm)
  covers := h.covers.mono fun cv => by
    have howner : s.monitor.owner ≠ some t := fun howner =>
      absurd (((h.seats.inside t).mpr howner).symm.trans ht) nofun
    exact (congrArg (fun d => s.queue.slack cv - d) (congrFun (dues_goto s.threads howner) cv)).le
  ready := (forall_update_iff s.threads fun _ pc =>
    ∀ op, pc = .act op → s.queue.mustWait op = false).mpr
    ⟨fun op hop => absurd hop (hready op), fun t' _ => h.ready t'⟩
  linear := by
    rw [← phases_goto] at hlinear
    exact hlinear

theorem Inv.act (h : Inv c s) (ht : s.threads t = .act op) {puts taken : List α}
    (hring : Ring c q puts taken)
    (htodo : ∀ cv, q.slack cv - (QueuePc.notify res).owes cv ≤
      s.queue.slack cv - (QueuePc.act op).owes cv)
    (happly : (fifo α c).apply (s.puts.drop s.taken.length) op =
      some (puts.drop taken.length, res)) :
    Inv c { s.goto t (.notify res) with queue := q, puts := puts, taken := taken } where
  ring := hring
  seats := places_goto s t (.notify res) ▸ h.seats.stay ((places_eq ht).trans rfl)
  covers := h.covers.mono fun cv => by
    have howner := h.owner_eq ht rfl
    change q.slack cv - dues s.monitor.owner (s.goto t (.notify res)).threads cv ≤ s.todo cv
    rw [todo_of_owner howner, ht, howner, dues, Option.elim_some, threads_goto]
    exact htodo cv
  ready := (forall_update_iff s.threads fun _ pc =>
    ∀ op, pc = .act op → q.mustWait op = false).mpr ⟨nofun, fun u hu op' hop => by
      have howner := (h.owner_eq ht rfl).symm.trans (h.owner_eq hop rfl)
      exact absurd (Option.some.inj howner).symm hu⟩
  linear := by
    have hlinear : Possible (fifo α c) ⟨puts.drop taken.length,
        update s.asUse.phases t (QueuePc.notify res).phase, s.history⟩ :=
      h.linear.act (congrArg QueuePc.phase ht) happly
    rw [← phases_goto] at hlinear
    exact hlinear

theorem Inv.put (h : Inv c s) (hc : 0 < c) {data : α} (ht : s.threads t = .act (.put data)) :
    Inv c { s.goto t (.notify .ok) with
      queue := s.queue.enqueue data, puts := s.puts ++ [data] } := by
  have hgo := h.ready t _ ht
  have hcnt := h.ring.cnt
  refine h.act ht (h.ring.enqueue hc data hgo) (fun cv => ?_) ?_
  · cases cv <;> simp [ArrayBlockingQueue.slack, ArrayBlockingQueue.enqueue, QueuePc.owes_notify,
      QueuePc.owes_act, QueueOp.cv, QueueRes.cv]
    omega
  · have hroom : s.queue.cnt < c := by
      have hne : s.queue.cnt ≠ c := by
        simpa [ArrayBlockingQueue.mustWait, h.ring.capacity] using hgo
      exact lt_of_le_of_ne h.ring.cnt_le hne
    have hlen : (s.puts.drop s.taken.length).length < c := by
      rw [List.length_drop]
      omega
    change _ = some ((s.puts ++ [data]).drop s.taken.length, _)
    rw [h.ring.contents_enqueue]
    exact if_pos hlen

theorem Inv.take (h : Inv c s) (hc : 0 < c) (ht : s.threads t = .act .take) :
    Inv c { s.goto t (.notify (.value s.queue.dequeue.1)) with
      queue := s.queue.dequeue.2, taken := s.taken ++ [s.queue.dequeue.1] } := by
  have hgo := h.ready t _ ht
  refine h.act ht (h.ring.dequeue hc hgo) (fun cv => ?_) ?_
  · cases cv <;> simp [ArrayBlockingQueue.slack, ArrayBlockingQueue.dequeue, QueuePc.owes_notify,
      QueuePc.owes_act, QueueOp.cv, QueueRes.cv]
    omega
  · rw [h.ring.contents_dequeue hgo]
    rfl

theorem Inv.threadStep (h : Inv c s) (hc : 0 < c) (hnext : s.threadStep t = some s') :
    Inv c s' := by
  rw [QueueState.threadStep] at hnext
  cases ht : s.threads t with
  | idle => simp [ht] at hnext
  | lock op =>
    simp only [ht, Option.map_eq_some_iff] at hnext
    obtain ⟨m, hm, rfl⟩ := hnext
    exact h.lock ht hm
  | test op =>
    simp only [ht] at hnext
    split_ifs at hnext with hwait <;> cases hnext
    · exact h.block ht hwait
    · exact h.go ht (Bool.eq_false_iff.mpr hwait)
  | blocked op =>
    simp only [ht, Option.map_eq_some_iff] at hnext
    obtain ⟨m, hm, rfl⟩ := hnext
    exact h.resume ht hm
  | act op =>
    cases op with
    | put data =>
      simp only [ht, Option.some.injEq] at hnext
      exact hnext ▸ h.put hc ht
    | take =>
      simp only [ht, Option.some.injEq] at hnext
      exact hnext ▸ h.take hc ht
  | notify res => simp [ht] at hnext
  | unlock res =>
    simp only [ht, Option.some.injEq] at hnext
    exact hnext ▸ h.unlock ht
  | ret res =>
    simp only [ht] at hnext
    cases hnext
    exact h.outside (places_eq ht) .idle rfl nofun (h.linear.ret (congrArg QueuePc.phase ht))

theorem Inv.step {a : QueueStep T α} (h : Inv c s) (hc : 0 < c) (hnext : s.next a = some s') :
    Inv c s' := by
  cases a with
  | call t op =>
    rw [next] at hnext
    cases ht : s.threads t <;> simp only [ht, reduceCtorEq] at hnext
    cases hnext
    exact h.outside (places_eq ht) (.lock op) rfl nofun
      (h.linear.call (congrArg QueuePc.phase ht) op)
  | step t => exact h.threadStep hc hnext
  | notify t who =>
    rw [next] at hnext
    cases ht : s.threads t <;> simp only [ht, reduceCtorEq, Option.map_eq_some_iff] at hnext
    obtain ⟨m, hm, rfl⟩ := hnext
    exact h.notify ht hm
  | spurious t =>
    rw [next] at hnext
    cases ht : s.threads t <;> simp only [ht, reduceCtorEq, Option.map_eq_some_iff] at hnext
    obtain ⟨m, hm, rfl⟩ := hnext
    refine ⟨h.ring, h.seats.spurious hm, (h.covers.spurious hm).mono fun cv => ?_, h.ready,
      h.linear⟩
    rw [todo, todo, Monitor.owner_spurious hm]

def inside (s : QueueState T α) : ℕ := s.monitor.owner.elim 0 fun _ => 1

structure Correct (c : ℕ) (s : QueueState T α) : Prop where
  linearizable : Linearizable (fifo α c) s.history
  inOrder : s.taken <+: s.puts
  cnt : s.queue.cnt = (s.puts.drop s.taken.length).length
  cnt_le : s.queue.cnt ≤ c
  putIdx : s.queue.putIdx = (s.queue.takeIdx + s.queue.cnt) % c
  seats : s.monitor.Seats s.places
  notEmpty : (s.monitor.cvs .notEmpty).waiting.Nonempty →
    s.queue.cnt ≤ (s.monitor.cvs .notEmpty).signalled.card + s.inside
  notFull : (s.monitor.cvs .notFull).waiting.Nonempty →
    c - s.queue.cnt ≤ (s.monitor.cvs .notFull).signalled.card + s.inside

theorem Inv.slack_le (h : Inv c s) (cv : QueueCv) (hne : (s.monitor.cvs cv).waiting.Nonempty) :
    s.queue.slack cv ≤ (s.monitor.cvs cv).signalled.card + s.inside := by
  have hcovered := h.covers cv hne
  cases howner : s.monitor.owner with
  | none =>
    rw [todo_of_free howner] at hcovered
    exact hcovered.trans (Nat.le_add_right _ _)
  | some t =>
    have howes := owes_le_one (s.threads t) cv
    rw [todo_of_owner howner] at hcovered
    rw [inside, howner, Option.elim_some]
    omega

theorem Inv.correct (h : Inv c s) : Correct c s where
  linearizable := ⟨s.asUse, h.linear, rfl⟩
  inOrder := h.ring.inOrder
  cnt := by
    rw [List.length_drop, h.ring.cnt, Nat.add_sub_cancel_left]
  cnt_le := h.ring.cnt_le
  putIdx := by
    rw [h.ring.putIdx, h.ring.takeIdx, h.ring.cnt, Nat.mod_add_mod]
  seats := h.seats
  notEmpty := h.slack_le .notEmpty
  notFull := h.ring.capacity ▸ h.slack_le .notFull

/-- **The queue is correct**, in every interleaving of any number of threads that put and take. -/
theorem correct_of_reach {g : ArrayBlockingQueue.Grants} {capacity : ℤ} {junk : ℕ → α}
    {q : ArrayBlockingQueue α} (hinit : ArrayBlockingQueue.init g capacity junk = .ok q)
    (hs : Steps.Reach next Steps.anyStep (start q) s) : Correct q.capacity s := by
  obtain ⟨hpos, hring⟩ := ring_of_init hinit
  have hinv : Inv q.capacity s := hs.invariant (inv_start hring) fun _ _ _ h _ => h.step hpos
  exact hinv.correct

def bargedIn : List (QueueStep ℕ ℕ) :=
  [.call 1 .take, .step 1, .step 1, .call 2 .take, .step 2, .step 2,
   .call 0 (.put 7), .step 0, .step 0, .step 0, .notify 0 (some 1), .step 0, .step 0,
   .call 3 .take, .step 3, .step 3, .step 3, .notify 3 none, .step 3, .step 3, .step 1, .step 1]

theorem correct_bargedIn : ∃ s,
    Steps.exec next (start ⟨fun _ => 0, 1, 0, 0, 0⟩) bargedIn = some s ∧
    (s.puts, s.taken, (s.monitor.cvs .notEmpty).waiting) = ([7], [7], {1, 2}) ∧ Correct 1 s := by
  have hinit : ArrayBlockingQueue.init .all 1 (fun _ => 0) = .ok ⟨fun _ => 0, 1, 0, 0, 0⟩ := rfl
  exact Steps.exists_exec (by decide +kernel) fun _ hs _ => correct_of_reach hinit hs

end QueueState

end Mugglec
