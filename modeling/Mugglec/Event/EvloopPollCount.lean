import Mugglec.Event.EvloopPollPass

/-!
# Event/EvloopPollCount — which of the reported descriptors a pass comes to

`poll` returns the number of descriptors with events, and the pass stops when it has counted them
down to zero.  But it counts `POLLIN` and `POLLHUP | POLLERR` separately, so that a descriptor with
both counts twice.
-/

namespace Mugglec

open Function

namespace Revents

variable (e : Revents)

def failed : Bool := e.pollhup || e.pollerr

def reported : Bool := e.pollin || e.failed

def both : Bool := e.pollin && e.failed

def kinds : ℕ := e.pollin.toNat + e.failed.toNat

theorem kinds_eq : e.kinds = e.reported.toNat + e.both.toNat := by
  rw [kinds, reported, both]
  cases e.pollin <;> cases e.failed <;> rfl

end Revents

structure PollResult where
  revents : ℕ → Revents
  other : ℕ → Bool

namespace PollResult

variable (r : PollResult) (nfd : ℕ)

def count : ℕ := ((Finset.range nfd).filter fun i => (r.revents i).reported || r.other i).card

def others : ℕ := ((Finset.range nfd).filter fun i => !(r.revents i).reported && r.other i).card

def bothAbove (z : ℕ) : ℕ := ((Finset.Ioo z nfd).filter fun i => (r.revents i).both).card

def Fits : Prop := ∀ z < nfd, (r.revents z).reported → r.bothAbove nfd z ≤ r.others nfd

instance : Decidable (r.Fits nfd) := inferInstanceAs (Decidable (∀ z < nfd, _))

variable {r nfd}

def reportedIn (r : PollResult) (I : Finset ℕ) : ℕ := ∑ j ∈ I, (r.revents j).reported.toNat

theorem card_filter_eq_sum (I : Finset ℕ) (p : ℕ → Bool) :
    (I.filter fun i => p i).card = ∑ i ∈ I, (p i).toNat := by
  rw [Finset.card_filter]
  refine Finset.sum_congr rfl fun i _ => ?_
  cases p i <;> rfl

theorem count_eq : r.count nfd = r.reportedIn (Finset.range nfd) + r.others nfd := by
  rw [count, others, card_filter_eq_sum, card_filter_eq_sum, reportedIn, ← Finset.sum_add_distrib]
  refine Finset.sum_congr rfl fun i _ => ?_
  cases (r.revents i).reported <;> cases r.other i <;> rfl

theorem sum_kinds {z : ℕ} : ∑ j ∈ Finset.Ioo z nfd, (r.revents j).kinds =
    r.reportedIn (Finset.Ioo z nfd) + r.bothAbove nfd z := by
  rw [bothAbove, card_filter_eq_sum, reportedIn, ← Finset.sum_add_distrib]
  exact Finset.sum_congr rfl fun j _ => (r.revents j).kinds_eq

theorem reportedIn_range {z : ℕ} (hz : z < nfd) : r.reportedIn (Finset.range nfd) =
    r.reportedIn (Finset.range z) + (r.revents z).reported.toNat +
      r.reportedIn (Finset.Ioo z nfd) := by
  have hsucc : Finset.Ico (z + 1) nfd = Finset.Ioo z nfd := by
    ext j
    simp only [Finset.mem_Ico, Finset.mem_Ioo]
    omega
  simp only [reportedIn, Finset.range_eq_Ico]
  rw [← Finset.sum_Ico_consecutive _ (Nat.zero_le z) hz.le, Finset.sum_eq_sum_Ico_succ_bot hz,
    hsucc, add_assoc]

theorem reaches_iff : (∀ z < nfd, (r.revents z).reported →
    ∑ j ∈ Finset.Ioo z nfd, (r.revents j).kinds < r.count nfd) ↔ r.Fits nfd := by
  constructor
  · intro hall z hz hrep
    -- the lowest one reported has nothing below it to make up for those counted twice
    have hex : ∃ m, (r.revents m).reported := ⟨z, hrep⟩
    have hle : Nat.find hex ≤ z := Nat.find_min' hex hrep
    have hlow := hall (Nat.find hex) (hle.trans_lt hz) (Nat.find_spec hex)
    have hnone : r.reportedIn (Finset.range (Nat.find hex)) = 0 := by
      refine Finset.sum_eq_zero fun j hj => ?_
      have := Nat.find_min hex (Finset.mem_range.mp hj)
      simpa using this
    have hmono : r.bothAbove nfd z ≤ r.bothAbove nfd (Nat.find hex) :=
      Finset.card_le_card (Finset.filter_subset_filter _ (Finset.Ioo_subset_Ioo_left hle))
    rw [sum_kinds, count_eq, reportedIn_range (hle.trans_lt hz), hnone, Nat.find_spec hex] at hlow
    simp only [Bool.toNat_true] at hlow
    omega
  · intro hfits z hz hrep
    have hboth := hfits z hz hrep
    rw [sum_kinds, count_eq, reportedIn_range hz, hrep, Bool.toNat_true]
    omega

end PollResult

namespace PollLoop

variable {C : Type*} {fdOf : C → ℤ} {evfd : ℤ} {s s' s'' : PollLoop C}

structure Handled (cbs : PollCallbacks C) (e : Revents) (node : ℕ) (ctx : C) (s : PollLoop C) :
    Prop where
  read : e.pollin → cbs.cbRead.isSome → ⟨.read, node, ctx⟩ ∈ s.calls
  close : e.failed → s.closed ctx ∧ node ∉ s.ctxList.nodes ∧
    (cbs.cbClose.isSome → ⟨.close, node, ctx⟩ ∈ s.calls)

structure Lasting (s s' : PollLoop C) : Prop where
  calls : s.calls <+: s'.calls
  closed : ∀ ctx, s.closed ctx → s'.closed ctx
  fresh : s.ctxList.fresh ≤ s'.ctxList.fresh
  gone : ∀ node < s.ctxList.fresh, node ∉ s.ctxList.nodes → node ∉ s'.ctxList.nodes

def Stable (m : ℕ) (s s' : PollLoop C) : Prop :=
  ∀ j < m, s'.nodes j = s.nodes j ∧ s'.fds j = s.fds j

theorem Lasting.refl (s : PollLoop C) : Lasting s s :=
  ⟨List.prefix_refl _, fun _ => id, le_refl _, fun _ _ => id⟩

theorem Lasting.trans (h : Lasting s s') (h' : Lasting s' s'') : Lasting s s'' where
  calls := h.calls.trans h'.calls
  closed := fun ctx hc => h'.closed ctx (h.closed ctx hc)
  fresh := h.fresh.trans h'.fresh
  gone := fun node hlt hmem => h'.gone node (hlt.trans_le h.fresh) (h.gone node hlt hmem)

theorem Stable.trans {m m' : ℕ} (h : Stable m s s') (h' : Stable m' s' s'') :
    Stable (min m m') s s'' := fun j hj => by
  have hs := h j (hj.trans_le (min_le_left _ _))
  have hs' := h' j (hj.trans_le (min_le_right _ _))
  exact ⟨hs'.1.trans hs.1, hs'.2.trans hs.2⟩

theorem Handled.mono {cbs : PollCallbacks C} {e : Revents} {node : ℕ} {ctx : C}
    (h : Handled cbs e node ctx s) (hl : Lasting s s') (hlt : node < s.ctxList.fresh) :
    Handled cbs e node ctx s' where
  read := fun hin hset => hl.calls.subset (h.read hin hset)
  close := fun hfail => by
    obtain ⟨hclosed, hgone, hcall⟩ := h.close hfail
    exact ⟨hl.closed ctx hclosed, hl.gone node hlt hgone, fun hset => hl.calls.subset (hcall hset)⟩

variable [DecidableEq C]

def visits (fdOf : C → ℤ) (cbs : PollCallbacks C) : ℕ → ℤ → PollLoop C → List ℕ
  | 0, _, _ => [0]
  | i + 1, n, s =>
    (i + 1) :: match s.handleEntry fdOf cbs (i + 1) n with
      | none => []
      | some (s', n') => if n' ≤ 0 then [] else visits fdOf cbs i n' s'

def visited (fdOf : C → ℤ) (cbs : PollCallbacks C) (r : PollResult) (s : PollLoop C) : List ℕ :=
  if 0 < r.count s.nfd then
    visits fdOf cbs (s.nfd - 1) (r.count s.nfd) (s.report r.revents)
  else []

variable (fdOf) in
theorem act_lasting (s : PollLoop C) (a : PollAction C) :
    Lasting s (s.act fdOf a) ∧ s.nfd ≤ (s.act fdOf a).nfd ∧ Stable s.nfd s (s.act fdOf a) := by
  cases a with
  | setClosed ctx =>
    refine ⟨⟨List.prefix_refl _, fun c hc => ?_, le_refl _, fun _ _ => id⟩, le_refl _,
      fun _ _ => ⟨rfl, rfl⟩⟩
    rcases eq_or_ne c ctx with rfl | hne
    · exact update_self ..
    · exact (update_of_ne hne ..).trans hc
  | addCtx ctx o =>
    rw [act]
    obtain heq | heq | ⟨s₂, hadd, heq⟩ := s.addCtx_cases fdOf ctx o <;> rw [heq]
    · exact ⟨Lasting.refl s, le_refl _, fun _ _ => ⟨rfl, rfl⟩⟩
    · refine ⟨⟨List.prefix_refl _, fun _ => id, Nat.le_succ _, fun node _ hmem => ?_⟩, le_refl _,
        fun _ _ => ⟨rfl, rfl⟩⟩
      rwa [s.ctxList.nodes_remove_append]
    · rw [addCtxPoll] at hadd
      split_ifs at hadd
      cases hadd
      refine ⟨⟨List.prefix_refl _, fun _ => id, Nat.le_succ _, fun node hlt hmem => ?_⟩,
        Nat.le_succ _, fun j hj => ⟨update_of_ne hj.ne .., update_of_ne hj.ne ..⟩⟩
      refine fun h => (List.mem_append.mp h).elim hmem fun h => ?_
      exact hlt.ne (List.mem_singleton.mp h)

variable (fdOf) in
theorem callback_lasting (s : PollLoop C) (cb : Option (PollFn C)) :
    Lasting s (s.callback fdOf cb) ∧ s.nfd ≤ (s.callback fdOf cb).nfd ∧
      Stable s.nfd s (s.callback fdOf cb) := by
  cases cb with
  | none => exact ⟨Lasting.refl s, le_refl _, fun _ _ => ⟨rfl, rfl⟩⟩
  | some f =>
    rw [callback]
    generalize f s.calls = actions
    induction actions generalizing s with
    | nil => exact ⟨Lasting.refl s, le_refl _, fun _ _ => ⟨rfl, rfl⟩⟩
    | cons a rest ih =>
      obtain ⟨hl, hnfd, hst⟩ := act_lasting fdOf s a
      obtain ⟨hl', hnfd', hst'⟩ := ih (s.act fdOf a)
      refine ⟨hl.trans hl', hnfd.trans hnfd', ?_⟩
      have := hst.trans hst'
      rwa [min_eq_left hnfd] at this

variable (fdOf) in
theorem callbackFor_lasting (s : PollLoop C) (cb : Option (PollFn C)) (call : PollCall C) :
    Lasting s (s.callbackFor fdOf cb call) ∧ s.nfd ≤ (s.callbackFor fdOf cb call).nfd ∧
      Stable s.nfd s (s.callbackFor fdOf cb call) ∧
      (cb.isSome → call ∈ (s.callbackFor fdOf cb call).calls) := by
  cases cb with
  | none => exact ⟨Lasting.refl s, le_refl _, fun _ _ => ⟨rfl, rfl⟩, fun h => absurd h (by simp)⟩
  | some f =>
    have hlog : Lasting s { s with calls := s.calls ++ [call] } :=
      ⟨List.prefix_append _ _, fun _ => id, le_refl _, fun _ _ => id⟩
    obtain ⟨hl, hnfd, hst⟩ :=
      callback_lasting fdOf { s with calls := s.calls ++ [call] } (some f)
    exact ⟨hlog.trans hl, hnfd, hst, fun _ => hl.calls.subset (by simp)⟩

section Entry

variable {cbs : PollCallbacks C} {i node : ℕ} {ctx : C} {n : ℤ}

variable (fdOf cbs) in
theorem handleRead_spec (s : PollLoop C) (i node : ℕ) (ctx : C) (n : ℤ) : ∃ s₁,
    s.handleRead fdOf cbs i node ctx n = (s₁, n - (s.fds i).revents.pollin.toNat) ∧
    Lasting s s₁ ∧ s.nfd ≤ s₁.nfd ∧ Stable s.nfd s s₁ ∧
    ((s.fds i).revents.pollin → cbs.cbRead.isSome → ⟨.read, node, ctx⟩ ∈ s₁.calls) := by
  rw [handleRead]
  split_ifs with hin
  · obtain ⟨hl, hnfd, hst, hcall⟩ :=
      callbackFor_lasting fdOf s cbs.cbRead ⟨.read, node, ctx⟩
    exact ⟨_, by simp [hin], hl, hnfd, hst, fun _ => hcall⟩
  · exact ⟨s, by simp [hin], Lasting.refl s, le_refl _, fun _ _ => ⟨rfl, rfl⟩,
      fun h => absurd h hin⟩

theorem handleError_spec (s : PollLoop C) (i : ℕ) (ctx : C) (n : ℤ) : ∃ s₁,
    s.handleError i ctx n = (s₁, n - (s.fds i).revents.failed.toNat) ∧
    Lasting s s₁ ∧ s.nfd ≤ s₁.nfd ∧ Stable s.nfd s s₁ ∧
    ((s.fds i).revents.failed → s₁.closed ctx) := by
  rw [handleError, ← Revents.failed]
  split_ifs with hfail
  · obtain ⟨hl, hnfd, hst⟩ := act_lasting (fun _ => 0) s (.setClosed ctx)
    exact ⟨s.setClosed ctx, by simp [hfail], hl, hnfd, hst, fun _ => update_self ..⟩
  · exact ⟨s, by simp [hfail], Lasting.refl s, le_refl _, fun _ _ => ⟨rfl, rfl⟩,
      fun h => absurd h hfail⟩

omit [DecidableEq C] in
theorem dropNode_lasting (s : PollLoop C) (node : ℕ) (hlt : i + 1 < s.nfd) :
    Lasting s (s.dropNode (i + 1) node) ∧ Stable (i + 1) s (s.dropNode (i + 1) node) ∧
      node ∉ (s.dropNode (i + 1) node).ctxList.nodes := by
  refine ⟨⟨List.prefix_refl _, fun _ => id, le_refl _,
    fun _ _ hmem h => hmem (List.mem_of_mem_erase h)⟩, fun j hj => ?_,
    s.ctxList.nodup.not_mem_erase⟩
  have hj' : j < s.nfd - 1 := by omega
  refine ⟨?_, ?_⟩
  · simp only [dropNode]
    rw [update_of_ne hj'.ne, DenseTable.moveLast_of_lt _ hj', if_neg hj.ne]
  · exact (DenseTable.moveLast_of_lt _ hj').trans (if_neg hj.ne)

variable (fdOf cbs) in
theorem handleClose_spec (ctx : C) (hlt : i + 1 < s.nfd) (hnode : s.nodes (i + 1) = some node) :
    ∃ s₁, s.handleClose fdOf cbs (i + 1) node ctx = some s₁ ∧ Lasting s s₁ ∧ Stable (i + 1) s s₁ ∧
    (s.closed ctx → node ∉ s₁.ctxList.nodes ∧
      (cbs.cbClose.isSome → ⟨.close, node, ctx⟩ ∈ s₁.calls)) := by
  rw [handleClose]
  split_ifs with hclosed
  · obtain ⟨hl, hnfd, hst, hcall⟩ :=
      callbackFor_lasting fdOf s cbs.cbClose ⟨.close, node, ctx⟩
    obtain ⟨hl', hst', hgone⟩ := dropNode_lasting
      (s.callbackFor fdOf cbs.cbClose ⟨.close, node, ctx⟩) node (hlt.trans_le hnfd)
    refine ⟨_, by rw [dropEntry, (hst _ hlt).1, hnode, Option.map_some], hl.trans hl', ?_,
      fun _ => ⟨hgone, fun hset => hl'.calls.subset (hcall hset)⟩⟩
    have := hst.trans hst'
    rwa [min_eq_right hlt.le] at this
  · exact ⟨s, rfl, Lasting.refl s, fun _ _ => ⟨rfl, rfl⟩, fun h => absurd h hclosed⟩

variable (fdOf cbs n) in
theorem handleEntry_spec (hlt : i + 1 < s.nfd) (hnode : s.nodes (i + 1) = some node)
    (hctx : s.ctxList.data node = some ctx) : ∃ s₁,
    s.handleEntry fdOf cbs (i + 1) n = some (s₁, n - (s.fds (i + 1)).revents.kinds) ∧
    Lasting s s₁ ∧ Stable (i + 1) s s₁ ∧ Handled cbs (s.fds (i + 1)).revents node ctx s₁ := by
  obtain ⟨r, hr, hl₁, hnfd₁, hst₁, hread⟩ := handleRead_spec fdOf cbs s (i + 1) node ctx n
  obtain ⟨e, he, hl₂, hnfd₂, hst₂, hfail⟩ := handleError_spec r (i + 1) ctx
    (n - (s.fds (i + 1)).revents.pollin.toNat)
  have hst : Stable s.nfd s e := by
    have := hst₁.trans hst₂
    rwa [min_eq_left hnfd₁] at this
  rw [(hst₁ _ hlt).2] at he hfail
  obtain ⟨s₁, hs₁, hl₃, hst₃, hclose⟩ := handleClose_spec fdOf cbs ctx
    (hlt.trans_le (hnfd₁.trans hnfd₂)) ((hst _ hlt).1.trans hnode)
  refine ⟨s₁, ?_, hl₁.trans (hl₂.trans hl₃), ?_, fun hin hset => ?_, fun hf => ?_⟩
  · simp only [handleEntry, hnode, hctx, hr, he, hs₁, Option.map_some, Revents.kinds]
    push_cast
    rw [sub_sub]
  · have := hst.trans hst₃
    rwa [min_eq_right hlt.le] at this
  · exact (hl₂.trans hl₃).calls.subset (hread hin hset)
  · exact ⟨hl₃.closed ctx (hfail hf), hclose (hfail hf)⟩

end Entry

section Pass

variable {cbs : PollCallbacks C} {s₀ : PollLoop C} {i : ℕ} {n : ℤ}

variable (cbs n) in
theorem Unseen.entry_spec (h : Unseen fdOf evfd s₀ (i + 1) s) : ∃ s₁ node ctx,
    s.nodes (i + 1) = some node ∧ s.ctxList.data node = some ctx ∧
    s.handleEntry fdOf cbs (i + 1) n = some (s₁, n - (s.fds (i + 1)).revents.kinds) ∧
    Unseen fdOf evfd s₀ i s₁ ∧ Lasting s s₁ ∧ Stable (i + 1) s s₁ ∧
    Handled cbs (s.fds (i + 1)).revents node ctx s₁ := by
  obtain ⟨node, ctx, -, hnode, hctx, -⟩ := h.inv.entry (Nat.le_add_left 1 i) h.lt
  obtain ⟨s₁, heq, hl, hst, hhandled⟩ := handleEntry_spec fdOf cbs n h.lt hnode hctx
  obtain ⟨s₂, n', heq', hunseen⟩ := h.handleEntry cbs n
  obtain ⟨rfl, rfl⟩ := Prod.mk.inj (Option.some.inj (heq.symm.trans heq'))
  exact ⟨s₁, node, ctx, hnode, hctx, heq, hunseen, hl, hst, hhandled⟩

theorem Unseen.mem_visits (h : Unseen fdOf evfd s₀ i s) (hn : 0 < n) {z : ℕ} (hz : z ≤ i) :
    z ∈ visits fdOf cbs i n s ↔ (∑ j ∈ Finset.Ioc z i, (s.fds j).revents.kinds : ℕ) < n := by
  induction i generalizing s n with
  | zero =>
    obtain rfl := Nat.le_zero.mp hz
    simpa [visits] using hn
  | succ i ih =>
    obtain ⟨s₁, node, ctx, -, -, heq, hunseen, -, hst, -⟩ := h.entry_spec cbs n
    rw [visits, heq, List.mem_cons]
    rcases Nat.le_succ_iff.mp hz with hz | rfl
    · have hsum : ∑ j ∈ Finset.Ioc z (i + 1), (s.fds j).revents.kinds =
          ∑ j ∈ Finset.Ioc z i, (s₁.fds j).revents.kinds + (s.fds (i + 1)).revents.kinds := by
        rw [Finset.sum_Ioc_succ_top hz]
        refine congrArg (· + _) (Finset.sum_congr rfl fun j hj => ?_)
        rw [(hst j (Nat.lt_succ_of_le (Finset.mem_Ioc.mp hj).2)).2]
      rw [hsum, Nat.cast_add]
      by_cases hdone : n - (s.fds (i + 1)).revents.kinds ≤ 0
      · simp only [if_pos hdone, List.not_mem_nil, or_false]
        omega
      · simp only [if_neg hdone]
        rw [ih hunseen (by omega) hz]
        omega
    · simpa using hn

theorem handleWakeup_lasting (s : PollLoop C) : Lasting s (s.handleWakeup fdOf cbs) := by
  rw [handleWakeup]
  split_ifs
  · exact (callback_lasting fdOf s cbs.cbWake).1
  · exact Lasting.refl s

omit [DecidableEq C] in
theorem Unseen.missed (h : Unseen fdOf evfd s₀ i s) {z node : ℕ} (hpos : 1 ≤ z) (hz : z ≤ i)
    (hnode : s.nodes z = some node) : callsOf s.calls node = [] ∧ node ∈ s.ctxList.nodes := by
  obtain ⟨node', -, hmem, hnode', -⟩ := h.inv.entry hpos (hz.trans_lt h.lt)
  obtain rfl := Option.some.inj (hnode'.symm.trans hnode)
  exact ⟨callsOf_eq_nil fun e he heq => h.quiet e he z hpos hz (heq ▸ hnode), hmem⟩

variable (cbs) in
theorem Unseen.passLoop_visits (h : Unseen fdOf evfd s₀ i s) (n : ℤ) : ∃ s',
    PollLoop.passLoop fdOf cbs i n s = some s' ∧ Unseen fdOf evfd s₀ 0 s' ∧ Lasting s s' ∧
    (0 ∈ visits fdOf cbs i n s →
      ∃ t : PollLoop C, s' = t.handleWakeup fdOf cbs ∧ t.fds 0 = s.fds 0) ∧
    ∀ z node ctx, 1 ≤ z → z ≤ i → s.nodes z = some node → s.ctxList.data node = some ctx →
      if z ∈ visits fdOf cbs i n s then Handled cbs (s.fds z).revents node ctx s'
      else callsOf s'.calls node = [] ∧ node ∈ s'.ctxList.nodes := by
  induction i generalizing s n with
  | zero =>
    exact ⟨_, rfl, h.handleWakeup cbs, handleWakeup_lasting s, fun _ => ⟨s, rfl, rfl⟩,
      fun z _ _ hpos hz => by omega⟩
  | succ i ih =>
    obtain ⟨s₁, node₁, ctx₁, hnode₁, hctx₁, heq, hunseen, hl, hst, hhandled⟩ :=
      h.entry_spec cbs n
    have hlt₁ : node₁ < s₁.ctxList.fresh := by
      refine (s.ctxList.lt_fresh node₁ ?_).trans_le hl.fresh
      rw [CtxList.mem_iff, hctx₁]
      rfl
    rw [PollLoop.passLoop, visits, heq]
    by_cases hdone : n - (s.fds (i + 1)).revents.kinds ≤ 0
    · simp only [if_pos hdone]
      refine ⟨s₁, rfl, hunseen.mono (Nat.zero_le i), hl, fun h0 => absurd h0 (by simp),
        fun z node ctx hpos hz hnode hctx => ?_⟩
      rcases Nat.le_succ_iff.mp hz with hz | rfl
      · rw [if_neg (by simp; omega)]
        exact hunseen.missed hpos hz ((hst z (Nat.lt_succ_of_le hz)).1.trans hnode)
      · obtain rfl := Option.some.inj (hnode₁.symm.trans hnode)
        obtain rfl := Option.some.inj (hctx₁.symm.trans hctx)
        rw [if_pos (by simp)]
        exact hhandled
    · simp only [if_neg hdone]
      obtain ⟨s', heq', hunseen', hl', hwake, hentries⟩ :=
        ih hunseen (n - (s.fds (i + 1)).revents.kinds)
      refine ⟨s', heq', hunseen', hl.trans hl', fun h0 => ?_,
        fun z node ctx hpos hz hnode hctx => ?_⟩
      · obtain ⟨t, ht, hfds⟩ := hwake (by simpa using h0)
        exact ⟨t, ht, hfds.trans (hst 0 (Nat.succ_pos i)).2⟩
      rcases Nat.le_succ_iff.mp hz with hz | rfl
      · obtain ⟨hnodes, hfds⟩ := hst z (Nat.lt_succ_of_le hz)
        have hnode' := hnodes.trans hnode
        have hctx' : s₁.ctxList.data node = some ctx :=
          (hunseen.data z node hpos hz hnode').trans
            ((h.data z node hpos (Nat.le_succ_of_le hz) hnode).symm.trans hctx)
        have hentry := hentries z node ctx hpos hz hnode' hctx'
        rw [hfds] at hentry
        simpa only [List.mem_cons, show z ≠ i + 1 by omega, false_or] using hentry
      · obtain rfl := Option.some.inj (hnode₁.symm.trans hnode)
        obtain rfl := Option.some.inj (hctx₁.symm.trans hctx)
        rw [if_pos (by simp)]
        exact hhandled.mono hl' hlt₁

omit [DecidableEq C] in
theorem revents_report (s : PollLoop C) (revents : ℕ → Revents) {j : ℕ} (hj : j < s.nfd) :
    ((s.report revents).fds j).revents = revents j := by
  simp only [report, if_pos hj]

theorem Inv.mem_visited (h : Inv fdOf evfd s) (r : PollResult) {z : ℕ} (hz : z < s.nfd) :
    z ∈ s.visited fdOf cbs r ↔
      ∑ j ∈ Finset.Ioo z s.nfd, (r.revents j).kinds < r.count s.nfd := by
  rw [visited]
  split_ifs with hn
  · have hsum : ∑ j ∈ Finset.Ioc z (s.nfd - 1), ((s.report r.revents).fds j).revents.kinds =
        ∑ j ∈ Finset.Ioo z s.nfd, (r.revents j).kinds := by
      have hset : Finset.Ioc z (s.nfd - 1) = Finset.Ioo z s.nfd := by
        ext j
        simp only [Finset.mem_Ioc, Finset.mem_Ioo]
        omega
      rw [hset]
      refine Finset.sum_congr rfl fun j hj => ?_
      rw [s.revents_report r.revents (Finset.mem_Ioo.mp hj).2]
    rw [(unseen_report h r.revents).mem_visits (by exact_mod_cast hn) (by omega), hsum,
      Nat.cast_lt]
  · simp only [List.not_mem_nil, false_iff]
    omega

theorem Inv.pass_visited (h : Inv fdOf evfd s) (cbs : PollCallbacks C) (r : PollResult)
    (timer : Bool) : ∃ s', s.pass fdOf cbs (r.count s.nfd) r.revents timer = some s' ∧
    (0 ∈ s.visited fdOf cbs r → ∃ t : PollLoop C, (t.fds 0).revents = r.revents 0 ∧
      s' = (t.handleWakeup fdOf cbs).callback fdOf (if timer then cbs.cbTimer else none)) ∧
    ∀ z node ctx, 1 ≤ z → z < s.nfd → s.nodes z = some node → s.ctxList.data node = some ctx →
      if z ∈ s.visited fdOf cbs r then Handled cbs (r.revents z) node ctx s'
      else callsOf s'.calls node = [] ∧ node ∈ s'.ctxList.nodes := by
  have hreport := unseen_report h r.revents
  have hloop : ∃ s₂, (if (r.count s.nfd : ℤ) > 0 then
      PollLoop.passLoop fdOf cbs ((s.report r.revents).nfd - 1) (r.count s.nfd)
        (s.report r.revents) else some (s.report r.revents)) = some s₂ ∧
      Unseen fdOf evfd s 0 s₂ ∧ Lasting (s.report r.revents) s₂ ∧
      (0 ∈ s.visited fdOf cbs r → ∃ t : PollLoop C, (t.fds 0).revents = r.revents 0 ∧
        s₂ = t.handleWakeup fdOf cbs) ∧
      ∀ z node ctx, 1 ≤ z → z < s.nfd → s.nodes z = some node → s.ctxList.data node = some ctx →
        if z ∈ s.visited fdOf cbs r then Handled cbs (r.revents z) node ctx s₂
        else callsOf s₂.calls node = [] ∧ node ∈ s₂.ctxList.nodes := by
    by_cases hn : 0 < r.count s.nfd
    · obtain ⟨s₂, heq, hunseen, hl, hwake, hentries⟩ :=
        hreport.passLoop_visits cbs (r.count s.nfd)
      rw [if_pos (by exact_mod_cast hn), visited, if_pos hn]
      refine ⟨s₂, heq, hunseen, hl, fun h0 => ?_, fun z node ctx hpos hz hnode hctx => ?_⟩
      · obtain ⟨t, ht, hfds⟩ := hwake h0
        exact ⟨t, by rw [hfds, s.revents_report r.revents h.pos], ht⟩
      · have hentry := hentries z node ctx hpos (by omega) hnode hctx
        rwa [s.revents_report r.revents hz] at hentry
    · rw [if_neg (by omega), visited, if_neg hn]
      refine ⟨_, rfl, hreport.mono (Nat.zero_le _), Lasting.refl _,
        fun h0 => absurd h0 List.not_mem_nil, fun z node ctx hpos hz hnode _ => ?_⟩
      rw [if_neg List.not_mem_nil]
      exact hreport.missed hpos (by omega) hnode
  obtain ⟨s₂, heq, hunseen, hl, hwake, hentries⟩ := hloop
  simp only [PollLoop.pass, heq, Option.map_some]
  cases timer with
  | false => exact ⟨s₂, rfl, hwake, hentries⟩
  | true =>
    obtain ⟨-, hgrown, hcalls⟩ := inv_callback hunseen.inv cbs.cbTimer
    refine ⟨_, rfl, fun h0 => ?_, fun z node ctx hpos hz hnode hctx => ?_⟩
    · obtain ⟨t, hfds, rfl⟩ := hwake h0
      exact ⟨t, hfds, rfl⟩
    have hentry := hentries z node ctx hpos hz hnode hctx
    by_cases hmem : z ∈ s.visited fdOf cbs r
    · rw [if_pos hmem] at hentry ⊢
      refine hentry.mono (callback_lasting fdOf s₂ cbs.cbTimer).1
        ((s.ctxList.lt_fresh node ?_).trans_le hl.fresh)
      rw [CtxList.mem_iff, hctx]
      rfl
    · rw [if_neg hmem] at hentry ⊢
      exact ⟨hcalls ▸ hentry.1, hgrown.mem hentry.2⟩

/-- **A pass handles every descriptor that `poll` reported exactly when the count fits.** -/
theorem handles_reported_iff {hintsMaxFd : ℤ} {closed : C → Bool}
    (hs : Steps.Reach (next fdOf) Steps.anyStep (init hintsMaxFd evfd closed) s)
    (cbs : PollCallbacks C) (r : PollResult) (timer : Bool) : ∃ s',
    s.pass fdOf cbs (r.count s.nfd) r.revents timer = some s' ∧
    (∀ z, 1 ≤ z → z < s.nfd → ∃ node ctx, s.nodes z = some node ∧
      s.ctxList.data node = some ctx ∧
      if z ∈ s.visited fdOf cbs r then Handled cbs (r.revents z) node ctx s'
      else callsOf s'.calls node = [] ∧ node ∈ s'.ctxList.nodes) ∧
    (0 ∈ s.visited fdOf cbs r → ∃ t : PollLoop C, (t.fds 0).revents = r.revents 0 ∧
      s' = (t.handleWakeup fdOf cbs).callback fdOf (if timer then cbs.cbTimer else none)) ∧
    ((∀ z < s.nfd, (r.revents z).reported → z ∈ s.visited fdOf cbs r) ↔ r.Fits s.nfd) := by
  have hinv : Inv fdOf evfd s :=
    hs.invariant (inv_init hintsMaxFd evfd closed) fun _ _ _ h _ hnext => h.next hnext
  obtain ⟨s', heq, hwake, hentries⟩ := hinv.pass_visited cbs r timer
  refine ⟨s', heq, fun z hpos hz => ?_, hwake, ?_⟩
  · obtain ⟨node, ctx, -, hnode, hctx, -⟩ := hinv.entry hpos hz
    exact ⟨node, ctx, hnode, hctx, hentries z node ctx hpos hz hnode hctx⟩
  · rw [← PollResult.reaches_iff]
    exact forall₃_congr fun z hz _ => hinv.mem_visited r hz

end Pass

def registerTwo : List (PollStep ℕ) := [.act (register 10), .act (register 11)]

def readableAnd (e : Revents) : PollResult where
  revents := fun i =>
    if i = 1 then ⟨true, false, false⟩ else if i = 2 then e else ⟨false, false, false⟩
  other := fun _ => false

def passive : PollCallbacks ℕ := ⟨some fun _ => [], some fun _ => [], none, none⟩

theorem handles_readable_and_hangup : ∃ s : PollLoop ℕ,
    Steps.exec (next fun c : ℕ => (c : ℤ)) (init 4 3 fun _ => false) registerTwo = some s ∧
    ∀ z < s.nfd, ((readableAnd ⟨false, true, false⟩).revents z).reported →
      z ∈ s.visited (fun c : ℕ => (c : ℤ)) passive (readableAnd ⟨false, true, false⟩) := by
  obtain ⟨s, hs, hnfd⟩ : ∃ s, Steps.exec (next fun c : ℕ => (c : ℤ)) (init 4 3 fun _ => false)
      registerTwo = some s ∧ s.nfd = 3 := by
    decide
  obtain ⟨-, -, -, -, hiff⟩ := handles_reported_iff (Steps.Reach.of_exec registerTwo hs) passive
    (readableAnd ⟨false, true, false⟩) false
  exact ⟨s, hs, hiff.mpr (hnfd ▸ by decide)⟩

theorem readable_passed_over :
    (readableAnd ⟨true, true, false⟩).count 3 = 2 ∧
    (Steps.exec (next fun c : ℕ => (c : ℤ)) (init 4 3 fun _ => false)
      (registerTwo ++ [.pass passive 2 (readableAnd ⟨true, true, false⟩).revents false])).map
      (fun s => s.calls) = some [⟨.read, 1, 11⟩, ⟨.close, 1, 11⟩] := by
  constructor <;> decide +kernel

end PollLoop

end Mugglec
