import Mugglec.Event.EvloopPoll

/-!
# Event/EvloopPollPass — the arrays and the list of a `poll` loop stay aligned

Between passes and throughout a pass the entries `1 … nfd - 1` are the nodes of `ctx_list`, each
with its descriptor beside it (`Inv`).  A pass goes down through the entries.
-/

namespace Mugglec

open Function

variable {C : Type*}

namespace CtxList

variable (l : CtxList C) (ctx : C)

theorem nodes_remove_append : ((l.append ctx).remove l.fresh).nodes = l.nodes := by
  change (l.nodes ++ [l.fresh]).erase l.fresh = l.nodes
  rw [List.erase_append_right _ l.fresh_notMem, List.erase_cons_head, List.append_nil]

theorem data_append {node : ℕ} (h : node ∈ l.nodes) : (l.append ctx).data node = l.data node :=
  update_of_ne (l.lt_fresh node h).ne _ _

theorem data_fresh : l.data l.fresh = none := by
  rw [← Option.not_isSome_iff_eq_none, ← l.mem_iff]
  exact l.fresh_notMem

theorem data_remove_append : ((l.append ctx).remove l.fresh).data = l.data := by
  change update (update l.data l.fresh (some ctx)) l.fresh none = l.data
  rw [update_idem, ← l.data_fresh, update_eq_self]

theorem data_remove {node other : ℕ} (h : node ≠ other) :
    (l.remove other).data node = l.data node :=
  update_of_ne h _ _

end CtxList

namespace PollLoop

variable {fdOf : C → ℤ} {evfd : ℤ} {s s' s'' : PollLoop C}

structure Inv (fdOf : C → ℤ) (evfd : ℤ) (s : PollLoop C) : Prop where
  pos : 1 ≤ s.nfd
  le : s.nfd ≤ s.capacity
  wake : (s.fds 0).fd = evfd
  lists : DenseTable.Lists 1 s.nfd s.nodes s.ctxList.nodes
  fd : ∀ i node ctx, 1 ≤ i → i < s.nfd → s.nodes i = some node → s.ctxList.data node = some ctx →
    (s.fds i).fd = fdOf ctx

theorem inv_init (hintsMaxFd evfd : ℤ) (closed : C → Bool) :
    Inv fdOf evfd (init hintsMaxFd evfd closed) where
  pos := le_refl 1
  le := by
    change 1 ≤ ((if hintsMaxFd < 1 then 8 else hintsMaxFd) + 1).toNat
    split_ifs <;> omega
  wake := rfl
  lists := DenseTable.lists_nil 1 _
  fd := fun i _ _ hpos hlt => absurd hlt (not_lt.mpr hpos)

theorem Inv.entry (h : Inv fdOf evfd s) {i : ℕ} (hpos : 1 ≤ i) (hlt : i < s.nfd) :
    ∃ node ctx, node ∈ s.ctxList.nodes ∧ s.nodes i = some node ∧
      s.ctxList.data node = some ctx ∧ (s.fds i).fd = fdOf ctx := by
  obtain ⟨node, hmem, hnode⟩ := h.lists.cell i hpos hlt
  obtain ⟨ctx, hctx⟩ := Option.isSome_iff_exists.mp ((s.ctxList.mem_iff node).mp hmem)
  exact ⟨node, ctx, hmem, hnode, hctx, h.fd i node ctx hpos hlt hnode hctx⟩

structure Grown (s s' : PollLoop C) : Prop where
  nfd : s.nfd ≤ s'.nfd
  nodes : ∀ i < s.nfd, s'.nodes i = s.nodes i
  data : ∀ node ∈ s.ctxList.nodes, s'.ctxList.data node = s.ctxList.data node

theorem Grown.refl (s : PollLoop C) : Grown s s :=
  ⟨le_refl _, fun _ _ => rfl, fun _ _ => rfl⟩

theorem Grown.mem (h : Grown s s') {node : ℕ} (hmem : node ∈ s.ctxList.nodes) :
    node ∈ s'.ctxList.nodes := by
  rw [CtxList.mem_iff, h.data node hmem]
  exact (CtxList.mem_iff _ _).mp hmem

theorem Grown.trans (h : Grown s s') (h' : Grown s' s'') : Grown s s'' where
  nfd := h.nfd.trans h'.nfd
  nodes := fun i hi => (h'.nodes i (hi.trans_le h.nfd)).trans (h.nodes i hi)
  data := fun node hmem => (h'.data node (h.mem hmem)).trans (h.data node hmem)

theorem inv_unappend (h : Inv fdOf evfd s) (ctx : C) :
    Inv fdOf evfd { s with ctxList := (s.ctxList.append ctx).remove s.ctxList.fresh } ∧
      Grown s { s with ctxList := (s.ctxList.append ctx).remove s.ctxList.fresh } := by
  have hdata := s.ctxList.data_remove_append ctx
  have hlists := h.lists
  rw [← s.ctxList.nodes_remove_append ctx] at hlists
  refine ⟨⟨h.pos, h.le, h.wake, hlists, fun i node c hpos hlt hnode hctx => ?_⟩,
    ⟨le_refl _, fun _ _ => rfl, fun node _ => congrFun hdata node⟩⟩
  exact h.fd i node c hpos hlt hnode ((congrFun hdata node).symm.trans hctx)

theorem inv_addCtxPoll (h : Inv fdOf evfd s) {ctx : C}
    (hnext : addCtxPoll fdOf { s with ctxList := s.ctxList.append ctx } ctx s.ctxList.fresh =
      some s') : Inv fdOf evfd s' ∧ Grown s s' := by
  rw [addCtxPoll] at hnext
  split_ifs at hnext with hfull
  cases hnext
  have hnew : (s.ctxList.append ctx).data s.ctxList.fresh = some ctx := update_self ..
  refine ⟨⟨Nat.le_succ_of_le h.pos, lt_of_le_of_ne h.le hfull, ?_, ?_, ?_⟩,
    ⟨Nat.le_succ _, fun i hi => update_of_ne hi.ne _ _,
      fun node hmem => s.ctxList.data_append ctx hmem⟩⟩
  · have hne : 0 ≠ s.nfd := (Nat.lt_of_lt_of_le Nat.zero_lt_one h.pos).ne
    simp only [update_of_ne hne]
    exact h.wake
  · exact h.lists.push h.pos s.ctxList.fresh_notMem
  · intro i node c hpos hlt hnode hctx
    rcases Nat.lt_succ_iff_lt_or_eq.mp hlt with hlt | rfl
    · simp only [update_of_ne hlt.ne] at hnode ⊢
      obtain ⟨n, hmem, hn⟩ := h.lists.cell i hpos hlt
      obtain rfl := Option.some.inj (hn.symm.trans hnode)
      exact h.fd i n c hpos hlt hnode ((s.ctxList.data_append ctx hmem).symm.trans hctx)
    · simp only [update_self, Option.some.injEq] at hnode ⊢
      subst hnode
      exact congrArg fdOf (Option.some.inj (hnew.symm.trans hctx))

theorem addCtx_cases (fdOf : C → ℤ) (s : PollLoop C) (ctx : C) (o : PollAddOutcome) :
    s.addCtx fdOf ctx o = (s, false) ∨
    s.addCtx fdOf ctx o =
      ({ s with ctxList := (s.ctxList.append ctx).remove s.ctxList.fresh }, false) ∨
    ∃ s₂, addCtxPoll fdOf { s with ctxList := s.ctxList.append ctx } ctx s.ctxList.fresh = some s₂ ∧
      s.addCtx fdOf ctx o = (s₂, true) := by
  obtain ⟨sameThread, setNonblock, node⟩ := o
  cases sameThread <;> cases setNonblock <;> cases node <;> try exact .inl rfl
  refine .inr ?_
  cases hadd : addCtxPoll fdOf { s with ctxList := s.ctxList.append ctx } ctx s.ctxList.fresh with
  | some s₂ => exact .inr ⟨s₂, rfl, by simp [addCtx, hadd]⟩
  | none => exact .inl (by simp [addCtx, hadd])

theorem inv_addCtx (h : Inv fdOf evfd s) (ctx : C) (o : PollAddOutcome) :
    Inv fdOf evfd (s.addCtx fdOf ctx o).1 ∧ Grown s (s.addCtx fdOf ctx o).1 := by
  obtain heq | heq | ⟨s₂, hadd, heq⟩ := s.addCtx_cases fdOf ctx o <;> rw [heq]
  · exact ⟨h, Grown.refl s⟩
  · exact inv_unappend h ctx
  · exact inv_addCtxPoll h hadd

theorem addCtx_failed {ctx : C} {o : PollAddOutcome} (h : (s.addCtx fdOf ctx o).2 = false) :
    (s.addCtx fdOf ctx o).1.nodes = s.nodes ∧ (s.addCtx fdOf ctx o).1.fds = s.fds ∧
      (s.addCtx fdOf ctx o).1.nfd = s.nfd ∧
      (s.addCtx fdOf ctx o).1.ctxList.nodes = s.ctxList.nodes ∧
      (s.addCtx fdOf ctx o).1.ctxList.data = s.ctxList.data := by
  obtain heq | heq | ⟨s₂, -, heq⟩ := s.addCtx_cases fdOf ctx o <;> rw [heq] at h ⊢
  · exact ⟨rfl, rfl, rfl, rfl, rfl⟩
  · exact ⟨rfl, rfl, rfl, s.ctxList.nodes_remove_append ctx, s.ctxList.data_remove_append ctx⟩
  · cases h

def callsOf (calls : List (PollCall C)) (node : ℕ) : List PollCb :=
  (calls.filter fun e => e.node = node).map PollCall.cb

theorem callsOf_concat (calls : List (PollCall C)) (e : PollCall C) (node : ℕ) :
    callsOf (calls ++ [e]) node = callsOf calls node ++ if e.node = node then [e.cb] else [] := by
  simp only [callsOf, List.filter_append, List.map_append]
  by_cases h : e.node = node <;> simp [h]

theorem callsOf_eq_nil {calls : List (PollCall C)} {node : ℕ} (h : ∀ e ∈ calls, e.node ≠ node) :
    callsOf calls node = [] := by
  rw [callsOf, List.map_eq_nil_iff, List.filter_eq_nil_iff]
  exact fun e he => by simpa using h e he

structure Unseen (fdOf : C → ℤ) (evfd : ℤ) (s₀ : PollLoop C) (i : ℕ) (s : PollLoop C) : Prop where
  inv : Inv fdOf evfd s
  lt : i < s.nfd
  data : ∀ j node, 1 ≤ j → j ≤ i → s.nodes j = some node →
    s.ctxList.data node = s₀.ctxList.data node
  quiet : ∀ e ∈ s.calls, ∀ j, 1 ≤ j → j ≤ i → s.nodes j ≠ some e.node
  known : ∀ e ∈ s.calls, s₀.ctxList.data e.node = some e.ctx
  once : ∀ node, (callsOf s.calls node).Sublist [.read, .close]

structure Handling (fdOf : C → ℤ) (evfd : ℤ) (s₀ : PollLoop C) (i node : ℕ) (ctx : C)
    (s : PollLoop C) : Prop where
  unseen : Unseen fdOf evfd s₀ i s
  lt : i + 1 < s.nfd
  entry : s.nodes (i + 1) = some node
  data : s.ctxList.data node = some ctx
  before : s₀.ctxList.data node = some ctx

variable {s₀ : PollLoop C} {i node : ℕ} {ctx : C}

theorem Unseen.mono (h : Unseen fdOf evfd s₀ i s) {j : ℕ} (hj : j ≤ i) :
    Unseen fdOf evfd s₀ j s where
  inv := h.inv
  lt := hj.trans_lt h.lt
  data := fun k node hpos hk => h.data k node hpos (hk.trans hj)
  quiet := fun e he k hpos hk => h.quiet e he k hpos (hk.trans hj)
  known := h.known
  once := h.once

theorem Unseen.grown (h : Unseen fdOf evfd s₀ i s) (hinv : Inv fdOf evfd s') (hgrown : Grown s s')
    (hcalls : s'.calls = s.calls) : Unseen fdOf evfd s₀ i s' where
  inv := hinv
  lt := h.lt.trans_le hgrown.nfd
  data := by
    intro j node hpos hle hnode
    rw [hgrown.nodes j (hle.trans_lt h.lt)] at hnode
    obtain ⟨n, -, hmem, hn, -⟩ := h.inv.entry hpos (hle.trans_lt h.lt)
    obtain rfl := Option.some.inj (hn.symm.trans hnode)
    exact (hgrown.data n hmem).trans (h.data j n hpos hle hn)
  quiet := by
    intro e he j hpos hle
    rw [hgrown.nodes j (hle.trans_lt h.lt)]
    exact h.quiet e (hcalls ▸ he) j hpos hle
  known := fun e he => h.known e (hcalls ▸ he)
  once := hcalls ▸ h.once

theorem unseen_report (h : Inv fdOf evfd s) (revents : ℕ → Revents) :
    Unseen fdOf evfd s (s.nfd - 1) (s.report revents) := by
  have hfd : ∀ i, ((s.report revents).fds i).fd = (s.fds i).fd := fun i => by
    simp only [report]
    split_ifs <;> rfl
  refine ⟨⟨h.pos, h.le, (hfd 0).trans h.wake, h.lists, fun i node ctx hpos hlt hnode hctx => ?_⟩,
    Nat.sub_lt h.pos Nat.zero_lt_one, fun _ _ _ _ _ => rfl, fun _ he => absurd he List.not_mem_nil,
    fun _ he => absurd he List.not_mem_nil, fun _ => List.nil_sublist _⟩
  exact (hfd i).trans (h.fd i node ctx hpos hlt hnode hctx)

namespace Handling

variable (h : Handling fdOf evfd s₀ i node ctx s)
include h

theorem grown (hinv : Inv fdOf evfd s') (hgrown : Grown s s') (hcalls : s'.calls = s.calls) :
    Handling fdOf evfd s₀ i node ctx s' where
  unseen := h.unseen.grown hinv hgrown hcalls
  lt := h.lt.trans_le hgrown.nfd
  entry := (hgrown.nodes _ h.lt).trans h.entry
  data := by
    refine (hgrown.data node ?_).trans h.data
    rw [CtxList.mem_iff, h.data]
    rfl
  before := h.before

theorem ne_node {j n : ℕ} (hpos : 1 ≤ j) (hle : j ≤ i) (hn : s.nodes j = some n) : n ≠ node := by
  rintro rfl
  have := h.unseen.inv.lists.inj j (i + 1) n hpos (hle.trans_lt h.unseen.lt) (by omega) h.lt hn
    h.entry
  omega

theorem log (cb : PollCb) (hcb : (callsOf s.calls node ++ [cb]).Sublist [.read, .close]) :
    Handling fdOf evfd s₀ i node ctx { s with calls := s.calls ++ [⟨cb, node, ctx⟩] } := by
  have hinv := h.unseen.inv
  refine ⟨⟨⟨hinv.pos, hinv.le, hinv.wake, hinv.lists, hinv.fd⟩, h.unseen.lt, h.unseen.data, ?_, ?_,
    fun n => ?_⟩, h.lt, h.entry, h.data, h.before⟩
  · intro e he j hpos hle hnode
    rcases List.mem_append.mp he with he | he
    · exact h.unseen.quiet e he j hpos hle hnode
    · obtain rfl := List.mem_singleton.mp he
      exact h.ne_node hpos hle hnode rfl
  · intro e he
    rcases List.mem_append.mp he with he | he
    · exact h.unseen.known e he
    · obtain rfl := List.mem_singleton.mp he
      exact h.before
  · rw [callsOf_concat]
    split_ifs with heq
    · obtain rfl := heq
      exact hcb
    · rw [List.append_nil]
      exact h.unseen.once n

theorem dropNode : Unseen fdOf evfd s₀ i (s.dropNode (i + 1) node) := by
  have hinv := h.unseen.inv
  have hlt := h.lt
  have hnodes : ∀ j < s.nfd - 1, (s.dropNode (i + 1) node).nodes j =
      if j = i + 1 then s.nodes (s.nfd - 1) else s.nodes j := fun j hj => by
    simp only [PollLoop.dropNode]
    rw [update_of_ne hj.ne, DenseTable.moveLast_of_lt _ hj]
  have hfds : ∀ j < s.nfd - 1, (s.dropNode (i + 1) node).fds j =
      if j = i + 1 then s.fds (s.nfd - 1) else s.fds j := fun j hj =>
    DenseTable.moveLast_of_lt _ hj
  -- what is still to be looked at lies below
  have hbelow : ∀ j ≤ i, (s.dropNode (i + 1) node).nodes j = s.nodes j := fun j hj => by
    rw [hnodes j (by omega), if_neg (by omega)]
  refine ⟨⟨?_, ?_, ?_, ?_, ?_⟩, ?_, ?_, ?_, h.unseen.known, h.unseen.once⟩
  · change 1 ≤ s.nfd - 1
    omega
  · exact (Nat.sub_le _ _).trans hinv.le
  · rw [hfds 0 (by omega), if_neg (by omega)]
    exact hinv.wake
  · refine (hinv.lists.moveLast s.ctxList.nodup (by omega) hlt h.entry).congr fun j hj => ?_
    exact update_of_ne hj.ne _ _
  · intro j n c hpos hj hn hc
    change j < s.nfd - 1 at hj
    have hne : n ≠ node := by
      rintro rfl
      exact absurd ((update_self ..).symm.trans hc) (by simp)
    have hc' : s.ctxList.data n = some c := (CtxList.data_remove _ hne).symm.trans hc
    rw [hnodes j hj] at hn
    rw [hfds j hj]
    split_ifs at hn ⊢
    · exact hinv.fd _ n c (by omega) (by omega) hn hc'
    · exact hinv.fd j n c hpos (by omega) hn hc'
  · change i < s.nfd - 1
    omega
  · intro j n hpos hj hn
    rw [hbelow j hj] at hn
    exact (CtxList.data_remove _ (h.ne_node hpos hj hn)).trans (h.unseen.data j n hpos hj hn)
  · intro e he j hpos hj
    rw [hbelow j hj]
    exact h.unseen.quiet e he j hpos hj

end Handling

variable [DecidableEq C]

theorem inv_setClosed (h : Inv fdOf evfd s) (ctx : C) :
    Inv fdOf evfd (s.setClosed ctx) ∧ Grown s (s.setClosed ctx) :=
  ⟨⟨h.pos, h.le, h.wake, h.lists, h.fd⟩, le_refl _, fun _ _ => rfl, fun _ _ => rfl⟩

theorem inv_act (h : Inv fdOf evfd s) (a : PollAction C) :
    Inv fdOf evfd (s.act fdOf a) ∧ Grown s (s.act fdOf a) := by
  cases a with
  | addCtx ctx o => exact inv_addCtx h ctx o
  | setClosed ctx => exact inv_setClosed h ctx

theorem calls_act (fdOf : C → ℤ) (s : PollLoop C) (a : PollAction C) :
    (s.act fdOf a).calls = s.calls := by
  cases a with
  | setClosed ctx => rfl
  | addCtx ctx o =>
    change (s.addCtx fdOf ctx o).1.calls = s.calls
    obtain heq | heq | ⟨s₂, hadd, heq⟩ := s.addCtx_cases fdOf ctx o <;> rw [heq]
    rw [addCtxPoll] at hadd
    split_ifs at hadd
    cases hadd
    rfl

theorem inv_callback (h : Inv fdOf evfd s) (cb : Option (PollFn C)) :
    Inv fdOf evfd (s.callback fdOf cb) ∧ Grown s (s.callback fdOf cb) ∧
      (s.callback fdOf cb).calls = s.calls := by
  cases cb with
  | none => exact ⟨h, Grown.refl s, rfl⟩
  | some f =>
    rw [callback]
    -- over the actions, whatever the state they start in
    generalize f s.calls = actions
    induction actions generalizing s with
    | nil => exact ⟨h, Grown.refl s, rfl⟩
    | cons a rest ih =>
      obtain ⟨hinv, hgrown⟩ := inv_act h a
      obtain ⟨hinv', hgrown', hcalls⟩ := ih hinv
      exact ⟨hinv', hgrown.trans hgrown', hcalls.trans (calls_act fdOf s a)⟩

theorem Handling.callbackFor (h : Handling fdOf evfd s₀ i node ctx s) (f : Option (PollFn C))
    (cb : PollCb) (hcb : (callsOf s.calls node ++ [cb]).Sublist [.read, .close]) :
    Handling fdOf evfd s₀ i node ctx (s.callbackFor fdOf f ⟨cb, node, ctx⟩) ∧
      (callsOf (s.callbackFor fdOf f ⟨cb, node, ctx⟩).calls node).Sublist
        (callsOf s.calls node ++ [cb]) := by
  cases f with
  | none => exact ⟨h, List.sublist_append_left _ _⟩
  | some f =>
    have hlog := h.log cb hcb
    obtain ⟨hinv, hgrown, hcalls⟩ := inv_callback hlog.unseen.inv (some f)
    refine ⟨hlog.grown hinv hgrown hcalls, ?_⟩
    rw [PollLoop.callbackFor, hcalls, callsOf_concat, if_pos rfl]

theorem Handling.handleRead (h : Handling fdOf evfd s₀ i node ctx s)
    (hquiet : callsOf s.calls node = []) (cbs : PollCallbacks C) (n : ℤ) :
    Handling fdOf evfd s₀ i node ctx (s.handleRead fdOf cbs (i + 1) node ctx n).1 ∧
      (callsOf (s.handleRead fdOf cbs (i + 1) node ctx n).1.calls node).Sublist [.read] := by
  rw [PollLoop.handleRead]
  split_ifs
  · have hcb : (callsOf s.calls node ++ [PollCb.read]).Sublist [.read, .close] := by
      rw [hquiet]
      decide
    have hcall := h.callbackFor cbs.cbRead .read hcb
    rwa [hquiet] at hcall
  · refine ⟨h, ?_⟩
    rw [hquiet]
    exact List.nil_sublist _

theorem Handling.handleError (h : Handling fdOf evfd s₀ i node ctx s) (n : ℤ) :
    Handling fdOf evfd s₀ i node ctx (s.handleError (i + 1) ctx n).1 ∧
      (s.handleError (i + 1) ctx n).1.calls = s.calls := by
  rw [PollLoop.handleError]
  split_ifs
  · obtain ⟨hinv, hgrown⟩ := inv_setClosed h.unseen.inv ctx
    exact ⟨h.grown hinv hgrown rfl, rfl⟩
  · exact ⟨h, rfl⟩

theorem Handling.handleClose (h : Handling fdOf evfd s₀ i node ctx s)
    (hread : (callsOf s.calls node).Sublist [.read]) (cbs : PollCallbacks C) :
    ∃ s', s.handleClose fdOf cbs (i + 1) node ctx = some s' ∧ Unseen fdOf evfd s₀ i s' := by
  rw [PollLoop.handleClose]
  split_ifs
  · have hcb : (callsOf s.calls node ++ [PollCb.close]).Sublist [.read, .close] :=
      hread.append (List.Sublist.refl _)
    have hcall := (h.callbackFor cbs.cbClose .close hcb).1
    exact ⟨_, by rw [dropEntry, hcall.entry, Option.map_some], hcall.dropNode⟩
  · exact ⟨s, rfl, h.unseen⟩

theorem Unseen.handleEntry (h : Unseen fdOf evfd s₀ (i + 1) s) (cbs : PollCallbacks C) (n : ℤ) :
    ∃ s' n', s.handleEntry fdOf cbs (i + 1) n = some (s', n') ∧ Unseen fdOf evfd s₀ i s' := by
  obtain ⟨node, ctx, -, hnode, hctx, -⟩ := h.inv.entry (Nat.le_add_left 1 i) h.lt
  have hstart : Handling fdOf evfd s₀ i node ctx s :=
    ⟨h.mono (Nat.le_succ i), h.lt, hnode, hctx,
      (h.data _ node (Nat.le_add_left 1 i) (le_refl _) hnode).symm.trans hctx⟩
  have hquiet : callsOf s.calls node = [] := callsOf_eq_nil fun e he heq =>
    h.quiet e he (i + 1) (Nat.le_add_left 1 i) (le_refl _) (heq ▸ hnode)
  obtain ⟨hread, hsub⟩ := hstart.handleRead hquiet cbs n
  obtain ⟨herror, hcalls⟩ := hread.handleError (s.handleRead fdOf cbs (i + 1) node ctx n).2
  rw [← hcalls] at hsub
  obtain ⟨s', hs', hunseen⟩ := herror.handleClose hsub cbs
  simp only [PollLoop.handleEntry, hnode, hctx, hs', Option.map_some]
  exact ⟨s', _, rfl, hunseen⟩

theorem Unseen.handleWakeup (h : Unseen fdOf evfd s₀ i s) (cbs : PollCallbacks C) :
    Unseen fdOf evfd s₀ i (s.handleWakeup fdOf cbs) := by
  rw [PollLoop.handleWakeup]
  split_ifs
  · obtain ⟨hinv, hgrown, hcalls⟩ := inv_callback h.inv cbs.cbWake
    exact h.grown hinv hgrown hcalls
  · exact h

theorem Unseen.passLoop (cbs : PollCallbacks C) (h : Unseen fdOf evfd s₀ i s) (n : ℤ) :
    ∃ s', passLoop fdOf cbs i n s = some s' ∧ Unseen fdOf evfd s₀ 0 s' := by
  induction i generalizing s n with
  | zero => exact ⟨_, rfl, h.handleWakeup cbs⟩
  | succ i ih =>
    obtain ⟨s', n', hs', hunseen⟩ := h.handleEntry cbs n
    rw [PollLoop.passLoop, hs']
    by_cases hdone : n' ≤ 0
    · exact ⟨s', if_pos hdone, hunseen.mono (Nat.zero_le i)⟩
    · simp only [if_neg hdone]
      exact ih hunseen n'

theorem Inv.pass (h : Inv fdOf evfd s) (cbs : PollCallbacks C) (n : ℤ) (revents : ℕ → Revents)
    (timer : Bool) :
    ∃ s', s.pass fdOf cbs n revents timer = some s' ∧ Unseen fdOf evfd s 0 s' := by
  have hloop : ∃ s₂, (if n > 0 then
      PollLoop.passLoop fdOf cbs ((s.report revents).nfd - 1) n (s.report revents)
      else some (s.report revents)) = some s₂ ∧ Unseen fdOf evfd s 0 s₂ := by
    split_ifs
    · exact (unseen_report h revents).passLoop cbs n
    · exact ⟨_, rfl, (unseen_report h revents).mono (Nat.zero_le _)⟩
  obtain ⟨s₂, hs₂, hunseen⟩ := hloop
  simp only [PollLoop.pass, hs₂, Option.map_some]
  cases timer with
  | false => exact ⟨s₂, rfl, hunseen⟩
  | true =>
    obtain ⟨hinv, hgrown, hcalls⟩ := inv_callback hunseen.inv cbs.cbTimer
    exact ⟨_, rfl, hunseen.grown hinv hgrown hcalls⟩

theorem Inv.next (h : Inv fdOf evfd s) {a : PollStep C} (hnext : s.next fdOf a = some s') :
    Inv fdOf evfd s' := by
  cases a with
  | act a =>
    cases hnext
    exact (inv_act h a).1
  | pass cbs n revents timer =>
    obtain ⟨s₁, hs₁, hunseen⟩ := h.pass cbs n revents timer
    obtain rfl := Option.some.inj (hs₁.symm.trans hnext)
    exact hunseen.inv

def callsFor (calls : List (PollCall C)) (ctx : C) : List PollCb :=
  (calls.filter fun e => e.ctx = ctx).map PollCall.cb

theorem Unseen.calledOnce {s₀ : PollLoop C} {i : ℕ} (h : Unseen fdOf evfd s₀ i s) {ctx : C}
    (huniq : ∀ n m, s₀.ctxList.data n = some ctx → s₀.ctxList.data m = some ctx → n = m) :
    (callsFor s.calls ctx).Sublist [.read, .close] := by
  by_cases hctx : ∃ node, s₀.ctxList.data node = some ctx
  · obtain ⟨node, hnode⟩ := hctx
    have heq : callsFor s.calls ctx = callsOf s.calls node := by
      refine congrArg (List.map PollCall.cb) (List.filter_congr fun e he => ?_)
      rw [decide_eq_decide]
      constructor
      · rintro rfl
        exact huniq e.node node (h.known e he) hnode
      · rintro rfl
        exact Option.some.inj ((h.known e he).symm.trans hnode)
    rw [heq]
    exact h.once node
  · have hnil : callsFor s.calls ctx = [] := by
      rw [callsFor, List.map_eq_nil_iff, List.filter_eq_nil_iff]
      intro e he heq
      exact hctx ⟨e.node, of_decide_eq_true heq ▸ h.known e he⟩
    rw [hnil]
    exact List.nil_sublist _

/-- The loop between passes, and what its next pass may do. -/
structure Aligned (fdOf : C → ℤ) (evfd : ℤ) (s : PollLoop C) : Prop where
  entries : Set.BijOn s.nodes (Set.Ico 1 s.nfd) (Set.image some {node | node ∈ s.ctxList.nodes})
  fd : ∀ i, 1 ≤ i → i < s.nfd → ∃ node ctx, s.nodes i = some node ∧
    s.ctxList.data node = some ctx ∧ (s.fds i).fd = fdOf ctx
  wake : (s.fds 0).fd = evfd
  pos : 1 ≤ s.nfd
  le : s.nfd ≤ s.capacity
  pass : ∀ cbs n revents timer, ∃ s', s.pass fdOf cbs n revents timer = some s' ∧
    (∀ node, (callsOf s'.calls node).Sublist [.read, .close]) ∧
    ∀ ctx, (∀ n m, s.ctxList.data n = some ctx → s.ctxList.data m = some ctx → n = m) →
      (callsFor s'.calls ctx).Sublist [.read, .close]

/-- **The arrays and the list stay aligned** over every sequence of passes and registrations. -/
theorem aligned_of_reach {hintsMaxFd : ℤ} {closed : C → Bool}
    (hs : Steps.Reach (next fdOf) Steps.anyStep (init hintsMaxFd evfd closed) s) :
    Aligned fdOf evfd s ∧
    ∀ (t : PollLoop C) (ctx : C) (o : PollAddOutcome), (t.addCtx fdOf ctx o).2 = false →
      (t.addCtx fdOf ctx o).1.nodes = t.nodes ∧ (t.addCtx fdOf ctx o).1.fds = t.fds ∧
      (t.addCtx fdOf ctx o).1.nfd = t.nfd ∧
      (t.addCtx fdOf ctx o).1.ctxList.nodes = t.ctxList.nodes ∧
      (t.addCtx fdOf ctx o).1.ctxList.data = t.ctxList.data := by
  have hinv : Inv fdOf evfd s :=
    hs.invariant (inv_init hintsMaxFd evfd closed) fun _ _ _ h _ hnext => h.next hnext
  refine ⟨⟨hinv.lists.bijOn, fun i hpos hlt => ?_, hinv.wake, hinv.pos, hinv.le,
    fun cbs n revents timer => ?_⟩, fun t ctx o => addCtx_failed⟩
  · obtain ⟨node, ctx, -, hnode, hctx, hfd⟩ := hinv.entry hpos hlt
    exact ⟨node, ctx, hnode, hctx, hfd⟩
  · obtain ⟨s', hs', hunseen⟩ := hinv.pass cbs n revents timer
    exact ⟨s', hs', hunseen.once, fun ctx huniq => hunseen.calledOnce huniq⟩

def register (ctx : ℕ) : PollAction ℕ := .addCtx ctx ⟨true, true, true⟩

def replacing : PollCallbacks ℕ :=
  ⟨some fun _ => [.setClosed 11], some fun _ => [register 14], none, none⟩

def closeInMiddle : List (PollStep ℕ) :=
  [.act (register 10), .act (register 11), .act (register 12),
   .pass replacing 3 (fun _ => ⟨true, false, false⟩) false]

theorem aligned_closeInMiddle : ∃ s : PollLoop ℕ,
    ((List.range s.nfd).map s.nodes, (List.range s.nfd).map fun i => (s.fds i).fd,
        s.ctxList.nodes, s.calls) =
      ([none, some 0, some 3, some 2], [3, 10, 14, 12], [0, 2, 3],
        [⟨.read, 2, 12⟩, ⟨.read, 1, 11⟩, ⟨.close, 1, 11⟩, ⟨.read, 0, 10⟩]) ∧
    Aligned (fun c : ℕ => (c : ℤ)) 3 s := by
  exact Steps.exists_of_exec (init 4 3 fun _ => false) closeInMiddle (by decide)
    fun _ hs _ => (aligned_of_reach hs).1

def registeredTwice : List (PollStep ℕ) :=
  [.act (register 10), .act (register 10),
   .pass ⟨some fun _ => [], none, none, none⟩ 2 (fun _ => ⟨true, false, false⟩) false]

theorem readTwice_registeredTwice : ∃ s : PollLoop ℕ,
    Steps.Reach (next fun c : ℕ => (c : ℤ)) Steps.anyStep (init 4 3 fun _ => false) s ∧
      callsFor s.calls 10 = [.read, .read] := by
  exact Steps.exists_reach registeredTwice (by decide)

end PollLoop

end Mugglec
