import Mugglec.Event.EvloopPollPass
import Mugglec.Event.EvloopSelect

/-!
# Event/EvloopSelectSet — what the `select` loop passes to `select`

Between passes `allset` holds the wake descriptor and those of the contexts in `ctx_list`, and
`nfds` is the largest of them (`Exact`).  During a pass they are being built up again.
-/

namespace Mugglec

variable {C : Type*} {fdOf : C → ℤ} {evfd : ℤ}

namespace CtxList

variable {l : CtxList C} {ctx : C} {xs ys : List ℕ} {node : ℕ}

def descs (fdOf : C → ℤ) (l : CtxList C) (nodes : List ℕ) : Set ℤ :=
  {fd | ∃ node ∈ nodes, ∃ ctx, l.data node = some ctx ∧ fdOf ctx = fd}

@[simp] theorem descs_nil : descs fdOf l [] = ∅ := by
  ext fd
  simp [descs]

@[simp] theorem descs_concat : descs fdOf l (xs ++ ys) = descs fdOf l xs ∪ descs fdOf l ys := by
  ext fd
  simp only [descs, List.mem_append, Set.mem_union, Set.mem_ofPred_eq, or_and_right, exists_or]

theorem descs_cons (h : l.data node = some ctx) :
    descs fdOf l (node :: xs) = insert (fdOf ctx) (descs fdOf l xs) := by
  ext fd
  simp [descs, h, eq_comm]

theorem descs_congr {l' : CtxList C} (h : ∀ node ∈ xs, l'.data node = l.data node) :
    descs fdOf l' xs = descs fdOf l xs := by
  ext fd
  refine exists_congr fun node => and_congr_right fun hmem => ?_
  rw [h node hmem]

theorem descs_append (hxs : xs ⊆ l.nodes) :
    descs fdOf (l.append ctx) (xs ++ [l.fresh]) = insert (fdOf ctx) (descs fdOf l xs) := by
  have hnew : (l.append ctx).data l.fresh = some ctx := Function.update_self ..
  rw [descs_concat, descs_cons hnew, descs_nil,
    descs_congr fun node hmem => l.data_append ctx (hxs hmem), Set.union_comm, Set.insert_union,
    Set.empty_union]

theorem notMem_of_split (h : l.nodes = xs ++ node :: ys) : node ∉ xs ∧ node ∉ ys := by
  have hnodup := l.nodup
  rw [h, List.nodup_middle, List.nodup_cons, List.mem_append, not_or] at hnodup
  exact hnodup.1

theorem next_eq (h : l.nodes = xs ++ node :: ys) : l.next node = ys.head? := by
  rw [CtxList.next, h, List.idxOf_append_of_notMem (notMem_of_split h).1, List.idxOf_cons_self]
  simp

theorem nodes_remove (h : l.nodes = xs ++ node :: ys) : (l.remove node).nodes = xs ++ ys := by
  change l.nodes.erase node = xs ++ ys
  rw [h, List.erase_append_right _ (notMem_of_split h).1, List.erase_cons_head]

end CtxList

namespace SelectLoop

open CtxList

variable {s s' : SelectLoop C}

structure Exact (fdOf : C → ℤ) (evfd : ℤ) (s : SelectLoop C) : Prop where
  allset : (s.allset : Set ℤ) = insert evfd (descs fdOf s.ctxList s.ctxList.nodes)
  nfds : IsGreatest (s.allset : Set ℤ) s.nfds

def added (s : SelectLoop C) (nodes : List ℕ) : List ℕ := nodes.filter (s.begun ≤ ·)

theorem added_subset (s : SelectLoop C) (nodes : List ℕ) : s.added nodes ⊆ nodes :=
  List.filter_sublist.subset

def Cleared (fdOf : C → ℤ) (s : SelectLoop C) : Prop :=
  (s.allset : Set ℤ) = descs fdOf s.ctxList (s.added s.ctxList.nodes)

structure Building (fdOf : C → ℤ) (evfd : ℤ) (s : SelectLoop C) (done rest : List ℕ) : Prop where
  nodes : s.ctxList.nodes = done ++ rest
  allset : (s.allset : Set ℤ) = insert evfd (descs fdOf s.ctxList (done ++ s.added rest))
  mem : s.nfds ∈ s.allset
  wake : evfd ≤ s.nfds
  le : ∀ fd ∈ descs fdOf s.ctxList done, fd ≤ s.nfds

def AtPc (fdOf : C → ℤ) (evfd : ℤ) (s : SelectLoop C) : Prop :=
  match s.pc with
  | .select | .timer => Exact fdOf evfd s
  | .wakeup _ => Cleared fdOf s
  | .visit node _ => ∃ done rest, Building fdOf evfd s done rest ∧ node = rest.head?
  | .closing node _ => ∃ done rest, Building fdOf evfd s done (node :: rest)

structure Inv (fdOf : C → ℤ) (evfd : ℤ) (s : SelectLoop C) : Prop where
  begun : s.begun ≤ s.ctxList.fresh
  atPc : AtPc fdOf evfd s

theorem inv_init (evfd : ℤ) (closed : C → Bool) : Inv fdOf evfd (init evfd closed) := by
  refine ⟨le_refl 0, ?_, ?_⟩
  · simp [init, CtxList.empty]
  · simp [init]

theorem nfds_setFd (s : SelectLoop C) (fd : ℤ) : (s.setFd fd).nfds = max s.nfds fd := by
  simp only [setFd]
  split_ifs <;> omega

theorem coe_setFd (s : SelectLoop C) (fd : ℤ) :
    ((s.setFd fd).allset : Set ℤ) = insert fd (s.allset : Set ℤ) :=
  Finset.coe_insert ..

theorem nfds_mem_setFd (h : s.nfds ∈ s.allset) (fd : ℤ) :
    (s.setFd fd).nfds ∈ (s.setFd fd).allset := by
  rw [nfds_setFd]
  rcases max_choice s.nfds fd with hmax | hmax <;> rw [hmax]
  · exact Finset.mem_insert_of_mem h
  · exact Finset.mem_insert_self ..

def withCtx (fdOf : C → ℤ) (ctx : C) (s : SelectLoop C) : SelectLoop C :=
  { s.setFd (fdOf ctx) with ctxList := s.ctxList.append ctx }

theorem coe_withCtx (s : SelectLoop C) (ctx : C) :
    ((s.withCtx fdOf ctx).allset : Set ℤ) = insert (fdOf ctx) (s.allset : Set ℤ) :=
  s.coe_setFd (fdOf ctx)

variable (fdOf) in
theorem addCtx_cases (s : SelectLoop C) (ctx : C) (o : PollAddOutcome) :
    s.addCtx fdOf ctx o = s ∨ s.addCtx fdOf ctx o = s.withCtx fdOf ctx := by
  obtain ⟨sameThread, setNonblock, node⟩ := o
  cases sameThread <;> cases setNonblock <;> cases node <;> try exact .inl rfl
  exact .inr rfl

theorem Exact.registered (h : Exact fdOf evfd s) (ctx : C) :
    Exact fdOf evfd (s.withCtx fdOf ctx) := by
  refine ⟨?_, ?_⟩
  · rw [coe_withCtx, h.allset, Set.insert_comm]
    exact congrArg _ (descs_append (List.Subset.refl _)).symm
  · rw [coe_withCtx]
    have hnfds : (s.withCtx fdOf ctx).nfds = max (fdOf ctx) s.nfds :=
      (s.nfds_setFd (fdOf ctx)).trans (max_comm _ _)
    rw [hnfds]
    exact h.nfds.insert (fdOf ctx)

theorem added_concat (s : SelectLoop C) (ctx : C) (nodes : List ℕ) (h : s.begun ≤ s.ctxList.fresh) :
    (s.withCtx fdOf ctx).added (nodes ++ [s.ctxList.fresh]) =
      s.added nodes ++ [s.ctxList.fresh] := by
  simp [added, withCtx, setFd, h]

theorem Cleared.registered (h : Cleared fdOf s) (hbegun : s.begun ≤ s.ctxList.fresh) (ctx : C) :
    Cleared fdOf (s.withCtx fdOf ctx) := by
  rw [Cleared, coe_withCtx, h]
  have hnodes : (s.withCtx fdOf ctx).ctxList.nodes = s.ctxList.nodes ++ [s.ctxList.fresh] := rfl
  rw [hnodes, s.added_concat ctx _ hbegun]
  exact (descs_append (s.added_subset _)).symm

variable {done rest : List ℕ}

theorem Building.registered (h : Building fdOf evfd s done rest)
    (hbegun : s.begun ≤ s.ctxList.fresh) (ctx : C) :
    Building fdOf evfd (s.withCtx fdOf ctx) done (rest ++ [s.ctxList.fresh]) := by
  have hnfds : (s.withCtx fdOf ctx).nfds = max s.nfds (fdOf ctx) := s.nfds_setFd (fdOf ctx)
  have hdone : done ⊆ s.ctxList.nodes := h.nodes ▸ List.subset_append_left _ _
  have hsub : done ++ s.added rest ⊆ s.ctxList.nodes := by
    rw [h.nodes]
    exact List.append_subset.mpr ⟨List.subset_append_left _ _,
      List.Subset.trans (s.added_subset rest) (List.subset_append_right _ _)⟩
  refine ⟨?_, ?_, nfds_mem_setFd h.mem (fdOf ctx), ?_, ?_⟩
  · change s.ctxList.nodes ++ [s.ctxList.fresh] = done ++ (rest ++ [s.ctxList.fresh])
    rw [h.nodes, List.append_assoc]
  · rw [coe_withCtx, h.allset, Set.insert_comm, s.added_concat ctx rest hbegun,
      ← List.append_assoc]
    exact congrArg _ (descs_append hsub).symm
  · rw [hnfds]
    exact h.wake.trans (le_max_left _ _)
  · intro fd hfd
    rw [hnfds]
    have hold : descs fdOf (s.withCtx fdOf ctx).ctxList done = descs fdOf s.ctxList done :=
      descs_congr fun node hmem => s.ctxList.data_append ctx (hdone hmem)
    rw [hold] at hfd
    exact (h.le fd hfd).trans (le_max_left _ _)

theorem Building.setPc (h : Building fdOf evfd s done rest) (pc : SelectPc) :
    Building fdOf evfd { s with pc := pc } done rest :=
  ⟨h.nodes, h.allset, h.mem, h.wake, h.le⟩

theorem Building.exact (h : Building fdOf evfd s done []) : Exact fdOf evfd s := by
  have hnodes : s.ctxList.nodes = done := h.nodes.trans (List.append_nil _)
  have hset : (s.allset : Set ℤ) = insert evfd (descs fdOf s.ctxList done) := by
    rw [h.allset]
    exact congrArg (insert evfd ∘ descs fdOf s.ctxList) (List.append_nil done)
  refine ⟨hnodes ▸ hset, h.mem, fun fd hfd => ?_⟩
  rw [hset] at hfd
  rcases hfd with rfl | hfd
  · exact h.wake
  · exact h.le fd hfd

theorem Building.keep {node : ℕ} {ctx : C}
    (h : Building fdOf evfd s done (node :: rest)) (hctx : s.ctxList.data node = some ctx) :
    Building fdOf evfd (s.setFd (fdOf ctx)) (done ++ [node]) rest := by
  have hone : descs fdOf s.ctxList [node] = {fdOf ctx} := by
    rw [descs_cons hctx, descs_nil, insert_empty_eq]
  have hnew : insert (fdOf ctx) (descs fdOf s.ctxList (s.added (node :: rest))) =
      insert (fdOf ctx) (descs fdOf s.ctxList (s.added rest)) := by
    by_cases hle : s.begun ≤ node
    · rw [added, List.filter_cons_of_pos (by simpa using hle), descs_cons hctx, Set.insert_idem]
      rfl
    · rw [added, List.filter_cons_of_neg (by simpa using hle)]
      rfl
  refine ⟨?_, ?_, nfds_mem_setFd h.mem (fdOf ctx), ?_, fun fd hfd => ?_⟩
  · rw [List.append_assoc]
    exact h.nodes
  · change ((s.setFd (fdOf ctx)).allset : Set ℤ) =
      insert evfd (descs fdOf s.ctxList (done ++ [node] ++ s.added rest))
    rw [coe_setFd, h.allset, Set.insert_comm, descs_concat, ← Set.union_insert, hnew,
      descs_concat, descs_concat, hone, Set.union_assoc, Set.singleton_union]
  · rw [nfds_setFd]
    exact h.wake.trans (le_max_left _ _)
  · change fd ∈ descs fdOf s.ctxList (done ++ [node]) at hfd
    rw [descs_concat, hone] at hfd
    rw [nfds_setFd]
    rcases hfd with hfd | rfl
    · exact (h.le fd hfd).trans (le_max_left _ _)
    · exact le_max_right _ _

theorem Building.drop {node : ℕ}
    (h : Building fdOf evfd s done (node :: rest)) (hold : node < s.begun) :
    Building fdOf evfd { s with ctxList := s.ctxList.remove node } done rest := by
  obtain ⟨hdone, hrest⟩ := notMem_of_split h.nodes
  have hkept : ∀ xs : List ℕ, node ∉ xs →
      descs fdOf (s.ctxList.remove node) xs = descs fdOf s.ctxList xs := fun xs hnot =>
    descs_congr fun n hmem => s.ctxList.data_remove fun heq => hnot (heq ▸ hmem)
  have hadded : s.added (node :: rest) = s.added rest :=
    List.filter_cons_of_neg (by simpa using hold)
  refine ⟨nodes_remove h.nodes, ?_, h.mem, h.wake, fun fd hfd => h.le fd ?_⟩
  · change (s.allset : Set ℤ) =
      insert evfd (descs fdOf (s.ctxList.remove node) (done ++ s.added rest))
    rw [h.allset, hadded, hkept]
    rw [List.mem_append, not_or]
    exact ⟨hdone, fun hmem => hrest (s.added_subset rest hmem)⟩
  · rwa [← hkept done hdone]

theorem Inv.setFlags (h : Inv fdOf evfd s) (closed : C → Bool) :
    Inv fdOf evfd { s with closed := closed } := by
  refine ⟨h.begun, ?_⟩
  have hat := h.atPc
  rw [AtPc] at hat ⊢
  cases hpc : s.pc <;> simp only [hpc] at hat ⊢
  case select | timer => exact ⟨hat.allset, hat.nfds⟩
  case wakeup => exact hat
  case visit =>
    obtain ⟨done, rest, hb, hhead⟩ := hat
    exact ⟨done, rest, ⟨hb.nodes, hb.allset, hb.mem, hb.wake, hb.le⟩, hhead⟩
  case closing =>
    obtain ⟨done, rest, hb⟩ := hat
    exact ⟨done, rest, hb.nodes, hb.allset, hb.mem, hb.wake, hb.le⟩

variable [DecidableEq C]

variable (fdOf) in
theorem act_cases (s : SelectLoop C) (a : PollAction C) :
    (∃ closed, s.act fdOf a = { s with closed := closed }) ∨
      ∃ ctx, s.act fdOf a = s.withCtx fdOf ctx := by
  cases a with
  | setClosed ctx => exact .inl ⟨_, rfl⟩
  | addCtx ctx o =>
    rcases addCtx_cases fdOf s ctx o with heq | heq
    · exact .inl ⟨s.closed, heq⟩
    · exact .inr ⟨ctx, heq⟩

theorem callback_induction {P : SelectLoop C → Prop} (s : SelectLoop C)
    (actions : List (PollAction C)) (hs : P s)
    (hflag : ∀ s closed, P s → P { s with closed := closed })
    (hctx : ∀ s ctx, P s → P (s.withCtx fdOf ctx)) : P (s.callback fdOf actions) := by
  induction actions generalizing s with
  | nil => exact hs
  | cons a rest ih =>
    refine ih (s.act fdOf a) ?_
    rcases act_cases fdOf s a with ⟨closed, heq⟩ | ⟨ctx, heq⟩ <;> rw [heq]
    · exact hflag s closed hs
    · exact hctx s ctx hs

theorem begun_callback (s : SelectLoop C) (actions : List (PollAction C)) :
    (s.callback fdOf actions).begun = s.begun :=
  callback_induction (P := fun t => t.begun = s.begun) s actions rfl (fun _ _ h => h) fun _ _ h => h

theorem begun_le_callback (h : s.begun ≤ s.ctxList.fresh) (actions : List (PollAction C)) :
    (s.callback fdOf actions).begun ≤ (s.callback fdOf actions).ctxList.fresh :=
  callback_induction (P := fun t => t.begun ≤ t.ctxList.fresh) s actions h (fun _ _ h => h)
    fun _ _ h => h.trans (Nat.le_succ _)

theorem Exact.callback (h : Exact fdOf evfd s) (actions : List (PollAction C)) :
    Exact fdOf evfd (s.callback fdOf actions) :=
  callback_induction s actions h (fun _ _ h => ⟨h.allset, h.nfds⟩) fun _ ctx h => h.registered ctx

theorem Cleared.callback (h : Cleared fdOf s) (hbegun : s.begun ≤ s.ctxList.fresh)
    (actions : List (PollAction C)) : Cleared fdOf (s.callback fdOf actions) := by
  refine (callback_induction (P := fun s => Cleared fdOf s ∧ s.begun ≤ s.ctxList.fresh) s actions
    ⟨h, hbegun⟩ (fun _ _ h => h) fun t ctx h => ⟨h.1.registered h.2 ctx, ?_⟩).1
  exact h.2.trans (Nat.le_succ _)

theorem Building.callback (h : Building fdOf evfd s done rest)
    (hbegun : s.begun ≤ s.ctxList.fresh) (actions : List (PollAction C)) :
    ∃ new, Building fdOf evfd (s.callback fdOf actions) done (rest ++ new) := by
  refine (callback_induction (P := fun s => (∃ new, Building fdOf evfd s done (rest ++ new)) ∧
    s.begun ≤ s.ctxList.fresh) s actions ⟨⟨[], by rwa [List.append_nil]⟩, hbegun⟩ ?_ ?_).1
  · rintro t closed ⟨⟨new, h⟩, hbegun⟩
    exact ⟨⟨new, h.nodes, h.allset, h.mem, h.wake, h.le⟩, hbegun⟩
  · rintro t ctx ⟨⟨new, h⟩, hbegun⟩
    have hnext := h.registered hbegun ctx
    rw [List.append_assoc] at hnext
    exact ⟨⟨_, hnext⟩, hbegun.trans (Nat.le_succ _)⟩

theorem Cleared.handleWakeup (h : Cleared fdOf s) (hbegun : s.begun ≤ s.ctxList.fresh)
    (rset : Finset ℤ) (actions : List (PollAction C)) :
    Building fdOf evfd (s.handleWakeup fdOf evfd rset actions) []
      (s.handleWakeup fdOf evfd rset actions).ctxList.nodes := by
  have hcleared : Cleared fdOf (if evfd ∈ rset then s.callback fdOf actions else s) := by
    split_ifs
    · exact h.callback hbegun actions
    · exact h
  refine ⟨rfl, ?_, Finset.mem_insert_self _ _, le_refl _, by simp⟩
  rw [SelectLoop.handleWakeup, Finset.coe_insert, hcleared]
  rfl

def closesOld (s : SelectLoop C) (a : SelectStep C) : Bool :=
  match a, s.pc with
  | .closing _, .closing node _ =>
    (s.ctxList.data node).all fun ctx => !s.closed ctx || decide (node < s.begun)
  | _, _ => true

theorem inv_closing (h : Inv fdOf evfd s) {node : ℕ} {rset : Finset ℤ}
    (hpc : s.pc = .closing node rset) {actions : List (PollAction C)}
    (hok : s.closesOld (.closing actions)) (hnext : s.next fdOf evfd (.closing actions) = some s') :
    Inv fdOf evfd s' := by
  obtain ⟨hbegun, hat⟩ := h
  rw [AtPc, hpc] at hat
  obtain ⟨done, rest, hb⟩ := hat
  simp only [next, hpc, Option.map_eq_some_iff] at hnext
  obtain ⟨ctx, hctx, rfl⟩ := hnext
  simp only [closesOld, hpc, hctx, Option.all_some, Bool.or_eq_true, Bool.not_eq_true',
    decide_eq_true_eq] at hok
  split_ifs with hclosed
  · have hold : node < s.begun := hok.resolve_left (by simp [hclosed])
    obtain ⟨new, hb'⟩ := hb.callback hbegun actions
    refine ⟨begun_le_callback hbegun actions, done, rest ++ new, ?_, next_eq hb'.nodes⟩
    exact (hb'.drop (by rwa [s.begun_callback])).setPc _
  · exact ⟨hbegun, done ++ [node], rest, (hb.keep hctx).setPc _, next_eq hb.nodes⟩

theorem Inv.next (h : Inv fdOf evfd s) {a : SelectStep C} (hok : s.closesOld a)
    (hnext : s.next fdOf evfd a = some s') : Inv fdOf evfd s' := by
  have hat := h.atPc
  have hbegun := h.begun
  rw [AtPc] at hat
  cases a with
  | register ctx o =>
    cases hpc : s.pc <;> simp only [SelectLoop.next, hpc, reduceCtorEq] at hnext hat
    cases hnext
    rcases addCtx_cases fdOf s ctx o with heq | heq <;> rw [heq]
    · exact h
    · refine ⟨hbegun.trans (Nat.le_succ _), ?_⟩
      rw [AtPc, show (s.withCtx fdOf ctx).pc = .select from hpc]
      exact hat.registered ctx
  | setClosed ctx =>
    obtain rfl : s.setClosed ctx = s' := by simpa [SelectLoop.next] using hnext
    exact h.setFlags _
  | select n rset =>
    cases hpc : s.pc <;> simp only [SelectLoop.next, hpc, reduceCtorEq] at hnext hat
    split_ifs at hnext <;> cases hnext
    · refine ⟨le_refl _, ?_⟩
      have hnone : s.ctxList.nodes.filter (s.ctxList.fresh ≤ ·) = [] := by
        rw [List.filter_eq_nil_iff]
        exact fun node hmem => by simpa using s.ctxList.lt_fresh node hmem
      simp only [AtPc, Cleared, added, hnone, descs_nil, Finset.coe_empty]
    · exact ⟨hbegun, hat.allset, hat.nfds⟩
  | wakeup actions =>
    cases hpc : s.pc <;> simp only [SelectLoop.next, hpc, reduceCtorEq] at hnext hat
    cases hnext
    refine ⟨?_, [], _, (hat.handleWakeup hbegun _ actions).setPc _, rfl⟩
    simp only [SelectLoop.handleWakeup]
    split_ifs
    · exact begun_le_callback hbegun actions
    · exact hbegun
  | visit actions =>
    cases hpc : s.pc with
    | visit node rset =>
      simp only [hpc] at hat
      obtain ⟨done, rest, hb, hhead⟩ := hat
      cases node with
      | none =>
        simp only [SelectLoop.next, hpc] at hnext
        cases hnext
        obtain rfl := List.head?_eq_none_iff.mp hhead.symm
        exact ⟨hbegun, (hb.setPc .timer).exact⟩
      | some node =>
        simp only [SelectLoop.next, hpc, Option.map_eq_some_iff] at hnext
        obtain ⟨ctx, hctx, rfl⟩ := hnext
        obtain ⟨rest, rfl⟩ := List.head?_eq_some_iff.mp hhead.symm
        split_ifs
        · obtain ⟨new, hb'⟩ := hb.callback hbegun actions
          exact ⟨begun_le_callback hbegun actions, done, rest ++ new, hb'.setPc _⟩
        · exact ⟨hbegun, done, rest, hb.setPc _⟩
    | _ => simp [SelectLoop.next, hpc] at hnext
  | closing actions =>
    cases hpc : s.pc with
    | closing node rset => exact inv_closing h hpc hok hnext
    | _ => simp [SelectLoop.next, hpc] at hnext
  | timer due actions =>
    cases hpc : s.pc <;> simp only [SelectLoop.next, hpc, reduceCtorEq] at hnext hat
    cases hnext
    cases due with
    | false => exact ⟨hbegun, hat.allset, hat.nfds⟩
    | true =>
      have hexact := hat.callback actions
      exact ⟨begun_le_callback hbegun actions, hexact.allset, hexact.nfds⟩

/-- **At every call of `select` the set is exact**, if what a pass finds closed is older than it. -/
theorem exactSet_of_reach {closed : C → Bool}
    (hs : Steps.Reach (next fdOf evfd) (fun s a => s.closesOld a = true) (init evfd closed) s)
    (hpc : s.pc = .select) : Exact fdOf evfd s := by
  have hinv : Inv fdOf evfd s :=
    hs.invariant (inv_init evfd closed) fun _ _ _ h hok hnext => h.next hok hnext
  have hat := hinv.atPc
  rwa [AtPc, hpc] at hat

def granted (ctx : ℕ) : PollAction ℕ := .addCtx ctx ⟨true, true, true⟩

def replaceOne : List (SelectStep ℕ) :=
  [.register 10 ⟨true, true, true⟩, .select 2 {3, 10}, .wakeup [granted 11],
   .visit [.setClosed 10], .closing [], .visit [], .closing [], .visit [], .timer false []]

theorem exactSet_replaceOne : ∃ s : SelectLoop ℕ,
    (s.pc, s.allset, s.nfds, s.ctxList.nodes) = (.select, {3, 11}, 11, [1]) ∧
    Exact (fun c : ℕ => (c : ℤ)) 3 s := by
  exact Steps.exists_of_execWhen (init 3 fun _ => false) replaceOne (by decide)
    fun _ hs hview => exactSet_of_reach hs (congrArg Prod.fst hview)

theorem closed_descriptor_stays :
    (Steps.exec (next (fun c : ℕ => (c : ℤ)) 3) (init 3 fun _ => false)
      [.register 9 ⟨true, true, true⟩, .select 1 {9}, .wakeup [],
       .visit [granted 10, .setClosed 10], .closing [], .visit [], .closing [], .visit [],
       .timer false []]).map (fun s => (s.pc, s.allset, s.nfds, s.ctxList.nodes)) =
      some (.select, {3, 9, 10}, 10, [0]) := by
  decide

end SelectLoop

end Mugglec
