import Mugglec.Sync.MaRingDelivery

/-!
# Sync/MaRingResources — what a cycle of a producer allocates and what is freed of it

`muggle_ma_ring_thread_ctx_init` allocates a ring, its buffer and its list node.  The backend frees
the node, after it has stored `DONE`; `muggle_ma_ring_thread_ctx_cleanup` waits for `DONE` and frees
the ring.  Nothing frees the buffer.
-/

namespace Mugglec

open Function

variable {T α : Type*}

def MaBackendPc.taken : MaBackendPc → List ℕ
  | .take k rest => k :: rest
  | pc => pc.todo

namespace MaRingState

def Backed (s : MaRingState T α) (k : ℕ) : Prop := .buffer k ∈ s.allocs

def PcBacked (s : MaRingState T α) (k : ℕ) : MaProducerPc → Prop
  | .insertLock | .insertLoad | .insertUnlock | .free => s.Backed k
  | .insertStore rest => ∀ j ∈ k :: rest, s.Backed j
  | _ => True

def circulating (s : MaRingState T α) : List ℕ := s.addList ++ (s.ringList ++ s.backend.taken)

structure Leaky (s : MaRingState T α) : Prop where
  made : ∀ t k, (s.producers t).ring = some k → k < s.count
  backed : ∀ k, s.Backed k → k < s.count
  kept : ∀ k, MaAlloc.buffer k ∉ s.frees
  listed : ∀ k ∈ s.circulating, s.Backed k
  pc : ∀ t k, (s.producers t).ring = some k → s.PcBacked k (s.producers t).pc
  done : ∀ k, k < s.count → (s.rings k).status = .done → s.Backed k

theorem leaky_start (junk : MaRing T α) : Leaky (start junk) where
  made := fun _ _ h => absurd h (by simp [start])
  backed := fun _ h => absurd h List.not_mem_nil
  kept := fun _ => List.not_mem_nil
  listed := fun _ h => absurd h List.not_mem_nil
  pc := fun _ _ h => absurd h (by simp [start])
  done := fun _ h => absurd h (Nat.not_lt_zero _)

section Step

variable {s s' : MaRingState T α}

theorem PcBacked.mono (hsub : s.allocs ⊆ s'.allocs) {k : ℕ} {pc : MaProducerPc}
    (h : s.PcBacked k pc) : s'.PcBacked k pc := by
  cases pc with
  | insertLock | insertLoad | insertUnlock | free => exact hsub h
  | insertStore rest => exact fun j hj => hsub (h j hj)
  | _ => trivial

namespace Leaky

variable {k : ℕ} {rings : ℕ → MaRing T α} {t : T}

theorem listed_addList (h : Leaky s) (hk : k ∈ s.addList) : s.Backed k :=
  h.listed k (List.mem_append_left _ hk)

theorem listed_ringList (h : Leaky s) (hk : k ∈ s.ringList) : s.Backed k :=
  h.listed k (List.mem_append_right _ (List.mem_append_left _ hk))

theorem listed_taken (h : Leaky s) (hk : k ∈ s.backend.taken) : s.Backed k :=
  h.listed k (List.mem_append_right _ (List.mem_append_right _ hk))

structure Onward (s s' : MaRingState T α) : Prop where
  count : s'.count = s.count
  allocs : s'.allocs = s.allocs
  kept : ∀ k, MaAlloc.buffer k ∉ s'.frees
  listed : ∀ k ∈ s'.circulating, s.Backed k
  pc : ∀ t k, (s'.producers t).ring = some k →
    (s.producers t).ring = some k ∧ s.PcBacked k (s'.producers t).pc
  done : ∀ k, k < s.count → (s'.rings k).status = .done → s.Backed k
  held : ∀ t k, (s.producers t).ring = some k → (s'.producers t).ring = some k ∨ s.Backed k

theorem onward (h : Leaky s) (hstep : Onward s s') : Leaky s' := by
  have hsub : s.allocs ⊆ s'.allocs := hstep.allocs ▸ List.Subset.refl _
  have hback : s'.allocs ⊆ s.allocs := hstep.allocs ▸ List.Subset.refl _
  exact
    { made := fun t k hk => hstep.count ▸ h.made t k (hstep.pc t k hk).1
      backed := fun k hk => hstep.count ▸ h.backed k (hback hk)
      kept := hstep.kept
      listed := fun k hk => hsub (hstep.listed k hk)
      pc := fun t k hk => (hstep.pc t k hk).2.mono hsub
      done := fun k hk hst => hsub (hstep.done k (hstep.count ▸ hk) hst) }

theorem onward_self (h : Leaky s) : Onward s s where
  count := rfl
  allocs := rfl
  kept := h.kept
  listed := h.listed
  pc := fun t k hk => ⟨hk, h.pc t k hk⟩
  done := h.done
  held := fun _ _ hk => .inl hk

theorem setBackend (h : Leaky s) (pc : MaBackendPc) (htaken : ∀ k ∈ pc.taken, s.Backed k)
    (hdone : ∀ k, k < s.count → (rings k).status = .done → s.Backed k) (o : Option (MaHolder T))
    (received : T → List α) :
    Onward s { s with backend := pc, rings := rings, spinlock := o, received := received } := by
  refine { h.onward_self with listed := fun k hk => ?_, done := hdone }
  simp only [circulating, List.mem_append] at hk
  obtain hk | hk | hk := hk
  · exact h.listed_addList hk
  · exact h.listed_ringList hk
  · exact htaken k hk

theorem update_done (h : Leaky s) {x : MaRing T α} (hx : x.status = .done → s.Backed k) (j : ℕ)
    (hj : j < s.count) (hst : (update s.rings k x j).status = .done) :
    s.Backed j := by
  by_cases hjk : j = k
  · subst hjk
    rw [update_self] at hst
    exact hx hst
  · rw [update_of_ne hjk] at hst
    exact h.done j hj hst

variable [DecidableEq T]

theorem setThread (h : Leaky s) {pc : MaProducerPc}
    (hpc : ∀ k, (s.producers t).ring = some k → s.PcBacked k pc)
    (hdone : ∀ k, k < s.count → (rings k).status = .done → s.Backed k) {addList : List ℕ}
    (hadd : ∀ k ∈ addList, s.Backed k) (r : ℕ) (handed : Option ℕ) (sent : List α)
    (o : Option (MaHolder T)) :
    Onward s { s with
      producers := update s.producers t ⟨pc, (s.producers t).ring, r, handed, sent⟩
      rings := rings
      addList := addList
      spinlock := o } := by
  refine { h.onward_self with listed := fun k hk => ?_, done := hdone, pc := ?_, held := ?_ }
  · obtain hk | hk := List.mem_append.mp hk
    · exact hadd k hk
    · exact h.listed k (List.mem_append_right _ hk)
  · intro u k hk
    by_cases hu : u = t
    · subst hu
      simp only [update_self] at hk ⊢
      exact ⟨hk, hpc k hk⟩
    · simp only [update_of_ne hu] at hk ⊢
      exact ⟨hk, h.pc u k hk⟩
  · intro u k hk
    by_cases hu : u = t
    · subst hu
      simp only [update_self]
      exact .inl hk
    · simp only [update_of_ne hu]
      exact .inl hk

theorem setFree (h : Leaky s) (hring : (s.producers t).ring = some k) (hk : s.Backed k)
    (p : MaProducer α) (hp : p.ring = none) :
    Onward s { s with producers := update s.producers t p,
                      frees := s.frees ++ [.ring k] } := by
  refine { h.onward_self with kept := fun j hj => ?_, pc := ?_, held := ?_ }
  · obtain hj | hj := List.mem_append.mp hj
    · exact h.kept j hj
    · exact absurd (List.mem_singleton.mp hj) (by simp)
  · intro u j hj
    by_cases hu : u = t
    · subst hu
      simp only [update_self, hp] at hj
      cases hj
    · simp only [update_of_ne hu] at hj ⊢
      exact ⟨hj, h.pc u j hj⟩
  · intro u j hj
    by_cases hu : u = t
    · subst hu
      obtain rfl := Option.some.inj (hring.symm.trans hj)
      exact .inr hk
    · simp only [update_of_ne hu]
      exact .inl hj

theorem producerStepOf (h : Leaky s) (hring : (s.producers t).ring = some k)
    (hnext : s.producerStepOf t k = some s') : Onward s s' := by
  have hk := h.made t k hring
  have hback := h.pc t k hring
  have hlist := fun j => h.listed_addList (k := j)
  -- the ring of `t` is `k`, whatever else of the thread a step sets
  have hof : ∀ pc, s.PcBacked k pc → ∀ j, (s.producers t).ring = some j → s.PcBacked j pc := by
    intro pc hpc j hj
    obtain rfl := Option.some.inj (hring.symm.trans hj)
    exact hpc
  have hgoto := fun pc hpc => h.setThread (hof pc hpc) h.done hlist (s.producers t).r
    (s.producers t).handed (s.producers t).sent
  rw [MaRingState.producerStepOf] at hnext
  cases hpc : (s.producers t).pc <;> simp only [hpc, Option.some.injEq, reduceCtorEq] at hnext <;>
    rw [hpc] at hback
  case insertLock =>
    split_ifs at hnext
    cases hnext
    exact hgoto .insertLoad hback _
  case insertLoad =>
    subst hnext
    exact hgoto (.insertStore s.addList) (List.forall_mem_cons.mpr ⟨hback, hlist⟩) _
  case insertStore rest =>
    subst hnext
    exact h.setThread (hof .insertUnlock (hback k List.mem_cons_self)) h.done hback _ _ _ _
  case insertUnlock =>
    subst hnext
    exact hgoto .idle trivial _
  case moveTest nextW =>
    subst hnext
    refine hgoto _ ?_ _
    split_ifs <;> trivial
  case moveLoad nextW =>
    subst hnext
    exact h.setThread (hof (.moveTest nextW) trivial) h.done hlist _ _ _ _
  case moveStore nextW =>
    subst hnext
    have hmoved : (moved (s.rings k) nextW).status = .done → s.Backed k := h.done k hk
    exact h.setThread (hof .idle trivial) (h.update_done hmoved) hlist _ _ _ _
  case join =>
    subst hnext
    refine hgoto _ ?_ _
    split_ifs <;> trivial
  case storeWait =>
    subst hnext
    refine h.setThread (hof .awaitDone trivial) (h.update_done fun hst => ?_) hlist _ _ _ _
    cases hst
  case awaitDone =>
    subst hnext
    refine hgoto _ ?_ _
    by_cases hst : (s.rings k).status = .done
    · rw [if_pos hst]
      exact h.done k hk hst
    · rw [if_neg hst]
      trivial
  case free =>
    subst hnext
    exact h.setFree hring hback _ rfl

theorem backendStep (h : Leaky s) {c : ℕ} (hnext : s.backendStep c = some s') : Onward s s' := by
  have htaken := fun k => h.listed_taken (k := k)
  rw [MaRingState.backendStep] at hnext
  generalize hpc : s.backend = pc at hnext htaken
  cases pc with
  | lock =>
    dsimp only at hnext
    split_ifs at hnext
    cases hnext
    exact h.setBackend .handleNew (fun _ hk => absurd hk List.not_mem_nil) h.done _ _
  | handleNew =>
    dsimp only at hnext
    split at hnext <;> cases hnext
    · exact h.setBackend .unlock (fun _ hk => absurd hk List.not_mem_nil) h.done _ _
    · next k rest hadd =>
      exact h.setBackend (.take k rest) (fun j hj => h.listed_addList (hadd ▸ hj)) h.done _ _
  | take k rest =>
    cases hnext
    refine { h.onward_self with listed := fun j hj => ?_ }
    simp only [circulating, List.mem_append, List.mem_cons] at hj
    obtain hj | (rfl | hj) | hj := hj
    · exact htaken j (List.mem_cons_of_mem k hj)
    · exact htaken j List.mem_cons_self
    · exact h.listed_ringList hj
    · exact absurd hj List.not_mem_nil
  | unlock =>
    cases hnext
    exact h.setBackend (.consume _) (fun _ hk => h.listed_ringList hk) h.done _ _
  | consume todo =>
    cases todo with
    | nil =>
      cases hnext
      exact h.setBackend (.remove _) (fun _ hk => h.listed_ringList hk) h.done _ _
    | cons k todo =>
      cases hnext
      exact h.setBackend (.loadR k todo _) htaken h.done _ _
  | loadR k todo w =>
    cases hnext
    exact h.setBackend (.callback k todo w _ 0) htaken h.done _ _
  | callback k todo w r n =>
    obtain ⟨hk, htodo⟩ := List.forall_mem_cons.mp htaken
    dsimp only at hnext
    split_ifs at hnext <;> cases hnext
    · exact h.setBackend (.callback k todo w (MaRing.nextPos c r) (n + 1)) htaken
        (h.update_done fun _ => hk) _ _
    · exact h.setBackend (.consume todo) htodo (h.update_done fun _ => hk) _ _
    · exact h.setBackend (.consume todo) htodo h.done _ _
  | remove todo =>
    cases todo with
    | nil =>
      cases hnext
      exact h.setBackend .lock (fun _ hk => absurd hk List.not_mem_nil) h.done _ _
    | cons k todo =>
      dsimp only at hnext
      split_ifs at hnext <;> cases hnext
      · exact h.setBackend (.storeDone k todo) htaken h.done _ _
      · exact h.setBackend (.remove todo) (List.forall_mem_cons.mp htaken).2 h.done _ _
  | storeDone k todo =>
    cases hnext
    exact h.setBackend (.unlink k todo) htaken
      (h.update_done fun _ => htaken k List.mem_cons_self) _ _
  | unlink k todo =>
    cases hnext
    refine { h.onward_self with kept := fun j hj => ?_, listed := fun j hj => ?_ }
    · obtain hj | hj := List.mem_append.mp hj
      · exact h.kept j hj
      · exact absurd (List.mem_singleton.mp hj) (by simp)
    · simp only [circulating, List.mem_append] at hj
      obtain hj | hj | hj := hj
      · exact h.listed_addList hj
      · exact h.listed_ringList (List.mem_of_mem_erase hj)
      · exact htaken j (List.mem_cons_of_mem k hj)

theorem backed_makeRing {g : MaGrants} {junk : ℕ → α} :
    (s.makeRing t g junk).Backed k ↔ s.Backed k ∨ k = s.count ∧ g.buffer = true := by
  simp only [Backed, MaRingState.makeRing, List.mem_append, MaGrants.allocs]
  refine or_congr_right ?_
  by_cases hg : g.buffer = true <;> by_cases hn : g.node = true <;> simp [hg, hn]

theorem makeRing (h : Leaky s) (t : T) (g : MaGrants) (junk : ℕ → α) :
    Leaky (s.makeRing t g junk) := by
  have hsub : s.allocs ⊆ (s.makeRing t g junk).allocs := List.subset_append_left _ _
  refine ⟨fun u k hk => ?_, fun k hk => ?_, h.kept, fun k hk => hsub (h.listed k hk),
    fun u k hk => ?_, fun k hk hst => ?_⟩
  · simp only [MaRingState.makeRing, update_apply] at hk ⊢
    split_ifs at hk
    · cases hk
      exact Nat.lt_succ_self _
    · exact Nat.lt_succ_of_lt (h.made u k hk)
  · obtain hk | ⟨rfl, -⟩ := backed_makeRing.mp hk
    · exact Nat.lt_succ_of_lt (h.backed k hk)
    · exact Nat.lt_succ_self _
  · by_cases hu : u = t
    · subst hu
      have hself : ((s.makeRing u g junk).producers u).pc = g.pc ∧
          ((s.makeRing u g junk).producers u).ring = some s.count := by
        simp only [MaRingState.makeRing, update_self, and_self]
      obtain rfl := Option.some.inj (hself.2.symm.trans hk)
      rw [hself.1, MaGrants.pc]
      split_ifs with hg
      · obtain ⟨hbuffer, -⟩ := (Bool.and_eq_true _ _).mp hg
        exact backed_makeRing.mpr (.inr ⟨rfl, hbuffer⟩)
      · trivial
    · have hpc : (s.makeRing t g junk).producers u = s.producers u := update_of_ne hu _ _
      rw [hpc] at hk ⊢
      exact (h.pc u k hk).mono hsub
  · simp only [MaRingState.makeRing, update_apply] at hk hst
    split_ifs at hst with hk'
    · exact absurd hst (by simp [newRing])
    · exact hsub (h.done k (by omega) hst)

theorem next_cases (h : Leaky s) {c : ℕ} {a : MaRingStep T α} (hnext : s.next c a = some s') :
    (∃ t g junk, (s.producers t).ring = none ∧ s' = s.makeRing t g junk) ∨ Onward s s' := by
  have hlist := fun j => h.listed_addList (k := j)
  cases a with
  | init t g junk =>
    rw [MaRingState.next] at hnext
    split_ifs at hnext
    cases hnext
    obtain heq | ⟨hring, heq⟩ := s.threadCtxInit_cases t g junk <;> rw [heq]
    · exact .inr h.onward_self
    · exact .inl ⟨t, g, junk, hring, rfl⟩
  | alloc t | move t =>
    rw [MaRingState.next] at hnext
    split at hnext
    · next hpc _ =>
      cases hnext
      refine .inr (h.setThread (fun j _ => ?_) h.done hlist _ _ _ _)
      first | trivial | (rw [hpc]; trivial)
    · cases hnext
  | fill t data =>
    rw [MaRingState.next] at hnext
    split at hnext
    · next k b hpc hring _ =>
      cases hnext
      exact .inr { h.onward_self with done := h.update_done (h.done k (h.made t k hring)) }
    · cases hnext
  | cleanup t =>
    rw [MaRingState.next] at hnext
    split_ifs at hnext
    split at hnext <;> cases hnext
    · have hjoin : ∀ k, (s.producers t).ring = some k → s.PcBacked k .join := fun _ _ => trivial
      exact .inr (h.setThread hjoin h.done hlist _ _ _ _)
    · exact .inr h.onward_self
  | producer t =>
    obtain ⟨k, hring, hstep⟩ := Option.bind_eq_some_iff.mp hnext
    exact .inr (h.producerStepOf hring hstep)
  | backend => exact .inr (h.backendStep hnext)

theorem next (h : Leaky s) {c : ℕ} {a : MaRingStep T α} (hnext : s.next c a = some s') :
    Leaky s' := by
  obtain ⟨t, g, junk, -, rfl⟩ | hstep := h.next_cases hnext
  · exact h.makeRing t g junk
  · exact h.onward hstep

end Leaky

end Step

section Cycle

variable [DecidableEq T] {s s' : MaRingState T α}

structure Had (t : T) (k : ℕ) (buffer : Prop) (s : MaRingState T α) : Prop where
  leaky : Leaky s
  made : k < s.count
  held : (s.producers t).ring = some k ∨ s.Backed k
  buffer : s.Backed k ↔ buffer

theorem Had.next {t : T} {k : ℕ} {buffer : Prop} (h : Had t k buffer s) {c : ℕ}
    {a : MaRingStep T α} (hnext : s.next c a = some s') : Had t k buffer s' := by
  have hmade := h.made
  refine ⟨h.leaky.next hnext, ?_, ?_, ?_⟩ <;>
    obtain ⟨u, g, junk, hnone, rfl⟩ | hstep := h.leaky.next_cases hnext
  · exact Nat.lt_succ_of_lt h.made
  · exact hstep.count ▸ h.made
  · refine h.held.imp (fun hring => ?_) (fun hk => List.mem_append_left _ hk)
    have hu : t ≠ u := by
      rintro rfl
      exact absurd (hnone.symm.trans hring) (by simp)
    have hsame : (s.makeRing u g junk).producers t = s.producers t := update_of_ne hu _ _
    rw [hsame]
    exact hring
  · rw [Backed, hstep.allocs]
    obtain hring | hk := h.held
    · exact hstep.held t k hring
    · exact .inr hk
  · -- the new buffer is that of another ring
    rw [Leaky.backed_makeRing, h.buffer, or_iff_left]
    rintro ⟨rfl, -⟩
    exact absurd hmade (lt_irrefl _)
  · rw [Backed, hstep.allocs, ← h.buffer, Backed]

def Balanced (s s₁ s₂ : MaRingState T α) : Prop :=
  ∀ x ∈ s₁.allocs.drop s.allocs.length, s₂.frees.count x = 1

def CleanedUp (t : T) (s₁ s₂ : MaRingState T α) : Prop :=
  ∀ k, (s₁.producers t).ring = some k → (s₂.producers t).ring ≠ some k

theorem not_balanced_makeRing (h : Leaky s) {t : T} {g : MaGrants} {junk : ℕ → α} {c : ℕ}
    {s₂ : MaRingState T α}
    (hrun : Steps.Reach (next c) Steps.anyStep (s.makeRing t g junk) s₂)
    (hclean : CleanedUp t (s.makeRing t g junk) s₂) : ¬ Balanced s (s.makeRing t g junk) s₂ := by
  have hring : ((s.makeRing t g junk).producers t).ring = some s.count :=
    congrArg MaProducer.ring (update_self t _ s.producers)
  have hhad : Had t s.count (g.buffer = true) s₂ := by
    refine hrun.invariant ⟨h.makeRing t g junk, Nat.lt_succ_self _, .inl hring, ?_⟩
      fun _ _ _ hinv _ hnext => hinv.next hnext
    rw [Leaky.backed_makeRing, or_iff_right fun hk => absurd (h.backed _ hk) (lt_irrefl _)]
    exact and_iff_right rfl
  have hbuffer : g.buffer = true := hhad.buffer.mp (hhad.held.resolve_left (hclean _ hring))
  have hmem : MaAlloc.buffer s.count ∈ (s.makeRing t g junk).allocs.drop s.allocs.length := by
    rw [MaRingState.makeRing, List.drop_left, MaGrants.allocs, if_pos hbuffer]
    exact List.mem_cons_of_mem _ List.mem_cons_self
  intro hbal
  have hone := hbal _ hmem
  rw [List.count_eq_zero_of_not_mem (hhad.leaky.kept _)] at hone
  exact absurd hone (by decide)

/-- **A cycle of a producer is balanced exactly if its init allocated nothing.** -/
theorem balanced_iff {c : ℕ} {junk₀ : MaRing T α} {t : T} {g : MaGrants} {junk : ℕ → α}
    {s₁ s₂ : MaRingState T α} (hs : Steps.Reach (next c) Steps.anyStep (start junk₀) s)
    (hinit : s.next c (.init t g junk) = some s₁)
    (hrun : Steps.Reach (next c) Steps.anyStep s₁ s₂) (hclean : CleanedUp t s₁ s₂) :
    Balanced s s₁ s₂ ↔ (s.producers t).ring ≠ none ∨ g.ring = false := by
  have h : Leaky s := hs.invariant (leaky_start junk₀) fun _ _ _ hinv _ hnext => hinv.next hnext
  rw [MaRingState.next] at hinit
  split_ifs at hinit
  cases hinit
  rw [threadCtxInit] at hrun hclean ⊢
  cases hring : (s.producers t).ring with
  | some k =>
    refine iff_of_true (fun x hx => absurd hx ?_) (.inl (by simp))
    rw [List.drop_length]
    exact List.not_mem_nil
  | none =>
    simp only [hring] at hrun hclean ⊢
    by_cases hg : g.ring = true
    · simp only [if_pos hg] at hrun hclean ⊢
      exact iff_of_false (not_balanced_makeRing h hrun hclean) (by simp [hg])
    · rw [if_neg hg]
      refine iff_of_true (fun x hx => absurd hx ?_) (.inr (by simpa using hg))
      rw [List.drop_length]
      exact List.not_mem_nil

def oneCycle : List (MaRingStep Unit ℕ) := List.flatten
  [connect (), List.replicate 9 .backend, .cleanup () :: List.replicate 2 (.producer ()),
   List.replicate 2 .backend, List.replicate 2 (.producer ()), [.backend]]

theorem exec_oneCycle :
    ∃ s, Steps.exec (next 2) (start ⟨(), 0, 0, .normal, fun _ => 0, [], []⟩) oneCycle = some s ∧
      (s.producers ()).pc = .idle ∧ (s.producers ()).ring = none ∧
      s.allocs = [.ring 0, .buffer 0, .node 0] ∧ s.frees = [.ring 0, .node 0] := by
  decide

theorem balanced_refused :
    ∃ s, Steps.exec (next 2) (start ⟨(), 0, 0, .normal, fun _ => 0, [], []⟩) oneCycle = some s ∧
      s.next 2 (.init () ⟨false, true, true⟩ fun _ => 0) = some s ∧
      s.next 2 (.cleanup ()) = some s ∧ Balanced s s s := by
  obtain ⟨s, hs, hpc, hring, -⟩ := exec_oneCycle
  have hinit : s.next 2 (.init () ⟨false, true, true⟩ fun _ => 0) = some s := by
    simp [MaRingState.next, threadCtxInit, hpc, hring]
  have hclean : s.next 2 (.cleanup ()) = some s := by
    simp only [MaRingState.next, hpc, hring, if_true]
  refine ⟨s, hs, hinit, hclean, ?_⟩
  exact (balanced_iff (Steps.Reach.of_exec _ hs) hinit (.step .start trivial hclean)
    fun k hk => absurd (hring.symm.trans hk) (by simp)).mpr (.inr rfl)

theorem leaves_buffer :
    ∃ s₁ s₂ : MaRingState Unit ℕ,
      Steps.exec (next 2) (start ⟨(), 0, 0, .normal, fun _ => 0, [], []⟩) (oneCycle.take 1) =
        some s₁ ∧
      Steps.exec (next 2) s₁ (oneCycle.drop 1) = some s₂ ∧ CleanedUp () s₁ s₂ ∧
      s₁.allocs = [.ring 0, .buffer 0, .node 0] ∧ s₂.frees = [.ring 0, .node 0] ∧
      ¬ Balanced (start ⟨(), 0, 0, .normal, fun _ => 0, [], []⟩) s₁ s₂ := by
  obtain ⟨s₂, hs, -, hring, -, hfrees⟩ := exec_oneCycle
  obtain ⟨s₁, hs₁, hs₂⟩ := Option.bind_eq_some_iff.mp hs
  have hallocs : s₁.allocs = [.ring 0, .buffer 0, .node 0] := by
    cases hs₁
    rfl
  refine ⟨s₁, s₂, ?_, hs₂, fun k _ => ?_, hallocs, hfrees, fun hbal => ?_⟩
  · exact Option.bind_eq_some_iff.mpr ⟨s₁, hs₁, rfl⟩
  · rw [hring]
    simp
  · have hone := hbal (.buffer 0) (by rw [hallocs]; decide)
    rw [hfrees] at hone
    exact absurd hone (by decide)

end Cycle

end MaRingState

end Mugglec
