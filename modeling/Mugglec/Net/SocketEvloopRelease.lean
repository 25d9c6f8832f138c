import Mugglec.Net.SocketEvloop

/-!
# Net/SocketEvloopRelease — the loop drops every reference it was given, once

Every context the loop knows is in exactly one place: in the queue, among the contexts the loop
still has to close or clear, among those it has released, or lost.  A step moves contexts between
these places (`SocketEvloopState.Placed`), and a reference count is what the loop still holds plus
what others hold (`CtxRefs.Balanced`).
-/

namespace Mugglec

open Function

namespace CtxRefs

variable {r : CtxRefs} {c n : ℕ}

@[simp] theorem release_refs : (r.release c).refs = update r.refs c (r.refs c - 1) := by
  unfold release
  split <;> simp_all

@[simp] theorem release_drops : (r.release c).drops = r.drops := by
  unfold release
  split <;> rfl

@[simp] theorem release_held : (r.release c).held = r.held := by
  unfold release
  split <;> rfl

theorem release_closes :
    (r.release c).closes = if r.refs c = 1 then c :: r.closes else r.closes := by
  unfold release
  split <;> simp_all

theorem release_frees (h : r.frees = r.closes) : (r.release c).frees = (r.release c).closes := by
  unfold release
  split <;> simp_all

@[simp] theorem retain_refs : (r.retain c).refs = update r.refs c (r.refs c + 1) := rfl

@[simp] theorem init_refs : (r.init c).refs = update r.refs c 1 := rfl

structure Balanced (r : CtxRefs) (n : ℕ) : Prop where
  refs : ∀ c, r.refs c = (if c < n ∧ c ∉ r.drops then 1 else 0) + r.held c
  closes : ∀ c, r.closes.count c = if c < n ∧ r.refs c = 0 then 1 else 0
  frees : r.frees = r.closes
  held : ∀ c, n ≤ c → r.held c = 0
  drops : ∀ c ∈ r.drops, c < n

theorem count_release (h : r.Balanced n) (hc : c < n) (hpos : r.refs c ≠ 0) (d : ℕ) :
    (r.release c).closes.count d = if d < n ∧ (r.release c).refs d = 0 then 1 else 0 := by
  have hd := h.closes d
  rw [release_closes, release_refs]
  by_cases hdc : d = c
  · subst hdc
    rw [update_self]
    rw [if_neg fun hn => hpos hn.2] at hd
    by_cases h1 : r.refs d = 1
    · rw [if_pos h1, List.count_cons_self, hd, if_pos ⟨hc, by rw [h1]⟩]
    · rw [if_neg h1, hd, if_neg fun hn => h1 (by omega)]
  · rw [update_of_ne hdc, ← hd]
    split
    · exact List.count_cons_of_ne (Ne.symm hdc)
    · rfl

namespace Balanced

theorem releaseCtx (h : r.Balanced n) (hc : c < n) (hnew : c ∉ r.drops) :
    (r.releaseCtx c).Balanced n := by
  have hrefs : r.refs c = 1 + r.held c := by rw [h.refs c, if_pos ⟨hc, hnew⟩]
  have hpos : r.refs c ≠ 0 := by omega
  refine ⟨fun d => ?_, count_release h hc hpos, release_frees h.frees, ?_, ?_⟩
  · change (r.release c).refs d = _ + (r.release c).held d
    rw [release_refs, release_held]
    by_cases hdc : d = c
    · subst hdc
      rw [update_self, hrefs, if_neg (by simp [CtxRefs.releaseCtx])]
      omega
    · rw [update_of_ne hdc, h.refs d]
      simp [CtxRefs.releaseCtx, hdc]
  · intro d hd
    change (r.release c).held d = 0
    rw [release_held, h.held d hd]
  · intro d hd
    rcases List.mem_cons.mp hd with rfl | hd
    · exact hc
    · exact h.drops d hd

theorem giveUp (h : r.Balanced n) (hpos : r.held c ≠ 0) : (r.giveUp c).Balanced n := by
  have hc : c < n := by
    by_contra hn
    exact hpos (h.held c (not_lt.mp hn))
  have hrefs := h.refs c
  refine ⟨fun d => ?_, count_release h hc (by omega), release_frees h.frees, fun d hd => ?_, ?_⟩
  · change (r.release c).refs d = (if d < n ∧ d ∉ (r.release c).drops then 1 else 0) +
      update r.held c (r.held c - 1) d
    rw [release_refs, release_drops]
    by_cases hdc : d = c
    · subst hdc
      rw [update_self, update_self]
      omega
    · rw [update_of_ne hdc, update_of_ne hdc, h.refs d]
  · change update r.held c (r.held c - 1) d = 0
    rw [update_of_ne (by omega), h.held d hd]
  · change ∀ d ∈ (r.release c).drops, d < n
    rw [release_drops]
    exact h.drops

theorem retain (h : r.Balanced n) (hpos : r.refs c ≠ 0) : (r.retain c).Balanced n := by
  have hc : c < n := by
    by_contra hn
    have hrefs := h.refs c
    rw [if_neg fun hlt => hn hlt.1, h.held c (not_lt.mp hn)] at hrefs
    exact hpos hrefs
  refine ⟨fun d => ?_, fun d => ?_, h.frees, fun d hd => ?_, h.drops⟩
  · change _ = (if d < n ∧ d ∉ r.drops then 1 else 0) + update r.held c (r.held c + 1) d
    rw [retain_refs]
    by_cases hdc : d = c
    · subst hdc
      rw [update_self, update_self, h.refs d, add_assoc]
    · rw [update_of_ne hdc, update_of_ne hdc, h.refs d]
  · rw [retain_refs]
    refine (h.closes d).trans ?_
    by_cases hdc : d = c
    · subst hdc
      rw [update_self, if_neg fun hn => hpos hn.2,
        if_neg fun hn => Nat.succ_ne_zero _ hn.2]
    · rw [update_of_ne hdc]
  · exact (update_of_ne (by omega) _ _).trans (h.held d hd)

theorem init (h : r.Balanced n) : (r.init n).Balanced (n + 1) := by
  refine ⟨fun d => ?_, fun d => ?_, h.frees, fun d hd => h.held d (by omega),
    fun d hd => (h.drops d hd).trans (Nat.lt_succ_self n)⟩
  · change _ = (if d < n + 1 ∧ d ∉ r.drops then 1 else 0) + r.held d
    rw [init_refs]
    by_cases hdn : d = n
    · subst hdn
      rw [update_self, h.held d le_rfl,
        if_pos ⟨Nat.lt_succ_self d, fun hd => lt_irrefl d (h.drops d hd)⟩]
    · rw [update_of_ne hdn, h.refs d]
      simp only [Nat.lt_succ_iff_lt_or_eq, hdn, or_false]
  · rw [init_refs]
    refine (h.closes d).trans ?_
    by_cases hdn : d = n
    · subst hdn
      rw [update_self, if_neg fun hn => lt_irrefl d hn.1,
        if_neg fun hn => one_ne_zero hn.2]
    · rw [update_of_ne hdn]
      simp only [Nat.lt_succ_iff_lt_or_eq, hdn, or_false]

theorem discard (h : r.Balanced n) : ((r.init n).discard n).Balanced (n + 1) := by
  have hone : (r.init n).refs n = 1 := update_self n 1 r.refs
  have hnew : n ∉ (r.init n).drops := fun hn => lt_irrefl n (h.drops n hn)
  -- with a count of one, freeing at once is what releasing does
  have hsame : (r.init n).discard n = (r.init n).releaseCtx n := by
    unfold CtxRefs.releaseCtx release
    rw [hone]
    rfl
  rw [hsame]
  exact h.init.releaseCtx (Nat.lt_succ_self n) hnew

theorem closed_once (h : r.Balanced n) (hc : c < n) (hdrop : c ∈ r.drops) (hheld : r.held c = 0) :
    r.closes.count c = 1 ∧ r.frees.count c = 1 := by
  have hrefs : r.refs c = 0 := by
    rw [h.refs c, if_neg fun hn => hn.2 hdrop, hheld]
  rw [h.frees, h.closes c, if_pos ⟨hc, hrefs⟩]
  exact ⟨rfl, rfl⟩

end Balanced

end CtxRefs

namespace SocketEvloopState

variable {cfg : SocketEvloopConfig} {s s' : SocketEvloopState} {a : SocketEvloopStep} {c : ℕ}

def live (s : SocketEvloopState) : List ℕ :=
  match s.phase with
  | .looping => s.ctxList
  | .clearing rest => rest
  | .exiting | .returned => []

def stock (s : SocketEvloopState) (c : ℕ) : ℕ :=
  s.queue.count c + s.live.count c + s.lost.count c

structure Accounted (s : SocketEvloopState) : Prop where
  placed : ∀ c, s.stock c + s.drops.count c = if c < s.count then 1 else 0
  balanced : s.toCtxRefs.Balanced s.count
  returned : s.phase = .returned → s.queue = []

theorem stock_looping (h : s.phase = .looping) (d : ℕ) :
    s.stock d = s.queue.count d + s.ctxList.count d + s.lost.count d := by
  rw [stock, live, h]

theorem stock_pos (hc : c ∈ s.queue ∨ c ∈ s.live) : 0 < s.stock c := by
  unfold stock
  rcases hc with hc | hc
  · exact Nat.add_pos_left (Nat.add_pos_left (List.count_pos_iff.mpr hc) _) _
  · exact Nat.add_pos_left (Nat.add_pos_right _ (List.count_pos_iff.mpr hc)) _

theorem lt_succ_count (n c : ℕ) :
    (if c < n + 1 then 1 else 0) = (if c < n then 1 else 0) + [n].count c := by
  rw [List.count_singleton]
  by_cases h : c = n
  · subst h
    simp
  · simp only [Nat.lt_succ_iff_lt_or_eq, h, or_false, beq_iff_eq, Ne.symm h, if_false, add_zero]

namespace Accounted

theorem not_mem_drops (h : s.Accounted) (hc : 0 < s.stock c) : c < s.count ∧ c ∉ s.drops := by
  have hplaced := h.placed c
  by_cases hlt : c < s.count
  · rw [if_pos hlt] at hplaced
    exact ⟨hlt, List.count_eq_zero.mp (by omega)⟩
  · rw [if_neg hlt] at hplaced
    omega

theorem move (h : s.Accounted) (hrefs : s'.toCtxRefs = s.toCtxRefs) (hcount : s'.count = s.count)
    (hstock : ∀ d, s'.stock d = s.stock d) (hret : s'.phase = .returned → s'.queue = []) :
    s'.Accounted := by
  refine ⟨fun d => ?_, ?_, hret⟩
  · rw [hstock d, hcount, hrefs]
    exact h.placed d
  · rw [hrefs, hcount]
    exact h.balanced

theorem enter (h : s.Accounted) (hrefs : s'.toCtxRefs = s.toCtxRefs.init s.count)
    (hcount : s'.count = s.count + 1) (hstock : ∀ d, s'.stock d = s.stock d + [s.count].count d)
    (hret : s'.phase = .returned → s'.queue = []) : s'.Accounted := by
  refine ⟨fun d => ?_, ?_, hret⟩
  · have hplaced := h.placed d
    have hdrops : s'.drops = (s.toCtxRefs.init s.count).drops := congrArg CtxRefs.drops hrefs
    rw [hstock d, hcount, hdrops, lt_succ_count]
    change _ + s.drops.count d = _
    omega
  · rw [hrefs, hcount]
    exact h.balanced.init

theorem release (h : s.Accounted) (hc : 0 < s.stock c)
    (hrefs : s'.toCtxRefs = s.toCtxRefs.releaseCtx c) (hcount : s'.count = s.count)
    (hstock : ∀ d, s'.stock d + [c].count d = s.stock d)
    (hret : s'.phase = .returned → s'.queue = []) : s'.Accounted := by
  refine ⟨fun d => ?_, ?_, hret⟩
  · have hplaced := h.placed d
    have hdrops : s'.drops = [c] ++ s.drops := congrArg CtxRefs.drops hrefs
    rw [hcount, hdrops, List.count_append]
    rw [← hstock d] at hplaced
    omega
  · rw [hrefs, hcount]
    exact h.balanced.releaseCtx (h.not_mem_drops hc).1 (h.not_mem_drops hc).2

theorem addCtx (h : s.Accounted) (hp : s.phase ≠ .returned) (listens enqueued : Bool) :
    (s.addCtx listens enqueued).Accounted := by
  unfold SocketEvloopState.addCtx
  split
  · refine h.enter rfl rfl (fun d => ?_) fun hret => absurd hret hp
    change (s.queue ++ [s.count]).count d + s.live.count d + s.lost.count d = _
    rw [List.count_append, stock]
    omega
  · refine h.enter rfl rfl (fun d => ?_) fun hret => absurd hret hp
    change s.queue.count d + s.live.count d + ([s.count] ++ s.lost).count d = _
    rw [List.count_append, stock]
    omega

end Accounted

theorem eq_of_evloopAddCtx {o : AddOutcome} (h : s.evloopAddCtx cfg o c = some s') :
    s' = { s with ctxList := s.ctxList ++ [c], nfd := s.nfd + 1 } := by
  unfold evloopAddCtx at h
  split_ifs at h
  exact (Option.some.inj h).symm

namespace Accounted

theorem register (h : s.Accounted) (hp : s.phase = .looping) {listens : Bool} {o : AddOutcome}
    (hs' : (s.create listens).evloopAddCtx cfg o s.count = some s') :
    s'.Accounted ∧ s'.phase = .looping := by
  obtain rfl := eq_of_evloopAddCtx hs'
  refine ⟨h.enter rfl rfl (fun d => ?_) fun hret => ?_, hp⟩
  · refine (stock_looping (by exact hp) d).trans ?_
    change s.queue.count d + (s.ctxList ++ [s.count]).count d + s.lost.count d = _
    rw [List.count_append, stock_looping hp]
    omega
  · exact absurd (hp.symm.trans hret) (by simp)

theorem wakeRound (h : s.Accounted) (hp : s.phase = .looping) {rest : List ℕ}
    (hq : s.queue = c :: rest) {ctxList lost : List ℕ} (nfd : ℤ)
    (hmoved : ∀ d, ctxList.count d + lost.count d =
      s.ctxList.count d + s.lost.count d + [c].count d) :
    ({ s with queue := rest, ctxList := ctxList, lost := lost, nfd := nfd } :
      SocketEvloopState).Accounted := by
  refine h.move rfl rfl (fun d => ?_) fun hret => absurd (hp.symm.trans hret) (by simp)
  refine (stock_looping (by exact hp) d).trans ?_
  have hd := hmoved d
  have hfront : s.queue.count d = [c].count d + rest.count d := by
    rw [hq, ← List.count_append, List.singleton_append]
  rw [stock_looping hp]
  change rest.count d + ctxList.count d + lost.count d = _
  omega

theorem wakeLoop (o : ℕ → AddOutcome) : ∀ (q : List ℕ) {s : SocketEvloopState}, s.Accounted →
    s.phase = .looping → s.queue = q → (wakeLoop cfg o q s).Accounted := by
  intro q
  -- the list is what is left of the queue
  induction q with
  | nil => exact fun h _ _ => h
  | cons c rest ih =>
    intro s h hp hq
    unfold SocketEvloopState.wakeLoop
    split
    · next s' hs' =>
      obtain rfl := eq_of_evloopAddCtx hs'
      refine ih (h.wakeRound hp hq _ fun d => ?_) hp rfl
      change (s.ctxList ++ [c]).count d + s.lost.count d = _
      rw [List.count_append]
      omega
    · refine ih (h.wakeRound hp hq _ fun d => ?_) hp rfl
      change _ + ([c] ++ s.lost).count d = _
      rw [List.count_append]
      omega

theorem acceptLoop (listener : ℕ) : ∀ (os : List AcceptOutcome) {s : SocketEvloopState},
    s.Accounted → s.phase = .looping → (acceptLoop cfg listener os s).Accounted := by
  intro os
  induction os with
  | nil => exact fun h _ => h
  | cons o os ih =>
    intro s h hp
    cases o with
    | wouldBlock => exact h
    | failed => exact ⟨h.placed, h.balanced, h.returned⟩
    | noContext => exact h
    | accepted o =>
      unfold SocketEvloopState.acceptLoop
      split
      · next s' hs' =>
        obtain ⟨h', hp'⟩ := h.register hp hs'
        exact ih h' hp'
      · refine ⟨fun d => ?_, h.balanced.discard, h.returned⟩
        have hplaced := h.placed d
        change s.stock d + ([s.count] ++ s.drops).count d = if d < s.count + 1 then 1 else 0
        rw [List.count_append, lt_succ_count]
        omega

theorem onClose (h : s.Accounted) (hp : s.phase = .looping) (hc : c ∈ s.ctxList) :
    (s.onClose c).Accounted := by
  have hlive : c ∈ s.live := by rw [live, hp]; exact hc
  refine h.release (stock_pos (.inr hlive)) rfl rfl (fun d => ?_)
    fun hret => absurd (hp.symm.trans hret) (by simp)
  have herase := (List.perm_cons_erase hc).count_eq d
  rw [← List.singleton_append, List.count_append] at herase
  rw [stock_looping hp, herase, stock_looping (s := s.onClose c) hp]
  change s.queue.count d + (s.ctxList.erase c).count d + s.lost.count d + _ = _
  omega

theorem exitLoop : ∀ (q : List ℕ) {s : SocketEvloopState}, s.Accounted → s.phase = .exiting →
    s.queue = q → (exitLoop q s).Accounted ∧ (exitLoop q s).phase = .exiting ∧
      (exitLoop q s).queue = [] := by
  intro q
  induction q with
  | nil => exact fun h hp hq => ⟨h, hp, hq⟩
  | cons c rest ih =>
    intro s h hp hq
    have hmem : c ∈ s.queue := by rw [hq]; exact List.mem_cons_self
    refine ih (h.release (stock_pos (.inl hmem)) rfl rfl (fun d => ?_)
      fun hret => absurd (hp.symm.trans hret) (by simp)) hp rfl
    rw [stock, stock, hq]
    change rest.count d + s.live.count d + s.lost.count d + _ =
      ([c] ++ rest).count d + s.live.count d + s.lost.count d
    rw [List.count_append]
    omega

theorem clear (h : s.Accounted) {rest : List ℕ} (hp : s.phase = .clearing (c :: rest)) :
    ({ s with toCtxRefs := s.toCtxRefs.releaseCtx c, phase := .clearing rest } :
      SocketEvloopState).Accounted := by
  have hlive : s.live = c :: rest := by rw [live, hp]
  have hmem : c ∈ s.live := by rw [hlive]; exact List.mem_cons_self
  refine h.release (stock_pos (.inr hmem)) rfl rfl (fun d => ?_) fun hret => absurd hret (by simp)
  have hfront : s.live.count d = [c].count d + rest.count d := by
    rw [hlive, ← List.count_append, List.singleton_append]
  rw [stock, stock, hfront]
  change s.queue.count d + rest.count d + s.lost.count d + _ = _
  omega

theorem setPhase (h : s.Accounted) {phase : RunPhase}
    (hlive : ({ s with phase := phase } : SocketEvloopState).live = s.live)
    (hret : phase = .returned → s.queue = []) :
    ({ s with phase := phase } : SocketEvloopState).Accounted :=
  h.move rfl rfl (fun d => by rw [stock, hlive, stock]) hret

theorem step (h : s.Accounted) (hnext : s.next cfg a = some s') : s'.Accounted := by
  cases a with
  | addCtx listens enqueued =>
    obtain ⟨hp, rfl⟩ := Option.ite_some_none_eq_some.mp hnext
    exact h.addCtx hp listens enqueued
  | register listens o =>
    obtain ⟨hp, hs'⟩ := Option.ite_none_right_eq_some.mp hnext
    exact (h.register hp hs').1
  | wake o =>
    obtain ⟨hp, rfl⟩ := Option.ite_some_none_eq_some.mp hnext
    exact h.wakeLoop o s.queue hp rfl
  | accept c os =>
    obtain ⟨⟨hp, -⟩, rfl⟩ := Option.ite_some_none_eq_some.mp hnext
    exact h.acceptLoop c os hp
  | flag c =>
    obtain ⟨-, rfl⟩ := Option.ite_some_none_eq_some.mp hnext
    exact ⟨h.placed, h.balanced, h.returned⟩
  | close c =>
    obtain ⟨⟨hp, hc, -⟩, rfl⟩ := Option.ite_some_none_eq_some.mp hnext
    exact h.onClose hp hc
  | leave =>
    obtain ⟨hp, rfl⟩ := Option.ite_some_none_eq_some.mp hnext
    exact h.setPhase (by rw [live, live, hp]) fun hret => absurd hret (by simp)
  | clear =>
    simp only [next] at hnext
    split at hnext
    · next c rest hp =>
      cases hnext
      exact h.clear hp
    · next hp =>
      cases hnext
      exact h.setPhase (by rw [live, live, hp]) fun hret => absurd hret (by simp)
    · simp at hnext
  | exit =>
    obtain ⟨hp, rfl⟩ := Option.ite_some_none_eq_some.mp hnext
    obtain ⟨h', hp', hq'⟩ := h.exitLoop s.queue hp rfl
    exact h'.setPhase (by rw [live, live, hp']) fun _ => hq'
  | retain c =>
    obtain ⟨hpos, rfl⟩ := Option.ite_some_none_eq_some.mp hnext
    exact ⟨h.placed, h.balanced.retain hpos, h.returned⟩
  | giveUp c =>
    obtain ⟨hpos, rfl⟩ := Option.ite_some_none_eq_some.mp hnext
    refine ⟨fun d => ?_, h.balanced.giveUp hpos, h.returned⟩
    change s.stock d + (s.toCtxRefs.release c).drops.count d = _
    rw [CtxRefs.release_drops]
    exact h.placed d

end Accounted

theorem accounted_start : start.Accounted := by
  refine ⟨fun c => by simp [stock, live, start], ?_, fun _ => rfl⟩
  exact ⟨fun c => by simp [start], fun c => by simp [start], rfl, fun _ _ => rfl, by simp [start]⟩

/-- **The loop has dropped its reference to `c` exactly once.** -/
def Released (s : SocketEvloopState) (c : ℕ) : Prop :=
  s.drops.count c = 1 ∧ (s.held c = 0 → s.closes.count c = 1 ∧ s.frees.count c = 1)

theorem Accounted.released_iff_lost_eq_nil (h : s.Accounted) (hret : s.phase = .returned) :
    (∀ c < s.count, s.Released c) ↔ s.lost = [] := by
  have hplaced : ∀ c, s.lost.count c + s.drops.count c = if c < s.count then 1 else 0 := by
    intro c
    have hc := h.placed c
    rw [stock, h.returned hret, live, hret] at hc
    simpa using hc
  constructor
  · intro hall
    refine List.eq_nil_iff_forall_not_mem.mpr fun c hc => ?_
    have hpos := List.count_pos_iff.mpr hc
    have hplaced := hplaced c
    by_cases hlt : c < s.count
    · rw [if_pos hlt, (hall c hlt).1] at hplaced
      omega
    · rw [if_neg hlt] at hplaced
      omega
  · intro hnil c hc
    have hdrops := hplaced c
    rw [hnil, List.count_nil, zero_add, if_pos hc] at hdrops
    refine ⟨hdrops, h.balanced.closed_once hc (List.count_pos_iff.mp ?_)⟩
    rw [hdrops]
    exact one_pos

variable (cfg) in
def wakeAdds (o : ℕ → AddOutcome) : List ℕ → SocketEvloopState → Bool
  | [], _ => true
  | c :: rest, s =>
    match s.evloopAddCtx cfg (o c) c with
    | some s' => wakeAdds o rest { s' with queue := rest }
    | none => false

variable (cfg) in
def Kept (s : SocketEvloopState) (a : SocketEvloopStep) : Prop :=
  match a with
  | .addCtx _ enqueued => enqueued = true
  | .wake o => wakeAdds cfg o s.queue s = true
  | _ => True

theorem wakeLoop_lost (o : ℕ → AddOutcome) : ∀ (q : List ℕ) {s : SocketEvloopState},
    wakeAdds cfg o q s = true → (wakeLoop cfg o q s).lost = s.lost := by
  intro q
  induction q with
  | nil => exact fun _ => rfl
  | cons c rest ih =>
    intro s h
    cases hs' : s.evloopAddCtx cfg (o c) c with
    | none =>
      rw [wakeAdds, hs'] at h
      cases h
    | some s' =>
      rw [wakeAdds, hs'] at h
      rw [wakeLoop, hs']
      change (wakeLoop cfg o rest _).lost = _
      rw [ih h, eq_of_evloopAddCtx hs']

theorem acceptLoop_lost (listener : ℕ) : ∀ (os : List AcceptOutcome) {s : SocketEvloopState},
    (acceptLoop cfg listener os s).lost = s.lost := by
  intro os
  induction os with
  | nil => exact rfl
  | cons o os ih =>
    intro s
    cases o with
    | wouldBlock | failed | noContext => rfl
    | accepted o =>
      unfold acceptLoop
      split
      · next s' hs' =>
        rw [ih, eq_of_evloopAddCtx hs']
        rfl
      · rfl

theorem exitLoop_lost : ∀ (q : List ℕ) {s : SocketEvloopState}, (exitLoop q s).lost = s.lost := by
  intro q
  induction q with
  | nil => exact rfl
  | cons c rest ih => exact ih

theorem lost_of_kept (hok : Kept cfg s a) (hnext : s.next cfg a = some s') : s'.lost = s.lost := by
  cases a with
  | addCtx listens enqueued =>
    obtain ⟨-, rfl⟩ := Option.ite_some_none_eq_some.mp hnext
    have henq : enqueued = true := hok
    rw [addCtx, if_pos henq]
    rfl
  | register listens o =>
    obtain ⟨-, hs'⟩ := Option.ite_none_right_eq_some.mp hnext
    rw [eq_of_evloopAddCtx hs']
    rfl
  | wake o =>
    obtain ⟨-, rfl⟩ := Option.ite_some_none_eq_some.mp hnext
    exact wakeLoop_lost o s.queue hok
  | accept c os =>
    obtain ⟨-, rfl⟩ := Option.ite_some_none_eq_some.mp hnext
    exact acceptLoop_lost c os
  | exit =>
    obtain ⟨-, rfl⟩ := Option.ite_some_none_eq_some.mp hnext
    exact exitLoop_lost s.queue
  | clear =>
    simp only [next] at hnext
    split at hnext
    · cases hnext
      rfl
    · cases hnext
      rfl
    · simp at hnext
  | flag | close | leave | retain | giveUp =>
    obtain ⟨-, rfl⟩ := Option.ite_some_none_eq_some.mp hnext
    rfl

/-- **Every context is released exactly once** in a run that loses none. -/
theorem released_of_kept (hs : Steps.Reach (fun s => s.next cfg) (Kept cfg) start s)
    (hret : s.phase = .returned) : ∀ c < s.count, s.Released c := by
  have hinv : s.Accounted ∧ s.lost = [] := by
    refine hs.invariant (P := fun s => s.Accounted ∧ s.lost = []) ⟨accounted_start, rfl⟩ ?_
    intro s a s' h hok hnext
    exact ⟨h.1.step hnext, (lost_of_kept hok hnext).trans h.2⟩
  exact (hinv.1.released_iff_lost_eq_nil hret).mpr hinv.2

instance (s : SocketEvloopState) (a : SocketEvloopStep) : Decidable (Kept cfg s a) :=
  match a with
  | .addCtx _ _ | .wake _ => inferInstanceAs (Decidable (_ = true))
  | .register _ _ | .accept _ _ | .flag _ | .close _ | .leave | .clear | .exit | .retain _
  | .giveUp _ => isTrue trivial

def onePoll : SocketEvloopConfig := ⟨.poll, 1⟩

def succeeds : AddOutcome := ⟨true, true, true⟩

def acceptWhenFull : List SocketEvloopStep :=
  [.addCtx true true, .wake fun _ => succeeds, .accept 0 [.accepted succeeds], .leave, .clear,
    .clear, .exit]

def wakeWhenFull : List SocketEvloopStep :=
  [.addCtx false true, .addCtx false true, .wake fun _ => succeeds, .leave, .clear, .clear, .exit]

theorem released_acceptWhenFull : ∃ s : SocketEvloopState,
    (s.phase, s.count, s.drops, s.frees) = (.returned, 2, [0, 1], [0, 1]) ∧
      ∀ c < s.count, s.Released c := by
  exact Steps.exists_of_execWhen start acceptWhenFull (by decide)
    fun s (hs : Steps.Reach (fun s => s.next onePoll) (Kept onePoll) start s) hlogs =>
      released_of_kept hs (Prod.ext_iff.mp hlogs).1

theorem not_released_wakeWhenFull : ∃ s : SocketEvloopState,
    Steps.Reach (fun s => s.next onePoll) Steps.anyStep start s ∧ s.phase = .returned ∧
      ¬ ∀ c < s.count, s.Released c := by
  obtain ⟨s, hs, hphase, hcount, hdrops⟩ : ∃ s,
      Steps.exec (fun s => s.next onePoll) start wakeWhenFull = some s ∧ s.phase = .returned ∧
      s.count = 2 ∧ s.drops = [0] := by
    decide
  refine ⟨s, Steps.Reach.of_exec wakeWhenFull hs, hphase, fun hall => ?_⟩
  have hone := (hall 1 (by rw [hcount]; exact one_lt_two)).1
  rw [hdrops] at hone
  exact absurd hone (by decide)

end SocketEvloopState

end Mugglec
