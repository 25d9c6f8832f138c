import Mugglec.Sync.MaRingBackend

/-!
# Sync/MaRingDelivery — every message once, in order, before its ring goes

The invariant of `Sync/MaRingBackend` is kept by the producers as well.  A producer touches only its
own ring.
-/

namespace Mugglec

open Function

variable {T α : Type*}

namespace MaRingState

structure Advances (x y : MaRing T α) : Prop where
  tid : y.tid = x.tid
  status : y.status = x.status ∨ x.status = .normal ∧ y.status = .waitRemove
  delivered : y.delivered = x.delivered
  moved : x.moved.length ≤ y.moved.length

section Advances

variable {c k n : ℕ} {x y : MaRing T α} {rings : ℕ → MaRing T α} {b : MaBackendPc}

theorem advances_refl (x : MaRing T α) : Advances x x := ⟨rfl, .inl rfl, rfl, le_refl _⟩

theorem Advances.status_eq (h : Advances x y) (hx : x.status ≠ .normal) : y.status = x.status :=
  h.status.resolve_right fun hn => hx hn.1

theorem Advances.done (h : Advances x y) (hy : y.status = .done) : x.status = .done := by
  rcases h.status with heq | ⟨-, hw⟩
  · exact heq.symm.trans hy
  · exact absurd (hw.symm.trans hy) (by simp)

theorem Loaded.advance {w : ℕ} (h : Loaded c x w) (hadv : Advances x y) : Loaded c y w := by
  obtain ⟨m, hw, hle, hm⟩ := h
  exact ⟨m, hw, hadv.delivered.symm ▸ hle, hm.trans hadv.moved⟩

theorem BackendOk.advance (h : BackendOk c rings b) (hadv : Advances (rings k) y) :
    BackendOk c (update rings k y) b := by
  have hall : ∀ j, Advances (rings j) (update rings k y j) :=
    (forall_update_iff rings fun j y => Advances (rings j) y).mpr
      ⟨hadv, fun j _ => advances_refl _⟩
  cases b with
  | loadR j _ w => exact Loaded.advance h (hall j)
  | callback j _ w r _ =>
    refine ⟨h.1.advance (hall j), ?_⟩
    rw [(hall j).delivered]
    exact h.2
  | storeDone j _ => exact ((hall j).status_eq (by rw [show _ from h]; simp)).trans h
  | unlink j _ => exact ((hall j).status_eq (by rw [show _ from h]; simp)).trans h
  | lock | handleNew | take | unlock | consume | remove => trivial

theorem BackendOk.congr (h : BackendOk c rings b) {rings' : ℕ → MaRing T α}
    (heq : ∀ j ∈ b.todo, rings' j = rings j) : BackendOk c rings' b := by
  cases b with
  | loadR j _ _ | callback j _ _ _ _ | storeDone j _ | unlink j _ =>
    simp only [BackendOk, heq j List.mem_cons_self]
    exact h
  | lock | handleNew | take | unlock | consume | remove => trivial

end Advances

section Attached

variable {c n : ℕ} {t : T} {p : MaProducer α} {x : MaRing T α} {listed : Prop} {got : List α}

theorem Attached.handed_eq_none (h : Attached c t p x n listed got) (hpc : p.pc ≠ .idle) :
    p.handed = none :=
  Option.eq_none_iff_forall_ne_some.mpr fun b hb => hpc (h.handed b hb).1

theorem Attached.goto (h : Attached c t p x n listed got) (hpc : p.pc ≠ .idle) {pc : MaProducerPc}
    (hplace : PlaceOk c p.r x listed pc) : Attached c t { p with pc := pc } x n listed got where
  tid := h.tid
  cached := h.cached
  place := hplace
  handed := fun b hb => absurd (h.handed b hb).1 hpc
  logs := h.logs

theorem Attached.load (h : Attached c t p x n listed got) (hok : RingOk c x n) {w : ℕ}
    (hpc : p.pc = .moveLoad w) :
    Attached c t { p with pc := .moveTest w, r := x.rpos } x n listed got where
  tid := h.tid
  cached := by
    rw [hok.rpos]
    exact cached_load hok.room
  place := by
    have hplace := h.place
    rwa [hpc] at hplace
  handed := fun b hb => absurd (h.handed b hb).1 (by simp [hpc])
  logs := h.logs

theorem Attached.move (h : Attached c t p x n listed got) (hc : 0 < c) {w : ℕ}
    (hpc : p.pc = .moveStore w) :
    Attached c t { p with pc := .idle, sent := p.sent ++ [x.blocks x.wpos] } (moved x w) n listed
        got ∧
      (RingInv c x n listed → RingInv c (moved x w) n listed) := by
  have hplace := h.place
  rw [hpc] at hplace
  obtain ⟨hnormal, hlisted, rfl, hne⟩ := hplace
  have hcached := h.cached.move hc hne
  have hlen : (x.moved ++ [x.blocks x.wpos]).length = x.moved.length + 1 := List.length_append
  refine ⟨⟨h.tid, ?_, ⟨hnormal, hlisted⟩, fun b hb => ?_, ?_⟩, fun hring => ?_⟩
  · rw [← hlen] at hcached
    exact hcached
  · exact absurd (h.handed b hb).1 (by simp [hpc])
  · obtain ⟨past, hsent, hgot⟩ := h.logs
    refine ⟨past, ?_, hgot⟩
    rw [hsent, List.append_assoc]
    rfl
  · exact ⟨hring.ok.move rfl hcached.room, fun hs => absurd hnormal hs, .inr hlisted⟩

end Attached

section Inv

variable {c k : ℕ} {s s' : MaRingState T α} {t : T}

theorem Inv.setSpin (h : Inv c s) (spin : Option (MaHolder T)) :
    Inv c { s with spinlock := spin } :=
  ⟨h.rings, h.freed, h.owner, h.lists, h.backend, fun t =>
    ⟨(h.producers t).r_lt, (h.producers t).detached, (h.producers t).attached⟩⟩

variable [DecidableEq T]

theorem Inv.setOwn (h : Inv c s) (hown : (s.producers t).ring = some k) (x : MaRing T α)
    (p : MaProducer α) (hadv : Advances (s.rings k) x) (hring : p.ring = some k) (hr : p.r < c)
    (hinv : RingInv c (s.rings k) (s.backend.inFlight k) (s.Listed k) →
      RingInv c x (s.backend.inFlight k) (s.Listed k))
    (hatt : Attached c t p x (s.backend.inFlight k) (s.Listed k) (s.received t)) :
    Inv c ((s.setRing k x).setProducer t p) := by
  obtain ⟨hlt, hnot, -⟩ := (h.producers t).attached k hown
  refine ⟨?_, ?_, ?_, ⟨h.lists.nodup, h.lists.lt, ?_, h.lists.todo⟩, h.backend.advance hadv, ?_⟩
  · exact (forall_update_iff s.rings fun j x =>
      j < s.count → RingInv c x (s.backend.inFlight j) (s.Listed j)).mpr
        ⟨fun hk => hinv (h.rings k hk), fun j _ => h.rings j⟩
  · exact (forall_update_iff s.rings fun j x => MaAlloc.ring j ∈ s.frees →
      j < s.count ∧ x.status = .done).mpr
        ⟨fun hfreed => absurd hfreed hnot, fun j _ => h.freed j⟩
  · refine (forall_update_iff s.rings fun j x => j < s.count → MaAlloc.ring j ∉ s.frees →
      (update s.producers t p x.tid).ring = some j).mpr
        ⟨fun _ _ => ?_, fun j hj hjlt hfree => ?_⟩
    · rw [hatt.tid, update_self]
      exact hring
    · rw [update_of_ne (h.tid_ne hown hj hjlt hfree)]
      exact h.owner j hjlt hfree
  · exact (forall_update_iff s.rings fun j x => j ∈ s.addList ++ s.ringList →
      x.status = .done → s.backend.unlinks = some j).mpr
        ⟨fun hk hd => h.lists.alive k hk (hadv.done hd), fun j _ => h.lists.alive j⟩
  · refine (forall_update_iff s.producers fun u q =>
      ProducerOk c ((s.setRing k x).setProducer t p) u q).mpr
        ⟨⟨hr, fun hnone => absurd (hnone.symm.trans hring) (by simp), fun j hj => ?_⟩,
          fun u hu => ⟨(h.producers u).r_lt, (h.producers u).detached, fun j hj => ?_⟩⟩
    · obtain rfl := Option.some.inj (hring.symm.trans hj)
      refine ⟨hlt, hnot, ?_⟩
      simp only [setProducer, setRing, update_self]
      exact hatt
    · obtain ⟨hjlt, hfree, hatt'⟩ := (h.producers u).attached j hj
      have hjk : j ≠ k := h.ring_ne hu hown hj
      refine ⟨hjlt, hfree, ?_⟩
      simp only [setProducer, setRing, update_of_ne hjk]
      exact hatt'

theorem Inv.setProducer (h : Inv c s) (hown : (s.producers t).ring = some k) (p : MaProducer α)
    (hring : p.ring = some k) (hr : p.r < c)
    (hatt : Attached c t p (s.rings k) (s.backend.inFlight k) (s.Listed k) (s.received t)) :
    Inv c (s.setProducer t p) := by
  have hset := h.setOwn hown (s.rings k) p (advances_refl _) hring hr id hatt
  rwa [MaRingState.setRing, update_eq_self] at hset

theorem Inv.setRing (h : Inv c s) (hown : (s.producers t).ring = some k) (x : MaRing T α)
    (hadv : Advances (s.rings k) x)
    (hinv : RingInv c (s.rings k) (s.backend.inFlight k) (s.Listed k) →
      RingInv c x (s.backend.inFlight k) (s.Listed k))
    (hatt : Attached c t (s.producers t) x (s.backend.inFlight k) (s.Listed k) (s.received t)) :
    Inv c (s.setRing k x) := by
  have hset := h.setOwn hown x (s.producers t) hadv hown (h.producers t).r_lt hinv hatt
  rwa [MaRingState.setProducer, MaRingState.setRing, update_eq_self] at hset

theorem Inv.goto (h : Inv c s) (hown : (s.producers t).ring = some k)
    (hpc : (s.producers t).pc ≠ .idle) (pc : MaProducerPc)
    (hplace : PlaceOk c (s.producers t).r (s.rings k) (s.Listed k) pc) : Inv c (s.goto t pc) :=
  h.setProducer hown _ hown (h.producers t).r_lt
    (((h.producers t).attached k hown).2.2.goto hpc hplace)

theorem Inv.insert (h : Inv c s) (hown : (s.producers t).ring = some k) {rest : List ℕ}
    (hpc : (s.producers t).pc = .insertStore rest) :
    Inv c { s.goto t .insertUnlock with addList := k :: s.addList } := by
  obtain ⟨hlt, hnot, hatt⟩ := (h.producers t).attached k hown
  obtain ⟨hnormal, hnew⟩ : (s.rings k).status = .normal ∧ ¬ s.Listed k := by
    have hplace := hatt.place
    rwa [hpc] at hplace
  have hlisted : ∀ j ≠ k, (j ∈ k :: s.addList ++ s.ringList) = s.Listed j := fun j hj =>
    propext (List.mem_cons.trans (or_iff_right hj))
  have hrings : ∀ u, ((s.goto t .insertUnlock).producers u).ring = (s.producers u).ring :=
    (forall_update_iff s.producers fun u q => q.ring = (s.producers u).ring).mpr
      ⟨rfl, fun _ _ => rfl⟩
  refine ⟨fun j hj => ?_, h.freed, fun j hj hfree => (hrings _).trans (h.owner j hj hfree),
    ⟨List.nodup_cons.mpr ⟨hnew, h.lists.nodup⟩, ?_, ?_, h.lists.todo⟩, h.backend, ?_⟩
  · have hring := h.rings j hj
    exact ⟨hring.ok, hring.settled, hring.linked.imp_right (List.mem_cons_of_mem k)⟩
  · exact List.forall_mem_cons.mpr ⟨hlt, h.lists.lt⟩
  · refine List.forall_mem_cons.mpr ⟨fun hd => ?_, h.lists.alive⟩
    exact absurd (hnormal.symm.trans hd) (by simp)
  · refine (forall_update_iff s.producers fun u q =>
      ProducerOk c { s.goto t .insertUnlock with addList := k :: s.addList } u q).mpr
        ⟨⟨(h.producers t).r_lt, fun hnone => absurd (hnone.symm.trans hown) (by simp),
          fun j hj => ?_⟩,
        fun u hu => ⟨(h.producers u).r_lt, (h.producers u).detached, fun j hj => ?_⟩⟩
    · obtain rfl := Option.some.inj (hown.symm.trans hj)
      exact ⟨hlt, hnot, hatt.tid, hatt.cached, ⟨hnormal, List.mem_cons_self⟩,
        fun b hb => absurd (hatt.handed b hb).1 (by simp [hpc]), hatt.logs⟩
    · obtain ⟨hjlt, hfree, hatt'⟩ := (h.producers u).attached j hj
      rw [← hlisted j (h.ring_ne hu hown hj)] at hatt'
      exact ⟨hjlt, hfree, hatt'⟩

theorem Inv.free (h : Inv c s) (hown : (s.producers t).ring = some k)
    (hpc : (s.producers t).pc = .free) :
    Inv c { s.setProducer t { s.producers t with pc := .idle, ring := none } with
      frees := s.frees ++ [.ring k] } := by
  obtain ⟨hlt, hnot, hatt⟩ := (h.producers t).attached k hown
  have hdone : (s.rings k).status = .done := by
    have hplace := hatt.place
    rwa [hpc] at hplace
  have hfrees : ∀ j, MaAlloc.ring j ∈ s.frees ++ [.ring k] ↔ MaAlloc.ring j ∈ s.frees ∨ j = k :=
    fun j => by simp
  refine ⟨h.rings, fun j hj => ?_, fun j hj hfree => ?_, h.lists, h.backend, ?_⟩
  · rcases (hfrees j).mp hj with hj | rfl
    · exact h.freed j hj
    · exact ⟨hlt, hdone⟩
  · rw [hfrees, not_or] at hfree
    simp only [MaRingState.setProducer, update_of_ne (h.tid_ne hown hfree.2 hj hfree.1)]
    exact h.owner j hj hfree.1
  · refine (forall_update_iff s.producers fun u q =>
      ProducerOk c { s.setProducer t { s.producers t with pc := .idle, ring := none } with
        frees := s.frees ++ [.ring k] } u q).mpr
        ⟨⟨(h.producers t).r_lt, fun _ => ⟨rfl, hatt.handed_eq_none (by simp [hpc]), ?_⟩,
          fun j hj => absurd hj (by simp)⟩,
        fun u hu => ⟨(h.producers u).r_lt, (h.producers u).detached, fun j hj => ?_⟩⟩
    · obtain ⟨past, hsent, hgot⟩ := hatt.logs
      have hall := (h.rings k hlt).settled (by simp [hdone])
      exact hgot.trans (hall ▸ hsent.symm)
    · obtain ⟨hjlt, hfree, hatt'⟩ := (h.producers u).attached j hj
      refine ⟨hjlt, ?_, hatt'⟩
      rw [hfrees, not_or]
      exact ⟨hfree, h.ring_ne hu hown hj⟩

theorem Inv.make (h : Inv c s) (hnone : (s.producers t).ring = none) (g : MaGrants)
    (junk : ℕ → α) : Inv c (s.makeRing t g junk) := by
  obtain ⟨hidle, hhanded, hlogs⟩ := (h.producers t).detached hnone
  have hunlisted : s.count ∉ s.addList ++ s.ringList := fun hk => (h.lists.lt _ hk).false
  have htodo : s.count ∉ s.backend.todo := fun hk =>
    hunlisted (List.mem_append_right _ (h.lists.todo.subset hk))
  have hflight : s.backend.inFlight s.count = 0 := MaBackendPc.inFlight_eq_zero htodo
  have hunfreed : MaAlloc.ring s.count ∉ s.frees := fun hk => (h.freed _ hk).1.false
  have hnew : RingOk c (newRing t junk) (s.backend.inFlight s.count) :=
    hflight.symm ▸ ringOk_newRing c t junk
  refine ⟨?_, ?_, ?_, ⟨h.lists.nodup, fun j hj => (h.lists.lt j hj).trans (Nat.lt_succ_self _), ?_,
    h.lists.todo⟩, ?_, ?_⟩
  · exact (forall_update_iff s.rings fun j x => j < s.count + 1 →
      RingInv c x (s.backend.inFlight j) (s.Listed j)).mpr
        ⟨fun _ => ⟨hnew, fun _ => rfl, .inl rfl⟩, fun j hj hlt => h.rings j (by omega)⟩
  · exact (forall_update_iff s.rings fun j x => MaAlloc.ring j ∈ s.frees →
      j < s.count + 1 ∧ x.status = .done).mpr
        ⟨fun hk => absurd hk hunfreed, fun j _ hk => (h.freed j hk).imp_left (by omega)⟩
  · refine (forall_update_iff s.rings fun j x => j < s.count + 1 →
      MaAlloc.ring j ∉ s.frees → ((s.makeRing t g junk).producers x.tid).ring = some j).mpr
        ⟨fun _ _ => ?_, fun j hj hlt hfree => ?_⟩
    · simp only [makeRing, newRing, update_self]
    · have howner := h.owner j (by omega) hfree
      have hne : (s.rings j).tid ≠ t := fun heq =>
        absurd (hnone.symm.trans (heq ▸ howner)) (by simp)
      simp only [makeRing, update_of_ne hne]
      exact howner
  · exact (forall_update_iff s.rings fun j x => j ∈ s.addList ++ s.ringList →
      x.status = .done → s.backend.unlinks = some j).mpr
        ⟨fun hk => absurd hk hunlisted, fun j _ => h.lists.alive j⟩
  · refine h.backend.congr fun j hj => update_of_ne ?_ _ _
    rintro rfl
    exact htodo hj
  · refine (forall_update_iff s.producers fun u q =>
      ProducerOk c (s.makeRing t g junk) u q).mpr
        ⟨⟨(h.producers t).r_lt, fun hnone => absurd hnone (by simp), fun j hj => ?_⟩,
        fun u _ => ⟨(h.producers u).r_lt, (h.producers u).detached, fun j hj => ?_⟩⟩
    · cases hj
      refine ⟨Nat.lt_succ_self _, hunfreed, ?_⟩
      simp only [makeRing, update_self, hflight]
      refine ⟨rfl, cached_new (h.producers t).r_lt, ?_,
        fun b hb => absurd (hb.symm.trans hhanded) (by simp), (s.producers t).sent,
        (List.append_nil _).symm, hlogs.trans (List.append_nil _).symm⟩
      simp only [MaGrants.pc]
      split_ifs
      · exact ⟨rfl, hunlisted⟩
      · rfl
    · obtain ⟨hjlt, hfree, hatt⟩ := (h.producers u).attached j hj
      refine ⟨by simp only [makeRing]; omega, hfree, ?_⟩
      simp only [makeRing, update_of_ne hjlt.ne]
      exact hatt

theorem Inv.producerStepOf (hc : 0 < c) (hg : Guarded s) (h : Inv c s)
    (hown : (s.producers t).ring = some k) (hnext : s.producerStepOf t k = some s') : Inv c s' := by
  obtain ⟨hlt, -, hatt⟩ := (h.producers t).attached k hown
  have hok := (h.rings k hlt).ok
  have hplace := hatt.place
  have hgoto := h.goto hown
  rw [MaRingState.producerStepOf] at hnext
  cases hpc : (s.producers t).pc <;> simp only [hpc, reduceCtorEq, Option.some.injEq] at hnext <;>
    rw [hpc] at hplace hgoto
  case insertLock =>
    split_ifs at hnext
    cases hnext
    exact (hgoto (by simp) .insertLoad hplace).setSpin _
  case insertLoad =>
    subst hnext
    exact hgoto (by simp) (.insertStore _) hplace
  case insertStore rest =>
    subst hnext
    rw [hg.insert t rest hpc]
    exact h.insert hown hpc
  case insertUnlock =>
    subst hnext
    exact (hgoto (by simp) .idle hplace).setSpin _
  case moveTest w =>
    subst hnext
    split_ifs with heq
    · exact hgoto (by simp) (.moveLoad w) hplace
    · exact hgoto (by simp) (.moveStore w) ⟨hplace.1, hplace.2.1, hplace.2.2, heq⟩
  case moveLoad w =>
    subst hnext
    refine h.setProducer hown _ hown ?_ (hatt.load hok hpc)
    change (s.rings k).rpos < c
    rw [hok.rpos]
    exact Nat.mod_lt _ hc
  case moveStore w =>
    subst hnext
    obtain ⟨hmoved, hinv⟩ := hatt.move hc hpc
    refine h.setOwn hown _ _ ⟨rfl, .inl rfl, rfl, ?_⟩ hown (h.producers t).r_lt hinv hmoved
    exact (List.prefix_append _ _).length_le
  case join =>
    subst hnext
    split_ifs with heq
    · exact hgoto (by simp) .storeWait ⟨hplace, hok.joined hc heq⟩
    · exact hgoto (by simp) .join hplace
  case storeWait =>
    subst hnext
    refine h.setOwn hown _ _ ⟨rfl, .inr ⟨hplace.1, rfl⟩, rfl, le_refl _⟩ hown (h.producers t).r_lt
      (fun hring => ⟨hring.ok.setStatus _, fun _ => hplace.2, hring.linked⟩) ?_
    exact ⟨hatt.tid, hatt.cached, fun hs => MaRingStatus.noConfusion hs,
      fun b hb => absurd (hatt.handed b hb).1 (by simp [hpc]), hatt.logs⟩
  case awaitDone =>
    subst hnext
    split_ifs with hdone
    · exact hgoto (by simp) .free hdone
    · exact hgoto (by simp) .awaitDone hplace
  case free =>
    subst hnext
    exact h.free hown hpc

theorem Inv.next (hc : 0 < c) (hcap : c < 2 ^ 32) (hg : Guarded s) (h : Inv c s)
    {a : MaRingStep T α} (hnext : s.next c a = some s') : Inv c s' := by
  cases a with
  | init t g junk =>
    rw [MaRingState.next] at hnext
    split_ifs at hnext
    cases hnext
    obtain heq | ⟨hnone, heq⟩ := s.threadCtxInit_cases t g junk <;> rw [heq]
    · exact h
    · exact h.make hnone g junk
  | alloc t =>
    rw [MaRingState.next] at hnext
    split at hnext
    · next k hpc hown =>
      cases hnext
      have hatt := ((h.producers t).attached k hown).2.2
      exact h.setProducer hown _ hown (h.producers t).r_lt ⟨hatt.tid, hatt.cached, hatt.place,
        fun b hb => ⟨hpc, (Option.some.inj hb).symm⟩, hatt.logs⟩
    · cases hnext
  | fill t data =>
    rw [MaRingState.next] at hnext
    split at hnext
    · next k b hpc hown hb =>
      cases hnext
      have hatt := ((h.producers t).attached k hown).2.2
      obtain ⟨-, rfl⟩ := hatt.handed b hb
      refine h.setRing hown _ ⟨rfl, .inl rfl, rfl, le_refl _⟩
        (fun hring => ⟨hring.ok.fill hc data, hring.settled, hring.linked⟩)
        ⟨hatt.tid, hatt.cached, ?_, hatt.handed, hatt.logs⟩
      have hplace := hatt.place
      rw [hpc] at hplace ⊢
      exact hplace
    · cases hnext
  | move t =>
    rw [MaRingState.next] at hnext
    split at hnext
    · next k hpc hown =>
      cases hnext
      obtain ⟨hlt, -, hatt⟩ := (h.producers t).attached k hown
      obtain ⟨hnormal, hlisted⟩ : (s.rings k).status = .normal ∧ s.Listed k := by
        have hplace := hatt.place
        rwa [hpc] at hplace
      refine h.setProducer hown _ hown (h.producers t).r_lt ⟨hatt.tid, hatt.cached,
        ⟨hnormal, hlisted, ?_⟩, fun b hb => absurd hb (by simp), hatt.logs⟩
      rw [(h.rings k hlt).ok.wpos, MaRing.nextPos_mod hc hcap]
    · cases hnext
  | cleanup t =>
    rw [MaRingState.next] at hnext
    split_ifs at hnext with hpc
    split at hnext <;> cases hnext
    · next k hown =>
      have hatt := ((h.producers t).attached k hown).2.2
      have hplace := hatt.place
      rw [hpc] at hplace
      exact h.setProducer hown _ hown (h.producers t).r_lt ⟨hatt.tid, hatt.cached, hplace.1,
        fun b hb => absurd hb (by simp), hatt.logs⟩
    · exact h
  | producer t =>
    obtain ⟨k, hown, hstep⟩ := Option.bind_eq_some_iff.mp hnext
    exact h.producerStepOf hc hg hown hstep
  | backend => exact h.backendStep hc hcap hg hnext

end Inv

structure DeliveredOnce (c : ℕ) (s : MaRingState T α) : Prop where
  inOrder : ∀ t, s.received t <+: (s.producers t).sent
  served : ∀ k, k < s.count → (s.rings k).delivered ≠ (s.rings k).moved → s.Listed k
  fresh : ∀ t k b i, (s.producers t).ring = some k → (s.producers t).handed = some b →
    (s.rings k).delivered.length - s.backend.inFlight k ≤ i → i < (s.rings k).moved.length →
    i % c ≠ b
  cleanedUp : ∀ t, (s.producers t).ring = none → s.received t = (s.producers t).sent
  alive : ∀ k, s.backend.accesses = some k → MaAlloc.ring k ∉ s.frees

section Reach

variable [DecidableEq T] {s : MaRingState T α}

/-- **Each producer's messages are delivered once and in order**, whatever the interleaving. -/
theorem deliveredOnce_of_reach {c : ℕ} (hc : 2 ≤ c) (hcap : c < 2 ^ 32) (junk : MaRing T α)
    (hs : Steps.Reach (next c) Steps.anyStep (start junk) s) : DeliveredOnce c s := by
  have hpos : 0 < c := by omega
  obtain ⟨-, h⟩ := hs.invariant (P := fun s => Guarded s ∧ Inv c s)
    ⟨guarded_start junk, inv_start hpos junk⟩
    fun _ _ _ hinv _ hnext => ⟨hinv.1.next hnext, hinv.2.next hpos hcap hinv.1 hnext⟩
  refine ⟨fun t => ?_, fun k hk hne => ?_, fun t k b i hring hb hle hlt => ?_, fun t hring => ?_,
    fun k hk => (h.accessed hk).2.2⟩
  · cases hring : (s.producers t).ring with
    | none =>
      rw [((h.producers t).detached hring).2.2]
    | some k =>
      obtain ⟨hk, -, hatt⟩ := (h.producers t).attached k hring
      obtain ⟨past, hsent, hgot⟩ := hatt.logs
      rw [hsent, hgot, List.prefix_append_right_inj]
      exact (h.rings k hk).ok.inOrder
  · exact (h.rings k hk).linked.resolve_left hne
  · obtain ⟨hk, -, hatt⟩ := (h.producers t).attached k hring
    rw [(hatt.handed b hb).2]
    exact (h.rings k hk).ok.handed hpos hle hlt
  · exact ((h.producers t).detached hring).2.2

def connect (t : T) : List (MaRingStep T ℕ) :=
  .init t .all (fun _ => 0) :: List.replicate 4 (.producer t)

/-- A message up to the test of `muggle_ma_ring_move`. -/
def message (t : T) (data : ℕ) : List (MaRingStep T ℕ) := [.alloc t, .fill t data, .move t]

def twoCycles : List (MaRingStep Unit ℕ) := List.flatten
  [connect (), message () 7, List.replicate 2 (.producer ()), List.replicate 12 .backend,
   message () 8, List.replicate 4 (.producer ()), [.cleanup (), .producer ()],
   List.replicate 7 .backend, List.replicate 2 (.producer ()), List.replicate 3 .backend,
   List.replicate 2 (.producer ()), List.replicate 2 .backend,
   connect (), message () 9, List.replicate 4 (.producer ()), List.replicate 8 .backend]

theorem deliveredOnce_twoCycles :
    ∃ s, Steps.exec (next 2) (start ⟨(), 0, 0, .normal, fun _ => 0, [], []⟩) twoCycles = some s ∧
      (s.received (), (s.producers ()).sent, (s.producers ()).ring, s.frees) =
        ([7, 8, 9], [7, 8, 9], some 1, [.ring 0, .node 0]) ∧
      DeliveredOnce 2 s := by
  exact Steps.exists_exec (by decide +kernel) fun _ hs _ =>
    deliveredOnce_of_reach (le_refl 2) (by omega) _ hs

end Reach

end MaRingState

end Mugglec
