import Mugglec.Sync.MaRingWindow

/-!
# Sync/MaRingBackend — the life of a ring, and what the backend does to it

A ring with messages that are not delivered is in one of the lists, so the backend comes by; a ring
that the backend is about to touch is in `ring_list` and not `DONE`.
-/

namespace Mugglec

open Function

namespace MaBackendPc

def inFlight : MaBackendPc → ℕ → ℕ
  | .callback j _ _ _ n, k => if j = k then n else 0
  | _, _ => 0

def todo : MaBackendPc → List ℕ
  | .consume todo | .remove todo => todo
  | .loadR k todo _ | .callback k todo _ _ _ | .storeDone k todo | .unlink k todo => k :: todo
  | _ => []

def unlinks : MaBackendPc → Option ℕ
  | .unlink k _ => some k
  | _ => none

theorem mem_todo_of_accesses {pc : MaBackendPc} {k : ℕ} (h : pc.accesses = some k) :
    k ∈ pc.todo ∧ pc.unlinks = none := by
  cases pc with
  | consume todo | remove todo =>
    cases todo with
    | nil => exact absurd h (by simp [accesses])
    | cons j rest =>
      cases h
      exact ⟨List.mem_cons_self, rfl⟩
  | loadR | callback | storeDone =>
    cases h
    exact ⟨List.mem_cons_self, rfl⟩
  | lock | handleNew | take | unlock | unlink => exact absurd h (by simp [accesses])

theorem inFlight_eq_zero {pc : MaBackendPc} {k : ℕ} (h : k ∉ pc.todo) : pc.inFlight k = 0 := by
  cases pc with
  | callback j _ _ _ _ =>
    refine if_neg ?_
    rintro rfl
    exact h List.mem_cons_self
  | _ => rfl

end MaBackendPc

variable {T α : Type*}

namespace MaRingState

structure RingInv (c : ℕ) (x : MaRing T α) (n : ℕ) (listed : Prop) : Prop where
  ok : RingOk c x n
  settled : x.status ≠ .normal → x.delivered = x.moved
  linked : x.delivered = x.moved ∨ listed

def PlaceOk (c r : ℕ) (x : MaRing T α) (listed : Prop) : MaProducerPc → Prop
  | .idle | .insertUnlock => x.status = .normal ∧ listed
  | .insertLock | .insertLoad | .insertStore _ => x.status = .normal ∧ ¬ listed
  | .moveTest w | .moveLoad w => x.status = .normal ∧ listed ∧ w = (x.moved.length + 1) % c
  | .moveStore w => x.status = .normal ∧ listed ∧ w = (x.moved.length + 1) % c ∧ w ≠ r
  | .join => x.status = .normal
  | .storeWait => x.status = .normal ∧ x.delivered = x.moved
  | .awaitDone => x.status ≠ .normal
  | .free => x.status = .done

structure Attached (c : ℕ) (t : T) (p : MaProducer α) (x : MaRing T α) (n : ℕ) (listed : Prop)
    (got : List α) : Prop where
  tid : x.tid = t
  cached : Cached c p.r x.moved.length (x.delivered.length - n)
  place : PlaceOk c p.r x listed p.pc
  handed : ∀ b, p.handed = some b → p.pc = .idle ∧ b = x.wpos
  logs : ∃ past, p.sent = past ++ x.moved ∧ got = past ++ x.delivered

section Attached

variable {c n : ℕ} {t : T} {p : MaProducer α} {x : MaRing T α} {listed : Prop} {got : List α}

theorem Attached.unlist (h : Attached c t p x n listed got) (hstatus : x.status ≠ .normal)
    (listed' : Prop) : Attached c t p x n listed' got := by
  refine ⟨h.tid, h.cached, ?_, h.handed, h.logs⟩
  have hplace := h.place
  cases hpc : p.pc <;> rw [hpc] at hplace
  case join => exact absurd hplace hstatus
  case awaitDone => exact hplace
  case free => exact hplace
  all_goals exact absurd hplace.1 hstatus

theorem Attached.deliver (h : Attached c t p x n listed got)
    (hlt : x.delivered.length < x.moved.length) (r : ℕ) :
    Attached c t p (delivered x r) (n + 1) listed (got ++ [x.blocks r]) := by
  have hlen : (x.delivered ++ [x.blocks r]).length = x.delivered.length + 1 := List.length_append
  refine ⟨h.tid, ?_, ?_, h.handed, ?_⟩
  · change Cached c p.r x.moved.length ((x.delivered ++ [x.blocks r]).length - (n + 1))
    rw [hlen, Nat.add_sub_add_right]
    exact h.cached
  · have hplace := h.place
    cases hpc : p.pc <;> rw [hpc] at hplace
    case storeWait => exact absurd (congrArg List.length hplace.2) hlt.ne
    all_goals exact hplace
  · obtain ⟨past, hsent, hgot⟩ := h.logs
    refine ⟨past, hsent, ?_⟩
    rw [hgot, List.append_assoc]
    rfl

theorem Attached.store (h : Attached c t p x n listed got) (r : ℕ) :
    Attached c t p { x with rpos := r } 0 listed got := by
  refine ⟨h.tid, h.cached.mono (Nat.sub_le_sub_left (Nat.zero_le n) _), ?_, h.handed, h.logs⟩
  have hplace := h.place
  cases hpc : p.pc <;> rw [hpc] at hplace <;> exact hplace

theorem Attached.done (h : Attached c t p x n listed got) (hstatus : x.status = .waitRemove) :
    Attached c t p { x with status := .done } n listed got := by
  refine ⟨h.tid, h.cached, ?_, h.handed, h.logs⟩
  have hplace := h.place
  have hne : x.status ≠ .normal := by simp [hstatus]
  cases hpc : p.pc <;> rw [hpc] at hplace
  case join => exact absurd hplace hne
  case awaitDone => exact fun h => MaRingStatus.noConfusion h
  case free => rfl
  all_goals exact absurd hplace.1 hne

end Attached

def Listed (s : MaRingState T α) (k : ℕ) : Prop := k ∈ s.addList ++ s.ringList

structure Lists (add ring : List ℕ) (count : ℕ) (rings : ℕ → MaRing T α) (b : MaBackendPc) :
    Prop where
  nodup : (add ++ ring).Nodup
  lt : ∀ k ∈ add ++ ring, k < count
  alive : ∀ k, k ∈ add ++ ring → (rings k).status = .done → b.unlinks = some k
  todo : b.todo <:+ ring

def Loaded (c : ℕ) (x : MaRing T α) (w : ℕ) : Prop :=
  ∃ m, w = m % c ∧ x.delivered.length ≤ m ∧ m ≤ x.moved.length

def BackendOk (c : ℕ) (rings : ℕ → MaRing T α) : MaBackendPc → Prop
  | .loadR k _ w => Loaded c (rings k) w
  | .callback k _ w r _ => Loaded c (rings k) w ∧ r = (rings k).delivered.length % c
  | .storeDone k _ => (rings k).status = .waitRemove
  | .unlink k _ => (rings k).status = .done
  | _ => True

structure ProducerOk (c : ℕ) (s : MaRingState T α) (t : T) (p : MaProducer α) : Prop where
  r_lt : p.r < c
  detached : p.ring = none → p.pc = .idle ∧ p.handed = none ∧ s.received t = p.sent
  attached : ∀ k, p.ring = some k → k < s.count ∧ MaAlloc.ring k ∉ s.frees ∧
    Attached c t p (s.rings k) (s.backend.inFlight k) (s.Listed k) (s.received t)

structure Inv (c : ℕ) (s : MaRingState T α) : Prop where
  rings : ∀ k, k < s.count → RingInv c (s.rings k) (s.backend.inFlight k) (s.Listed k)
  freed : ∀ k, MaAlloc.ring k ∈ s.frees → k < s.count ∧ (s.rings k).status = .done
  owner : ∀ k, k < s.count → MaAlloc.ring k ∉ s.frees →
    (s.producers (s.rings k).tid).ring = some k
  lists : Lists s.addList s.ringList s.count s.rings s.backend
  backend : BackendOk c s.rings s.backend
  producers : ∀ t, ProducerOk c s t (s.producers t)

theorem inv_start {c : ℕ} (hc : 0 < c) (junk : MaRing T α) : Inv c (start junk) where
  rings := fun _ hk => absurd hk (Nat.not_lt_zero _)
  freed := fun _ hk => absurd hk List.not_mem_nil
  owner := fun _ hk => absurd hk (Nat.not_lt_zero _)
  lists := ⟨List.nodup_nil, fun _ hk => absurd hk List.not_mem_nil,
    fun _ hk => absurd hk List.not_mem_nil, List.nil_suffix⟩
  backend := trivial
  producers := fun _ => ⟨hc, fun _ => ⟨rfl, rfl, rfl⟩, fun _ hk => absurd hk (by simp [start])⟩

section Inv

variable {c k : ℕ} {s s' : MaRingState T α} {t : T}

theorem Inv.accessed (h : Inv c s) (hk : s.backend.accesses = some k) :
    k < s.count ∧ (s.rings k).status ≠ .done ∧ MaAlloc.ring k ∉ s.frees := by
  obtain ⟨hk, hun⟩ := MaBackendPc.mem_todo_of_accesses hk
  have hmem : k ∈ s.addList ++ s.ringList :=
    List.mem_append_right _ (h.lists.todo.subset hk)
  have hstatus : (s.rings k).status ≠ .done := fun hdone =>
    absurd (hun.symm.trans (h.lists.alive k hmem hdone)) (by simp)
  exact ⟨h.lists.lt k hmem, hstatus, fun hfreed => hstatus (h.freed k hfreed).2⟩

theorem Inv.ring_ne (h : Inv c s) {u : T} {j : ℕ} (hu : u ≠ t)
    (hk : (s.producers t).ring = some k) (hj : (s.producers u).ring = some j) : j ≠ k := by
  rintro rfl
  exact hu (((h.producers u).attached j hj).2.2.tid.symm.trans
    ((h.producers t).attached j hk).2.2.tid)

theorem Inv.tid_ne (h : Inv c s) {j : ℕ} (hk : (s.producers t).ring = some k) (hj : j ≠ k)
    (hlt : j < s.count) (hfree : MaAlloc.ring j ∉ s.frees) : (s.rings j).tid ≠ t := fun heq =>
  hj (Option.some.inj ((heq ▸ h.owner j hlt hfree).symm.trans hk))

theorem Inv.setBackend (h : Inv c s) (pc : MaBackendPc)
    (hflight : pc.inFlight = s.backend.inFlight) (hun : s.backend.unlinks = none)
    (htodo : pc.todo <:+ s.ringList) (hback : BackendOk c s.rings pc)
    (spin : Option (MaHolder T)) :
    Inv c { s with backend := pc, spinlock := spin } where
  rings := by
    rw [hflight]
    exact h.rings
  freed := h.freed
  owner := h.owner
  lists := ⟨h.lists.nodup, h.lists.lt,
    fun k hk hdone => absurd (hun.symm.trans (h.lists.alive k hk hdone)) (by simp), htodo⟩
  backend := hback
  producers := fun t => by
    refine ⟨(h.producers t).r_lt, (h.producers t).detached, ?_⟩
    rw [hflight]
    exact (h.producers t).attached

theorem Inv.relist (h : Inv c s) {add ring : List ℕ} (hperm : (add ++ ring).Perm
    (s.addList ++ s.ringList)) (htodo : s.backend.todo <:+ ring) :
    Inv c { s with addList := add, ringList := ring } := by
  have hlisted : ∀ k, (k ∈ add ++ ring) = s.Listed k := fun k => propext hperm.mem_iff
  refine ⟨fun k hk => ?_, h.freed, h.owner, ⟨hperm.nodup_iff.mpr h.lists.nodup,
    fun k hk => h.lists.lt k (hperm.mem_iff.mp hk), fun k hk => h.lists.alive k
    (hperm.mem_iff.mp hk), htodo⟩, h.backend, fun t => ⟨(h.producers t).r_lt,
    (h.producers t).detached, fun k hk => ?_⟩⟩
  · have hring := h.rings k hk
    rwa [← hlisted] at hring
  · have hatt := (h.producers t).attached k hk
    rwa [← hlisted] at hatt

theorem Inv.serve [DecidableEq T] (h : Inv c s) (x : MaRing T α) (got : List α) (pc : MaBackendPc)
    (hk : s.backend.accesses = some k)
    (hflight : ∀ j ≠ k, pc.inFlight j = s.backend.inFlight j) (htodo : pc.todo <:+ s.ringList)
    (hback : BackendOk c (update s.rings k x) pc)
    (hinv : RingInv c (s.rings k) (s.backend.inFlight k) (s.Listed k) →
      RingInv c x (pc.inFlight k) (s.Listed k))
    (hdone : x.status = .done → pc.unlinks = some k)
    (howner : Attached c (s.rings k).tid (s.producers (s.rings k).tid) (s.rings k)
      (s.backend.inFlight k) (s.Listed k) (s.received (s.rings k).tid) →
      Attached c (s.rings k).tid (s.producers (s.rings k).tid) x (pc.inFlight k) (s.Listed k) got) :
    Inv c { s.setRing k x with
      backend := pc, received := update s.received (s.rings k).tid got } := by
  obtain ⟨hlt, -, hnot⟩ := h.accessed hk
  have hun := (MaBackendPc.mem_todo_of_accesses hk).2
  have hown := h.owner k hlt hnot
  have hnew := howner ((h.producers _).attached k hown).2.2
  refine ⟨?_, ?_, ?_, ⟨h.lists.nodup, h.lists.lt, ?_, htodo⟩, hback, fun t => ?_⟩
  · refine (forall_update_iff s.rings fun j x =>
      j < s.count → RingInv c x (pc.inFlight j) (s.Listed j)).mpr
        ⟨fun hk => hinv (h.rings k hk), fun j hj hlt => ?_⟩
    rw [hflight j hj]
    exact h.rings j hlt
  · exact (forall_update_iff s.rings fun j x => MaAlloc.ring j ∈ s.frees →
      j < s.count ∧ x.status = .done).mpr
        ⟨fun hfreed => absurd hfreed hnot, fun j _ => h.freed j⟩
  · refine (forall_update_iff s.rings fun j x => j < s.count → MaAlloc.ring j ∉ s.frees →
      (s.producers x.tid).ring = some j).mpr ⟨fun _ _ => ?_, fun j _ => h.owner j⟩
    rw [hnew.tid]
    exact hown
  · refine (forall_update_iff s.rings fun j x => j ∈ s.addList ++ s.ringList →
      x.status = .done → pc.unlinks = some j).mpr ⟨fun _ => hdone, fun j _ hj hd => ?_⟩
    exact absurd (hun.symm.trans (h.lists.alive j hj hd)) (by simp)
  · rcases eq_or_ne t (s.rings k).tid with rfl | hne
    · refine ⟨(h.producers _).r_lt, fun hnone => absurd (hnone.symm.trans hown) (by simp),
        fun j hj => ?_⟩
      obtain rfl := Option.some.inj (hown.symm.trans hj)
      refine ⟨hlt, hnot, ?_⟩
      simp only [setRing, update_self]
      exact hnew
    · refine ⟨(h.producers t).r_lt, ?_, fun j hj => ?_⟩
      · simp only [setRing, update_of_ne hne]
        exact (h.producers t).detached
      · obtain ⟨hj', hfree, hatt⟩ := (h.producers t).attached j hj
        have hjk : j ≠ k := h.ring_ne hne hown hj
        refine ⟨hj', hfree, ?_⟩
        simp only [setRing, update_of_ne hne, update_of_ne hjk, hflight j hjk]
        exact hatt

theorem Inv.unlink (h : Inv c s) {todo : List ℕ} (hpc : s.backend = .unlink k todo) :
    Inv c { s with
      backend := .remove todo
      ringList := s.ringList.erase k
      frees := s.frees ++ [.node k] } := by
  have hstatus : (s.rings k).status = .done := by
    have hback := h.backend
    rwa [hpc] at hback
  have htodo : (k :: todo) <:+ s.ringList := by
    have htodo := h.lists.todo
    rwa [hpc] at htodo
  have hflight : s.backend.inFlight = (MaBackendPc.remove todo).inFlight := by
    rw [hpc]
    rfl
  have hnodup := (List.nodup_append'.mp h.lists.nodup).2.1
  have hmem : k ∈ s.ringList := htodo.subset List.mem_cons_self
  have hnot : k ∉ s.addList := fun hk =>
    (List.nodup_append'.mp h.lists.nodup).2.2 hk hmem
  have hsub : ∀ j, j ∈ s.addList ++ s.ringList.erase k → j ∈ s.addList ++ s.ringList := fun j hj =>
    (List.mem_append.mp hj).elim (List.mem_append_left _) fun h =>
      List.mem_append_right _ (List.mem_of_mem_erase h)
  have hlisted : ∀ j ≠ k, (j ∈ s.addList ++ s.ringList.erase k) = s.Listed j := fun j hj => by
    rw [Listed, List.mem_append, List.mem_append, List.mem_erase_of_ne hj]
  have hfrees : ∀ j, MaAlloc.ring j ∈ s.frees ++ [.node k] ↔ MaAlloc.ring j ∈ s.frees := fun j => by
    simp
  refine ⟨fun j hj => ?_, fun j hj => h.freed j ((hfrees j).mp hj),
    fun j hj hfree => h.owner j hj fun hf => hfree ((hfrees j).mpr hf), ⟨?_, ?_, fun j hj hd => ?_,
    ?_⟩, trivial, fun t => ⟨(h.producers t).r_lt, (h.producers t).detached, fun j hj => ?_⟩⟩
  · have hring := h.rings j hj
    rw [hflight] at hring
    rcases eq_or_ne j k with rfl | hjk
    · exact ⟨hring.ok, hring.settled, .inl (hring.settled (by simp [hstatus]))⟩
    · rwa [← hlisted j hjk] at hring
  · exact h.lists.nodup.sublist ((List.Sublist.refl _).append List.erase_sublist)
  · exact fun j hj => h.lists.lt j (hsub j hj)
  · -- only `k` was done
    have hk : s.backend.unlinks = some k := by
      rw [hpc]
      rfl
    obtain rfl := Option.some.inj (hk.symm.trans (h.lists.alive j (hsub j hj) hd))
    rcases List.mem_append.mp hj with hj | hj
    · exact absurd hj hnot
    · exact absurd hj (hnodup.not_mem_erase)
  · obtain ⟨kept, hkept⟩ := htodo
    refine ⟨kept, ?_⟩
    have hk : k ∉ kept := fun hk => by
      rw [← hkept] at hnodup
      exact (List.nodup_append'.mp hnodup).2.2 hk List.mem_cons_self
    change kept ++ todo = s.ringList.erase k
    rw [← hkept, List.erase_append_right _ hk, List.erase_cons_head]
  · obtain ⟨hlt, hfree, hatt⟩ := (h.producers t).attached j hj
    rw [hflight] at hatt
    refine ⟨hlt, fun hf => hfree ((hfrees j).mp hf), ?_⟩
    rcases eq_or_ne j k with rfl | hjk
    · exact hatt.unlist (by simp [hstatus]) _
    · rwa [← hlisted j hjk] at hatt

section Callback

variable [DecidableEq T] {todo : List ℕ} {w r n : ℕ}

theorem Inv.deliver (hc : 0 < c) (hcap : c < 2 ^ 32) (h : Inv c s)
    (hpc : s.backend = .callback k todo w r n) (hne : r ≠ w) :
    Inv c { s.setRing k (delivered (s.rings k) r) with
      backend := .callback k todo w (MaRing.nextPos c r) (n + 1)
      received := update s.received (s.rings k).tid
        (s.received (s.rings k).tid ++ [(s.rings k).blocks r]) } := by
  have htodo := h.lists.todo
  have hback := h.backend
  rw [hpc] at htodo hback
  obtain ⟨⟨m, hw, hle, hm⟩, rfl⟩ := hback
  have hlt : (s.rings k).delivered.length < m := by
    refine lt_of_le_of_ne hle ?_
    rintro rfl
    exact hne hw.symm
  have hlt' := hlt.trans_le hm
  have hk : s.backend.accesses = some k := by rw [hpc]; rfl
  have hat : s.backend.inFlight k = n := by rw [hpc]; exact if_pos rfl
  have hsame : (MaBackendPc.callback k todo w
      (MaRing.nextPos c ((s.rings k).delivered.length % c)) (n + 1)).inFlight k = n + 1 :=
    if_pos rfl
  refine h.serve _ _ _ hk (fun j hj => ?_) htodo ?_ (fun hring => ?_)
    (fun hd => absurd hd (h.accessed hk).2.1) fun hatt => ?_
  · rw [hpc]
    exact (if_neg hj.symm).trans (if_neg hj.symm).symm
  · simp only [BackendOk, update_self, MaRing.nextPos_mod hc hcap]
    have hlen : (delivered (s.rings k) ((s.rings k).delivered.length % c)).delivered.length =
        (s.rings k).delivered.length + 1 := List.length_append
    exact ⟨⟨m, hw, hlen.trans_le hlt, hm⟩, congrArg (· % c) hlen.symm⟩
  · rw [hat] at hring
    rw [hsame]
    refine ⟨hring.ok.deliver hlt', fun hs => ?_, hring.linked.imp_left fun heq => ?_⟩
    · exact absurd (congrArg List.length (hring.settled hs)) hlt'.ne
    · exact absurd (congrArg List.length heq) hlt'.ne
  · rw [hat] at hatt
    rw [hsame]
    exact hatt.deliver hlt' _

theorem Inv.storeRead (h : Inv c s) (hpc : s.backend = .callback k todo w r n) :
    Inv c { s.setRing k { s.rings k with rpos := r } with backend := .consume todo } := by
  have htodo := h.lists.todo
  have hback := h.backend
  rw [hpc] at htodo hback
  obtain ⟨-, rfl⟩ := hback
  have hk : s.backend.accesses = some k := by rw [hpc]; rfl
  have hserved := h.serve
    { s.rings k with rpos := (s.rings k).delivered.length % c } (s.received (s.rings k).tid)
    (.consume todo) hk (fun j hj => ?_) ((List.suffix_cons k todo).trans htodo) trivial
    (fun hring => ⟨hring.ok.store, hring.settled, hring.linked⟩)
    (fun hd => absurd hd (h.accessed hk).2.1) fun hatt => hatt.store _
  · rwa [update_eq_self] at hserved
  · rw [hpc]
    exact (if_neg hj.symm).symm

theorem Inv.storeDone (h : Inv c s) (hpc : s.backend = .storeDone k todo) :
    Inv c { s.setRing k { s.rings k with status := .done } with backend := .unlink k todo } := by
  have htodo := h.lists.todo
  have hback := h.backend
  rw [hpc] at htodo hback
  have hk : s.backend.accesses = some k := by rw [hpc]; rfl
  have hserved := h.serve { s.rings k with status := .done } (s.received (s.rings k).tid)
    (.unlink k todo) hk (fun j _ => by rw [hpc]; rfl) htodo
    (by simp only [BackendOk, update_self]) (fun hring => ?_) (fun _ => rfl)
    fun hatt => ?_
  · rwa [update_eq_self] at hserved
  · rw [hpc] at hring
    exact ⟨hring.ok.setStatus _, fun _ => hring.settled (by rw [hback]; simp), hring.linked⟩
  · rw [hpc] at hatt
    exact hatt.done hback

end Callback

theorem Inv.backendStep [DecidableEq T] (hc : 0 < c) (hcap : c < 2 ^ 32) (hg : Guarded s)
    (h : Inv c s) (hnext : s.backendStep c = some s') : Inv c s' := by
  have hback := h.backend
  have htodo := h.lists.todo
  have hset := h.setBackend
  rw [MaRingState.backendStep] at hnext
  generalize hpc : s.backend = pc at hset hnext htodo hback
  cases pc with
  | lock =>
    split_ifs at hnext
    cases hnext
    exact hset .handleNew rfl rfl List.nil_suffix trivial _
  | handleNew =>
    dsimp only at hnext
    split at hnext <;> cases hnext
    · exact hset .unlock rfl rfl List.nil_suffix trivial _
    · exact hset (.take _ _) rfl rfl List.nil_suffix trivial _
  | take k rest =>
    cases hnext
    have hmoved : Inv c { s with addList := rest, ringList := k :: s.ringList } := by
      refine h.relist ?_ (by rw [hpc]; exact List.nil_suffix)
      rw [hg.take k rest hpc]
      exact List.perm_middle
    exact hmoved.setBackend .handleNew (by rw [hpc]; rfl) (by rw [hpc]; rfl) List.nil_suffix
      trivial _
  | unlock =>
    cases hnext
    exact hset (.consume _) rfl rfl (List.suffix_refl _) trivial _
  | consume todo =>
    cases todo with
    | nil =>
      cases hnext
      exact hset (.remove _) rfl rfl (List.suffix_refl _) trivial _
    | cons k todo =>
      cases hnext
      have hring := (h.rings k (h.accessed (by rw [hpc]; rfl)).1).ok
      exact hset (.loadR k todo _) rfl rfl htodo ⟨_, hring.wpos, hring.kept.le, le_refl _⟩ _
  | loadR k todo w =>
    cases hnext
    have hrpos := (h.rings k (h.accessed (by rw [hpc]; rfl)).1).ok.rpos
    rw [hpc] at hrpos
    exact hset (.callback k todo w _ 0) (funext fun _ => ite_self 0) rfl htodo ⟨hback, hrpos⟩ _
  | callback k todo w r n =>
    dsimp only at hnext
    split_ifs at hnext with hne hpos <;> cases hnext
    · exact h.deliver hc hcap hpc hne
    · exact h.storeRead hpc
    · have hzero : n = 0 := Nat.eq_zero_of_not_pos hpos
      rw [hzero] at hset
      exact hset (.consume todo) (funext fun _ => (ite_self 0).symm) rfl
        ((List.suffix_cons k todo).trans htodo) trivial _
  | remove todo =>
    cases todo with
    | nil =>
      cases hnext
      exact hset .lock rfl rfl List.nil_suffix trivial _
    | cons k todo =>
      dsimp only at hnext
      split_ifs at hnext with hwait <;> cases hnext
      · exact hset (.storeDone k todo) rfl rfl htodo hwait _
      · exact hset (.remove todo) rfl rfl ((List.suffix_cons k todo).trans htodo) trivial _
  | storeDone k todo =>
    cases hnext
    exact h.storeDone hpc
  | unlink k todo =>
    cases hnext
    exact h.unlink hpc

end Inv

end MaRingState

end Mugglec
