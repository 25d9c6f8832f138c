import Mugglec.Sync.MaRing
import Mugglec.Machinery.Cyclic
import Mugglec.Machinery.RingQueue

/-!
# Sync/MaRingWindow — one ring, its writer's cached position, and the lists' lock

With `W` messages moved into a ring of `C` blocks, `D` delivered, and `n` of these since `rpos` was
last stored, `wpos = W mod C` and `rpos = (D - n) mod C`; a block that is handed out is none of
those from `D - n` on.
-/

namespace Mugglec

open Function

variable {T α : Type*}

theorem MaRing.nextPos_mod {c : ℕ} (hc : 0 < c) (hlt : c < 2 ^ 32) (n : ℕ) :
    MaRing.nextPos c (n % c) = (n + 1) % c := by
  have hn : n % c < c := Nat.mod_lt n hc
  have hbump : MaRing.nextPos c (n % c) = Cyclic.bump (n % c) c := by
    rw [nextPos, u32_of_lt (by omega), Cyclic.bump]
    split_ifs <;> omega
  rw [hbump, Cyclic.bump_mod hc]

namespace MaRingState

structure RingOk (c : ℕ) (x : MaRing T α) (n : ℕ) : Prop where
  wpos : x.wpos = x.moved.length % c
  rpos : x.rpos = (x.delivered.length - n) % c
  le : n ≤ x.delivered.length
  room : x.moved.length ≤ x.delivered.length - n + (c - 1)
  inOrder : x.delivered <+: x.moved
  kept : RingQueue.Holds c x.blocks x.moved x.delivered.length

section RingOk

variable {c n : ℕ} {x : MaRing T α}

theorem ringOk_newRing (c : ℕ) (t : T) (junk : ℕ → α) : RingOk c (newRing t junk) 0 where
  wpos := (Nat.zero_mod c).symm
  rpos := (Nat.zero_mod c).symm
  le := le_refl 0
  room := Nat.zero_le _
  inOrder := List.prefix_refl _
  kept := RingQueue.holds_nil c junk

theorem RingOk.lt_lap (h : RingOk c x n) (hc : 0 < c) :
    x.moved.length < x.delivered.length + c := by
  have hroom := h.room
  omega

theorem RingOk.setStatus (h : RingOk c x n) (status : MaRingStatus) :
    RingOk c { x with status := status } n :=
  ⟨h.wpos, h.rpos, h.le, h.room, h.inOrder, h.kept⟩

theorem RingOk.fill (h : RingOk c x n) (hc : 0 < c) (data : α) :
    RingOk c { x with blocks := update x.blocks x.wpos data } n := by
  refine ⟨h.wpos, h.rpos, h.le, h.room, h.inOrder, ?_⟩
  rw [h.wpos]
  exact h.kept.set (h.lt_lap hc) data

theorem RingOk.handed (h : RingOk c x n) (hc : 0 < c) {i : ℕ} (hle : x.delivered.length - n ≤ i)
    (hlt : i < x.moved.length) : i % c ≠ x.wpos := by
  have hroom := h.room
  rw [h.wpos, ne_eq, RingQueue.mod_eq_iff hlt.le (by omega)]
  exact hlt.ne

theorem RingOk.move (h : RingOk c x n) {nextW : ℕ} (hnext : nextW = (x.moved.length + 1) % c)
    (hroom : x.moved.length + 1 ≤ x.delivered.length - n + (c - 1)) :
    RingOk c (moved x nextW) n := by
  have hlen : (x.moved ++ [x.blocks x.wpos]).length = x.moved.length + 1 := List.length_append
  refine ⟨hnext.trans (congrArg (· % c) hlen.symm), h.rpos, h.le, hlen.trans_le hroom,
    h.inOrder.trans (List.prefix_append _ _), ?_⟩
  exact h.kept.push (congrArg x.blocks h.wpos.symm)

theorem RingOk.deliver (h : RingOk c x n) (hlt : x.delivered.length < x.moved.length) :
    RingOk c (delivered x (x.delivered.length % c)) (n + 1) := by
  have hlen : (x.delivered ++ [x.blocks (x.delivered.length % c)]).length =
      x.delivered.length + 1 := List.length_append
  have hmsg := h.kept.kept _ (le_refl _) hlt
  have hcount : x.delivered.length + 1 - (n + 1) = x.delivered.length - n :=
    Nat.add_sub_add_right _ 1 n
  refine ⟨h.wpos, ?_, ?_, ?_, ?_, ?_⟩
  · change x.rpos = ((x.delivered ++ [_]).length - (n + 1)) % c
    rw [hlen, hcount]
    exact h.rpos
  · exact hlen ▸ Nat.succ_le_succ h.le
  · change x.moved.length ≤ (x.delivered ++ [_]).length - (n + 1) + (c - 1)
    rw [hlen, hcount]
    exact h.room
  · exact RingQueue.isPrefix_concat h.inOrder hmsg
  · exact hlen ▸ h.kept.pop hlt

theorem RingOk.store (h : RingOk c x n) :
    RingOk c { x with rpos := x.delivered.length % c } 0 := by
  have hroom := h.room
  exact ⟨h.wpos, rfl, Nat.zero_le _, by simp only [Nat.sub_zero]; omega, h.inOrder, h.kept⟩

theorem RingOk.joined (h : RingOk c x n) (hc : 0 < c) (heq : x.rpos = x.wpos) :
    x.delivered = x.moved := by
  have hle := h.kept.le
  have hroom := h.room
  rw [h.wpos, h.rpos, RingQueue.mod_eq_iff (by omega) (by omega)] at heq
  exact h.inOrder.eq_of_length (by omega)

end RingOk

def Cached (c r w m : ℕ) : Prop :=
  (∃ n ≤ m, r = n % c ∧ w ≤ n + (c - 1)) ∨ (w < r ∧ r < c)

section Cached

variable {c r w m : ℕ}

theorem cached_new (hr : r < c) : Cached c r 0 0 := by
  rcases Nat.eq_zero_or_pos r with rfl | hpos
  · exact .inl ⟨0, le_refl 0, (Nat.zero_mod c).symm, Nat.zero_le _⟩
  · exact .inr ⟨hpos, hr⟩

theorem cached_load (hroom : w ≤ m + (c - 1)) : Cached c (m % c) w m :=
  .inl ⟨m, le_refl m, rfl, hroom⟩

theorem Cached.mono (h : Cached c r w m) {m' : ℕ} (hm : m ≤ m') : Cached c r w m' :=
  h.imp_left fun ⟨n, hn, hr, hw⟩ => ⟨n, hn.trans hm, hr, hw⟩

theorem Cached.move (h : Cached c r w m) (hc : 0 < c) (hne : (w + 1) % c ≠ r) :
    Cached c r (w + 1) m := by
  rcases h with ⟨n, hn, rfl, hw⟩ | ⟨hw, hr⟩
  · refine .inl ⟨n, hn, rfl, ?_⟩
    by_contra hover
    have heq : w + 1 = n + c := by omega
    rw [heq, Nat.add_mod_right] at hne
    exact hne rfl
  · rw [Nat.mod_eq_of_lt (by omega)] at hne
    exact .inr ⟨by omega, hr⟩

theorem Cached.room (h : Cached c r w m) : w ≤ m + (c - 1) := by
  rcases h with ⟨n, hn, -, hw⟩ | ⟨hw, hr⟩ <;> omega

end Cached

end MaRingState

def MaProducerPc.Critical : MaProducerPc → Prop
  | .insertLoad | .insertStore _ | .insertUnlock => True
  | _ => False

def MaBackendPc.Critical : MaBackendPc → Prop
  | .handleNew | .take _ _ | .unlock => True
  | _ => False

namespace MaRingState

/-- Whoever has looked at `add_list` is still right about it. -/
structure Locked (pcs : T → MaProducerPc) (b : MaBackendPc) (spin : Option (MaHolder T))
    (add : List ℕ) : Prop where
  producer : ∀ t, (pcs t).Critical → spin = some (.producer t)
  backend : b.Critical → spin = some .backend
  insert : ∀ t rest, pcs t = .insertStore rest → rest = add
  take : ∀ k rest, b = .take k rest → add = k :: rest

section Locked

variable {pcs : T → MaProducerPc} {b b' : MaBackendPc} {spin spin' : Option (MaHolder T)}
variable {add add' : List ℕ} {t : T} {pc : MaProducerPc}

theorem insertStore_critical {rest : List ℕ} (h : pc = .insertStore rest) : pc.Critical :=
  h ▸ trivial

theorem take_critical {k : ℕ} {rest : List ℕ} (h : b = .take k rest) : b.Critical :=
  h ▸ trivial

theorem Locked.noProducer (h : Locked pcs b spin add) (hb : b.Critical) (t : T) :
    ¬ (pcs t).Critical := fun ht =>
  absurd ((h.producer t ht).symm.trans (h.backend hb)) (by simp)

theorem Locked.alone (h : Locked pcs b spin add) (ht : (pcs t).Critical) :
    ∀ u ≠ t, ¬ (pcs u).Critical := fun u hu hc =>
  hu (MaHolder.producer.inj (Option.some.inj ((h.producer u hc).symm.trans (h.producer t ht))))

theorem Locked.free (h : Locked pcs b none add) : (∀ t, ¬ (pcs t).Critical) ∧ ¬ b.Critical :=
  ⟨fun t ht => absurd (h.producer t ht) (by simp), fun hb => absurd (h.backend hb) (by simp)⟩

theorem Locked.backendOutside (h : Locked pcs b spin add) (hb : ¬ b'.Critical) :
    Locked pcs b' spin add :=
  ⟨h.producer, fun hc => absurd hc hb, h.insert, fun _ _ ht => absurd (take_critical ht) hb⟩

theorem Locked.backendAlone (hnone : ∀ t, ¬ (pcs t).Critical)
    (hb : b'.Critical → spin' = some .backend)
    (htake : ∀ k rest, b' = .take k rest → add' = k :: rest) : Locked pcs b' spin' add' :=
  ⟨fun t ht => absurd ht (hnone t), hb, fun t _ ht => absurd (insertStore_critical ht) (hnone t),
    htake⟩

variable [DecidableEq T]

theorem Locked.producerOutside (h : Locked pcs b spin add) (t : T) (hpc : ¬ pc.Critical) :
    Locked (update pcs t pc) b spin add where
  producer := (forall_update_iff pcs fun t pc =>
    pc.Critical → spin = some (.producer t)).mpr ⟨fun hc => absurd hc hpc, fun u _ => h.producer u⟩
  backend := h.backend
  insert := (forall_update_iff pcs fun _ pc => ∀ rest, pc = .insertStore rest →
    rest = add).mpr
      ⟨fun _ hrest => absurd (insertStore_critical hrest) hpc, fun u _ => h.insert u⟩
  take := h.take

theorem Locked.producerAlone (hnone : ∀ u ≠ t, ¬ (pcs u).Critical) (hb : ¬ b.Critical)
    (hpc : pc.Critical → spin' = some (.producer t))
    (hinsert : ∀ rest, pc = .insertStore rest → rest = add') :
    Locked (update pcs t pc) b spin' add' where
  producer := (forall_update_iff pcs fun t pc =>
    pc.Critical → spin' = some (.producer t)).mpr ⟨hpc, fun u hu hc => absurd hc (hnone u hu)⟩
  backend := fun hc => absurd hc hb
  insert := (forall_update_iff pcs fun _ pc => ∀ rest, pc = .insertStore rest →
    rest = add').mpr
      ⟨hinsert, fun u hu _ hrest => absurd (insertStore_critical hrest) (hnone u hu)⟩
  take := fun _ _ ht => absurd (take_critical ht) hb

end Locked

def pcs (s : MaRingState T α) : T → MaProducerPc := MaProducer.pc ∘ s.producers

abbrev Guarded (s : MaRingState T α) : Prop := Locked s.pcs s.backend s.spinlock s.addList

section Guarded

variable {s s' : MaRingState T α} {t : T} {capacity : ℕ}

theorem guarded_start (junk : MaRing T α) : Guarded (start junk) where
  producer := fun _ h => h.elim
  backend := fun h => h.elim
  insert := fun _ _ h => absurd h (by simp [start, pcs])
  take := fun _ _ h => absurd h (by simp [start])

variable [DecidableEq T]

theorem guarded_of_producer {p : MaProducer α}
    (hproducers : s'.producers = update s.producers t p)
    (hlock : Locked (update s.pcs t p.pc) s'.backend s'.spinlock s'.addList) :
    Guarded s' := by
  rw [Guarded, pcs, hproducers, comp_update]
  exact hlock

theorem Guarded.backendStep (h : Guarded s) (hnext : s.backendStep capacity = some s') :
    Guarded s' := by
  rw [MaRingState.backendStep] at hnext
  generalize hpc : s.backend = pc at hnext
  cases pc with
  | lock =>
    split_ifs at hnext with hfree
    cases hnext
    rw [Guarded, hfree] at h
    exact Locked.backendAlone h.free.1 (fun _ => rfl) (by simp)
  | handleNew =>
    have hnone := h.noProducer (hpc ▸ trivial)
    have hspin := h.backend (hpc ▸ trivial)
    cases hadd : s.addList with
    | nil =>
      simp only [hadd] at hnext
      cases hnext
      exact Locked.backendAlone hnone (fun _ => hspin) (by simp)
    | cons k rest =>
      simp only [hadd] at hnext
      cases hnext
      refine Locked.backendAlone hnone (fun _ => hspin) fun k' rest' heq => ?_
      obtain ⟨rfl, rfl⟩ := MaBackendPc.take.inj heq
      rfl
  | take k rest =>
    cases hnext
    exact Locked.backendAlone (h.noProducer (hpc ▸ trivial))
      (fun _ => h.backend (hpc ▸ trivial)) (by simp)
  | unlock =>
    cases hnext
    exact Locked.backendAlone (h.noProducer (hpc ▸ trivial)) False.elim (by simp)
  | consume todo =>
    cases todo <;> cases hnext <;>
      exact h.backendOutside id
  | loadR k todo w =>
    cases hnext
    exact h.backendOutside id
  | callback k todo w r n =>
    dsimp only at hnext
    split_ifs at hnext <;> cases hnext <;> exact h.backendOutside id
  | remove todo =>
    cases todo with
    | nil =>
      cases hnext
      exact h.backendOutside id
    | cons k todo =>
      dsimp only at hnext
      split_ifs at hnext <;> cases hnext <;> exact h.backendOutside id
  | storeDone k todo =>
    cases hnext
    exact h.backendOutside id
  | unlink k todo =>
    cases hnext
    exact h.backendOutside id

theorem Guarded.outside (h : Guarded s) {p : MaProducer α} (hp : ¬ p.pc.Critical)
    (hproducers : s'.producers = update s.producers t p)
    (hbackend : s'.backend = s.backend) (hspin : s'.spinlock = s.spinlock)
    (hadd : s'.addList = s.addList) : Guarded s' := by
  refine guarded_of_producer hproducers ?_
  rw [hbackend, hspin, hadd]
  exact h.producerOutside t hp

theorem Guarded.producerStepOf {k : ℕ} (h : Guarded s) (hnext : s.producerStepOf t k = some s') :
    Guarded s' := by
  have hcritical : (s.producers t).pc.Critical → (∀ u ≠ t, ¬ (s.pcs u).Critical) ∧
      ¬ s.backend.Critical ∧ s.spinlock = some (.producer t) := fun ht =>
    ⟨h.alone ht, fun hb => h.noProducer hb t ht, h.producer t ht⟩
  rw [MaRingState.producerStepOf] at hnext
  cases hpc : (s.producers t).pc <;> simp only [hpc, reduceCtorEq, Option.some.injEq] at hnext <;>
    rw [hpc] at hcritical
  case insertLock =>
    split_ifs at hnext with hfree
    cases hnext
    rw [Guarded, hfree] at h
    exact guarded_of_producer rfl
      (Locked.producerAlone (fun u _ => h.free.1 u) h.free.2 (fun _ => rfl) (by simp))
  case insertLoad =>
    subst hnext
    obtain ⟨hnone, hb, hspin⟩ := hcritical trivial
    refine guarded_of_producer rfl (Locked.producerAlone hnone hb (fun _ => hspin) ?_)
    exact fun rest heq => (MaProducerPc.insertStore.inj heq).symm
  case insertStore rest =>
    subst hnext
    obtain ⟨hnone, hb, hspin⟩ := hcritical trivial
    exact guarded_of_producer rfl (Locked.producerAlone hnone hb (fun _ => hspin) (by simp))
  case insertUnlock =>
    subst hnext
    obtain ⟨hnone, hb, -⟩ := hcritical trivial
    exact guarded_of_producer rfl (Locked.producerAlone hnone hb False.elim (by simp))
  case moveTest nextW =>
    subst hnext
    refine h.outside ?_ rfl rfl rfl rfl
    split_ifs <;> exact id
  case join =>
    subst hnext
    refine h.outside ?_ rfl rfl rfl rfl
    split_ifs <;> exact id
  case awaitDone =>
    subst hnext
    refine h.outside ?_ rfl rfl rfl rfl
    split_ifs <;> exact id
  all_goals
    subst hnext
    exact h.outside id rfl rfl rfl rfl

theorem threadCtxInit_cases (s : MaRingState T α) (t : T) (g : MaGrants) (junk : ℕ → α) :
    s.threadCtxInit t g junk = s ∨
      (s.producers t).ring = none ∧ s.threadCtxInit t g junk = s.makeRing t g junk := by
  rw [threadCtxInit]
  cases hring : (s.producers t).ring with
  | some k => exact .inl rfl
  | none =>
    by_cases hg : g.ring = true
    · exact .inr ⟨rfl, if_pos hg⟩
    · exact .inl (if_neg hg)

theorem Guarded.next (h : Guarded s) {a : MaRingStep T α} (hnext : s.next capacity a = some s') :
    Guarded s' := by
  cases a with
  | init t g junk =>
    rw [MaRingState.next] at hnext
    split_ifs at hnext
    cases hnext
    obtain heq | ⟨-, heq⟩ := s.threadCtxInit_cases t g junk <;> rw [heq]
    · exact h
    · refine h.outside ?_ rfl rfl rfl rfl
      rw [MaGrants.pc]
      split_ifs <;> exact id
  | alloc t | move t =>
    rw [MaRingState.next] at hnext
    split at hnext
    · next hpc _ =>
      cases hnext
      refine h.outside ?_ rfl rfl rfl rfl
      first | exact id | (rw [hpc]; exact id)
    · cases hnext
  | fill t data =>
    rw [MaRingState.next] at hnext
    split at hnext
    · cases hnext
      exact h
    · cases hnext
  | cleanup t =>
    rw [MaRingState.next] at hnext
    split_ifs at hnext
    split at hnext <;> cases hnext
    · exact h.outside id rfl rfl rfl rfl
    · exact h
  | producer t =>
    obtain ⟨k, -, hstep⟩ := Option.bind_eq_some_iff.mp hnext
    exact h.producerStepOf hstep
  | backend => exact h.backendStep hnext

end Guarded

end MaRingState

end Mugglec
