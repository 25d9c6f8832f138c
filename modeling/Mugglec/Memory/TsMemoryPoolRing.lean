import Mugglec.Memory.TsMemoryPool
import Mugglec.Machinery.Cyclic

/-!
# Memory/TsMemoryPoolRing — what the compare-and-swap does not see

The blocks to hand out are the arc of `ptrs` from `allocIdx` to `freeIdx`; the other blocks are live
or on their way through a `free`.
-/

namespace Mugglec

open Function Cyclic

def TsPoolPc.freeing : TsPoolPc → Option ℕ
  | .lock block | .index block | .storePtr block _ | .advance block | .storeFree block _ =>
    some block
  | _ => none

def TsPoolPc.Locked : TsPoolPc → Prop
  | .index _ | .storePtr _ _ | .advance _ | .storeFree _ _ | .unlock => True
  | _ => False

namespace TsPoolRing

variable (pool : TsMemoryPool) (m : TsPoolRing) (n : ℕ)

def available : List ℕ := arc m.ptrs m.allocIdx n

structure InStep : Prop where
  length_eq : m.ptrs.length = pool.capacity
  alloc_lt : m.allocIdx < pool.capacity
  pos : 0 < n
  le : n ≤ pool.capacity
  free_eq : m.freeIdx = (m.allocIdx + n) % pool.capacity

structure Apart {T : Type*} (freeing : T → Option ℕ) : Prop where
  nodup : (m.available n ++ m.live).Nodup
  lt : ∀ b ∈ m.available n ++ m.live, b < pool.capacity
  freeing_lt : ∀ t b, freeing t = some b → b < pool.capacity
  freeing_not_mem : ∀ t b, freeing t = some b → b ∉ m.available n ++ m.live
  freeing_inj : ∀ t t' b, freeing t = some b → freeing t' = some b → t = t'

variable {pool m n} {T : Type*} {freeing : T → Option ℕ} {t : T} {b : ℕ} {m' : TsPoolRing}

theorem Apart.lt_capacity (hring : InStep pool m n) (h : Apart pool m n freeing)
    (hb : freeing t = some b) : n < pool.capacity := by
  refine lt_of_le_of_ne hring.le ?_
  rintro rfl
  -- a full ring would hold every block
  have hlen : (m.available pool.capacity).length = pool.capacity :=
    length_arc _ hring.length_eq.ge
  have hnodup : (m.available pool.capacity).Nodup := (List.nodup_append.mp h.nodup).1
  have hsub : m.available pool.capacity ⊆ List.range pool.capacity := fun x hx =>
    List.mem_range.mpr (h.lt x (List.mem_append_left _ hx))
  have hperm : (m.available pool.capacity).Perm (List.range pool.capacity) :=
    (List.subperm_of_subset hnodup hsub).perm_of_length_le (by rw [List.length_range, hlen])
  refine h.freeing_not_mem t b hb (List.mem_append_left _ (hperm.mem_iff.mpr ?_))
  exact List.mem_range.mpr (h.freeing_lt t b hb)

theorem InStep.take (hring : InStep pool m n) (hb : m.ptrs[m.allocIdx]? = some b)
    (hne : (m.allocIdx + 1) % pool.capacity ≠ m.freeIdx) :
    let m' := { m with allocIdx := (m.allocIdx + 1) % pool.capacity, live := m.live ++ [b] }
    InStep pool m' (n - 1) ∧ m.available n = b :: m'.available (n - 1) := by
  obtain ⟨hlen, halloc, hpos, hle, hfree⟩ := hring
  obtain ⟨n, rfl⟩ : ∃ k, n = k + 1 := ⟨n - 1, by omega⟩
  rw [Nat.add_sub_cancel]
  refine ⟨⟨hlen, Nat.mod_lt _ (by omega), ?_, by omega, ?_⟩, ?_⟩
  · -- with one block only, the next index would be `freeIdx`
    refine Nat.pos_of_ne_zero ?_
    rintro rfl
    exact hne hfree.symm
  · dsimp only
    rw [hfree, Nat.mod_add_mod]
    congr 1
    omega
  · obtain ⟨hidx, hget⟩ := List.getElem?_eq_some_iff.mp hb
    rw [available, arc_succ hidx (by omega), hget, bump_eq_mod hidx, hlen, available]

theorem Apart.congr (h : Apart pool m n freeing) (hlive : m'.live = m.live)
    (hav : m'.available n = m.available n) : Apart pool m' n freeing := by
  refine ⟨?_, ?_, h.freeing_lt, ?_, h.freeing_inj⟩ <;> rw [hlive, hav]
  · exact h.nodup
  · exact h.lt
  · exact h.freeing_not_mem

theorem Apart.take {k : ℕ} (h : Apart pool m n freeing) (hlive : m'.live = m.live ++ [b])
    (hav : m.available n = b :: m'.available k) :
    Apart pool m' k freeing := by
  have hperm : (m'.available k ++ m'.live).Perm (m.available n ++ m.live) := by
    rw [hlive, hav, ← List.append_assoc, List.cons_append]
    exact List.perm_append_singleton b _
  exact ⟨hperm.nodup_iff.mpr h.nodup, fun x hx => h.lt x (hperm.mem_iff.mp hx), h.freeing_lt,
    fun t b hb hmem => h.freeing_not_mem t b hb (hperm.mem_iff.mp hmem), h.freeing_inj⟩

theorem InStep.store (hring : InStep pool m n) (hn : n < pool.capacity) (b : ℕ) :
    let m' := { m with ptrs := m.ptrs.set m.freeIdx b }
    InStep pool m' n ∧ m'.available n = m.available n ∧ m'.ptrs[m.freeIdx]? = some b := by
  obtain ⟨hlen, halloc, hpos, hle, hfree⟩ := hring
  refine ⟨⟨by rwa [List.length_set], halloc, hpos, hle, hfree⟩, ?_, ?_⟩
  · rw [available, available, hfree, ← hlen]
    exact arc_set_of_lt _ b (hlen ▸ hn)
  · refine List.getElem?_set_self ?_
    rw [hfree, hlen]
    exact Nat.mod_lt _ (by omega)

variable [DecidableEq T]

theorem update_eq_some {o : Option ℕ} {t' : T} {x : ℕ}
    (h : update freeing t o t' = some x) :
    (t' = t ∧ o = some x) ∨ (t' ≠ t ∧ freeing t' = some x) := by
  rcases eq_or_ne t' t with rfl | hne
  · exact Or.inl ⟨rfl, by rwa [update_self] at h⟩
  · exact Or.inr ⟨hne, by rwa [update_of_ne hne] at h⟩

theorem Apart.call (h : Apart pool m n freeing) (t : T) (hb : b ∈ m.live) :
    Apart pool { m with live := m.live.erase b } n (update freeing t (some b)) := by
  obtain ⟨-, hlive, hdisj⟩ := List.nodup_append.mp h.nodup
  have hsub : (m.available n ++ m.live.erase b).Sublist (m.available n ++ m.live) :=
    List.erase_sublist.append_left _
  have hmem : b ∈ m.available n ++ m.live := List.mem_append_right _ hb
  have hnot : ∀ t', freeing t' ≠ some b := fun t' ht' => h.freeing_not_mem t' b ht' hmem
  refine ⟨h.nodup.sublist hsub, fun x hx => h.lt x (hsub.subset hx), ?_, ?_, ?_⟩
  · intro t' x hx
    rcases update_eq_some hx with ⟨-, hx⟩ | ⟨-, hx⟩
    · exact Option.some.inj hx ▸ h.lt b hmem
    · exact h.freeing_lt t' x hx
  · intro t' x hx hmem'
    rcases update_eq_some hx with ⟨-, hx⟩ | ⟨-, hx⟩
    · cases hx
      rcases List.mem_append.mp hmem' with hav | hlive'
      · exact hdisj b hav b hb rfl
      · exact hlive.not_mem_erase hlive'
    · exact h.freeing_not_mem t' x hx (hsub.subset hmem')
  · intro t₁ t₂ x h₁ h₂
    rcases update_eq_some h₁ with ⟨heq₁, hx₁⟩ | ⟨-, hx₁⟩ <;>
      rcases update_eq_some h₂ with ⟨heq₂, hx₂⟩ | ⟨-, hx₂⟩
    · exact heq₁.trans heq₂.symm
    · exact absurd (hx₂.trans hx₁.symm) (hnot t₂)
    · exact absurd (hx₁.trans hx₂.symm) (hnot t₁)
    · exact h.freeing_inj t₁ t₂ x hx₁ hx₂

theorem InStep.put (hring : InStep pool m n) (hn : n < pool.capacity)
    (hb : m.ptrs[m.freeIdx]? = some b) :
    let m' := { m with freeIdx := (m.freeIdx + 1) % pool.capacity }
    InStep pool m' (n + 1) ∧ m'.available (n + 1) = m.available n ++ [b] := by
  obtain ⟨hlen, halloc, hpos, hle, hfree⟩ := hring
  refine ⟨⟨hlen, halloc, Nat.succ_pos n, hn, ?_⟩, ?_⟩
  · dsimp only
    rw [hfree, Nat.mod_add_mod, add_assoc]
  · obtain ⟨hidx, hget⟩ := List.getElem?_eq_some_iff.mp hb
    simp only [hfree, ← hlen] at hidx hget
    rw [available, arc_succ_right (hlen ▸ hn) hidx, hget, available]

theorem Apart.put {k : ℕ} (h : Apart pool m n freeing) (ht : freeing t = some b)
    (hlive : m'.live = m.live) (hav : m'.available k = m.available n ++ [b]) :
    Apart pool m' k (update freeing t none) := by
  have hperm : (m'.available k ++ m'.live).Perm (b :: (m.available n ++ m.live)) := by
    rw [hlive, hav, List.append_assoc]
    exact List.perm_middle
  have hother : ∀ {t' x}, update freeing t none t' = some x →
      t' ≠ t ∧ freeing t' = some x := by
    intro t' x hx
    rcases update_eq_some hx with ⟨-, hx⟩ | hx
    · cases hx
    · exact hx
  refine ⟨?_, ?_, fun t' x hx => h.freeing_lt t' x (hother hx).2, ?_, fun t₁ t₂ x h₁ h₂ =>
    h.freeing_inj t₁ t₂ x (hother h₁).2 (hother h₂).2⟩
  · exact hperm.nodup_iff.mpr (List.nodup_cons.mpr ⟨h.freeing_not_mem t b ht, h.nodup⟩)
  · intro x hx
    rcases List.mem_cons.mp (hperm.mem_iff.mp hx) with rfl | hx
    · exact h.freeing_lt t x ht
    · exact h.lt x hx
  · intro t' x hx hmem
    obtain ⟨hne, hx⟩ := hother hx
    rcases List.mem_cons.mp (hperm.mem_iff.mp hmem) with rfl | hmem
    · exact hne (h.freeing_inj t' t x hx ht)
    · exact h.freeing_not_mem t' x hx hmem

end TsPoolRing

namespace TsPoolState

open TsPoolRing

variable {T : Type*} (pool : TsMemoryPool)

def ThreadOk (m : TsPoolRing) : TsPoolPc → Prop
  | .storePtr _ idx => idx = m.freeIdx
  | .advance block => m.ptrs[m.freeIdx]? = some block
  | .storeFree block freePos =>
    m.ptrs[m.freeIdx]? = some block ∧ freePos = (m.freeIdx + 1) % pool.capacity
  | _ => True

def freeing (s : TsPoolState T) (t : T) : Option ℕ := (s.threads t).freeing

structure Inv (s : TsPoolState T) (n : ℕ) : Prop where
  ring : InStep pool s.toTsPoolRing n
  apart : Apart pool s.toTsPoolRing n s.freeing
  owner : ∀ t, (s.threads t).Locked → s.freeSpinlock = some t
  threads : ∀ t, ThreadOk pool s.toTsPoolRing (s.threads t)

def SwapOk (m : TsPoolRing) : TsPoolPc → Prop
  | .cas expected block => m.allocIdx = expected →
    m.ptrs[expected]? = some block ∧ bump pool expected ≠ m.freeIdx
  | _ => True

def Coherent (s : TsPoolState T) : TsPoolStep T → Prop
  | .step t => SwapOk pool s.toTsPoolRing (s.threads t)
  | _ => True

instance (m : TsPoolRing) (pc : TsPoolPc) : Decidable (SwapOk pool m pc) :=
  match pc with
  | .cas _ _ => inferInstanceAs (Decidable (_ → _))
  | .idle | .loadAlloc | .test _ | .loadFree _ | .storeCached _ _ | .retest _ | .loadPtr _ | .lock _
  | .index _ | .storePtr _ _ | .advance _ | .storeFree _ _ | .unlock => isTrue trivial

instance (s : TsPoolState T) (a : TsPoolStep T) : Decidable (Coherent pool s a) :=
  match a with
  | .step _ => inferInstanceAs (Decidable (SwapOk ..))
  | .alloc _ | .free _ _ | .spurious _ => isTrue trivial

variable {pool} {s s' : TsPoolState T} {n : ℕ}

theorem inv_start (hpos : 0 < pool.capacity) :
    Inv pool (start pool : TsPoolState T) pool.capacity := by
  have hav : (start pool : TsPoolState T).available pool.capacity = List.range pool.capacity := by
    rw [available, start, arc, List.rotate_zero, List.take_of_length_le (List.length_range).le]
  refine ⟨⟨List.length_range, hpos, hpos, le_refl _, ?_⟩, ⟨?_, ?_, ?_, ?_, ?_⟩, ?_,
    fun _ => trivial⟩
  · simp [start]
  · rw [hav]
    simpa [start] using List.nodup_range
  · rw [hav]
    simp [start]
  all_goals simp [freeing, start, TsPoolPc.freeing, TsPoolPc.Locked]

theorem ThreadOk.of_not_locked {m : TsPoolRing} {pc : TsPoolPc} (h : ¬ pc.Locked) :
    ThreadOk pool m pc := by
  cases pc <;> first | exact trivial | exact absurd trivial h

theorem Inv.not_locked (h : Inv pool s n) {t t' : T} (ht : (s.threads t).Locked) (hne : t' ≠ t) :
    ¬ (s.threads t').Locked := fun ht' =>
  hne (Option.some.inj ((h.owner t' ht').symm.trans (h.owner t ht)))

theorem Inv.setCached (h : Inv pool s n) (pos : ℕ) : Inv pool { s with cachedFreePos := pos } n :=
  ⟨h.ring, h.apart, h.owner, h.threads⟩

variable {t : T} {pc : TsPoolPc} {k : ℕ}

theorem bump_eq (hc : pool.capacity = 2 ^ k) (hk : k < 32) {pos : ℕ} (hpos : pos < pool.capacity) :
    bump pool pos = (pos + 1) % pool.capacity := by
  have hlt : pos + 1 < 2 ^ 32 :=
    calc pos + 1 ≤ 2 ^ k := hc ▸ hpos
      _ < 2 ^ 32 := Nat.pow_lt_pow_right (by omega) hk
  rw [bump, u32_of_lt hlt, hc, idx_eq_mod hk]

theorem capacity_of_tsInit {capacity dataSize : ℕ} {data ptrs : Bool} (hcap : capacity < 2 ^ 32)
    (hinit : TsMemoryPool.init capacity dataSize data ptrs = .ok pool) :
    ∃ k, k < 32 ∧ pool.capacity = 2 ^ k := by
  simp only [TsMemoryPool.init] at hinit
  split_ifs at hinit with hpos _ hzero
  obtain rfl := Except.ok.inj hinit
  exact u32_nextPowOf2 hpos hcap hzero

variable [DecidableEq T]

theorem freeing_goto : (s.goto t pc).freeing = update s.freeing t pc.freeing := by
  funext t'
  rcases eq_or_ne t' t with rfl | hne
  · simp [freeing, goto]
  · simp [freeing, goto, hne]

theorem freeing_goto_eq (hpc : pc.freeing = s.freeing t) : (s.goto t pc).freeing = s.freeing := by
  rw [freeing_goto, hpc, update_eq_self]

theorem Inv.goto (h : Inv pool s n) (hfree : pc.freeing = s.freeing t)
    (hlock : pc.Locked → s.freeSpinlock = some t) (hok : ThreadOk pool s.toTsPoolRing pc) :
    Inv pool (s.goto t pc) n where
  ring := h.ring
  apart := by
    rw [freeing_goto_eq hfree]
    exact h.apart
  owner := (forall_update_iff s.threads fun t pc =>
    pc.Locked → s.freeSpinlock = some t).mpr ⟨hlock, fun t' _ => h.owner t'⟩
  threads := (forall_update_iff s.threads fun _ => ThreadOk pool s.toTsPoolRing).mpr
    ⟨hok, fun t' _ => h.threads t'⟩

theorem Inv.setLock (h : Inv pool s n) {o : Option T} (hfree : pc.freeing = s.freeing t)
    (hlock : pc.Locked → o = some t) (hother : ∀ t', t' ≠ t → ¬ (s.threads t').Locked)
    (hok : ThreadOk pool s.toTsPoolRing pc) :
    Inv pool { s.goto t pc with freeSpinlock := o } n where
  ring := h.ring
  apart := by
    have := h.apart
    rw [← freeing_goto_eq hfree] at this
    exact this
  owner := (forall_update_iff s.threads fun t pc => pc.Locked → o = some t).mpr
    ⟨hlock, fun t' hne ht' => absurd ht' (hother t' hne)⟩
  threads := (forall_update_iff s.threads fun _ => ThreadOk pool s.toTsPoolRing).mpr
    ⟨hok, fun t' _ => h.threads t'⟩

theorem Inv.setRing {m : TsPoolRing} (h : Inv pool s n) (hring : InStep pool m k)
    (hapart : Apart pool m k (s.goto t pc).freeing) (hlock : pc.Locked → s.freeSpinlock = some t)
    (hok : ThreadOk pool m pc) (hother : ∀ t', t' ≠ t → ThreadOk pool m (s.threads t')) :
    Inv pool { s.goto t pc with toTsPoolRing := m } k where
  ring := hring
  apart := hapart
  owner := (forall_update_iff s.threads fun t pc =>
    pc.Locked → s.freeSpinlock = some t).mpr ⟨hlock, fun t' _ => h.owner t'⟩
  threads := (forall_update_iff s.threads fun _ => ThreadOk pool m).mpr ⟨hok, hother⟩

theorem Inv.threadStep (hc : pool.capacity = 2 ^ k) (hk : k < 32) (h : Inv pool s n)
    (hcoh : Coherent pool s (.step t)) (hnext : s.threadStep pool t = some s') :
    ∃ n', Inv pool s' n' := by
  have hok := h.threads t
  have howner := h.owner t
  have hfree : s.freeing t = (s.threads t).freeing := rfl
  rw [TsPoolState.threadStep] at hnext
  generalize hpc : s.threads t = pc at hnext hfree hcoh howner hok
  cases pc with
  | idle => cases hnext
  | loadAlloc =>
    cases hnext
    exact ⟨n, h.goto hfree.symm False.elim trivial⟩
  | test expected =>
    dsimp only at hnext
    split_ifs at hnext <;> cases hnext
    · exact ⟨n, h.goto hfree.symm False.elim trivial⟩
    · exact ⟨n, h.goto hfree.symm False.elim trivial⟩
  | loadFree expected =>
    cases hnext
    exact ⟨n, h.goto hfree.symm False.elim trivial⟩
  | storeCached expected freePos =>
    cases hnext
    have hgoto : Inv pool (s.goto t (.retest expected)) n := h.goto hfree.symm False.elim trivial
    exact ⟨n, hgoto.setCached freePos⟩
  | retest expected =>
    dsimp only at hnext
    split_ifs at hnext <;> cases hnext
    · exact ⟨n, h.goto hfree.symm False.elim trivial⟩
    · exact ⟨n, h.goto hfree.symm False.elim trivial⟩
  | loadPtr expected =>
    cases hnext
    exact ⟨n, h.goto hfree.symm False.elim trivial⟩
  | cas expected block =>
    simp only [Coherent, hpc, SwapOk] at hcoh
    dsimp only at hnext
    split_ifs at hnext with heq <;> cases hnext
    · obtain ⟨hptr, hne⟩ := hcoh heq
      subst heq
      rw [bump_eq hc hk h.ring.alloc_lt] at hne ⊢
      obtain ⟨hring, hav⟩ := h.ring.take hptr hne
      have hsame : (s.goto t .idle).freeing = s.freeing := freeing_goto_eq hfree.symm
      exact ⟨n - 1, h.setRing hring (hsame ▸ h.apart.take rfl hav) False.elim trivial
        fun t' _ => h.threads t'⟩
    · exact ⟨n, h.goto hfree.symm False.elim trivial⟩
  | lock block =>
    split_ifs at hnext with hnone
    cases hnext
    refine ⟨n, h.setLock hfree.symm (fun _ => rfl) (fun t' _ ht' => ?_) trivial⟩
    exact absurd (hnone.symm.trans (h.owner t' ht')) (by simp)
  | index block =>
    cases hnext
    exact ⟨n, h.goto hfree.symm howner rfl⟩
  | storePtr block idx =>
    cases hnext
    obtain rfl : idx = s.freeIdx := hok
    obtain ⟨hring, hav, hget⟩ := h.ring.store (h.apart.lt_capacity h.ring hfree) block
    have hsame : (s.goto t (.advance block)).freeing = s.freeing := freeing_goto_eq hfree.symm
    exact ⟨n, h.setRing hring (hsame ▸ h.apart.congr rfl hav) howner hget fun t' hne =>
      .of_not_locked (h.not_locked (hpc ▸ trivial) hne)⟩
  | advance block =>
    cases hnext
    refine ⟨n, h.goto hfree.symm howner ⟨hok, bump_eq hc hk ?_⟩⟩
    rw [h.ring.free_eq]
    exact Nat.mod_lt _ (hc ▸ Nat.two_pow_pos k)
  | storeFree block freePos =>
    cases hnext
    obtain ⟨hget, rfl⟩ := hok
    obtain ⟨hring, hav⟩ := h.ring.put (h.apart.lt_capacity h.ring hfree) hget
    refine ⟨n + 1, h.setRing hring ?_ howner trivial fun t' hne =>
      .of_not_locked (h.not_locked (hpc ▸ trivial) hne)⟩
    rw [freeing_goto]
    exact h.apart.put hfree rfl hav
  | unlock =>
    cases hnext
    exact ⟨n, h.setLock hfree.symm False.elim
      (fun t' hne => h.not_locked (hpc ▸ trivial) hne) trivial⟩

theorem Inv.step (hc : pool.capacity = 2 ^ k) (hk : k < 32) (h : Inv pool s n) {a : TsPoolStep T}
    (hcoh : Coherent pool s a) (hnext : s.next pool a = some s') :
    ∃ n', Inv pool s' n' := by
  cases a with
  | alloc t =>
    simp only [next] at hnext
    split at hnext
    · next hpc =>
      cases hnext
      exact ⟨n, h.goto (by rw [freeing, hpc]; rfl) False.elim trivial⟩
    · simp at hnext
  | free t block =>
    simp only [next] at hnext
    split at hnext
    · next hpc =>
      split_ifs at hnext with hmem
      cases hnext
      have hring : InStep pool { s.toTsPoolRing with live := s.live.erase block } n :=
        ⟨h.ring.length_eq, h.ring.alloc_lt, h.ring.pos, h.ring.le, h.ring.free_eq⟩
      refine ⟨n, h.setRing hring ?_ False.elim trivial fun t' _ => h.threads t'⟩
      rw [freeing_goto]
      exact h.apart.call t hmem
    · simp at hnext
  | step t => exact h.threadStep hc hk hcoh hnext
  | spurious t =>
    simp only [next] at hnext
    split at hnext
    · next hpc =>
      cases hnext
      exact ⟨n, h.goto (by rw [freeing, hpc]; rfl) False.elim trivial⟩
    · simp at hnext

/-- **Coherent swaps keep the live blocks apart**, in every interleaving. -/
theorem live_nodup_of_coherent {capacity dataSize : ℕ} {data ptrs : Bool} (hcap : capacity < 2 ^ 32)
    (hinit : TsMemoryPool.init capacity dataSize data ptrs = .ok pool)
    (hs : Steps.Reach (fun s => s.next pool) (Coherent pool) (start pool) s) : s.live.Nodup := by
  obtain ⟨k, hk, hc⟩ := capacity_of_tsInit hcap hinit
  obtain ⟨n, hinv⟩ : ∃ n, Inv pool s n := by
    refine hs.invariant (P := fun s => ∃ n, Inv pool s n) ?_ ?_
    · exact ⟨_, inv_start (hc ▸ Nat.two_pow_pos k)⟩
    · rintro s a s' ⟨n, h⟩ hcoh hnext
      exact h.step hc hk hcoh hnext
  exact (List.nodup_append.mp hinv.apart.nodup).2.1

def allocRun (t : T) : List (TsPoolStep T) := .alloc t :: List.replicate 4 (.step t)

def allocReloadRun (t : T) : List (TsPoolStep T) := .alloc t :: List.replicate 7 (.step t)

def freeRun (t : T) (block : ℕ) : List (TsPoolStep T) :=
  .free t block :: List.replicate 6 (.step t)

def overtaken : List (TsPoolStep Bool) :=
  TsPoolStep.alloc false :: List.replicate 3 (.step false) ++ allocRun true ++
    List.replicate 4 (TsPoolStep.step false) ++ freeRun true 0

theorem live_nodup_overtaken : ∃ s : TsPoolState Bool, s.live = [1] ∧ s.live.Nodup := by
  have hinit : TsMemoryPool.init 4 8 true true = .ok ⟨4, 192⟩ := rfl
  exact Steps.exists_of_execWhen (start ⟨4, 192⟩) overtaken (by decide) fun _ hs _ =>
    live_nodup_of_coherent (by decide) hinit hs

def lapped : List (TsPoolStep Bool) :=
  TsPoolStep.alloc false :: List.replicate 3 (.step false) ++ allocRun true ++ allocRun true ++
    freeRun true 1 ++ freeRun true 0 ++ allocRun true ++ allocReloadRun true ++ freeRun true 2 ++
    [TsPoolStep.step false] ++ allocReloadRun true

theorem not_live_nodup_lapped : ∃ s : TsPoolState Bool,
    Steps.Reach (fun s => s.next ⟨4, 192⟩) Steps.anyStep (start ⟨4, 192⟩) s ∧
      s.live = [3, 0, 0] ∧ ¬ s.live.Nodup := by
  obtain ⟨s, hs, hlive⟩ : ∃ s : TsPoolState Bool,
      Steps.Reach (fun s => s.next ⟨4, 192⟩) Steps.anyStep (start ⟨4, 192⟩) s ∧
        s.live = [3, 0, 0] := Steps.exists_reach lapped (by decide +kernel)
  exact ⟨s, hs, hlive, hlive ▸ by decide⟩

end TsPoolState

end Mugglec
