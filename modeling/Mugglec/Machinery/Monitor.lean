import Mathlib.Data.Finset.Card
import Mathlib.Tactic

/-!
# Machinery/Monitor — a mutex and its condition variables, and when no wakeup is lost

A thread is outside the monitor, inside it as the owner of the mutex, or blocked on one of the
condition variables.  A blocked thread is *waiting* until it is signalled, and *signalled* until it
has the mutex again and resumes; it may also wake without a signal.
-/

structure CondVar (T : Type*) where
  waiting : Finset T
  signalled : Finset T
  disjoint : Disjoint waiting signalled

open Function

namespace CondVar

variable {T : Type*}

def init : CondVar T := ⟨∅, ∅, Finset.disjoint_empty_left ∅⟩

variable [DecidableEq T] (cv : CondVar T)

def wait (t : T) : CondVar T where
  waiting := insert t cv.waiting
  signalled := cv.signalled.erase t
  disjoint := Finset.disjoint_insert_left.mpr
    ⟨Finset.notMem_erase t _, cv.disjoint.mono_right (Finset.erase_subset t _)⟩

def signal (t : T) : CondVar T where
  waiting := cv.waiting.erase t
  signalled := insert t cv.signalled
  disjoint := Finset.disjoint_insert_right.mpr
    ⟨Finset.notMem_erase t _, cv.disjoint.mono_left (Finset.erase_subset t _)⟩

def notifyOne : Option T → Option (CondVar T)
  | none => if cv.waiting = ∅ then some cv else none
  | some t => if t ∈ cv.waiting then some (cv.signal t) else none

def spurious (t : T) : CondVar T where
  waiting := cv.waiting.erase t
  signalled := cv.signalled
  disjoint := cv.disjoint.mono_left (Finset.erase_subset t _)

def resume (t : T) : CondVar T where
  waiting := cv.waiting
  signalled := cv.signalled.erase t
  disjoint := cv.disjoint.mono_right (Finset.erase_subset t _)

def sleepers : Finset T := cv.waiting ∪ cv.signalled

variable {cv} {cv' : CondVar T} {t u : T} {who : Option T} {n : ℕ}

theorem mem_sleepers : t ∈ cv.sleepers ↔ t ∈ cv.waiting ∨ t ∈ cv.signalled := Finset.mem_union

theorem mem_sleepers_wait (h : u ∈ (cv.wait t).sleepers) : u = t ∨ u ∈ cv.sleepers := by
  simp only [mem_sleepers, wait, Finset.mem_insert, Finset.mem_erase] at h ⊢
  tauto

theorem mem_sleepers_spurious (h : u ∈ (cv.spurious t).sleepers) : u ∈ cv.sleepers := by
  simp only [mem_sleepers, spurious, Finset.mem_erase] at h ⊢
  tauto

theorem mem_sleepers_resume (ht : t ∉ cv.waiting) (h : u ∈ (cv.resume t).sleepers) :
    u ≠ t ∧ u ∈ cv.sleepers := by
  simp only [mem_sleepers, resume, Finset.mem_erase] at h ⊢
  rcases h with h | h
  · exact ⟨fun hut => ht (hut ▸ h), .inl h⟩
  · exact ⟨h.1, .inr h.2⟩

theorem notifyOne_cases (h : cv.notifyOne who = some cv') :
    (cv.waiting = ∅ ∧ cv' = cv) ∨ ∃ t ∈ cv.waiting, cv' = cv.signal t := by
  cases who with
  | none =>
    simp only [notifyOne, Option.ite_none_right_eq_some, Option.some.injEq] at h
    exact .inl ⟨h.1, h.2.symm⟩
  | some t =>
    simp only [notifyOne, Option.ite_none_right_eq_some, Option.some.injEq] at h
    exact .inr ⟨t, h.1, h.2.symm⟩

theorem sleepers_notifyOne (h : cv.notifyOne who = some cv') :
    cv'.sleepers = cv.sleepers := by
  obtain ⟨-, rfl⟩ | ⟨t, ht, rfl⟩ := notifyOne_cases h
  · rfl
  · rw [sleepers, sleepers, signal, Finset.union_insert, ← Finset.insert_union,
      Finset.insert_erase ht]

def Covered (cv : CondVar T) (n : ℕ) : Prop := cv.waiting.Nonempty → n ≤ cv.signalled.card

omit [DecidableEq T] in
theorem covered_zero : Covered cv 0 := fun _ => Nat.zero_le _

omit [DecidableEq T] in
theorem Covered.mono {m : ℕ} (h : Covered cv n) (hm : m ≤ n) : Covered cv m :=
  fun hne => hm.trans (h hne)

theorem Covered.spurious (h : Covered cv n) : Covered (cv.spurious t) n :=
  fun hne => h (hne.mono (Finset.erase_subset t _))

theorem Covered.resume (h : Covered cv n) : Covered (cv.resume t) (n - 1) :=
  fun hne => (Nat.sub_le_sub_right (h hne) 1).trans Finset.pred_card_le_card_erase

theorem Covered.notifyOne (h : Covered cv n) (hcv : cv.notifyOne who = some cv') :
    Covered cv' (n + 1) := by
  obtain ⟨hnone, rfl⟩ | ⟨t, ht, rfl⟩ := notifyOne_cases hcv
  · exact fun hne => absurd hnone hne.ne_empty
  · intro _
    have hfresh : t ∉ cv.signalled := Finset.disjoint_left.mp cv.disjoint ht
    rw [signal, Finset.card_insert_of_notMem hfresh]
    exact Nat.succ_le_succ (h ⟨t, ht⟩)

theorem covered_notifyOne (h : cv.waiting.card ≤ 1 ∨ n ≤ cv.signalled.card + 1)
    (hcv : cv.notifyOne who = some cv') :
    Covered cv' n := by
  obtain ⟨hnone, rfl⟩ | ⟨t, ht, rfl⟩ := notifyOne_cases hcv
  · exact fun hne => absurd hnone hne.ne_empty
  · rintro ⟨u, hu⟩
    have hfresh : t ∉ cv.signalled := Finset.disjoint_left.mp cv.disjoint ht
    rw [signal, Finset.card_insert_of_notMem hfresh]
    refine h.resolve_left fun hone => ?_
    obtain ⟨hut, hu⟩ := Finset.mem_erase.mp hu
    exact hut (Finset.card_le_one.mp hone u hu t ht)

end CondVar

structure Monitor (T K : Type*) where
  owner : Option T
  cvs : K → CondVar T

inductive Monitor.Place (K : Type*)
  | outside
  | inside
  | blocked (k : K)

namespace Monitor

variable {T K : Type*}

def init : Monitor T K := ⟨none, fun _ => .init⟩

def lock (m : Monitor T K) (t : T) : Option (Monitor T K) :=
  if m.owner.isNone then some { m with owner := some t } else none

def unlock (m : Monitor T K) : Monitor T K := { m with owner := none }

variable {m m' : Monitor T K} {place : T → Place K} {t : T} {k : K} {p : Place K} {who : Option T}

theorem free_of_lock (h : m.lock t = some m') : m.owner = none := by
  simp only [Monitor.lock, Option.isNone_iff_eq_none, Option.ite_none_right_eq_some] at h
  exact h.1

def Covers (m : Monitor T K) (todo : K → ℕ) : Prop := ∀ k, (m.cvs k).Covered (todo k)

variable {todo todo' : K → ℕ}

theorem covers_init : Covers (init : Monitor T K) todo :=
  fun _ hne => absurd rfl hne.ne_empty

theorem Covers.mono (h : Covers m todo) (hle : ∀ k, todo' k ≤ todo k) : Covers m todo' :=
  fun k => (h k).mono (hle k)

theorem Covers.lock (h : Covers m todo) (hm : m.lock t = some m') : Covers m' todo := by
  simp only [Monitor.lock, Option.ite_none_right_eq_some, Option.some.injEq] at hm
  obtain ⟨-, rfl⟩ := hm
  exact h

variable [DecidableEq T]

structure Seats (m : Monitor T K) (place : T → Place K) : Prop where
  inside : ∀ t, place t = .inside ↔ m.owner = some t
  blocked : ∀ k t, t ∈ (m.cvs k).sleepers → place t = .blocked k

theorem seats_init : Seats (init : Monitor T K) fun _ => .outside :=
  ⟨fun t => by simp [init], fun k t h => by simp [init, CondVar.init, CondVar.sleepers] at h⟩

theorem Seats.stay (h : Seats m place) (hp : place t = p) :
    Seats m (update place t p) := by
  rwa [← hp, update_eq_self]

theorem Seats.notMem (h : Seats m place) (hp : ∀ k, place t ≠ .blocked k) (k : K) :
    t ∉ (m.cvs k).sleepers := fun ht => hp k (h.blocked k t ht)

theorem Seats.move (h : Seats m place) (hin : p = .inside ↔ m'.owner = some t)
    (howner : ∀ u ≠ t, m.owner = some u ↔ m'.owner = some u)
    (hblocked : ∀ k, t ∈ (m'.cvs k).sleepers → p = .blocked k)
    (hsub : ∀ k, ∀ u ≠ t, u ∈ (m'.cvs k).sleepers → u ∈ (m.cvs k).sleepers) :
    Seats m' (update place t p) where
  inside := (forall_update_iff place fun u p => p = .inside ↔ m'.owner = some u).mpr
    ⟨hin, fun u hu => (h.inside u).trans (howner u hu)⟩
  blocked := fun k => (forall_update_iff place
    fun u p => u ∈ (m'.cvs k).sleepers → p = .blocked k).mpr
    ⟨hblocked k, fun u hu hmem => h.blocked k u (hsub k u hu hmem)⟩

theorem Seats.others (h : Seats m place) (ht : place t = .inside) {u : T} (hu : u ≠ t) :
    m.owner = some u ↔ none = some u := by
  rw [(h.inside t).mp ht]
  simp [hu.symm]

theorem Seats.lock (h : Seats m place) (ht : place t = .outside) (hm : m.lock t = some m') :
    Seats m' (update place t .inside) := by
  simp only [Monitor.lock, Option.isNone_iff_eq_none, Option.ite_none_right_eq_some,
    Option.some.injEq] at hm
  obtain ⟨hfree, rfl⟩ := hm
  refine h.move (by simp) (fun u hu => ?_) (fun k hk => ?_) fun _ _ _ => id
  · simp [hfree, hu.symm]
  · exact absurd hk (h.notMem (fun _ => ht ▸ nofun) k)

theorem Seats.unlock (h : Seats m place) (ht : place t = .inside) :
    Seats m.unlock (update place t .outside) :=
  h.move (by simp [Monitor.unlock]) (fun _ => h.others ht)
    (fun k hk => absurd hk (h.notMem (fun _ => ht ▸ nofun) k)) fun _ _ _ => id

variable [DecidableEq K]

def wait (m : Monitor T K) (t : T) (k : K) : Monitor T K :=
  ⟨none, update m.cvs k ((m.cvs k).wait t)⟩

def resume (m : Monitor T K) (t : T) (k : K) : Option (Monitor T K) :=
  if m.owner.isNone ∧ t ∉ (m.cvs k).waiting then
    some ⟨some t, update m.cvs k ((m.cvs k).resume t)⟩
  else none

def notifyOne (m : Monitor T K) (k : K) (who : Option T) : Option (Monitor T K) :=
  ((m.cvs k).notifyOne who).map fun cv => { m with cvs := update m.cvs k cv }

def spurious (m : Monitor T K) (t : T) (k : K) : Option (Monitor T K) :=
  if t ∈ (m.cvs k).waiting then
    some { m with cvs := update m.cvs k ((m.cvs k).spurious t) }
  else none

theorem free_of_resume (h : m.resume t k = some m') : m.owner = none := by
  simp only [Monitor.resume, Option.isNone_iff_eq_none, Option.ite_none_right_eq_some] at h
  exact h.1.1

theorem owner_resume (h : m.resume t k = some m') : m'.owner = some t := by
  simp only [Monitor.resume, Option.ite_none_right_eq_some, Option.some.injEq] at h
  rw [← h.2]

theorem owner_notifyOne (h : m.notifyOne k who = some m') : m'.owner = m.owner := by
  obtain ⟨cv, -, rfl⟩ := Option.map_eq_some_iff.mp h
  rfl

theorem owner_spurious (h : m.spurious t k = some m') : m'.owner = m.owner := by
  simp only [Monitor.spurious, Option.ite_none_right_eq_some, Option.some.injEq] at h
  rw [← h.2]

theorem Seats.wait (h : Seats m place) (ht : place t = .inside) (k : K) :
    Seats (m.wait t k) (update place t (.blocked k)) := by
  refine h.move (by simp [Monitor.wait]) (fun _ => h.others ht) ?_ ?_
  · refine (forall_update_iff m.cvs fun k' cv => t ∈ cv.sleepers →
      Place.blocked k = .blocked k').mpr ⟨fun _ => rfl, fun k' _ hk' => ?_⟩
    exact absurd hk' (h.notMem (fun _ => ht ▸ nofun) k')
  · refine (forall_update_iff m.cvs fun k' cv => ∀ u ≠ t, u ∈ cv.sleepers →
      u ∈ (m.cvs k').sleepers).mpr ⟨fun u hu hmem => ?_, fun _ _ _ _ => id⟩
    exact (CondVar.mem_sleepers_wait hmem).resolve_left hu

theorem Seats.resume (h : Seats m place) (ht : place t = .blocked k)
    (hm : m.resume t k = some m') : Seats m' (update place t .inside) := by
  simp only [Monitor.resume, Option.isNone_iff_eq_none, Option.ite_none_right_eq_some,
    Option.some.injEq] at hm
  obtain ⟨⟨hfree, hawake⟩, rfl⟩ := hm
  refine h.move (by simp) (fun u hu => ?_) ?_ ?_
  · simp [hfree, hu.symm]
  · refine (forall_update_iff m.cvs fun k' cv => t ∈ cv.sleepers →
      Place.inside = .blocked k').mpr ⟨fun hmem => ?_, fun k' hk' hmem => ?_⟩
    · exact absurd rfl (CondVar.mem_sleepers_resume hawake hmem).1
    · exact absurd (Place.blocked.inj (ht.symm.trans (h.blocked k' t hmem))) hk'.symm
  · exact (forall_update_iff m.cvs fun k' cv => ∀ u ≠ t, u ∈ cv.sleepers →
      u ∈ (m.cvs k').sleepers).mpr
      ⟨fun u _ hmem => (CondVar.mem_sleepers_resume hawake hmem).2, fun _ _ _ _ => id⟩

theorem Seats.setCv (h : Seats m place) {cv : CondVar T}
    (hcv : ∀ u ∈ cv.sleepers, u ∈ (m.cvs k).sleepers) :
    Seats { m with cvs := update m.cvs k cv } place where
  inside := h.inside
  blocked := (forall_update_iff m.cvs fun k cv => ∀ u, u ∈ cv.sleepers →
    place u = .blocked k).mpr ⟨fun u hu => h.blocked k u (hcv u hu), fun k' _ => h.blocked k'⟩

theorem Seats.notifyOne (h : Seats m place) (hm : m.notifyOne k who = some m') :
    Seats m' place := by
  obtain ⟨cv, hcv, rfl⟩ := Option.map_eq_some_iff.mp hm
  exact h.setCv fun u hu => CondVar.sleepers_notifyOne hcv ▸ hu

theorem Seats.spurious (h : Seats m place) (hm : m.spurious t k = some m') : Seats m' place := by
  simp only [Monitor.spurious, Option.ite_none_right_eq_some, Option.some.injEq] at hm
  obtain ⟨-, rfl⟩ := hm
  exact h.setCv fun u => CondVar.mem_sleepers_spurious

omit [DecidableEq T] in
theorem Covers.setCv (h : Covers m todo) {owner : Option T} {cv : CondVar T}
    (hcv : cv.Covered (todo' k)) (hle : ∀ k' ≠ k, todo' k' ≤ todo k') :
    Covers ⟨owner, update m.cvs k cv⟩ todo' :=
  (forall_update_iff m.cvs fun k cv => cv.Covered (todo' k)).mpr
    ⟨hcv, fun k' hk' => (h k').mono (hle k' hk')⟩

theorem Covers.wait (h : Covers m todo) (hnone : todo' k = 0) (hle : ∀ k' ≠ k, todo' k' ≤ todo k') :
    Covers (m.wait t k) todo' :=
  h.setCv (hnone ▸ CondVar.covered_zero) hle

theorem Covers.resume (h : Covers m todo) (hm : m.resume t k = some m')
    (hone : todo' k ≤ todo k - 1) (hle : ∀ k' ≠ k, todo' k' ≤ todo k') : Covers m' todo' := by
  simp only [Monitor.resume, Option.ite_none_right_eq_some, Option.some.injEq] at hm
  obtain ⟨-, rfl⟩ := hm
  exact h.setCv ((h k).resume.mono hone) hle

theorem Covers.notifyOne (h : Covers m todo) (hm : m.notifyOne k who = some m')
    (hone : todo' k ≤ todo k + 1) (hle : ∀ k' ≠ k, todo' k' ≤ todo k') : Covers m' todo' := by
  obtain ⟨cv, hcv, rfl⟩ := Option.map_eq_some_iff.mp hm
  exact h.setCv (((h k).notifyOne hcv).mono hone) hle

theorem Covers.notifyLast (h : Covers m todo) (hm : m.notifyOne k who = some m')
    (hlast : (m.cvs k).waiting.card ≤ 1 ∨ todo' k ≤ (m.cvs k).signalled.card + 1)
    (hle : ∀ k' ≠ k, todo' k' ≤ todo k') : Covers m' todo' := by
  obtain ⟨cv, hcv, rfl⟩ := Option.map_eq_some_iff.mp hm
  exact h.setCv (CondVar.covered_notifyOne hlast hcv) hle

theorem Covers.spurious (h : Covers m todo) (hm : m.spurious t k = some m') : Covers m' todo := by
  simp only [Monitor.spurious, Option.ite_none_right_eq_some, Option.some.injEq] at hm
  obtain ⟨-, rfl⟩ := hm
  exact h.setCv (h k).spurious fun _ _ => le_rfl

end Monitor
