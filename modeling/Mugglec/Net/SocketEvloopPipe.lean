import Mugglec.Machinery.Steps

/-!
# Net/SocketEvloopPipe — pointers through a pipe (`net/socket_evloop_pipe.c`)

A writer takes the spin lock and hands the eight bytes of its pointer to
`muggle_socket_block_write`, which calls `write` until all are accepted; the reader calls `read`
until it has eight.
-/

namespace Mugglec

open Function Steps

structure PtrBytes where
  bytes : List UInt8
  length_eq : bytes.length = 8
deriving DecidableEq

def PtrBytes.null : PtrBytes := ⟨List.replicate 8 0, rfl⟩

inductive PipeWriterPc
  | idle
  | lock (data : PtrBytes)
  | write (data : PtrBytes) (remain : ℕ)
  | unlock
deriving DecidableEq

namespace PipeWriterPc

def outside : PipeWriterPc → Bool
  | idle | lock _ => true
  | write _ _ | unlock => false

def owed : PipeWriterPc → List UInt8
  | write data remain => data.bytes.drop (8 - remain)
  | _ => []

def Valid : PipeWriterPc → Prop
  | lock data => data ≠ .null
  | write _ remain => remain ≤ 8
  | _ => True

end PipeWriterPc

structure PipeRead where
  consumed : List UInt8
  ret : PtrBytes
deriving DecidableEq

structure EvloopPipe (τ : Type) where
  pipe : List UInt8
  lock : Option τ
  writer : τ → PipeWriterPc
  reading : Option (List UInt8)
  locked : List PtrBytes
  reads : List PipeRead

inductive PipeErr
  | wouldBlock | again | intr
deriving DecidableEq

inductive PipeStep (τ : Type)
  | callWrite (t : τ) (data : PtrBytes)
  | lock (t : τ)
  | write (t : τ) (n : ℕ)
  | writeErr (t : τ) (err : PipeErr)
  | unlock (t : τ)
  | callRead
  | read (n : ℕ)
  | readErr (err : PipeErr)
deriving DecidableEq

namespace EvloopPipe

variable {τ : Type}

def init : EvloopPipe τ := ⟨[], none, fun _ => .idle, none, [], []⟩

def finishRead (s : EvloopPipe τ) (consumed : List UInt8) (ret : PtrBytes) : EvloopPipe τ :=
  { s with reading := none, reads := s.reads ++ [⟨consumed, ret⟩] }

def returned (s : EvloopPipe τ) : List PtrBytes := (s.reads.map PipeRead.ret).filter (· ≠ .null)

def owed (s : EvloopPipe τ) : List UInt8 := (s.lock.map fun t => (s.writer t).owed).getD []

structure Inv (s : EvloopPipe τ) : Prop where
  flow : ∃ ahead, s.locked = s.returned ++ ahead ∧
    ahead.flatMap PtrBytes.bytes = s.reading.getD [] ++ s.pipe ++ s.owed
  mutex : ∀ t, (s.writer t).outside = false ↔ s.lock = some t
  valid : ∀ t, (s.writer t).Valid
  short : (s.reading.getD []).length < 8
  nonNull : ∀ p ∈ s.locked, p ≠ .null
  reads : ∀ r ∈ s.reads, r.consumed = if r.ret = .null then [] else r.ret.bytes

theorem inv_init : (init : EvloopPipe τ).Inv where
  flow := ⟨[], rfl, rfl⟩
  mutex := by simp [init, PipeWriterPc.outside]
  valid _ := trivial
  short := by simp [init]
  nonNull := by simp [init]
  reads := by simp [init]

variable [DecidableEq τ]

def next (s : EvloopPipe τ) : PipeStep τ → Option (EvloopPipe τ)
  | .callWrite t data =>
    if s.writer t = .idle then some { s with writer := Function.update s.writer t (.lock data) }
    else none
  | .lock t =>
    match s.writer t with
    | .lock data =>
      if s.lock = none then some { s with
        lock := some t
        writer := Function.update s.writer t (.write data 8)
        locked := s.locked ++ [data] }
      else none
    | _ => none
  | .write t n =>
    match s.writer t with
    | .write data remain =>
      if 0 < n ∧ n ≤ remain then some { s with
        pipe := s.pipe ++ (data.bytes.drop (8 - remain)).take n
        writer := Function.update s.writer t
          (if remain - n > 0 then .write data (remain - n) else .unlock) }
      else none
    | _ => none
  | .writeErr t _ =>
    match s.writer t with
    | .write _ _ => some s
    | _ => none
  | .unlock t =>
    if s.writer t = .unlock then some { s with
      lock := none, writer := Function.update s.writer t .idle }
    else none
  | .callRead => if s.reading = none then some { s with reading := some [] } else none
  | .read n =>
    match s.reading with
    | some got =>
      if 0 < n ∧ n ≤ 8 - got.length ∧ n ≤ s.pipe.length then
        let got' := got ++ s.pipe.take n
        let s := { s with pipe := s.pipe.drop n }
        if h : got'.length = 8 then some (s.finishRead got' ⟨got', h⟩)
        else some { s with reading := some got' }
      else none
    | none => none
  | .readErr err =>
    match s.reading with
    | some got =>
      -- `muggle_ev_ctx_read` goes on by itself when it is interrupted
      if err ≠ .intr ∧ got.length = 0 then some (s.finishRead got .null) else some s
    | none => none

def noNull (_ : EvloopPipe τ) : PipeStep τ → Bool
  | .callWrite _ data => data ≠ .null
  | _ => true

def Quiet (s : EvloopPipe τ) : Prop := s.lock = none ∧ s.reading = none ∧ s.pipe = []

variable {s s' : EvloopPipe τ} {t : τ} {pc : PipeWriterPc}

theorem valid_update (h : ∀ t, (s.writer t).Valid) (hpc : pc.Valid) (u : τ) :
    (update s.writer t pc u).Valid := by
  rcases eq_or_ne u t with rfl | hne
  · rwa [update_self]
  · rw [update_of_ne hne]
    exact h u

theorem mutex_update (h : ∀ t, (s.writer t).outside = false ↔ s.lock = some t)
    {lock : Option τ} (hpc : pc.outside = false ↔ lock = some t)
    (hlock : ∀ u ≠ t, lock = some u ↔ s.lock = some u) (u : τ) :
    (update s.writer t pc u).outside = false ↔ lock = some u := by
  rcases eq_or_ne u t with rfl | hne
  · rwa [update_self]
  · rw [update_of_ne hne, hlock u hne]
    exact h u

theorem exists_cons_of_flatMap {ahead : List PtrBytes} {x y : List UInt8} (hx : x.length = 8)
    (h : ahead.flatMap PtrBytes.bytes = x ++ y) :
    ∃ ahead', ahead = ⟨x, hx⟩ :: ahead' ∧ ahead'.flatMap PtrBytes.bytes = y := by
  cases ahead with
  | nil =>
    rw [List.flatMap_nil, eq_comm, List.append_eq_nil_iff] at h
    simp [h.1] at hx
  | cons p ahead =>
    rw [List.flatMap_cons] at h
    obtain ⟨hp, hy⟩ := List.append_inj h (p.length_eq.trans hx.symm)
    refine ⟨ahead, ?_, hy⟩
    cases p
    subst hp
    rfl

theorem take_append_owed {data : PtrBytes} {remain n : ℕ} (hn : n ≤ remain) (hr : remain ≤ 8) :
    (data.bytes.drop (8 - remain)).take n ++
      (if remain - n > 0 then PipeWriterPc.write data (remain - n) else .unlock).owed =
    data.bytes.drop (8 - remain) := by
  split_ifs with hpos
  · rw [PipeWriterPc.owed, show 8 - (remain - n) = 8 - remain + n by omega, ← List.drop_drop,
      List.take_append_drop]
  · refine (List.append_nil _).trans (List.take_of_length_le ?_)
    rw [List.length_drop, data.length_eq]
    omega

theorem Inv.write (h : s.Inv) {n : ℕ} (hnext : s.next (.write t n) = some s') : s'.Inv := by
  simp only [next] at hnext
  cases hpc : s.writer t with
  | write data remain =>
    simp only [hpc, Option.ite_none_right_eq_some] at hnext
    obtain ⟨⟨-, hle⟩, ⟨⟩⟩ := hnext
    have hlock : s.lock = some t := (h.mutex t).mp (by rw [hpc]; rfl)
    have hremain : remain ≤ 8 := by simpa [hpc, PipeWriterPc.Valid] using h.valid t
    obtain ⟨ahead, hlocked, hflow⟩ := h.flow
    refine ⟨⟨ahead, hlocked, ?_⟩, mutex_update h.mutex ?_ (fun _ _ => Iff.rfl),
      valid_update h.valid ?_, h.short, h.nonNull, h.reads⟩
    · rw [hflow]
      simp only [owed, hlock, Option.map_some, Option.getD_some, update_self,
        List.append_assoc, take_append_owed hle hremain]
      rw [hpc, PipeWriterPc.owed]
    · split_ifs <;> simp [PipeWriterPc.outside, hlock]
    · split_ifs
      · simp only [PipeWriterPc.Valid]
        omega
      · trivial
  | idle | lock | unlock => simp [hpc] at hnext

theorem Inv.lock (h : s.Inv) (hnext : s.next (.lock t) = some s') : s'.Inv := by
  simp only [next] at hnext
  cases hpc : s.writer t with
  | lock data =>
    simp only [hpc, Option.ite_none_right_eq_some] at hnext
    obtain ⟨hlock, ⟨⟩⟩ := hnext
    obtain ⟨ahead, hlocked, hflow⟩ := h.flow
    have hdata : data ≠ .null := by simpa [hpc, PipeWriterPc.Valid] using h.valid t
    refine ⟨⟨ahead ++ [data], ?_, ?_⟩, mutex_update h.mutex (by simp [PipeWriterPc.outside]) ?_,
      valid_update h.valid le_rfl, h.short, ?_, h.reads⟩
    · simp only [hlocked, List.append_assoc]
      rfl
    · simp [owed, hflow, hlock, PipeWriterPc.owed]
    · simp only [hlock, Option.some.injEq, reduceCtorEq, iff_false]
      exact fun u hu => hu.symm
    · intro p hp
      rcases List.mem_append.mp hp with hp | hp
      · exact h.nonNull p hp
      · rwa [List.mem_singleton.mp hp]
  | idle | write | unlock => simp [hpc] at hnext

theorem Inv.outside (h : s.Inv) (hout : (s.writer t).outside = true) (hpc : pc.Valid)
    (hpc' : pc.outside = true) :
    ({ s with writer := update s.writer t pc } : EvloopPipe τ).Inv := by
  have hlock : s.lock ≠ some t := fun hl => by simp [(h.mutex t).mpr hl] at hout
  obtain ⟨ahead, hlocked, hflow⟩ := h.flow
  refine ⟨⟨ahead, hlocked, hflow.trans ?_⟩, mutex_update h.mutex ?_ (fun _ _ => Iff.rfl),
    valid_update h.valid hpc, h.short, h.nonNull, h.reads⟩
  · cases hl : s.lock with
    | none => simp [owed, hl]
    | some u =>
      have hne : u ≠ t := fun heq => hlock (heq ▸ hl)
      simp [owed, hl, update_of_ne hne]
  · simp [hpc', hlock]

theorem Inv.unlock (h : s.Inv) (hnext : s.next (.unlock t) = some s') : s'.Inv := by
  simp only [next, Option.ite_none_right_eq_some] at hnext
  obtain ⟨hpc, ⟨⟩⟩ := hnext
  have hlock : s.lock = some t := (h.mutex t).mp (by rw [hpc]; rfl)
  obtain ⟨ahead, hlocked, hflow⟩ := h.flow
  refine ⟨⟨ahead, hlocked, ?_⟩, mutex_update h.mutex (by simp [PipeWriterPc.outside]) ?_,
    valid_update h.valid trivial, h.short, h.nonNull, h.reads⟩
  · simpa [owed, hlock, hpc, PipeWriterPc.owed] using hflow
  · simp only [hlock, Option.some.injEq, reduceCtorEq, false_iff]
    exact fun u hu => hu.symm

theorem Inv.read (h : s.Inv) {n : ℕ} (hnext : s.next (.read n) = some s') : s'.Inv := by
  simp only [next] at hnext
  cases hgot : s.reading with
  | none => simp [hgot] at hnext
  | some got =>
    simp only [hgot, Option.ite_none_right_eq_some] at hnext
    obtain ⟨⟨-, hle, hpipe⟩, hnext⟩ := hnext
    obtain ⟨ahead, hlocked, hflow⟩ := h.flow
    rw [hgot, Option.getD_some] at hflow
    have hflow' : ahead.flatMap PtrBytes.bytes =
        got ++ s.pipe.take n ++ (s.pipe.drop n ++ s.owed) := by
      rw [hflow, List.append_assoc, List.append_assoc, ← List.append_assoc (s.pipe.take n),
        List.take_append_drop]
    split_ifs at hnext with hfull
    · cases hnext
      obtain ⟨ahead', rfl, hrest⟩ := exists_cons_of_flatMap hfull hflow'
      have hne : (⟨got ++ s.pipe.take n, hfull⟩ : PtrBytes) ≠ .null :=
        h.nonNull _ (by simp [hlocked])
      refine ⟨⟨ahead', ?_, hrest⟩, h.mutex, h.valid, by simp [finishRead], h.nonNull, ?_⟩
      · simp [hlocked, finishRead, returned, hne]
      · intro r hr
        rcases List.mem_append.mp hr with hr | hr
        · exact h.reads r hr
        · rw [List.mem_singleton.mp hr, if_neg hne]
    · cases hnext
      refine ⟨⟨ahead, hlocked, ?_⟩, h.mutex, h.valid, ?_, h.nonNull, h.reads⟩
      · rw [hflow', ← List.append_assoc]
        rfl
      · have hshort := h.short
        simp only [hgot, Option.getD_some, List.length_append, List.length_take] at hfull hshort ⊢
        omega

theorem Inv.readErr (h : s.Inv) {err : PipeErr} (hnext : s.next (.readErr err) = some s') :
    s'.Inv := by
  simp only [next] at hnext
  cases hgot : s.reading with
  | none => simp [hgot] at hnext
  | some got =>
    simp only [hgot] at hnext
    split_ifs at hnext with hnull
    · cases hnext
      have hnil : got = [] := List.length_eq_zero_iff.mp hnull.2
      obtain ⟨ahead, hlocked, hflow⟩ := h.flow
      refine ⟨⟨ahead, ?_, ?_⟩, h.mutex, h.valid, by simp [finishRead], h.nonNull, ?_⟩
      · simp [hlocked, finishRead, returned]
      · rw [hgot, hnil] at hflow
        exact hflow
      · intro r hr
        rcases List.mem_append.mp hr with hr | hr
        · exact h.reads r hr
        · simp [List.mem_singleton.mp hr, hnil]
    · cases hnext
      exact h

theorem Inv.next (h : s.Inv) {a : PipeStep τ} (hok : s.noNull a = true)
    (hnext : s.next a = some s') : s'.Inv := by
  cases a with
  | callWrite t data =>
    simp only [EvloopPipe.next, Option.ite_none_right_eq_some] at hnext
    obtain ⟨hpc, ⟨⟩⟩ := hnext
    have hdata : data ≠ .null := of_decide_eq_true hok
    exact h.outside (by rw [hpc]; rfl) hdata rfl
  | lock t => exact h.lock hnext
  | write t n => exact h.write hnext
  | writeErr t err =>
    simp only [EvloopPipe.next] at hnext
    split at hnext <;> cases hnext
    exact h
  | unlock t => exact h.unlock hnext
  | callRead =>
    simp only [EvloopPipe.next, Option.ite_none_right_eq_some] at hnext
    obtain ⟨hread, ⟨⟩⟩ := hnext
    obtain ⟨ahead, hlocked, hflow⟩ := h.flow
    rw [hread] at hflow
    exact ⟨⟨ahead, hlocked, hflow⟩, h.mutex, h.valid, by simp, h.nonNull, h.reads⟩
  | read n => exact h.read hnext
  | readErr err => exact h.readErr hnext

end EvloopPipe

end Mugglec
