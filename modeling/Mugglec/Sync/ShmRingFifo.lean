import Mugglec.Sync.ShmRingInv

/-!
# Sync/ShmRingFifo — the reader consumes what the writer published

A writer that asks for enough lines, and for fewer than `2 ^ 31` (`Proper`), stays within what the
invariant asks of the steps (`Proper.guarded`): the request it is in was made by a call
(`request_next`), and so is proper too.
-/

namespace Mugglec

def ShmWriterPc.request : ShmWriterPc → Option (ℕ × ℕ)
  | .idle => none
  | .loadRead nBytes nCacheline | .hdrBytes nBytes nCacheline | .hdrLines nBytes nCacheline
  | .granted nBytes nCacheline | .markBytes nBytes nCacheline _ | .markLines nBytes nCacheline _
  | .wrap nBytes nCacheline _ => some (nBytes, nCacheline)

namespace ShmState

variable {s s' : ShmState} {mark : Option ℕ} {nBytes nCacheline : ℕ} {r : ℕ × ℕ} {a : ShmStep}

@[mk_iff] structure Request (nBytes nCacheline : ℕ) : Prop where
  nonempty : 1 ≤ nBytes
  nBytes_lt : nBytes < 2 ^ 32
  nCacheline_lt : nCacheline < 2 ^ 31
  fits : SHM_HDR_SIZE + nBytes ≤ CACHE_LINE_SIZE * nCacheline

def Proper (_ : ShmState) : ShmStep → Prop
  | .allocBytes nBytes => 1 ≤ nBytes ∧ nBytes < 2 ^ 32
  | .allocCachelines nBytes nCacheline => Request nBytes nCacheline
  | _ => True

instance (nBytes nCacheline : ℕ) : Decidable (Request nBytes nCacheline) :=
  decidable_of_iff' _ (request_iff ..)

instance (s : ShmState) (a : ShmStep) : Decidable (Proper s a) :=
  match a with
  | .allocBytes _ => inferInstanceAs (Decidable (_ ∧ _))
  | .allocCachelines _ _ => inferInstanceAs (Decidable (Request _ _))
  | .writer | .fill _ _ | .wMove | .rFetch | .rMove | .reader => isTrue trivial

theorem request_calBytesCacheline (h1 : 1 ≤ nBytes) (h2 : nBytes < 2 ^ 32) :
    Request nBytes (u32 (shmRingbufCalBytesCacheline nBytes)) := by
  rw [u32_calBytesCacheline h2]
  refine ⟨h1, h2, by omega, ?_⟩
  rw [SHM_HDR_SIZE, CACHE_LINE_SIZE]
  omega

theorem Request.pos (h : Request nBytes nCacheline) : 1 ≤ nCacheline := by
  have hfits := h.fits
  simp only [SHM_HDR_SIZE, CACHE_LINE_SIZE] at hfits
  omega

def asks : ShmStep → Option (ℕ × ℕ)
  | .allocBytes nBytes => some (nBytes, u32 (shmRingbufCalBytesCacheline nBytes))
  | .allocCachelines nBytes nCacheline => some (nBytes, nCacheline)
  | _ => none

theorem request_retest (h : (s.retest nBytes nCacheline).writer.request = some r) :
    (nBytes, nCacheline) = r := by
  simp only [retest] at h
  split_ifs at h
  · exact nomatch h
  · exact Option.some.inj h

theorem updateCachedRemain_cases (s : ShmState) (nBytes nCacheline : ℕ) :
    (∃ c, s.updateCachedRemain nBytes nCacheline =
      { s with cachedRemain := c }.retest nBytes nCacheline) ∨
    ∃ left, s.updateCachedRemain nBytes nCacheline =
      { s with writer := .markBytes nBytes nCacheline left } := by
  simp only [updateCachedRemain]
  split_ifs
  · exact .inl ⟨_, rfl⟩
  · exact .inl ⟨_, rfl⟩
  · exact .inr ⟨_, rfl⟩
  · exact .inl ⟨s.cachedRemain, rfl⟩

theorem request_updateCachedRemain
    (h : (s.updateCachedRemain nBytes nCacheline).writer.request = some r) :
    (nBytes, nCacheline) = r := by
  rcases updateCachedRemain_cases s nBytes nCacheline with ⟨c, heq⟩ | ⟨left, heq⟩
  · exact request_retest (heq ▸ h)
  · rw [heq] at h
    exact Option.some.inj h

theorem request_writerStep (hnext : s.writerStep = some s') (hr : s'.writer.request = some r) :
    s.writer.request = some r := by
  rw [ShmState.writerStep] at hnext
  generalize hpc : s.writer = pc at hnext
  cases pc with
  | idle | granted => cases hnext
  | loadRead =>
    cases hnext
    exact congrArg some (request_updateCachedRemain hr)
  | wrap =>
    cases hnext
    exact congrArg some (request_retest hr)
  | markBytes | markLines | hdrBytes | hdrLines =>
    cases hnext
    exact hr

theorem request_wAllocCachelines (hnext : s.wAllocCachelines nBytes nCacheline = some s')
    (hr : s'.writer.request = some r) :
    (nBytes, nCacheline) = r := by
  rw [wAllocCachelines_eq hnext] at hr
  simp only at hr
  split_ifs at hr <;> exact Option.some.inj hr

theorem writer_of_readerStep (hnext : s.readerStep = some s') :
    s'.writer = s.writer ∧ s'.writeCursor = s.writeCursor ∧ s'.nCacheline = s.nCacheline ∧
      s'.published = s.published ∧ s.consumed.length ≤ s'.consumed.length := by
  rw [ShmState.readerStep] at hnext
  generalize hpc : s.reader = pc at hnext
  cases pc with
  | idle | held => cases hnext
  | hdr | hdrZero =>
    dsimp only at hnext
    split_ifs at hnext <;> cases hnext <;>
      exact ⟨rfl, rfl, rfl, rfl, le_refl _⟩
  | reset | size =>
    cases hnext
    exact ⟨rfl, rfl, rfl, rfl, le_refl _⟩
  | move =>
    cases hnext
    refine ⟨rfl, rfl, rfl, rfl, ?_⟩
    rw [List.length_append]
    exact Nat.le_add_right _ _

theorem logs_writerStep (hnext : s.writerStep = some s') :
    s'.nCacheline = s.nCacheline ∧ s'.published = s.published ∧ s'.consumed = s.consumed := by
  rw [ShmState.writerStep] at hnext
  generalize hpc : s.writer = pc at hnext
  cases pc with
  | idle | granted => cases hnext
  | loadRead nBytes nCacheline =>
    cases hnext
    rcases updateCachedRemain_cases s nBytes nCacheline with ⟨c, heq⟩ | ⟨left, heq⟩
    · rw [heq]
      exact ⟨rfl, rfl, rfl⟩
    · rw [heq]
      exact ⟨rfl, rfl, rfl⟩
  | markBytes | markLines | wrap | hdrBytes | hdrLines =>
    cases hnext
    exact ⟨rfl, rfl, rfl⟩

theorem logs_next (hnext : s.next a = some s') :
    s'.nCacheline = s.nCacheline ∧ s.consumed.length ≤ s'.consumed.length ∧
      (a ≠ .wMove → s'.published = s.published) := by
  cases a with
  | allocBytes | allocCachelines =>
    rw [wAllocCachelines_eq hnext]
    exact ⟨rfl, le_refl _, fun _ => rfl⟩
  | writer =>
    obtain ⟨hlines, hpublished, hconsumed⟩ := logs_writerStep hnext
    exact ⟨hlines, hconsumed ▸ le_refl _, fun _ => hpublished⟩
  | fill off byte =>
    obtain ⟨_, _, -, -, rfl⟩ := fill_eq hnext
    exact ⟨rfl, le_refl _, fun _ => rfl⟩
  | wMove =>
    obtain ⟨_, _, -, rfl⟩ := wMove_eq hnext
    exact ⟨rfl, le_refl _, fun hne => absurd rfl hne⟩
  | rFetch =>
    rw [rFetch_eq hnext]
    exact ⟨rfl, le_refl _, fun _ => rfl⟩
  | rMove =>
    obtain ⟨_, -, rfl⟩ := rMove_eq hnext
    exact ⟨rfl, le_refl _, fun _ => rfl⟩
  | reader =>
    obtain ⟨-, -, hlines, hpublished, hconsumed⟩ := writer_of_readerStep hnext
    exact ⟨hlines, hconsumed, fun _ => hpublished⟩

def DuringCall (a : ShmStep) : Prop := a = .writer ∨ a = .rFetch ∨ a = .rMove ∨ a = .reader

theorem writer_of_duringCall (ha : DuringCall a) (hne : a ≠ .writer) (hnext : s.next a = some s') :
    s'.writer = s.writer := by
  rcases ha with rfl | rfl | rfl | rfl
  · exact absurd rfl hne
  · rw [rFetch_eq hnext]
  · obtain ⟨_, -, rfl⟩ := rMove_eq hnext
    rfl
  · exact (writer_of_readerStep hnext).1

theorem request_next (hnext : s.next a = some s') (hr : s'.writer.request = some r) :
    s.writer.request = some r ∨ asks a = some r := by
  cases a with
  | allocBytes nBytes => exact .inr (congrArg some (request_wAllocCachelines hnext hr))
  | allocCachelines nBytes nCacheline =>
    exact .inr (congrArg some (request_wAllocCachelines hnext hr))
  | writer => exact .inl (request_writerStep hnext hr)
  | fill off byte =>
    obtain ⟨_, _, -, -, rfl⟩ := fill_eq hnext
    exact .inl hr
  | wMove =>
    obtain ⟨_, _, -, rfl⟩ := wMove_eq hnext
    exact nomatch hr
  | rFetch => exact .inl (writer_of_duringCall (.inr (.inl rfl)) nofun hnext ▸ hr)
  | rMove => exact .inl (writer_of_duringCall (.inr (.inr (.inl rfl))) nofun hnext ▸ hr)
  | reader => exact .inl ((writer_of_readerStep hnext).1 ▸ hr)

theorem Proper.guarded (hok : Proper s a) (hr : ∀ r ∈ s.writer.request, Request r.1 r.2) :
    s.Guarded a := by
  cases a with
  | allocBytes nBytes => exact hok.2
  | allocCachelines nBytes nCacheline =>
    exact ⟨Request.nBytes_lt hok, (Request.nCacheline_lt hok).trans (by decide)⟩
  | writer =>
    simp only [Guarded]
    split
    · next nBytes nCacheline hpc =>
      exact .inl (hr (nBytes, nCacheline) (by rw [hpc]; rfl)).nCacheline_lt
    · trivial
  | wMove =>
    simp only [Guarded]
    split
    · next nBytes nCacheline hpc =>
      have hreq := hr (nBytes, nCacheline) (by rw [hpc]; rfl)
      exact ⟨hreq.nonempty, hreq.pos⟩
    · trivial
  | fill | rFetch | rMove | reader => trivial

theorem Proper.request (hok : Proper s a) (hr : asks a = some r) :
    Request r.1 r.2 := by
  cases a with
  | allocBytes nBytes =>
    cases hr
    exact request_calBytesCacheline hok.1 hok.2
  | allocCachelines nBytes nCacheline =>
    cases hr
    exact hok
  | _ => exact nomatch hr

def writes (s : ShmState) : Option (ℕ × ℕ) :=
  match s.writer with
  | .idle | .loadRead _ _ | .wrap _ _ _ => none
  | .markBytes _ _ _ | .markLines _ _ _ | .hdrBytes _ _ | .hdrLines _ _ => some (s.writeCursor, 1)
  | .granted _ nCacheline => some (s.cachedWHdr, nCacheline)

structure Faithful (s : ShmState) : Prop where
  consumed : s.consumed <+: s.published.map ShmRecord.message
  held : ∀ nBytes, s.reader = .held nBytes →
    ∃ rec, s.unread.head? = some rec ∧ (s.payload s.cachedRHdr nBytes, nBytes) = rec.message
  apart : ∀ pos n, s.writes = some (pos, n) → pos + n ≤ s.nCacheline ∧
    ∀ rec ∈ s.unread, pos + n ≤ rec.pos ∨ rec.pos + rec.lines ≤ pos

theorem Inv.apart (h : Inv s mark) {pos n : ℕ} (hw : s.writes = some (pos, n)) :
    pos + n ≤ s.nCacheline ∧ ∀ rec ∈ s.unread, pos + n ≤ rec.pos ∨ rec.pos + rec.lines ≤ pos := by
  have hok := h.writer
  have hremain := h.remain
  have hlines : pos = s.writeCursor ∧ n ≤ s.cachedRemain + 1 := by
    cases hpc : s.writer with
    | idle | loadRead | wrap => simp [writes, hpc] at hw
    | markBytes | markLines | hdrBytes | hdrLines =>
      simp only [writes, hpc, Option.some.injEq, Prod.mk.injEq] at hw
      exact ⟨hw.1.symm, by omega⟩
    | granted nBytes nCacheline =>
      simp only [writes, hpc, Option.some.injEq, Prod.mk.injEq] at hw hok
      obtain ⟨-, hn, -, -, hhdr⟩ := hok
      exact ⟨hw.1.symm.trans hhdr, by omega⟩
  obtain ⟨rfl, hn⟩ := hlines
  have hlimit : s.writeCursor + n ≤ s.toShmRing.limit := by omega
  exact ⟨hlimit.trans h.layout.limit_le, fun rec hrec => h.layout.apart hlimit hrec⟩

theorem Inv.faithful (h : Inv s mark) (hfits : ∀ rec ∈ s.published, rec.Fits) : Faithful s := by
  refine ⟨h.consumed hfits, fun nBytes hpc => ?_, fun pos n => h.apart⟩
  have hok := h.reader
  rw [hpc] at hok
  obtain ⟨rec, ⟨⟨rest, hrest⟩, hpos⟩, hhdr, rfl⟩ := hok
  refine ⟨rec, hrest ▸ rfl, ?_⟩
  have hmem : rec ∈ s.unread := hrest ▸ List.mem_cons_self
  rw [hhdr, ← hpos, (h.stored rec hmem).payload (hfits rec (List.mem_of_mem_drop hmem))]
  rfl

def ProperInv (s : ShmState) : Prop :=
  (∃ mark, Inv s mark) ∧ (∀ r ∈ s.writer.request, Request r.1 r.2) ∧ ∀ rec ∈ s.published, rec.Fits

theorem published_next (h : Inv s mark) (hnext : s.next a = some s') {rec : ShmRecord}
    (hrec : rec ∈ s'.published) :
    rec ∈ s.published ∨ s.writer.request = some (rec.nBytes, rec.lines) := by
  by_cases ha : a = .wMove
  · subst ha
    obtain ⟨nBytes, nCacheline, hpc, rfl⟩ := wMove_eq hnext
    have hok := h.writer
    rw [hpc] at hok
    obtain ⟨-, -, -, hlines, hhdr⟩ := hok
    rcases List.mem_append.mp hrec with hold | hnew
    · exact .inl hold
    · obtain rfl := List.mem_singleton.mp hnew
      refine .inr ?_
      rw [hpc, hhdr]
      exact congrArg (fun n => some (nBytes, n)) hlines.symm
  · rw [(logs_next hnext).2.2 ha] at hrec
    exact .inl hrec

theorem properInv_step (h : ProperInv s) (hok : Proper s a) (hnext : s.next a = some s') :
    ProperInv s' := by
  obtain ⟨⟨mark, h⟩, hr, hfits⟩ := h
  refine ⟨⟨_, h.step (hok.guarded hr) hnext⟩, fun r hr' => ?_, fun rec hrec => ?_⟩
  · exact (request_next hnext hr').elim (hr r) hok.request
  · rcases published_next h hnext hrec with hold | hnew
    · exact hfits rec hold
    · exact (hr _ hnew).fits

/-- **The ring delivers what was published**, in every interleaving. -/
theorem faithful_of_reach {k : ℕ} (hk : k ≤ 31) {data : ℤ → UInt8}
    (hs : Steps.Reach next Proper (start (2 ^ k) data) s) : Faithful s := by
  have hsize : 2 ^ k ≤ 2 ^ 31 := Nat.pow_le_pow_right (by omega) hk
  obtain ⟨⟨mark, h⟩, -, hfits⟩ := hs.invariant
    ⟨⟨none, inv_start (Nat.two_pow_pos k) hsize data⟩, nofun, nofun⟩ fun _ _ _ => properInv_step
  exact h.faithful hfits

def roundLap : List ShmStep :=
  let publish (byte : UInt8) (steps : ℕ) : List ShmStep :=
    ShmStep.allocCachelines 1 3 :: List.replicate steps .writer ++ [ShmStep.fill 0 byte, .wMove]
  let consume (steps : ℕ) : List ShmStep :=
    ShmStep.rFetch :: List.replicate steps .reader ++ [ShmStep.rMove, .reader]
  publish 7 2 ++ publish 8 2 ++ consume 2 ++ consume 2 ++ publish 9 6 ++ consume 4

theorem faithful_roundLap : ∃ s : ShmState,
    (s.readCursor, s.consumed) = (3, [([7], 1), ([8], 1), ([9], 1)]) ∧ Faithful s := by
  exact Steps.exists_of_execWhen (start (2 ^ 3) fun _ => 0) roundLap (by decide)
    fun _ hs _ => faithful_of_reach (by decide) hs

end ShmState

end Mugglec
