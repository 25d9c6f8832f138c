import Mugglec.Sync.ShmRingFifo

/-!
# Sync/ShmRingDelivery — what a request may cost

A call of `w_alloc_cachelines` that is refused may still have turned the writer round.  Whatever the
request, as long as the steps are guarded.
-/

namespace Mugglec

open Steps ShmRing

def ShmWriterPc.callLeft : ShmWriterPc → ℕ
  | .idle | .granted _ _ => 0
  | .hdrLines _ _ => 1
  | .hdrBytes _ _ => 2
  | .wrap _ _ _ => 3
  | .markLines _ _ _ => 4
  | .markBytes _ _ _ => 5
  | .loadRead _ _ => 6

namespace ShmState

variable {s s' : ShmState} {mark : Option ℕ}

def readerTurn (s : ShmState) : ShmStep :=
  match s.reader with
  | .idle => .rFetch
  | .held _ => .rMove
  | _ => .reader

def readOn : ℕ → ShmState → ShmState
  | 0, s => s
  | n + 1, s =>
    match s.next s.readerTurn with
    | some s' => readOn n s'
    | none => s

def stage (s : ShmState) : ℕ :=
  match s.reader with
  | .idle => 7
  | .hdr wPos => if s.hdrNBytes s.readCursor = 0 ∧ wPos = 0 then 8 else 6
  | .reset => 5
  | .hdrZero => 4
  | .size => 3
  | .held _ => 2
  | .move _ _ => 1

def toRead (s : ShmState) : ℕ := 9 * s.unread.length + s.stage

theorem stage_bounds (s : ShmState) : 1 ≤ s.stage ∧ s.stage ≤ 8 := by
  rw [stage]
  split
  case h_2 => split_ifs <;> decide
  all_goals decide

theorem exists_next_readerTurn (s : ShmState) : ∃ s', s.next s.readerTurn = some s' := by
  cases hpc : s.reader with
  | idle | reset | size | held | move => simp [readerTurn, next, readerStep, hpc]
  | hdr wPos =>
    simp only [readerTurn, next, readerStep, hpc]
    split_ifs <;> exact ⟨_, rfl⟩
  | hdrZero =>
    simp only [readerTurn, next, readerStep, hpc]
    split_ifs <;> exact ⟨_, rfl⟩

theorem guarded_readerTurn (s : ShmState) : s.Guarded s.readerTurn := by
  rw [readerTurn]
  split <;> trivial

theorem readerTurn_ne_wMove (s : ShmState) : s.readerTurn ≠ .wMove := by
  rw [readerTurn]
  split <;> exact ShmStep.noConfusion

theorem Inv.cursors_of_unread (h : Inv s mark) (hne : s.unread ≠ []) :
    s.writeCursor ≠ s.readCursor ∧ (mark = some s.readCursor → s.writeCursor ≠ 0) := by
  have hlayout := h.layout
  cases mark with
  | none =>
    refine ⟨fun heq => hne ?_, nofun⟩
    obtain ⟨htiles, -⟩ := hlayout
    rw [heq] at htiles
    exact htiles.eq_nil
  | some mark =>
    obtain ⟨-, -, hlt, old, new, hrecs, hold, hnew⟩ := hlayout
    refine ⟨hlt.ne, fun hmark h0 => hne ?_⟩
    rw [Option.some.inj hmark] at hold
    rw [h0] at hnew
    rw [hrecs, hold.eq_nil, hnew.eq_nil, List.append_nil]

theorem length_unread_move {consumed : List (List UInt8 × ℕ)} (published : List ShmRecord)
    (message : List UInt8 × ℕ) (hlt : consumed.length < published.length) :
    (published.drop (consumed ++ [message]).length).length + 1 =
      (published.drop consumed.length).length := by
  rw [List.length_drop, List.length_drop, List.length_append, List.length_singleton]
  omega

theorem Inv.toRead_lt (h : Inv s mark) (hne : s.unread ≠ [])
    (hnext : s.next s.readerTurn = some s') : s'.toRead < s.toRead := by
  obtain ⟨hcursors, hzero⟩ := h.cursors_of_unread hne
  have hok := h.reader
  cases hpc : s.reader with
  | idle =>
    simp only [readerTurn, next, hpc, if_neg hcursors] at hnext
    cases hnext
    have hahead : ¬ (s.hdrNBytes s.readCursor = 0 ∧ s.writeCursor = 0) := by
      rintro ⟨hhdr, hw⟩
      rcases readerOk_hdr h.layout hcursors with ⟨rec, hhead⟩ | ⟨hmark, -⟩
      · exact h.hdrNBytes_ne_zero hhead hhdr
      · exact hzero hmark hw
    simp only [toRead, unread, stage, hpc, if_neg hahead]
    omega
  | hdr wPos =>
    simp only [readerTurn, next, ShmState.readerStep, hpc] at hnext
    by_cases hhdr : s.hdrNBytes s.readCursor = 0
    · rw [if_neg (not_not.mpr hhdr)] at hnext
      by_cases hw : wPos = 0
      · rw [if_pos hw] at hnext
        cases hnext
        simp only [toRead, unread, stage, hpc, hhdr, hw, and_self, if_true]
        omega
      · rw [if_neg hw] at hnext
        cases hnext
        simp only [toRead, unread, stage, hpc, hw, and_false, if_false]
        omega
    · rw [if_pos hhdr] at hnext
      cases hnext
      simp only [toRead, unread, stage, hpc, hhdr, false_and, if_false]
      omega
  | reset =>
    simp only [readerTurn, next, ShmState.readerStep, hpc] at hnext
    cases hnext
    simp only [toRead, unread, stage, hpc]
    omega
  | hdrZero =>
    rw [hpc] at hok
    obtain ⟨rec, hhead⟩ := hok
    simp only [readerTurn, next, ShmState.readerStep, hpc] at hnext
    rw [if_pos (h.hdrNBytes_ne_zero hhead)] at hnext
    cases hnext
    simp only [toRead, unread, stage, hpc]
    omega
  | size | held =>
    simp only [readerTurn, next, ShmState.readerStep, hpc] at hnext
    cases hnext
    simp only [toRead, unread, stage, hpc]
    omega
  | move nBytes nCachelines =>
    simp only [readerTurn, next, ShmState.readerStep, hpc] at hnext
    cases hnext
    have hlt : s.consumed.length < s.published.length := by
      by_contra hge
      exact hne (List.drop_eq_nil_of_le (not_lt.mp hge))
    have hlen := length_unread_move s.published (s.payload s.cachedRHdr nBytes, nBytes) hlt
    simp only [toRead, unread, stage, hpc]
    omega

theorem unread_eq_nil_iff : s.unread = [] ↔ s.published.length ≤ s.consumed.length :=
  List.drop_eq_nil_iff

theorem unread_next {a : ShmStep} (hnext : s.next a = some s') (ha : a ≠ .wMove)
    (hnil : s.unread = []) : s'.unread = [] := by
  obtain ⟨-, hconsumed, hpublished⟩ := logs_next hnext
  rw [unread_eq_nil_iff] at hnil ⊢
  rw [hpublished ha]
  exact hnil.trans hconsumed

theorem Inv.readOn (h : Inv s mark) (n : ℕ) :
    (∃ mark', Inv (s.readOn n) mark') ∧ (s.readOn n).published = s.published ∧
      (s.unread = [] ∨ s.toRead ≤ n → (s.readOn n).unread = []) := by
  induction n generalizing s mark with
  | zero =>
    refine ⟨⟨mark, h⟩, rfl, fun hread => hread.resolve_right fun hle => ?_⟩
    have := s.stage_bounds.1
    rw [toRead] at hle
    omega
  | succ n ih =>
    obtain ⟨s', hnext⟩ := exists_next_readerTurn s
    have hstep := h.step (guarded_readerTurn s) hnext
    have hpublished : s'.published = s.published :=
      (logs_next hnext).2.2 (readerTurn_ne_wMove s)
    obtain ⟨hinv, hsame, hread⟩ := ih hstep
    simp only [ShmState.readOn, hnext]
    refine ⟨hinv, hsame.trans hpublished, fun hcase => hread ?_⟩
    by_cases hnil : s.unread = []
    · exact .inl (unread_next hnext (readerTurn_ne_wMove s) hnil)
    · have := h.toRead_lt hnil hnext
      exact .inr (by have := hcase.resolve_left hnil; omega)

def Delivers (s : ShmState) : Prop :=
  ∀ n, 9 * s.unread.length + 8 ≤ n →
    (s.readOn n).published = s.published ∧ (s.readOn n).unread = [] ∧
      ((∀ rec ∈ s.published, rec.Fits) →
        (s.readOn n).consumed = s.published.map ShmRecord.message)

theorem Inv.delivers (h : Inv s mark) : s.Delivers := by
  intro n hn
  obtain ⟨⟨mark', h'⟩, hpublished, hread⟩ := h.readOn n
  have hunread : (s.readOn n).unread = [] := by
    refine hread (.inr (le_trans ?_ hn))
    exact Nat.add_le_add_left s.stage_bounds.2 _
  refine ⟨hpublished, hunread, fun hfits => ?_⟩
  rw [← hpublished] at hfits ⊢
  refine (h'.consumed hfits).eq_of_length_le ?_
  rw [List.length_map]
  exact unread_eq_nil_iff.mp hunread

theorem callLeft_retest (s : ShmState) (nBytes nCacheline : ℕ) :
    (s.retest nBytes nCacheline).writer.callLeft ≤ 2 := by
  simp only [retest]
  split <;> simp only [ShmWriterPc.callLeft, Nat.zero_le, le_refl]

theorem exists_writerStep (hcall : s.writer.callLeft ≠ 0) :
    ∃ s', s.next .writer = some s' ∧ s'.writer.callLeft < s.writer.callLeft := by
  simp only [next, writerStep]
  cases hpc : s.writer with
  | idle | granted => exact absurd (congrArg ShmWriterPc.callLeft hpc) hcall
  | loadRead nBytes nCacheline =>
    refine ⟨_, rfl, ?_⟩
    rcases updateCachedRemain_cases s nBytes nCacheline with ⟨c, heq⟩ | ⟨left, heq⟩
    · rw [heq]
      exact (callLeft_retest _ _ _).trans_lt (show 2 < 6 by decide)
    · rw [heq]
      exact Nat.lt_succ_self 5
  | wrap nBytes nCacheline leftRemain =>
    exact ⟨_, rfl, (callLeft_retest _ _ _).trans_lt (Nat.lt_succ_self 2)⟩
  | markBytes | markLines | hdrBytes | hdrLines => exact ⟨_, rfl, Nat.lt_succ_self _⟩

theorem exists_wAllocCachelines (hidle : s.writer.callLeft = 0) (nBytes nCacheline : ℕ) :
    ∃ s', s.next (.allocCachelines nBytes nCacheline) = some s' := by
  simp only [next, wAllocCachelines]
  cases hpc : s.writer with
  | idle | granted => exact ⟨_, rfl⟩
  | loadRead | markBytes | markLines | wrap | hdrBytes | hdrLines =>
    rw [hpc] at hidle
    exact absurd hidle (Nat.succ_ne_zero _)

/-- The steps while a call is under way, guarded. -/
def InCall (s : ShmState) (a : ShmStep) : Prop := s.Guarded a ∧ DuringCall a

theorem DuringCall.quiet {a : ShmStep} (h : DuringCall a) : asks a = none ∧ a ≠ .wMove := by
  rcases h with rfl | rfl | rfl | rfl <;> exact ⟨rfl, nofun⟩

/-- **What is found in and after a call** made in the state `s`. -/
structure Answered (s : ShmState) (nBytes nCacheline : ℕ) (s' : ShmState) : Prop where
  published : s'.published = s.published
  goesOn : s'.writer.callLeft ≠ 0 →
    ∃ s'', s'.next .writer = some s'' ∧ s''.writer.callLeft < s'.writer.callLeft
  waits : ∀ a s'', DuringCall a → a ≠ .writer → s'.next a = some s'' → s''.writer = s'.writer
  answer : s'.writer.callLeft = 0 →
    (s'.writer = .idle ∧ s'.Delivers) ∨
      (s'.writer = .granted nBytes nCacheline ∧ s'.cachedWHdr + nCacheline ≤ s'.nCacheline ∧
        ∀ rec ∈ s'.unread, s'.cachedWHdr + nCacheline ≤ rec.pos ∨
          rec.pos + rec.lines ≤ s'.cachedWHdr)

theorem Inv.answered (h : Inv s' mark) {nBytes nCacheline : ℕ} (hpub : s'.published = s.published)
    (hreq : ∀ r ∈ s'.writer.request, r = (nBytes, nCacheline)) :
    Answered s nBytes nCacheline s' := by
  refine ⟨hpub, exists_writerStep, fun a s'' => writer_of_duringCall, fun hdone => ?_⟩
  cases hpc : s'.writer with
  | idle => exact .inl ⟨rfl, h.delivers⟩
  | granted a b =>
    obtain ⟨rfl, rfl⟩ := Prod.mk.inj (hreq (a, b) (by rw [hpc]; rfl))
    obtain ⟨hinside, hapart⟩ :=
      h.apart (show s'.writes = some (s'.cachedWHdr, b) by rw [writes, hpc])
    exact .inr ⟨rfl, hinside, hapart⟩
  | loadRead | markBytes | markLines | wrap | hdrBytes | hdrLines =>
    rw [hpc] at hdone
    exact absurd hdone (Nat.succ_ne_zero _)

/-- **Every request is answered**, however large, in every interleaving. -/
theorem answered_of_reach {k : ℕ} (hk : k ≤ 31) {data : ℤ → UInt8}
    (hs : Reach next Guarded (start (2 ^ k) data) s) (hidle : s.writer.callLeft = 0)
    {nBytes nCacheline : ℕ} (hreq : Sized nBytes nCacheline) :
    ∃ s₁, s.next (.allocCachelines nBytes nCacheline) = some s₁ ∧
      ∀ s₂, Reach next InCall s₁ s₂ → Answered s nBytes nCacheline s₂ := by
  have hsize : 2 ^ k ≤ 2 ^ 31 := Nat.pow_le_pow_right (by omega) hk
  obtain ⟨mark, h⟩ := inv_of_reach (fun _ _ => id) (inv_start (Nat.two_pow_pos k) hsize data) hs
  obtain ⟨s₁, hcall⟩ := exists_wAllocCachelines hidle nBytes nCacheline
  refine ⟨s₁, hcall, fun s₂ hs₂ => ?_⟩
  have hrun : (∃ mark, Inv s₂ mark) ∧ s₂.published = s.published ∧
      ∀ r ∈ s₂.writer.request, r = (nBytes, nCacheline) := by
    refine hs₂.invariant (P := fun s₂ => (∃ mark, Inv s₂ mark) ∧ s₂.published = s.published ∧
      ∀ r ∈ s₂.writer.request, r = (nBytes, nCacheline))
      ⟨⟨_, h.wAllocCachelines hreq hcall⟩, ?_, ?_⟩ ?_
    · rw [wAllocCachelines_eq hcall]
    · exact fun r hr => (request_wAllocCachelines hcall hr).symm
    · rintro s₂ a s₃ ⟨⟨_, h₂⟩, hpub, hr⟩ ha hnext
      obtain ⟨hasks, hmove⟩ := ha.2.quiet
      refine ⟨⟨_, h₂.step ha.1 hnext⟩, ((logs_next hnext).2.2 hmove).trans hpub, fun r hr' => ?_⟩
      refine hr r ((request_next hnext hr').resolve_right fun h' => ?_)
      exact nomatch hasks.symm.trans h'
  obtain ⟨⟨_, h₂⟩, hpub, hr⟩ := hrun
  exact h₂.answered hpub hr

def oneUnread : List ShmStep := roundLap.take 15

theorem answered_hugeRequest : ∃ s : ShmState,
    (s.readCursor, s.writeCursor) = (3, 6) ∧
      ∃ s₁, s.next (.allocCachelines 1 (2 ^ 31)) = some s₁ ∧
        ∀ s₂, Reach next InCall s₁ s₂ → Answered s 1 (2 ^ 31) s₂ := by
  obtain ⟨s, hs, hcursors, hidle⟩ : ∃ s, execWhen next (fun s a => decide (s.Guarded a))
      (start (2 ^ 3) fun _ => 0) oneUnread = some s ∧ (s.readCursor, s.writeCursor) = (3, 6) ∧
      s.writer.callLeft = 0 := by
    decide
  exact ⟨s, hcursors, answered_of_reach (by decide) (Reach.of_decide hs) hidle
    ⟨by decide, by decide⟩⟩

theorem grants_beyond_ring : ∃ s : ShmState,
    exec next (start (2 ^ 3) fun _ => 0)
        (.allocCachelines 1 (2 ^ 31) :: List.replicate 6 .writer) = some s ∧
      s.writer = .granted 1 (2 ^ 31) ∧ ¬ s.cachedWHdr + 2 ^ 31 ≤ s.nCacheline := by
  decide

end ShmState

end Mugglec
