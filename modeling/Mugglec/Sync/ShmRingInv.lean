import Mugglec.Sync.ShmRingLayout

/-!
# Sync/ShmRingInv — what every interleaving keeps

`w + cachedRemain` stays below the limit: the reader only moves the limit up, so a remainder
computed from an old read cursor is still there.  Whatever the writer stores goes into those lines.
-/

namespace Mugglec

open Window

namespace ShmState

open ShmRing

@[mk_iff] structure Sized (nBytes nCacheline : ℕ) : Prop where
  nBytes_lt : nBytes < 2 ^ 32
  nCacheline_lt : nCacheline < 2 ^ 32

def Turning (q : ShmRing) (leftRemain : ℤ) : Prop :=
  q.readCursor ≤ q.writeCursor ∧ 0 ≤ leftRemain ∧ leftRemain < q.readCursor

def WriterOk (q : ShmRing) : ShmWriterPc → Prop
  | .idle => True
  | .loadRead nBytes nCacheline => Sized nBytes nCacheline ∧ 1 ≤ nCacheline
  | .markBytes nBytes nCacheline leftRemain => Sized nBytes nCacheline ∧ Turning q leftRemain
  | .markLines nBytes nCacheline leftRemain | .wrap nBytes nCacheline leftRemain =>
    Sized nBytes nCacheline ∧ Turning q leftRemain ∧ q.hdrNBytes q.writeCursor = 0
  | .hdrBytes nBytes nCacheline => Sized nBytes nCacheline ∧ nCacheline ≤ q.cachedRemain
  | .hdrLines nBytes nCacheline =>
    Sized nBytes nCacheline ∧ nCacheline ≤ q.cachedRemain ∧ q.hdrNBytes q.writeCursor = nBytes
  | .granted nBytes nCacheline =>
    Sized nBytes nCacheline ∧ nCacheline ≤ q.cachedRemain ∧ q.hdrNBytes q.writeCursor = nBytes ∧
      q.hdrNCachelines q.writeCursor = nCacheline ∧ q.cachedWHdr = q.writeCursor

def HeadAt (q : ShmRing) (recs : List ShmRecord) (rec : ShmRecord) : Prop :=
  (∃ rest, recs = rec :: rest) ∧ rec.pos = q.readCursor

def ReaderOk (q : ShmRing) (recs : List ShmRecord) (mark : Option ℕ) : ShmReaderPc → Prop
  | .idle => True
  | .hdr wPos =>
    (∃ rec, HeadAt q recs rec) ∨ (mark = some q.readCursor ∧ (wPos ≠ 0 → recs ≠ []))
  | .reset => mark = some q.readCursor ∧ recs ≠ []
  | .hdrZero => ∃ rec, HeadAt q recs rec
  | .size => ∃ rec, HeadAt q recs rec ∧ q.cachedRHdr = q.readCursor
  | .held nBytes => ∃ rec, HeadAt q recs rec ∧ q.cachedRHdr = q.readCursor ∧ nBytes = rec.nBytes
  | .move nBytes nCachelines =>
    ∃ rec, HeadAt q recs rec ∧ q.cachedRHdr = q.readCursor ∧ nBytes = rec.nBytes ∧
      nCachelines = rec.lines

structure Inv (s : ShmState) (mark : Option ℕ) : Prop where
  size : s.nCacheline ≤ 2 ^ 31
  layout : s.toShmRing.Layout s.unread mark
  remain : s.writeCursor + s.cachedRemain < s.toShmRing.limit
  stored : ∀ rec ∈ s.unread, s.toShmRing.Stored rec
  consumed_le : s.consumed.length ≤ s.published.length
  consumed : (∀ rec ∈ s.published, rec.Fits) → s.consumed <+: s.published.map ShmRecord.message
  writer : WriterOk s.toShmRing s.writer
  reader : ReaderOk s.toShmRing s.unread mark s.reader

variable {nCacheline nBytes : ℕ} {rec : ShmRecord} {pc : ShmWriterPc}

theorem inv_start (hpos : 0 < nCacheline) (hsize : nCacheline ≤ 2 ^ 31) (data : ℤ → UInt8) :
    Inv (start nCacheline data) none where
  size := hsize
  layout := ⟨rfl, hpos⟩
  remain := by
    simp only [start, limit, lt_irrefl, if_false]
    omega
  stored := fun _ h => absurd h List.not_mem_nil
  consumed_le := le_refl _
  consumed _ := List.prefix_refl _
  writer := trivial
  reader := trivial

variable {q q' : ShmRing} {recs recs' : List ShmRecord} {s s' : ShmState} {mark mark' : Option ℕ}

theorem HeadAt.mono (h : HeadAt q recs rec) (hr : q'.readCursor = q.readCursor)
    (hrecs : recs <+: recs') : HeadAt q' recs' rec := by
  obtain ⟨⟨rest, rfl⟩, hpos⟩ := h
  obtain ⟨more, rfl⟩ := hrecs
  exact ⟨⟨rest ++ more, rfl⟩, hpos.trans hr.symm⟩

theorem ReaderOk.mono {pc : ShmReaderPc} (h : ReaderOk q recs mark pc) (hrecs : recs <+: recs')
    (hr : q'.readCursor = q.readCursor) (hc : q'.cachedRHdr = q.cachedRHdr)
    (hmark : mark = some q.readCursor → mark' = some q.readCursor) :
    ReaderOk q' recs' mark' pc := by
  have hne : recs ≠ [] → recs' ≠ [] := by
    rintro hne rfl
    exact hne (List.prefix_nil.mp hrecs)
  cases pc with
  | idle => trivial
  | hdr wPos =>
    rcases h with ⟨rec, h⟩ | ⟨hw, h0⟩
    · exact Or.inl ⟨rec, h.mono hr hrecs⟩
    · exact Or.inr ⟨hr ▸ hmark hw, hne ∘ h0⟩
  | reset => exact ⟨hr ▸ hmark h.1, hne h.2⟩
  | hdrZero =>
    obtain ⟨rec, h⟩ := h
    exact ⟨rec, h.mono hr hrecs⟩
  | size | held | move =>
    obtain ⟨rec, h, hrest⟩ := h
    rw [← hc, ← hr] at hrest
    exact ⟨rec, h.mono hr hrecs, hrest⟩

theorem WriterOk.mono (h : WriterOk q pc) {r c : ℕ}
    (hr : q.readCursor ≤ q.writeCursor → q.readCursor ≤ r ∧ r ≤ q.writeCursor) :
    WriterOk { q with readCursor := r, cachedRHdr := c } pc := by
  have hturn : ∀ {left}, Turning q left →
      Turning { q with readCursor := r, cachedRHdr := c } left := by
    rintro left ⟨hle, hnonneg, hlt⟩
    obtain ⟨h1, h2⟩ := hr hle
    exact ⟨h2, hnonneg, hlt.trans_le (Int.ofNat_le.mpr h1)⟩
  cases pc with
  | markBytes => exact ⟨h.1, hturn h.2⟩
  | markLines | wrap => exact ⟨h.1, hturn h.2.1, h.2.2⟩
  | _ => exact h

def Guarded (s : ShmState) : ShmStep → Prop
  | .allocBytes nBytes => nBytes < 2 ^ 32
  | .allocCachelines nBytes nCacheline => Sized nBytes nCacheline
  | .writer =>
    match s.writer with
    | .loadRead _ nCacheline => nCacheline < 2 ^ 31 ∨ s.readCursor ≠ 0
    | _ => True
  | .wMove =>
    match s.writer with
    | .granted nBytes nCacheline => 1 ≤ nBytes ∧ 1 ≤ nCacheline
    | _ => True
  | _ => True

instance (nBytes nCacheline : ℕ) : Decidable (Sized nBytes nCacheline) :=
  decidable_of_iff' _ (sized_iff ..)

instance (s : ShmState) (a : ShmStep) : Decidable (s.Guarded a) := by
  cases a with
  | allocBytes | allocCachelines => simp only [Guarded]; infer_instance
  | writer | wMove => simp only [Guarded]; split <;> infer_instance
  | fill | rFetch | rMove | reader => exact isTrue trivial

def markAfter (s : ShmState) (a : ShmStep) (mark : Option ℕ) : Option ℕ :=
  match a with
  | .writer =>
    match s.writer with
    | .wrap _ _ _ => some s.writeCursor
    | _ => mark
  | .reader =>
    match s.reader with
    | .reset => none
    | _ => mark
  | _ => mark

theorem wAllocCachelines_eq (hnext : s.wAllocCachelines nBytes nCacheline = some s') :
    s' = { s with
      writer :=
        if s.cachedRemain < nCacheline then .loadRead nBytes nCacheline
        else .hdrBytes nBytes nCacheline } := by
  rw [ShmState.wAllocCachelines] at hnext
  split at hnext
  · exact (Option.some.inj hnext).symm
  · exact (Option.some.inj hnext).symm
  · simp at hnext

theorem fill_eq {off : ℕ} {byte : UInt8} (hnext : s.next (.fill off byte) = some s') :
    ∃ nBytes nCacheline, s.writer = .granted nBytes nCacheline ∧
      SHM_HDR_SIZE + off < CACHE_LINE_SIZE * nCacheline ∧
      s' = { s with data := store s.data (getData s.cachedWHdr + SHM_HDR_SIZE + off) [byte] } := by
  simp only [next] at hnext
  split at hnext
  · next nBytes nCacheline hpc =>
    split_ifs at hnext with hoff
    exact ⟨nBytes, nCacheline, hpc, hoff, (Option.some.inj hnext).symm⟩
  · simp at hnext

theorem wMove_eq (hnext : s.wMove = some s') :
    ∃ nBytes nCacheline, s.writer = .granted nBytes nCacheline ∧
      s' = { s with
        cachedRemain := u32 (s.cachedRemain + (2 ^ 32 - s.hdrNCachelines s.cachedWHdr))
        writeCursor := u32 (s.writeCursor + s.hdrNCachelines s.cachedWHdr)
        writer := .idle
        published := s.published ++ [⟨s.cachedWHdr, s.hdrNCachelines s.cachedWHdr, nBytes,
          s.payload s.cachedWHdr nBytes⟩] } := by
  rw [ShmState.wMove] at hnext
  split at hnext
  · next nBytes nCacheline hpc =>
    exact ⟨nBytes, nCacheline, hpc, (Option.some.inj hnext).symm⟩
  · simp at hnext

theorem rFetch_eq (hnext : s.next .rFetch = some s') :
    s' = { s with
      reader := if s.writeCursor = s.readCursor then .idle else .hdr s.writeCursor } := by
  simp only [next] at hnext
  split at hnext
  · exact (Option.some.inj hnext).symm
  · simp at hnext

theorem rMove_eq (hnext : s.next .rMove = some s') :
    ∃ nBytes, s.reader = .held nBytes ∧
      s' = { s with reader := .move nBytes (s.hdrNCachelines s.cachedRHdr) } := by
  simp only [next] at hnext
  split at hnext
  · next nBytes hpc => exact ⟨nBytes, hpc, (Option.some.inj hnext).symm⟩
  · simp at hnext

theorem Inv.setWriter (h : Inv s mark) (hok : WriterOk s.toShmRing pc) :
    Inv { s with writer := pc } mark :=
  ⟨h.size, h.layout, h.remain, h.stored, h.consumed_le, h.consumed, hok, h.reader⟩

theorem Inv.setRemain (h : Inv s mark) {c : ℕ} (pc : ShmWriterPc)
    (hc : s.writeCursor + c < s.toShmRing.limit)
    (hok : WriterOk { s.toShmRing with cachedRemain := c } pc) :
    Inv { s with cachedRemain := c, writer := pc } mark where
  size := h.size
  layout := h.layout
  remain := hc
  stored := fun rec hrec => (h.stored rec hrec).congr fun _ _ _ => rfl
  consumed_le := h.consumed_le
  consumed := h.consumed
  writer := hok
  reader := h.reader.mono (List.prefix_refl _) rfl rfl id

theorem Inv.setData (h : Inv s mark) {d : ℤ → UInt8} {n p : ℕ} (hn : n ≤ s.cachedRemain + 1)
    (hd : s.toShmRing.Spares d n)
    (hok : WriterOk { s.toShmRing with data := d, cachedWHdr := p } pc) :
    Inv { s with data := d, cachedWHdr := p, writer := pc } mark := by
  have hlimit : s.writeCursor + n ≤ s.toShmRing.limit := by
    have := h.remain
    omega
  exact {
    size := h.size
    layout := h.layout.spared hlimit hd
    remain := h.remain
    stored := fun rec hrec =>
      ((h.stored rec hrec).spared h.layout hrec hlimit hd).congr fun _ _ _ => rfl
    consumed_le := h.consumed_le
    consumed := h.consumed
    writer := hok
    reader := h.reader.mono (List.prefix_refl _) rfl rfl id }

theorem Inv.wrap (h : Inv s mark) {left : ℤ} {c : ℕ} (hturn : Turning s.toShmRing left)
    (hzero : s.toShmRing.hdrNBytes s.writeCursor = 0) (hc : c = left.toNat)
    (hok : WriterOk { s.toShmRing with writeCursor := 0, cachedRemain := c } pc) :
    Inv { s with writeCursor := 0, cachedRemain := c, writer := pc } (some s.writeCursor) := by
  obtain ⟨hle, hnonneg, hlt⟩ := hturn
  have hpos : 0 < s.readCursor := by omega
  obtain rfl := h.layout.eq_none hle
  exact {
    size := h.size
    layout := Straight.wrap h.layout hzero hpos
    remain := by
      rw [limit, if_pos hpos]
      dsimp only
      omega
    stored := fun rec hrec => (h.stored rec hrec).congr fun _ _ _ => rfl
    consumed_le := h.consumed_le
    consumed := h.consumed
    writer := hok
    reader := h.reader.mono (List.prefix_refl _) rfl rfl nofun }

theorem Inv.retest (h : Inv s mark) (hreq : Sized nBytes nCacheline) :
    Inv (s.retest nBytes nCacheline) mark := by
  refine h.setWriter ?_
  split
  · trivial
  · exact ⟨hreq, by omega⟩

theorem Inv.wAllocCachelines (h : Inv s mark) (hreq : Sized nBytes nCacheline)
    (hnext : s.wAllocCachelines nBytes nCacheline = some s') : Inv s' mark := by
  rw [wAllocCachelines_eq hnext]
  refine h.setWriter ?_
  split
  · exact ⟨hreq, by omega⟩
  · exact ⟨hreq, by omega⟩

theorem Inv.updateCachedRemain_eq (h : Inv s mark) (nBytes nCacheline : ℕ) :
    s.updateCachedRemain nBytes nCacheline =
      if s.writeCursor < s.readCursor then
        { s with cachedRemain := s.readCursor - s.writeCursor - 1 }.retest nBytes nCacheline
      else if nCacheline ≤ s.nCacheline - s.writeCursor - 1 then
        { s with cachedRemain := s.nCacheline - s.writeCursor - 1 }.retest nBytes nCacheline
      else if i32 nCacheline ≤ (s.readCursor : ℤ) - 1 then
        { s with writer := .markBytes nBytes nCacheline ((s.readCursor : ℤ) - 1) }
      else s.retest nBytes nCacheline := by
  have hsize := h.size
  have hremain := h.remain
  rw [ShmState.updateCachedRemain]
  by_cases hlt : s.writeCursor < s.readCursor
  · simp only [if_pos hlt]
  · rw [limit, if_neg hlt] at hremain
    have hright : u32 (s.nCacheline + (2 ^ 32 - s.writeCursor) + (2 ^ 32 - 1)) =
        s.nCacheline - s.writeCursor - 1 := by
      rw [u32]
      omega
    have hread : i32 s.readCursor = s.readCursor := i32_of_lt (by omega)
    simp only [if_neg hlt, hright, hread]

theorem Inv.updateCachedRemain (h : Inv s mark) (hok : Sized nBytes nCacheline ∧ 1 ≤ nCacheline)
    (hguard : nCacheline < 2 ^ 31 ∨ s.readCursor ≠ 0) :
    Inv (s.updateCachedRemain nBytes nCacheline) mark := by
  obtain ⟨hreq, hpos⟩ := id hok
  have hremain := h.remain
  rw [h.updateCachedRemain_eq]
  split_ifs with hlt hfit hneed
  · refine (h.setRemain (.loadRead nBytes nCacheline) ?_ hok).retest hreq
    rw [limit, if_pos hlt]
    omega
  · refine (h.setRemain (.loadRead nBytes nCacheline) ?_ hok).retest hreq
    rw [limit, if_neg hlt] at hremain ⊢
    omega
  · have hread : 0 < s.readCursor := by
      rcases hguard with hlt | hne
      · rw [i32_of_lt hlt] at hneed
        omega
      · exact Nat.pos_of_ne_zero hne
    exact h.setWriter ⟨hreq, not_lt.mp hlt, by omega, by omega⟩
  · exact h.retest hreq

theorem spares_store32 (q : ShmRing) {a : ℤ} (v : ℕ) {n : ℕ} (hn : 1 ≤ n)
    (hlo : getData q.writeCursor ≤ a) (hhi : a + 4 ≤ getData (q.writeCursor + 1)) :
    q.Spares (store32 q.data a v) n := by
  intro i hi
  simp only [getData, CACHE_LINE_SIZE] at hlo hhi hi
  rcases hi with hi | hi
  · exact store32_apply_of_lt _ _ (by omega)
  · exact store32_apply_of_ge _ _ (by omega)

theorem spares_hdrNBytes (q : ShmRing) (v : ℕ) :
    q.Spares (store32 q.data (getData q.writeCursor) v) 1 :=
  spares_store32 q v (le_refl 1) (le_refl _) (by simp only [getData, CACHE_LINE_SIZE]; omega)

theorem spares_hdrNCachelines (q : ShmRing) (v : ℕ) :
    q.Spares (store32 q.data (getData q.writeCursor + 4) v) 1 :=
  spares_store32 q v (le_refl 1) (by omega) (by simp only [getData, CACHE_LINE_SIZE]; omega)

theorem hdrNBytes_setHdrNCachelines (q : ShmRing) (pos v : ℕ) :
    (q.setHdrNCachelines pos v).hdrNBytes pos = q.hdrNBytes pos :=
  load32_congr fun _ _ hhi => store32_apply_of_lt _ _ (by omega)

theorem Inv.leftRemain_emod (h : Inv s mark) {left : ℤ} (hturn : Turning s.toShmRing left) :
    left % 2 ^ 32 = left := by
  obtain ⟨hle, hnonneg, hlt⟩ := hturn
  have hend := (h.layout.eq_none hle ▸ h.layout).2
  have hsize := h.size
  exact Int.emod_eq_of_lt hnonneg (by omega)

theorem Inv.writerStep (h : Inv s mark) (hguard : s.Guarded .writer)
    (hnext : s.writerStep = some s') : Inv s' (s.markAfter .writer mark) := by
  have hok := h.writer
  simp only [Guarded, markAfter] at hguard ⊢
  rw [ShmState.writerStep] at hnext
  generalize hpc : s.writer = pc at hnext hok hguard
  cases pc with
  | idle | granted => cases hnext
  | loadRead nBytes nCacheline =>
    cases hnext
    exact h.updateCachedRemain hok hguard
  | markBytes nBytes nCacheline leftRemain =>
    cases hnext
    obtain ⟨hreq, hturn⟩ := hok
    exact h.setData (Nat.le_add_left 1 _) (spares_hdrNBytes _ 0)
      ⟨hreq, hturn, load32_store32_self _ _ (by decide)⟩
  | markLines nBytes nCacheline leftRemain =>
    cases hnext
    obtain ⟨hreq, hturn, hzero⟩ := hok
    exact h.setData (Nat.le_add_left 1 _) (spares_hdrNCachelines _ 0)
      ⟨hreq, hturn, (hdrNBytes_setHdrNCachelines _ _ _).trans hzero⟩
  | wrap nBytes nCacheline leftRemain =>
    cases hnext
    obtain ⟨hreq, hturn, hzero⟩ := hok
    refine h.wrap hturn hzero (by rw [h.leftRemain_emod hturn]) ?_
    split
    · trivial
    · exact ⟨hreq, by dsimp only at *; omega⟩
  | hdrBytes nBytes nCacheline =>
    cases hnext
    obtain ⟨hreq, hn⟩ := hok
    exact h.setData (Nat.le_add_left 1 _) (spares_hdrNBytes _ nBytes)
      ⟨hreq, hn, load32_store32_self _ _ hreq.nBytes_lt⟩
  | hdrLines nBytes nCacheline =>
    cases hnext
    obtain ⟨hreq, hn, hbytes⟩ := hok
    exact h.setData (Nat.le_add_left 1 _) (spares_hdrNCachelines _ nCacheline)
      ⟨hreq, hn, (hdrNBytes_setHdrNCachelines _ _ _).trans hbytes,
        load32_store32_self _ _ hreq.nCacheline_lt, rfl⟩

theorem Inv.fill (h : Inv s mark) {off : ℕ} {byte : UInt8}
    (hpc : s.writer = .granted nBytes nCacheline)
    (hoff : SHM_HDR_SIZE + off < CACHE_LINE_SIZE * nCacheline) :
    Inv { s with data := store s.data (getData s.cachedWHdr + SHM_HDR_SIZE + off) [byte] }
      mark := by
  have hok := h.writer
  rw [hpc] at hok
  obtain ⟨hreq, hn, hbytes, hlines, hhdr⟩ := hok
  simp only [SHM_HDR_SIZE, CACHE_LINE_SIZE] at hoff
  have hframe : ∀ i, i < getData s.writeCursor + 8 →
      store s.data (getData s.cachedWHdr + SHM_HDR_SIZE + off) [byte] i = s.data i := by
    intro i hi
    refine store_apply_of_lt _ _ ?_
    rw [hhdr, SHM_HDR_SIZE]
    omega
  have hspares : s.toShmRing.Spares
      (store s.data (getData s.cachedWHdr + SHM_HDR_SIZE + off) [byte]) nCacheline := by
    rintro i (hi | hi)
    · exact hframe i (by omega)
    · refine store_apply_of_ge _ _ ?_
      simp only [getData, SHM_HDR_SIZE, CACHE_LINE_SIZE, List.length_singleton] at hi ⊢
      omega
  refine h.setData (by omega) hspares ?_
  rw [hpc]
  refine ⟨hreq, hn, ?_, ?_, hhdr⟩
  · rw [← hbytes]
    exact hdrNBytes_congr fun i _ hi => hframe i hi
  · rw [← hlines]
    exact hdrNCachelines_congr fun i _ hi => hframe i hi

theorem Inv.publish (h : Inv s mark) (rec : ShmRecord) (hpos : rec.pos = s.writeCursor)
    (hlines : 1 ≤ rec.lines) (hle : rec.lines ≤ s.cachedRemain) (hrec : s.toShmRing.Stored rec) :
    Inv { s with
      cachedRemain := s.cachedRemain - rec.lines
      writeCursor := s.writeCursor + rec.lines
      writer := .idle
      published := s.published ++ [rec] } mark := by
  have hremain := h.remain
  have hlt : s.writeCursor + rec.lines < s.toShmRing.limit := by omega
  have hunread : (s.published ++ [rec]).drop s.consumed.length = s.unread ++ [rec] :=
    List.drop_append_of_le_length h.consumed_le
  refine ⟨h.size, ?_, ?_, ?_, ?_, fun hfits => ?_, trivial, ?_⟩
  · rw [unread, hunread]
    exact h.layout.publish hpos hlines hlt
  · -- the write cursor stays on its side of the read cursor
    simp only [limit] at hremain hlt ⊢
    split_ifs at hremain hlt ⊢ <;> omega
  · intro old hold
    rw [unread, hunread] at hold
    rcases List.mem_append.mp hold with hold | hold
    · exact (h.stored old hold).congr fun _ _ _ => rfl
    · obtain rfl := List.mem_singleton.mp hold
      exact hrec.congr fun _ _ _ => rfl
  · rw [List.length_append]
    exact h.consumed_le.trans (Nat.le_add_right _ _)
  · refine (h.consumed fun old hold => hfits old (List.mem_append_left _ hold)).trans ?_
    rw [List.map_append]
    exact List.prefix_append _ _
  · rw [unread, hunread]
    exact h.reader.mono (List.prefix_append _ _) rfl rfl id

theorem Inv.wMove (h : Inv s mark) (hguard : s.Guarded .wMove) (hnext : s.wMove = some s') :
    Inv s' mark := by
  obtain ⟨nBytes, nCacheline, hpc, rfl⟩ := wMove_eq hnext
  have hok := h.writer
  simp only [Guarded, hpc] at hok hguard
  obtain ⟨hreq, hn, hbytes, hlines, hhdr⟩ := hok
  have hsize := h.size
  have hremain := h.remain
  have hlimit : s.toShmRing.limit ≤ 2 ^ 31 := h.layout.limit_le.trans hsize
  have hcached : u32 (s.cachedRemain + (2 ^ 32 - nCacheline)) = s.cachedRemain - nCacheline := by
    rw [u32]
    omega
  have hcursor : u32 (s.writeCursor + nCacheline) = s.writeCursor + nCacheline :=
    u32_of_lt (by omega)
  rw [← hhdr] at hbytes hlines
  simp only [hlines, hcached, hcursor]
  exact h.publish ⟨s.cachedWHdr, nCacheline, nBytes, s.payload s.cachedWHdr nBytes⟩ hhdr
    hguard.2 hn ⟨hbytes, hlines, fun _ => rfl, hguard.1, hguard.2⟩

theorem Inv.setReader (h : Inv s mark) {c : ℕ} {pc : ShmReaderPc}
    (hok : ReaderOk { s.toShmRing with cachedRHdr := c } s.unread mark pc) :
    Inv { s with cachedRHdr := c, reader := pc } mark where
  size := h.size
  layout := h.layout
  remain := h.remain
  stored := fun rec hrec => (h.stored rec hrec).congr fun _ _ _ => rfl
  consumed_le := h.consumed_le
  consumed := h.consumed
  writer := h.writer.mono fun hle => ⟨le_refl _, hle⟩
  reader := hok

theorem readerOk_hdr (h : q.Layout recs mark) (hne : q.writeCursor ≠ q.readCursor) :
    ReaderOk q recs mark (.hdr q.writeCursor) := by
  cases mark with
  | none =>
    obtain ⟨rec, rest, rfl, hpos⟩ := h.1.exists_cons hne.symm
    exact Or.inl ⟨rec, ⟨rest, rfl⟩, hpos⟩
  | some mark =>
    obtain ⟨-, -, -, old, new, rfl, hold, hnew⟩ := h
    rcases eq_or_ne q.readCursor mark with hmark | hmark
    · refine Or.inr ⟨congrArg some hmark.symm, fun h0 => ?_⟩
      obtain ⟨rec, rest, rfl, -⟩ := hnew.exists_cons h0.symm
      simp
    · obtain ⟨rec, rest, rfl, hpos⟩ := hold.exists_cons hmark
      exact Or.inl ⟨rec, ⟨rest ++ new, rfl⟩, hpos⟩

theorem Inv.hdrNBytes_headAt (h : Inv s mark) (hhead : HeadAt s.toShmRing s.unread rec) :
    s.toShmRing.hdrNBytes s.readCursor = rec.nBytes := by
  obtain ⟨⟨rest, hrest⟩, hpos⟩ := hhead
  rw [← hpos]
  exact (h.stored rec (hrest ▸ List.mem_cons_self)).nBytes

theorem Inv.hdrNBytes_ne_zero (h : Inv s mark) (hhead : HeadAt s.toShmRing s.unread rec) :
    s.toShmRing.hdrNBytes s.readCursor ≠ 0 := by
  rw [h.hdrNBytes_headAt hhead]
  obtain ⟨⟨rest, hrest⟩, -⟩ := hhead
  exact Nat.one_le_iff_ne_zero.mp (h.stored rec (hrest ▸ List.mem_cons_self)).nonempty

theorem Inv.reset (h : Inv s (some s.readCursor)) (hne : s.unread ≠ []) :
    Inv { s with readCursor := 0, reader := .hdrZero } none := by
  have hmark : s.toShmRing.Wrapped s.unread s.readCursor := h.layout
  have hlt := hmark.2.2.1
  have hremain := h.remain
  rw [limit, if_pos hlt] at hremain
  have hstraight := hmark.reset
  refine ⟨h.size, hstraight, ?_, ?_, h.consumed_le, h.consumed, ?_, ?_⟩
  · exact hremain.trans hmark.2.1
  · exact fun rec hrec => (h.stored rec hrec).congr fun _ _ _ => rfl
  · exact h.writer.mono fun hle => absurd hlt (not_lt.mpr hle)
  · obtain ⟨htiles, -⟩ := hstraight
    cases hrecs : s.unread with
    | nil => exact absurd hrecs hne
    | cons rec rest =>
      rw [hrecs] at htiles
      exact ⟨rec, ⟨rest, hrecs⟩, htiles.1⟩

theorem Inv.move (h : Inv s mark) (hhead : HeadAt s.toShmRing s.unread rec)
    {message : List UInt8 × ℕ} (hmessage : rec.Fits → message = rec.message) :
    Inv { s with
      readCursor := s.readCursor + rec.lines
      reader := .idle
      consumed := s.consumed ++ [message] } mark := by
  obtain ⟨⟨rest, hrest⟩, hpos⟩ := hhead
  have hlayout := h.layout
  have hremain := h.remain
  rw [hrest] at hlayout
  obtain ⟨hlimit, -, hstay⟩ := hlayout.advance_bounds hpos
  have hunread : s.published.drop (s.consumed ++ [message]).length = rest := by
    rw [List.length_append, ← List.drop_drop]
    exact congrArg (List.drop 1) hrest
  have hget : s.published[s.consumed.length]? = some rec := by
    rw [← List.head?_drop]
    exact congrArg List.head? hrest
  refine ⟨h.size, ?_, hremain.trans_le hlimit, ?_, ?_, fun hfits => ?_, ?_, trivial⟩
  · rw [unread, hunread]
    exact hlayout.advance hpos
  · intro old hold
    rw [unread, hunread] at hold
    exact (h.stored old (hrest ▸ List.mem_cons_of_mem _ hold)).congr fun _ _ _ => rfl
  · rw [List.length_append]
    exact (List.getElem?_eq_some_iff.mp hget).1
  · rw [hmessage (hfits rec (List.mem_of_getElem? hget)), List.prefix_iff_eq_take,
      List.length_append, List.length_singleton, List.take_add_one, List.getElem?_map, hget,
      ← List.prefix_iff_eq_take.mp (h.consumed hfits)]
    rfl
  · exact h.writer.mono fun hle => ⟨Nat.le_add_right _ _, hstay hle⟩

theorem Inv.readerStep (h : Inv s mark) (hnext : s.readerStep = some s') :
    Inv s' (s.markAfter .reader mark) := by
  have hok := h.reader
  simp only [markAfter]
  rw [ShmState.readerStep] at hnext
  generalize hpc : s.reader = pc at hnext hok
  cases pc with
  | idle | held => cases hnext
  | hdr wPos =>
    dsimp only at hnext hok
    rcases hok with ⟨rec, hhead⟩ | ⟨hmark, hne⟩
    · rw [if_pos (h.hdrNBytes_ne_zero hhead)] at hnext
      cases hnext
      exact h.setReader ⟨rec, hhead, rfl⟩
    · have hwrapped := hmark ▸ h.layout
      rw [if_neg (not_not.mpr hwrapped.1)] at hnext
      split_ifs at hnext with h0 <;> cases hnext
      · exact h.setReader trivial
      · exact h.setReader ⟨hmark, hne h0⟩
  | reset =>
    cases hnext
    obtain ⟨rfl, hne⟩ := hok
    exact h.reset hne
  | hdrZero =>
    obtain ⟨rec, hhead⟩ := hok
    rw [if_pos (h.hdrNBytes_ne_zero hhead)] at hnext
    cases hnext
    exact h.setReader ⟨rec, hhead, rfl⟩
  | size =>
    cases hnext
    obtain ⟨rec, hhead, hhdr⟩ := hok
    refine h.setReader ⟨rec, hhead, hhdr, ?_⟩
    rw [hhdr, h.hdrNBytes_headAt hhead]
  | move nBytes nCachelines =>
    simp only [Option.some.injEq] at hnext hok ⊢
    obtain ⟨rec, hhead, hhdr, rfl, rfl⟩ := hok
    obtain ⟨⟨rest, hrest⟩, hpos⟩ := id hhead
    have hstored := h.stored rec (hrest ▸ List.mem_cons_self)
    have hmessage : rec.Fits → (s.payload s.cachedRHdr rec.nBytes, rec.nBytes) = rec.message := by
      intro hfits
      rw [hhdr, ← hpos, hstored.payload hfits]
      rfl
    have hcursor : u32 (s.readCursor + rec.lines) = s.readCursor + rec.lines := by
      have hsize := h.size
      have hle := ((hrest ▸ h.layout).advance_bounds hpos).2.1
      exact u32_of_lt (by omega)
    simp only [hcursor] at hnext
    subst hnext
    exact h.move hhead hmessage

theorem u32_calBytesCacheline (h : nBytes < 2 ^ 32) :
    u32 (shmRingbufCalBytesCacheline nBytes) = (nBytes + 71) / 64 + 2 := by
  have hround : roundUpPowOf2Mul (SHM_HDR_SIZE + nBytes) (2 ^ 6) =
      2 ^ 6 * ((SHM_HDR_SIZE + nBytes + 2 ^ 6 - 1) / 2 ^ 6) :=
    roundUpPowOf2Mul_eq (by decide) (by rw [SHM_HDR_SIZE]; omega)
  rw [shmRingbufCalBytesCacheline, show CACHE_LINE_SIZE = 2 ^ 6 from rfl, hround, u32, SHM_HDR_SIZE]
  omega

theorem sized_calBytesCacheline (h : nBytes < 2 ^ 32) :
    Sized nBytes (u32 (shmRingbufCalBytesCacheline nBytes)) := by
  rw [u32_calBytesCacheline h]
  exact ⟨h, by omega⟩

theorem Inv.step {a : ShmStep} (h : Inv s mark) (hok : s.Guarded a) (hnext : s.next a = some s') :
    Inv s' (s.markAfter a mark) := by
  cases a with
  | allocBytes nBytes => exact h.wAllocCachelines (sized_calBytesCacheline hok) hnext
  | allocCachelines nBytes nCacheline => exact h.wAllocCachelines hok hnext
  | writer => exact h.writerStep hok hnext
  | fill off byte =>
    obtain ⟨nBytes, nCacheline, hpc, hoff, rfl⟩ := fill_eq hnext
    exact h.fill hpc hoff
  | wMove => exact h.wMove hok hnext
  | rFetch =>
    rw [rFetch_eq hnext]
    refine h.setReader ?_
    split_ifs with heq
    · trivial
    · exact readerOk_hdr h.layout heq
  | rMove =>
    obtain ⟨nBytes, hpc, rfl⟩ := rMove_eq hnext
    have hreader := h.reader
    rw [hpc] at hreader
    obtain ⟨rec, hhead, hhdr, hbytes⟩ := hreader
    refine h.setReader ⟨rec, hhead, hhdr, hbytes, ?_⟩
    obtain ⟨⟨rest, hrest⟩, hpos⟩ := hhead
    rw [hhdr, ← hpos]
    exact (h.stored rec (hrest ▸ List.mem_cons_self)).lines
  | reader => exact h.readerStep hnext

theorem inv_of_reach {ok : ShmState → ShmStep → Prop} (hok : ∀ s a, ok s a → s.Guarded a)
    (h : Inv s mark) (hs : Steps.Reach next ok s s') : ∃ mark', Inv s' mark' := by
  induction hs with
  | start => exact ⟨mark, h⟩
  | step _ ha hnext ih =>
    obtain ⟨_, ih⟩ := ih
    exact ⟨_, ih.step (hok _ _ ha) hnext⟩

end ShmState

end Mugglec
