import Mugglec.Sync.ShmRing

/-!
# Sync/ShmRingLayout — where the unread records lie

The unread records tile the lines from the read cursor on, in one of two layouts.
-/

namespace Mugglec

open Window

def Tiles : ℕ → ℕ → List ShmRecord → Prop
  | a, b, [] => a = b
  | a, b, rec :: recs => rec.pos = a ∧ 1 ≤ rec.lines ∧ Tiles (a + rec.lines) b recs

namespace Tiles

variable {a b : ℕ} {recs : List ShmRecord}

theorem le (h : Tiles a b recs) : a ≤ b := by
  induction recs generalizing a with
  | nil => exact h.le
  | cons rec recs ih => exact (Nat.le_add_right _ _).trans (ih h.2.2)

theorem bounds (h : Tiles a b recs) {rec : ShmRecord} (hrec : rec ∈ recs) :
    a ≤ rec.pos ∧ rec.pos + rec.lines ≤ b := by
  induction recs generalizing a with
  | nil => exact absurd hrec List.not_mem_nil
  | cons first recs ih =>
    obtain ⟨rfl, hlines, htail⟩ := h
    rcases List.mem_cons.mp hrec with rfl | hrec
    · exact ⟨le_refl _, htail.le⟩
    · obtain ⟨hlo, hhi⟩ := ih htail hrec
      exact ⟨(Nat.le_add_right _ _).trans hlo, hhi⟩

theorem eq_nil (h : Tiles a a recs) : recs = [] := by
  cases recs with
  | nil => rfl
  | cons rec recs =>
    obtain ⟨-, hlines, htail⟩ := h
    have := htail.le
    omega

theorem exists_cons (h : Tiles a b recs) (hne : a ≠ b) :
    ∃ rec rest, recs = rec :: rest ∧ rec.pos = a := by
  cases recs with
  | nil => exact absurd h hne
  | cons rec rest => exact ⟨rec, rest, rfl, h.1⟩

theorem concat (h : Tiles a b recs) {rec : ShmRecord} (hpos : rec.pos = b)
    (hlines : 1 ≤ rec.lines) :
    Tiles a (b + rec.lines) (recs ++ [rec]) := by
  induction recs generalizing a with
  | nil =>
    subst hpos
    obtain rfl : a = rec.pos := h
    exact ⟨rfl, hlines, rfl⟩
  | cons first recs ih => exact ⟨h.1, h.2.1, ih h.2.2⟩

end Tiles

def ShmRecord.Fits (rec : ShmRecord) : Prop :=
  SHM_HDR_SIZE + rec.nBytes ≤ CACHE_LINE_SIZE * rec.lines

namespace ShmRing

variable (q : ShmRing) (recs : List ShmRecord)

structure Stored (rec : ShmRecord) : Prop where
  nBytes : q.hdrNBytes rec.pos = rec.nBytes
  lines : q.hdrNCachelines rec.pos = rec.lines
  payload : rec.Fits → q.payload rec.pos rec.nBytes = rec.payload
  nonempty : 1 ≤ rec.nBytes
  pos : 1 ≤ rec.lines

def Straight : Prop := Tiles q.readCursor q.writeCursor recs ∧ q.writeCursor < q.nCacheline

def Wrapped (mark : ℕ) : Prop :=
  q.hdrNBytes mark = 0 ∧ mark < q.nCacheline ∧ q.writeCursor < q.readCursor ∧
    ∃ old new, recs = old ++ new ∧ Tiles q.readCursor mark old ∧ Tiles 0 q.writeCursor new

def Layout : Option ℕ → Prop
  | none => q.Straight recs
  | some mark => q.Wrapped recs mark

def limit : ℕ := if q.writeCursor < q.readCursor then q.readCursor else q.nCacheline

def Spares (d : ℤ → UInt8) (n : ℕ) : Prop :=
  ∀ i, i < getData q.writeCursor ∨ getData (q.writeCursor + n) ≤ i → d i = q.data i

variable {q recs} {d : ℤ → UInt8} {n : ℕ} {rec : ShmRecord} {mark : Option ℕ}

theorem Straight.le (h : q.Straight recs) : q.readCursor ≤ q.writeCursor := h.1.le

theorem Layout.eq_none (h : q.Layout recs mark) (hle : q.readCursor ≤ q.writeCursor) :
    mark = none := by
  cases mark with
  | none => rfl
  | some mark => exact absurd h.2.2.1 (not_lt.mpr hle)

theorem Layout.limit_le (h : q.Layout recs mark) : q.limit ≤ q.nCacheline := by
  rw [limit]
  split_ifs with hlt
  · cases mark with
    | none => exact absurd hlt (not_lt.mpr (Straight.le h))
    | some mark =>
      obtain ⟨-, hmark, -, old, -, -, hold, -⟩ := h
      exact hold.le.trans hmark.le
  · exact le_refl _

theorem Layout.apart (h : q.Layout recs mark) (hn : q.writeCursor + n ≤ q.limit)
    (hrec : rec ∈ recs) : q.writeCursor + n ≤ rec.pos ∨ rec.pos + rec.lines ≤ q.writeCursor := by
  cases mark with
  | none => exact Or.inr (h.1.bounds hrec).2
  | some mark =>
    obtain ⟨-, -, hlt, old, new, rfl, hold, hnew⟩ := h
    rw [limit, if_pos hlt] at hn
    rcases List.mem_append.mp hrec with hrec | hrec
    · exact Or.inl (hn.trans (hold.bounds hrec).1)
    · exact Or.inr (hnew.bounds hrec).2

theorem hdrNBytes_congr {q' : ShmRing} {pos : ℕ}
    (h : ∀ i, getData pos ≤ i → i < getData pos + 8 → q'.data i = q.data i) :
    q'.hdrNBytes pos = q.hdrNBytes pos :=
  load32_congr fun i hlo hhi => h i hlo (by omega)

theorem hdrNCachelines_congr {q' : ShmRing} {pos : ℕ}
    (h : ∀ i, getData pos ≤ i → i < getData pos + 8 → q'.data i = q.data i) :
    q'.hdrNCachelines pos = q.hdrNCachelines pos :=
  load32_congr fun i hlo hhi => h i (by omega) (by omega)

theorem Stored.congr {q' : ShmRing} (h : q.Stored rec)
    (hd : ∀ i, getData rec.pos ≤ i → i < getData (rec.pos + rec.lines) → q'.data i = q.data i) :
    q'.Stored rec := by
  have hlines := h.pos
  have hhdr : ∀ i, getData rec.pos ≤ i → i < getData rec.pos + 8 → q'.data i = q.data i := by
    intro i hlo hhi
    refine hd i hlo ?_
    simp only [getData, CACHE_LINE_SIZE] at hhi ⊢
    omega
  refine ⟨?_, ?_, fun hfits => ?_, h.nonempty, h.pos⟩
  · rw [hdrNBytes_congr hhdr, h.nBytes]
  · rw [hdrNCachelines_congr hhdr, h.lines]
  · rw [← h.payload hfits]
    simp only [ShmRecord.Fits, SHM_HDR_SIZE, CACHE_LINE_SIZE] at hfits
    refine load_congr fun i hlo hhi => hd i ?_ ?_ <;>
      simp only [getData, SHM_HDR_SIZE, CACHE_LINE_SIZE] at hlo hhi ⊢ <;> omega

theorem Stored.spared (h : q.Stored rec) (hlayout : q.Layout recs mark) (hrec : rec ∈ recs)
    (hn : q.writeCursor + n ≤ q.limit) (hd : q.Spares d n) : { q with data := d }.Stored rec := by
  refine h.congr fun i hlo hhi => hd i ?_
  simp only [getData, CACHE_LINE_SIZE] at hlo hhi ⊢
  rcases hlayout.apart hn hrec with h | h
  · right; omega
  · left; omega

theorem Wrapped.spared {mark : ℕ} (h : q.Wrapped recs mark) (hn : q.writeCursor + n ≤ q.limit)
    (hd : q.Spares d n) : { q with data := d }.Wrapped recs mark := by
  obtain ⟨hzero, hmark, hlt, old, new, hrecs, hold, hnew⟩ := h
  refine ⟨?_, hmark, hlt, old, new, hrecs, hold, hnew⟩
  rw [← hzero]
  refine hdrNBytes_congr fun i hlo _ => hd i (Or.inr ?_)
  rw [limit, if_pos hlt] at hn
  have := hold.le
  simp only [getData, CACHE_LINE_SIZE] at hlo ⊢
  omega

theorem Layout.spared (h : q.Layout recs mark) (hn : q.writeCursor + n ≤ q.limit)
    (hd : q.Spares d n) : { q with data := d }.Layout recs mark := by
  cases mark with
  | none => exact h
  | some mark => exact Wrapped.spared h hn hd

theorem Wrapped.publish {mark c : ℕ} (h : q.Wrapped recs mark) (hpos : rec.pos = q.writeCursor)
    (hlines : 1 ≤ rec.lines) (hlt : q.writeCursor + rec.lines < q.readCursor) :
    { q with writeCursor := q.writeCursor + rec.lines, cachedRemain := c }.Wrapped
      (recs ++ [rec]) mark := by
  obtain ⟨hzero, hmark, -, old, new, rfl, hold, hnew⟩ := h
  exact ⟨hzero, hmark, hlt, old, new ++ [rec], List.append_assoc _ _ _, hold,
    hnew.concat hpos hlines⟩

theorem Layout.publish {c : ℕ} (h : q.Layout recs mark) (hpos : rec.pos = q.writeCursor)
    (hlines : 1 ≤ rec.lines) (hlt : q.writeCursor + rec.lines < q.limit) :
    { q with writeCursor := q.writeCursor + rec.lines, cachedRemain := c }.Layout
      (recs ++ [rec]) mark := by
  cases mark with
  | none =>
    rw [limit, if_neg (not_lt.mpr (Straight.le h))] at hlt
    exact ⟨h.1.concat hpos hlines, hlt⟩
  | some mark =>
    rw [limit, if_pos h.2.2.1] at hlt
    exact Wrapped.publish h hpos hlines hlt

theorem Straight.wrap {c : ℕ} (h : q.Straight recs) (hzero : q.hdrNBytes q.writeCursor = 0)
    (hpos : 0 < q.readCursor) :
    { q with writeCursor := 0, cachedRemain := c }.Wrapped recs q.writeCursor :=
  ⟨hzero, h.2, hpos, recs, [], (List.append_nil _).symm, h.1, rfl⟩

theorem Wrapped.reset (h : q.Wrapped recs q.readCursor) :
    { q with readCursor := 0 }.Straight recs := by
  obtain ⟨-, hmark, hlt, old, new, rfl, hold, hnew⟩ := h
  rw [hold.eq_nil]
  exact ⟨hnew, hlt.trans hmark⟩

theorem Layout.advance (h : q.Layout (rec :: recs) mark) (hpos : rec.pos = q.readCursor) :
    { q with readCursor := q.readCursor + rec.lines }.Layout recs mark := by
  cases mark with
  | none => exact ⟨h.1.2.2, h.2⟩
  | some mark =>
    obtain ⟨hzero, hmark, hlt, old, new, hrecs, hold, hnew⟩ := h
    cases old with
    | nil =>
      -- the first record would be the one at line 0, behind the write cursor
      rw [List.nil_append] at hrecs
      subst hrecs
      rw [← hpos, hnew.1] at hlt
      exact absurd hlt (Nat.not_lt_zero _)
    | cons first old =>
      obtain ⟨rfl, rfl⟩ := List.cons.inj hrecs
      exact ⟨hzero, hmark, hlt.trans_le (Nat.le_add_right _ _), old, new, rfl, hold.2.2, hnew⟩

theorem Layout.advance_bounds (h : q.Layout (rec :: recs) mark) (hpos : rec.pos = q.readCursor) :
    q.limit ≤ { q with readCursor := q.readCursor + rec.lines }.limit ∧
      q.readCursor + rec.lines ≤ q.nCacheline ∧
      (q.readCursor ≤ q.writeCursor → q.readCursor + rec.lines ≤ q.writeCursor) := by
  have h' := h.advance hpos
  cases mark with
  | none =>
    have hle := h'.1.le
    have hle' := h.1.le
    have hend := h.2
    dsimp only at hle
    refine ⟨?_, by omega, fun _ => hle⟩
    rw [limit, limit, if_neg (not_lt.mpr hle'), if_neg (not_lt.mpr hle)]
  | some mark =>
    obtain ⟨-, hmark, hlt', _, _, -, hold, -⟩ := h'
    have hlt := h.2.2.1
    have hle := hold.le
    dsimp only at hlt' hle hmark
    refine ⟨?_, by omega, fun h => by omega⟩
    rw [limit, limit, if_pos hlt, if_pos hlt']
    exact Nat.le_add_right _ _

end ShmRing

end Mugglec
