import Mugglec.Memory.BytesBufferFifo

/-!
# Memory/BytesBufferCalls — what every call of the byte buffer answers and touches

A buffer under any sequence of its calls, the read that drains at the mark (`DrainsAtMark`)
included: that one loses track of the bytes, but not of the cursors.  `Valid` is kept by every call
(`Valid.call`), and what the interface promises follows from it (`Valid.bounded`).
-/

open Window

namespace Mugglec

inductive BytesCall
  | write (src : List UInt8)
  | read (n : ℕ)
  | fetch (n : ℕ)
  | writerFc (n : ℕ) (fill : List UInt8) (hfill : fill.length ≤ n)
  | produce (n n' : ℕ) (fill : List UInt8) (hfill : fill.length ≤ n) (hn : n' ≤ n)
  | writerMove (n : ℕ)
  | readerFc (n : ℕ)
  | readerMove (n : ℕ)
  | clear

namespace BytesBuffer

def call (b : BytesBuffer) : BytesCall → Bool × BytesBuffer
  | .write src => b.write src
  | .read n =>
    match b.read n with
    | some (_, b') => (true, b')
    | none => (false, b)
  | .fetch n => ((b.fetch n).isSome, b)
  | .writerFc n fill _ =>
    match b.writerFc n with
    | some p => (true, { b with buffer := store b.buffer p fill })
    | none => (false, b)
  | .produce n n' fill _ _ =>
    match b.writerFc n with
    | some p => (true, writerMoveN { b with buffer := store b.buffer p fill } p n')
    | none => (false, b)
  | .writerMove n => b.writerMove n
  | .readerFc n => ((b.readerFc n).isSome, b)
  | .readerMove n => b.readerMove n
  | .clear => (true, b.clear)

def runCalls (capacity : ℤ) (block : ℤ → UInt8) (calls : List BytesCall) : BytesBuffer :=
  calls.foldl (fun b c => (b.call c).2) (init capacity block)

variable {b : BytesBuffer}

theorem valid_writerMove (h : b.Valid) (n : ℕ) : (b.writerMove n).2.Valid := by
  have hcw := contiguousWritable_nonneg h.toCursors
  rw [writerMove]
  by_cases hfit : b.contiguousWritable ≥ n
  · rw [if_pos hfit]
    exact (content_advanceWriter h hfit).1
  · rw [if_neg hfit]
    by_cases hjump : b.jumpWritable ≥ n
    · rw [if_pos hjump]
      obtain ⟨hle, hlt⟩ := le_jumpWritable (by omega) hjump
      exact (content_jump h hle hlt).1
    · rwa [if_neg hjump]

theorem valid_readerMove (h : b.Valid) (n : ℕ) : (b.readerMove n).2.Valid := by
  by_cases hfit : (n : ℤ) ≤ b.contiguousReadable
  · exact (readerMove_spec h hfit).2.1
  · rwa [readerMove, if_neg hfit]

theorem valid_read (h : b.Valid) {n : ℕ} {bytes : List UInt8} {b' : BytesBuffer}
    (hread : b.read n = some (bytes, b')) : b'.Valid := by
  by_cases hd : b.DrainsAtMark n
  · obtain ⟨hres, hw⟩ := read_of_drainsAtMark h hd
    rw [hres] at hread
    obtain ⟨-, rfl⟩ := Prod.mk.inj (Option.some.inj hread)
    have ⟨hc, hr, hw', hwc, htc, hrw, hwr⟩ := h.toCursors
    exact ⟨⟨hc, le_refl 0, hw', hwc, htc, fun _ => hrw hd.1, fun h' => absurd hw' (not_le.mpr h')⟩,
      fun h' => absurd h' hw.ne⟩
  · exact (read_spec h hd hread).1

theorem Valid.call (h : b.Valid) (c : BytesCall) : (b.call c).2.Valid := by
  cases c with
  | write src =>
    obtain ⟨hok, hfail⟩ := write_spec h src
    cases hres : (b.write src).1 with
    | true => exact (hok hres).1
    | false => exact (hfail hres).symm ▸ h
  | read n =>
    rw [BytesBuffer.call]
    cases hres : b.read n with
    | none => exact h
    | some res => exact valid_read h hres
  | fetch n => exact h
  | writerFc n fill hfill =>
    rw [BytesBuffer.call]
    cases hres : b.writerFc n with
    | none => exact h
    | some p => exact h.store _
  | produce n n' fill hfill hn =>
    rw [BytesBuffer.call]
    cases hres : b.writerFc n with
    | none => exact h
    | some p => exact (writerMoveN_spec h hres hfill hn).1
  | writerMove n => exact valid_writerMove h n
  | readerFc n => exact h
  | readerMove n => exact valid_readerMove h n
  | clear => exact valid_clear h.toCursors

theorem valid_runCalls {capacity : ℤ} (hcap : 1 ≤ capacity) (block : ℤ → UInt8)
    (calls : List BytesCall) : (runCalls capacity block calls).Valid :=
  Steps.foldl_invariant (valid_init hcap block) (fun _ c h (_ : True) => h.call c) calls
    fun _ _ _ => trivial

theorem jumpWritable_nonneg (h : b.Cursors) : 0 ≤ b.jumpWritable := by
  have := h.r_nonneg
  rw [jumpWritable]
  split
  · split <;> omega
  · exact le_refl 0

theorem jumpReadable_nonneg (h : b.Cursors) : 0 ≤ b.jumpReadable := by
  have := h.w_nonneg
  rw [jumpReadable]
  split <;> omega

theorem readable_add_writable_of_le (hle : b.r ≤ b.w) : b.readable + b.writable = b.c - 1 := by
  rw [readable, writable, contiguousReadable, jumpReadable, contiguousWritable, jumpWritable,
    if_pos hle, if_pos hle, if_pos hle, if_pos hle]
  split <;> omega

theorem readable_add_writable_of_lt (hlt : b.w < b.r) : b.readable + b.writable = b.t - 1 := by
  have hn : ¬ b.w ≥ b.r := not_le.mpr hlt
  rw [readable, writable, contiguousReadable, jumpReadable, contiguousWritable, jumpWritable,
    if_neg hn, if_neg hn, if_neg hn, if_neg hn]
  omega

theorem write_iff (h : b.Cursors) (src : List UInt8) :
    (b.write src).1 = true ↔ (src.length : ℤ) ≤ b.writable := by
  have hjw := jumpWritable_nonneg h
  rw [write, writable]
  by_cases hfit : b.contiguousWritable ≥ src.length
  · simp only [if_pos hfit, true_iff]
    omega
  · by_cases hfull : b.contiguousWritable + b.jumpWritable < src.length
    · simpa [if_neg hfit, if_pos hfull] using hfull
    · by_cases hjump : b.jumpWritable ≥ src.length
      · simp only [if_neg hfit, if_neg hfull, if_pos hjump, true_iff]
        omega
      · simp only [if_neg hfit, if_neg hfull, if_neg hjump, true_iff]
        omega

theorem fetch_iff (h : b.Cursors) (n : ℕ) : (b.fetch n).isSome = true ↔ (n : ℤ) ≤ b.readable := by
  have hjr := jumpReadable_nonneg h
  rw [fetch, readable]
  by_cases hfit : b.contiguousReadable ≥ n
  · simp only [if_pos hfit, Option.isSome_some, true_iff]
    omega
  · by_cases hshort : b.contiguousReadable + b.jumpReadable < n
    · simpa [if_neg hfit, if_pos hshort] using hshort
    · simp only [if_neg hfit, if_neg hshort, Option.isSome_some, true_iff]
      omega

theorem read_iff (h : b.Cursors) (n : ℕ) : (b.read n).isSome = true ↔ (n : ℤ) ≤ b.readable := by
  rw [← fetch_iff h, fetch_eq_read, Option.isSome_map]

theorem call_of_failed (h : b.Valid) {c : BytesCall} (hfail : (b.call c).1 = false) :
    (b.call c).2 = b := by
  cases c with
  | write src => exact (write_spec h src).2 hfail
  | read n =>
    rw [call] at hfail ⊢
    cases hres : b.read n with
    | none => rfl
    | some res => simp [hres] at hfail
  | fetch n => rfl
  | writerFc n fill hfill =>
    rw [call] at hfail ⊢
    cases hres : b.writerFc n with
    | none => rfl
    | some p => simp [hres] at hfail
  | produce n n' fill hfill hn =>
    rw [call] at hfail ⊢
    cases hres : b.writerFc n with
    | none => rfl
    | some p => simp [hres] at hfail
  | writerMove n =>
    rw [call, writerMove] at hfail ⊢
    split_ifs at hfail ⊢
    rfl
  | readerFc n => rfl
  | readerMove n =>
    rw [call, readerMove] at hfail ⊢
    split_ifs at hfail ⊢
    rfl
  | clear => exact absurd hfail (by simp [call])

theorem writerFc_inside (h : b.Cursors) {n : ℕ} {p : ℤ} (hp : b.writerFc n = some p) :
    0 ≤ p ∧ p + n ≤ b.c := by
  have ⟨hc, hr, hw, hwc, htc, hrw, hwr⟩ := h
  have hcw := contiguousWritable_nonneg h
  rw [writerFc] at hp
  by_cases hfit : b.contiguousWritable ≥ n
  · rw [if_pos hfit] at hp
    cases hp
    obtain ⟨hlin, hwrap⟩ := le_contiguousWritable hfit
    rcases le_or_gt b.r b.w with h' | h'
    · exact ⟨hw, (hlin h').1⟩
    · have := hwr h'
      have := hwrap h'
      omega
  · rw [if_neg hfit] at hp
    split_ifs at hp with hjump
    cases hp
    obtain ⟨hle, hlt⟩ := le_jumpWritable (by omega) hjump
    omega

theorem contiguousReadable_inside (h : b.Cursors) : b.r + b.contiguousReadable ≤ b.c := by
  have ⟨hc, hr, hw, hwc, htc, hrw, hwr⟩ := h
  rw [contiguousReadable]
  split <;> omega

theorem readerFc_inside (h : b.Cursors) {n : ℕ} {p : ℤ} (hp : b.readerFc n = some p) :
    0 ≤ p ∧ p + n ≤ b.c := by
  have := contiguousReadable_inside h
  have := h.r_nonneg
  rw [readerFc] at hp
  split_ifs at hp with hfit
  cases hp
  omega

theorem store_outside {m : ℤ → UInt8} {a c x : ℤ} {xs : List UInt8} (ha : 0 ≤ a)
    (hend : a + xs.length ≤ c) (hx : x < 0 ∨ c ≤ x) : store m a xs x = m x := by
  rcases hx with hx | hx
  · exact store_apply_of_lt m xs (by omega)
  · exact store_apply_of_ge m xs (by omega)

theorem write_inside (h : b.Cursors) (src : List UInt8) {x : ℤ} (hx : x < 0 ∨ b.c ≤ x) :
    (b.write src).2.buffer x = b.buffer x := by
  have ⟨hc, hr, hw, hwc, htc, hrw, hwr⟩ := h
  have hcw := contiguousWritable_nonneg h
  have hroom {n : ℕ} (hn : (n : ℤ) ≤ b.contiguousWritable) : b.w + n ≤ b.c := by
    have hp : b.writerFc n = some b.w := if_pos hn
    exact (writerFc_inside h hp).2
  rw [write]
  by_cases hfit : b.contiguousWritable ≥ src.length
  · simp only [if_pos hfit, advanceWriter]
    exact store_outside hw (hroom hfit) hx
  · by_cases hfull : b.contiguousWritable + b.jumpWritable < src.length
    · simp only [if_neg hfit, if_pos hfull]
    · obtain ⟨hle, hlt⟩ : b.r ≤ b.w ∧ b.jumpWritable < b.r :=
        le_jumpWritable (n := b.jumpWritable) (by omega) (le_refl _)
      by_cases hjump : b.jumpWritable ≥ src.length
      · simp only [if_neg hfit, if_neg hfull, if_pos hjump]
        exact store_outside (le_refl 0) (by omega) hx
      · simp only [if_neg hfit, if_neg hfull, if_neg hjump]
        rw [store_outside (le_refl 0) (by rw [List.length_drop]; omega) hx]
        split_ifs
        · refine store_outside hw (hroom ?_) hx
          rw [List.length_take]
          omega
        · rfl

theorem buffer_refresh (b : BytesBuffer) : b.refresh.buffer = b.buffer := by
  rw [refresh]
  split <;> rfl

theorem buffer_read {n : ℤ} {bytes : List UInt8} {b' : BytesBuffer}
    (hread : b.read n = some (bytes, b')) : b'.buffer = b.buffer := by
  rw [read] at hread
  simp only at hread
  split_ifs at hread
  all_goals
    obtain ⟨-, rfl⟩ := Prod.mk.inj (Option.some.inj hread)
    rw [buffer_refresh]

theorem buffer_writerMoveN (b : BytesBuffer) (p n : ℤ) : (b.writerMoveN p n).buffer = b.buffer := by
  rw [writerMoveN]
  split <;> rfl

theorem buffer_writerMove (b : BytesBuffer) (n : ℤ) : (b.writerMove n).2.buffer = b.buffer := by
  rw [writerMove]
  split_ifs <;> rfl

theorem buffer_readerMove (b : BytesBuffer) (n : ℤ) : (b.readerMove n).2.buffer = b.buffer := by
  rw [readerMove]
  split
  · exact buffer_refresh _
  · rfl

theorem call_inside (h : b.Cursors) (c : BytesCall) {x : ℤ} (hx : x < 0 ∨ b.c ≤ x) :
    (b.call c).2.buffer x = b.buffer x := by
  cases c with
  | write src => exact write_inside h src hx
  | read n =>
    rw [call]
    cases hres : b.read n with
    | none => rfl
    | some res => exact congrFun (buffer_read hres) x
  | fetch n => rfl
  | writerFc n fill hfill =>
    rw [call]
    cases hres : b.writerFc n with
    | none => rfl
    | some p =>
      obtain ⟨hp, hend⟩ := writerFc_inside h hres
      exact store_outside hp (by omega) hx
  | produce n n' fill hfill hn =>
    rw [call]
    cases hres : b.writerFc n with
    | none => rfl
    | some p =>
      obtain ⟨hp, hend⟩ := writerFc_inside h hres
      refine (congrFun (buffer_writerMoveN _ _ _) x).trans ?_
      exact store_outside hp (by omega) hx
  | writerMove n => exact congrFun (buffer_writerMove b n) x
  | readerFc n => rfl
  | readerMove n => exact congrFun (buffer_readerMove b n) x
  | clear => rfl

theorem fetch_inside (h : b.Cursors) (n : ℕ) {m : ℤ → UInt8}
    (hm : ∀ x, 0 ≤ x → x < b.c → m x = b.buffer x) :
    fetch { b with buffer := m } n = b.fetch n := by
  have ⟨hc, hr, hw, hwc, htc, hrw, hwr⟩ := h
  have hcr := contiguousReadable_inside h
  have hload {a : ℤ} {k : ℕ} (ha : 0 ≤ a) (hend : a + k ≤ b.c) : load m a k = load b.buffer a k :=
    load_congr fun i hi hi' => hm i (by omega) (by omega)
  have hsame : contiguousReadable { b with buffer := m } = b.contiguousReadable ∧
      jumpReadable { b with buffer := m } = b.jumpReadable := ⟨rfl, rfl⟩
  rw [fetch, fetch, hsame.1, hsame.2]
  by_cases hfit : b.contiguousReadable ≥ n
  · simp only [if_pos hfit]
    rw [hload hr (by omega)]
  · by_cases hshort : b.contiguousReadable + b.jumpReadable < n
    · simp only [if_neg hfit, if_pos hshort]
    · have hjr : b.jumpReadable ≤ b.w := by
        rw [jumpReadable]
        split <;> omega
      have hfront :
          (if b.contiguousReadable > 0 then load m b.r b.contiguousReadable.toNat else []) =
            if b.contiguousReadable > 0 then load b.buffer b.r b.contiguousReadable.toNat
            else [] := by
        split
        · exact hload hr (by omega)
        · rfl
      simp only [if_neg hfit, if_neg hshort]
      rw [hfront, hload (le_refl 0) (by omega)]

structure Bounded (b : BytesBuffer) : Prop where
  r_nonneg : 0 ≤ b.r
  r_le_t : b.r ≤ b.t
  t_le_c : b.t ≤ b.c
  w_nonneg : 0 ≤ b.w
  w_lt_c : b.w < b.c
  size_le : b.readable + b.writable ≤ b.c - 1
  size_eq : b.r ≤ b.w → b.readable + b.writable = b.c - 1
  write_iff : ∀ src, (b.write src).1 = true ↔ (src.length : ℤ) ≤ b.writable
  read_iff : ∀ n : ℕ, (b.read n).isSome = true ↔ (n : ℤ) ≤ b.readable
  fetch_iff : ∀ n : ℕ, (b.fetch n).isSome = true ↔ (n : ℤ) ≤ b.readable
  fetch_read : ∀ n : ℕ, b.fetch n = (b.read n).map Prod.fst ∧ (b.call (.fetch n)).2 = b
  writes_inside : ∀ c x, x < 0 ∨ b.c ≤ x → (b.call c).2.buffer x = b.buffer x
  reads_inside : ∀ (n : ℕ) m, (∀ x, 0 ≤ x → x < b.c → m x = b.buffer x) →
    fetch { b with buffer := m } n = b.fetch n
  areas_inside : ∀ (n : ℕ) p, b.writerFc n = some p ∨ b.readerFc n = some p → 0 ≤ p ∧ p + n ≤ b.c
  failed : ∀ c, (b.call c).1 = false → (b.call c).2 = b

theorem Valid.bounded (h : b.Valid) : b.Bounded where
  r_nonneg := h.r_nonneg
  r_le_t := by
    rcases le_or_gt b.r b.w with hle | hlt
    · exact hle.trans (h.linear hle)
    · exact h.wrapped hlt
  t_le_c := h.t_le
  w_nonneg := h.w_nonneg
  w_lt_c := h.w_lt
  size_le := by
    have := h.t_le
    rcases le_or_gt b.r b.w with hle | hlt
    · exact (readable_add_writable_of_le hle).le
    · rw [readable_add_writable_of_lt hlt]
      omega
  size_eq := readable_add_writable_of_le
  write_iff := BytesBuffer.write_iff h.toCursors
  read_iff := BytesBuffer.read_iff h.toCursors
  fetch_iff := BytesBuffer.fetch_iff h.toCursors
  fetch_read n := ⟨fetch_eq_read b n, rfl⟩
  writes_inside c _ hx := call_inside h.toCursors c hx
  reads_inside n _ hm := fetch_inside h.toCursors n hm
  areas_inside _ _ hp := hp.elim (writerFc_inside h.toCursors) (readerFc_inside h.toCursors)
  failed _ hfail := call_of_failed h hfail

/-- **Every buffer reached keeps the promises of the interface.** -/
theorem bounded_runCalls (capacity : ℤ) (hcap : 1 ≤ capacity) (block : ℤ → UInt8)
    (calls : List BytesCall) : (runCalls capacity block calls).Bounded :=
  (valid_runCalls hcap block calls).bounded

theorem bounded_drainedAtMark :
    (1 : ℤ) ≤ 5 ∧ (runCalls 5 (fun _ => 0) [.write [1, 2, 3, 4], .read 3, .write [5, 6], .read 1,
      .write [7, 8], .read 4]).Bounded :=
  ⟨by decide, bounded_runCalls 5 (by decide) _ _⟩

end BytesBuffer

end Mugglec
