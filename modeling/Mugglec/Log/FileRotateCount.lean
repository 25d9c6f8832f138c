import Mugglec.Log.FileRotateBackups

/-!
# Log/FileRotateCount — how many backups there are, and which rotation loses one

A rotation renames the file to `filepath.1` whatever `backup_count` is, and its loop runs from
`(int)backup_count - 1`: **a count of zero still makes a backup, and one above `INT_MAX` moves none
out of the way** (`within_iff`).
-/

namespace Mugglec

open Function CText FileStore

namespace FileRotate

def numbers (path : List Char) (s : FileRotate) : Set ℕ :=
  {i | 1 ≤ i ∧ (s.files (backupPath path i)).isSome}

def Keeps (path : List Char) (s t : FileRotate) : Prop :=
  ∃ φ : ℕ → ℕ, Set.InjOn φ (s.numbers path) ∧
    ∀ i ∈ s.numbers path, 1 < φ i ∧ t.files (backupPath path (φ i)) = s.files (backupPath path i)

structure Within (path : List Char) (s : FileRotate) : Prop where
  count : (s.numbers path).encard ≤ s.backupCount
  loop : -2 ^ 31 ≤ i32 s.backupCount - 1
  keeps : ∀ m t, m.opens = true → next s m = some t → t.rotated ≠ s.rotated →
    (s.numbers path).encard < s.backupCount → Keeps path s t

def Opens (_ : FileRotate) (m : LogWrite) : Prop := m.opens = true

instance (s : FileRotate) (m : LogWrite) : Decidable (Opens s m) :=
  inferInstanceAs (Decidable (_ = _))

abbrev Run (abs : List Char) (maxBytes backupCount : ℕ) (files : List Char → Option (List UInt8)) :
    FileRotate → Prop :=
  Steps.Reach next Opens (init abs maxBytes backupCount files true)

def appended (s : FileRotate) (path : List Char) (bytes : List UInt8) : FileRotate :=
  { s with
    files := appendBytes s.files path bytes
    written := s.written ++ bytes
    offset := s.offset + bytes.length }

variable {abs : List Char} {maxBytes backupCount : ℕ} {files : List Char → Option (List UInt8)}
  {s t : FileRotate}

theorem next_cases {m : LogWrite} (hm : m.opens = true) (hnext : next s m = some t) :
    t = s ∨ ∃ path bytes, s.fp = some path ∧
      (t = s.appended path bytes ∨ t = ((s.appended path bytes).rotate true).2) := by
  obtain ⟨r, hwrite, rfl⟩ := Option.map_eq_some_iff.mp hnext
  rw [write] at hwrite
  cases hfmt : m.fmt with
  | none =>
    rw [hfmt] at hwrite
    cases hwrite
    exact .inl rfl
  | some f =>
    simp only [hfmt] at hwrite
    split_ifs at hwrite
    · cases hwrite
      exact .inl rfl
    · cases hfp : s.fp with
      | none =>
        rw [hfp] at hwrite
        cases hwrite
        exact .inl rfl
      | some path =>
        simp only [hfp, hm, Option.bind_eq_bind, Option.bind_eq_some_iff, Option.pure_def] at hwrite
        obtain ⟨bytes, -, heq⟩ := hwrite
        cases heq
        refine .inr ⟨path, bytes, rfl, ?_⟩
        simp only [appended, hfp]
        split_ifs
        · exact .inr rfl
        · exact .inl rfl

/-- **What appending and rotating keep, every run keeps.** -/
theorem reach_rule {P : FileRotate → Prop} (hopened : P (opened abs maxBytes backupCount files))
    (happend : ∀ s path bytes, s.fp = some path → P s → P (s.appended path bytes))
    (hrotate : ∀ s, P s → P (s.rotate true).2)
    (hs : Run abs maxBytes backupCount files s) : P s := by
  refine hs.invariant ?_ fun s m t h hm hnext => ?_
  · rw [init]
    simp only
    split_ifs
    · exact hrotate _ hopened
    · exact hopened
  · rcases next_cases hm hnext with rfl | ⟨path, bytes, hfp, rfl | rfl⟩
    · exact h
    · exact happend s path bytes hfp h
    · exact hrotate _ (happend s path bytes hfp h)

/-- The file system behind the `remove` of a rotation -/
def dropped (s : FileRotate) : List Char → Option (List UInt8) :=
  let buf := snprintf (MAX_PATH - 1) (numberedPath s.filepath (i32 s.backupCount))
  if (s.files buf).isSome then remove s.files buf else s.files

def nameOf (filepath : List Char) (i : ℕ) : List Char := snprintf MAX_PATH (backupPath filepath i)

theorem rotate_files (s : FileRotate) : (s.rotate true).2.files = openAppend (rename
    (shiftUp (nameOf s.filepath) (i32 s.backupCount - 1).toNat s.dropped) s.filepath
      (nameOf s.filepath 1)) s.filepath := rfl

theorem dropped_of_ne {p : List Char}
    (hp : p ≠ snprintf (MAX_PATH - 1) (numberedPath s.filepath (i32 s.backupCount))) :
    s.dropped p = s.files p := by
  rw [dropped]
  split_ifs
  · exact update_of_ne hp ..
  · rfl

theorem isSome_of_rotate {p : List Char} (hp : p ≠ s.filepath)
    (h : ((s.rotate true).2.files p).isSome) : (s.files p).isSome ∨
      ∃ j, 1 ≤ j ∧ j ≤ (i32 s.backupCount - 1).toNat + 1 ∧ p = nameOf s.filepath j := by
  rw [rotate_files, openAppend, update_of_ne hp] at h
  rcases isSome_of_rename h with h | rfl
  · rcases isSome_of_shiftUp h with h | h
    · rw [dropped] at h
      split_ifs at h
      · exact .inl (isSome_of_remove h)
      · exact .inl h
    · exact .inr h
  · exact .inr ⟨1, le_rfl, by omega, rfl⟩

/-- The numbers whose names a rotation can give a file -/
def made (abs : List Char) (backupCount : ℕ) : Set ℕ :=
  {i | ∃ j, 1 ≤ j ∧ j ≤ (i32 backupCount - 1).toNat + 1 ∧
    backupPath abs i = nameOf (abs.take (MAX_PATH - 1)) j}

structure Ready (abs : List Char) (maxBytes backupCount : ℕ) (s : FileRotate) : Prop where
  numbers : s.numbers abs ⊆ made abs backupCount
  filepath : s.filepath = abs.take (MAX_PATH - 1)
  maxBytes : s.maxBytes = maxBytes
  backupCount : s.backupCount = backupCount
  fp : ∃ path, s.fp = some path ∧ path.length ≤ abs.length ∧
    (abs.length < MAX_PATH - 2 → path = abs ∧ (s.files abs).isSome)

theorem take_of_short (habs : abs.length < MAX_PATH - 2) : abs.take (MAX_PATH - 1) = abs :=
  List.take_of_length_le (by omega)

theorem backupPath_ne_of_le {p : List Char} (hp : p.length ≤ abs.length) (i : ℕ) :
    backupPath abs i ≠ p := by
  rintro rfl
  rw [length_backupPath] at hp
  omega

theorem Ready.numbers_appended (h : s.Ready abs maxBytes backupCount) {path : List Char}
    (hfp : s.fp = some path) (bytes : List UInt8) :
    (s.appended path bytes).numbers abs = s.numbers abs := by
  obtain ⟨path', hfp', hle, -⟩ := h.fp
  obtain rfl : path = path' := Option.some.inj (hfp.symm.trans hfp')
  ext i
  simp only [FileRotate.numbers, FileRotate.appended, appendBytes, Set.mem_ofPred_eq,
    update_of_ne (backupPath_ne_of_le hle i)]

theorem ready_opened (hclean : ∀ i, 1 ≤ i → files (backupPath abs i) = none) :
    (opened abs maxBytes backupCount files).Ready abs maxBytes backupCount := by
  refine ⟨?_, rfl, rfl, rfl, abs, rfl, le_rfl, fun _ => ⟨rfl, ?_⟩⟩
  · rintro i ⟨h1, hi⟩
    simp [opened, openAppend, update_of_ne (backupPath_ne abs i), hclean i h1] at hi
  · simp [opened, openAppend]

theorem Ready.appended (h : s.Ready abs maxBytes backupCount) {path : List Char}
    (hfp : s.fp = some path) (bytes : List UInt8) :
    (s.appended path bytes).Ready abs maxBytes backupCount := by
  obtain ⟨path', hfp', hle, hshort⟩ := h.fp
  obtain rfl : path = path' := Option.some.inj (hfp.symm.trans hfp')
  refine ⟨?_, h.filepath, h.maxBytes, h.backupCount, path, hfp, hle, fun habs => ?_⟩
  · rw [h.numbers_appended hfp]
    exact h.numbers
  · obtain ⟨rfl, -⟩ := hshort habs
    exact ⟨rfl, by simp [FileRotate.appended, appendBytes]⟩

theorem Ready.rotate (h : s.Ready abs maxBytes backupCount) :
    (s.rotate true).2.Ready abs maxBytes backupCount := by
  have hle : s.filepath.length ≤ abs.length := by
    rw [h.filepath]
    exact List.length_take_le' ..
  refine ⟨?_, h.filepath, h.maxBytes, h.backupCount, s.filepath, rfl, hle, fun habs => ?_⟩
  · rintro i ⟨h1, hi⟩
    rcases isSome_of_rotate (backupPath_ne_of_le hle i) hi with hi | ⟨j, hj, hjn, heq⟩
    · exact h.numbers ⟨h1, hi⟩
    · rw [h.filepath] at heq
      rw [h.backupCount] at hjn
      exact ⟨j, hj, hjn, heq⟩
  · have hpath : s.filepath = abs := h.filepath.trans (take_of_short habs)
    refine ⟨hpath, ?_⟩
    rw [rotate_files, hpath]
    simp [openAppend]

theorem ready_of_reach (hclean : ∀ i, 1 ≤ i → files (backupPath abs i) = none)
    (hs : Run abs maxBytes backupCount files s) :
    s.Ready abs maxBytes backupCount :=
  reach_rule (ready_opened hclean) (fun _ _ bytes hfp h => h.appended hfp bytes)
    (fun _ h => h.rotate) hs

theorem toNat_loop (hsmall : backupCount < 2 ^ 31) :
    (i32 backupCount - 1).toNat = backupCount - 1 := by
  rw [i32_of_lt hsmall]
  omega

theorem le_of_one_lt_length_decimal {n : ℕ} (h : 1 < (decimal n).length) : 10 ≤ n := by
  by_contra hlt
  have hone : (decimal n).length = 1 := by
    interval_cases n <;> rfl
  omega

section Short

variable (habs : abs.length < MAX_PATH - 2)
include habs

theorem nameOf_one : nameOf abs 1 = backupPath abs 1 := by
  refine snprintf_of_lt ?_
  have hone : (decimal 1).length = 1 := rfl
  rw [length_backupPath, hone]
  omega

theorem ne_snprintf {size : ℕ} (hsize : MAX_PATH - 1 ≤ size) {text : List Char}
    (htext : abs.length < text.length) : abs ≠ snprintf size text := by
  intro heq
  have hlen := congrArg List.length heq
  rw [snprintf, List.length_take] at hlen
  omega

theorem Ready.one_mem (h : s.Ready abs maxBytes backupCount) :
    1 ∈ (s.rotate true).2.numbers abs := by
  have hpath : s.filepath = abs := h.filepath.trans (take_of_short habs)
  obtain ⟨path, -, -, hshort⟩ := h.fp
  have hfile : (shiftUp (nameOf abs) (i32 s.backupCount - 1).toNat s.dropped abs).isSome := by
    rw [shiftUp_of_ne fun i _ _ => ?_, dropped_of_ne]
    · exact (hshort habs).2
    · rw [hpath]
      refine ne_snprintf habs le_rfl ?_
      rw [numberedPath, List.length_append, List.length_cons]
      omega
    · refine ne_snprintf habs (by decide) ?_
      rw [length_backupPath]
      omega
  refine ⟨le_rfl, ?_⟩
  rw [rotate_files, hpath, openAppend, update_of_ne (backupPath_ne abs 1), ← nameOf_one habs,
    rename_dst hfile]
  exact hfile

variable (hfits : abs.length + 1 + (decimal backupCount).length < MAX_PATH)
include hfits

omit habs in
theorem nameOf_of_le {j : ℕ} (hj : 1 ≤ j) (hle : j ≤ backupCount) :
    nameOf abs j = backupPath abs j := by
  refine snprintf_of_lt ?_
  have := length_decimal_mono (m := j) (by omega) hle
  rw [length_backupPath]
  omega

theorem Ready.gap_rotate (h : s.Ready abs maxBytes backupCount)
    (hcut : abs.length + 1 + (decimal backupCount).length = MAX_PATH - 1)
    (hsmall : backupCount < 2 ^ 31) (hten : 10 ≤ backupCount) :
    backupCount / 10 + 1 ∉ (s.rotate true).2.numbers abs := by
  rintro ⟨-, hsome⟩
  set q := backupCount / 10 with hq
  have hpath : s.filepath = abs := h.filepath.trans (take_of_short habs)
  have hsplit : backupPath abs backupCount =
      backupPath abs q ++ [Nat.digitChar (backupCount % 10)] := by
    rw [backupPath, backupPath, decimal_of_le hten, List.append_assoc, List.cons_append]
  have hlen := congrArg List.length hsplit
  rw [length_backupPath, List.length_append, List.length_singleton] at hlen
  have hbuf : snprintf (MAX_PATH - 1) (numberedPath abs (i32 backupCount)) = backupPath abs q := by
    rw [i32_of_lt hsmall, numberedPath_natCast, snprintf, hsplit,
      show MAX_PATH - 1 - 1 = (backupPath abs q).length by omega, List.take_left]
  have hremoved : s.dropped (backupPath abs q) = none := by
    rw [dropped, hpath, h.backupCount, hbuf]
    split_ifs with hfile
    · exact update_self ..
    · simpa using hfile
  have hne : backupPath abs (q + 1) ≠ backupPath abs 1 := by
    intro heq
    have := backupPath_injective abs heq
    omega
  have hinj : ∀ i j, 1 ≤ i → i < j → j ≤ backupCount - 1 + 1 → nameOf abs i ≠ nameOf abs j := by
    intro i j hi hij hj
    rw [nameOf_of_le hfits hi (by omega), nameOf_of_le hfits (by omega) (by omega)]
    exact fun heq => hij.ne (backupPath_injective abs heq)
  have hslot : shiftUp (nameOf abs) (backupCount - 1) s.dropped (nameOf abs (q + 1)) =
      s.dropped (nameOf abs q) := shiftUp_slot hinj (.inl (by omega)) (by omega) (by omega)
  rw [nameOf_of_le hfits (by omega) (by omega), nameOf_of_le hfits (by omega) (by omega),
    hremoved] at hslot
  rw [rotate_files, hpath, openAppend, update_of_ne (backupPath_ne abs _), nameOf_one habs,
    rename_of_ne (backupPath_ne abs _) hne, h.backupCount, toNat_loop hsmall, hslot] at hsome
  cases hsome

end Short

theorem Keeps.encard_lt (hkeeps : Keeps abs s t) (hone : 1 ∈ t.numbers abs) :
    (s.numbers abs).encard + 1 ≤ (t.numbers abs).encard := by
  obtain ⟨φ, hinj, hφ⟩ := hkeeps
  have hnew : 1 ∉ φ '' s.numbers abs := by
    rintro ⟨i, hi, heq⟩
    exact (hφ i hi).1.ne' heq
  rw [← hinj.encard_image, ← Set.encard_insert_of_notMem hnew]
  refine Set.encard_le_encard (Set.insert_subset hone ?_)
  rintro _ ⟨i, hi, rfl⟩
  obtain ⟨h1, hfile⟩ := hφ i hi
  exact ⟨h1.le, by rw [hfile]; exact hi.2⟩

theorem Within.count_ne_zero (h : s.Within abs) (hone : 1 ∈ s.numbers abs) : s.backupCount ≠ 0 := by
  intro hzero
  have hcount := h.count
  rw [hzero, Nat.cast_zero, nonpos_iff_eq_zero, Set.encard_eq_zero] at hcount
  rw [hcount] at hone
  exact hone

def oneByte : LogWrite := ⟨some ⟨1, [0]⟩, 1, true⟩

theorem next_oneByte {path : List Char} (hfp : s.fp = some path) :
    next s oneByte = some (if s.offset + 1 ≥ s.maxBytes then ((s.appended path [0]).rotate true).2
      else s.appended path [0]) := by
  simp [next, write, oneByte, hfp, Formatted.fwrite, appended]

section Run

variable (hclean : ∀ i, 1 ≤ i → files (backupPath abs i) = none)
include hclean

theorem exists_rotation (n : ℕ) {s : FileRotate} (hs : Run abs maxBytes backupCount files s)
    (hn : maxBytes ≤ s.offset + n) :
    ∃ u v : FileRotate, Run abs maxBytes backupCount files u ∧ u.numbers abs = s.numbers abs ∧
      v.Ready abs maxBytes backupCount ∧ next u oneByte = some (v.rotate true).2 ∧
      (v.rotate true).2.rotated ≠ u.rotated := by
  have hready := ready_of_reach hclean hs
  obtain ⟨path, hfp, -⟩ := hready.fp
  have hnext := next_oneByte hfp
  rw [hready.maxBytes] at hnext
  split_ifs at hnext with hfull
  · exact ⟨s, _, hs, rfl, hready.appended hfp [0], hnext, List.cons_ne_self _ _⟩
  · have hlonger : maxBytes ≤ (s.appended path [0]).offset + (n - 1) := by
      simp only [appended, List.length_singleton]
      omega
    obtain ⟨u, v, hu, hnumbers, hrest⟩ :=
      exists_rotation (n - 1) (hs.step (a := oneByte) rfl hnext) hlonger
    exact ⟨u, v, hu, hnumbers.trans (hready.numbers_appended hfp [0]), hrest⟩
termination_by n

variable (habs : abs.length < MAX_PATH - 2)
  (hall : ∀ s, Run abs maxBytes backupCount files s → s.Within abs)
include habs hall

theorem count_ne_zero : backupCount ≠ 0 := by
  rintro rfl
  have hstart : Run abs maxBytes 0 files _ := .start
  obtain ⟨u, v, hu, -, hv, hnext, -⟩ := exists_rotation hclean maxBytes hstart (by omega)
  have hwithin := hall _ (hu.step (a := oneByte) rfl hnext)
  exact hwithin.count_ne_zero (hv.one_mem habs) hv.rotate.backupCount

theorem exists_full : ¬ ∀ s, Run abs maxBytes backupCount files s →
    (s.numbers abs).encard < backupCount := by
  intro hlt
  have hmany : ∀ n : ℕ, ∃ s, Run abs maxBytes backupCount files s ∧
      n ≤ (s.numbers abs).encard := by
    intro n
    induction n with
    | zero => exact ⟨_, .start, zero_le⟩
    | succ n ih =>
      obtain ⟨s, hs, hn⟩ := ih
      obtain ⟨u, v, hu, hnumbers, hv, hnext, hrotated⟩ :=
        exists_rotation hclean maxBytes hs (by omega)
      have hless : (u.numbers abs).encard < u.backupCount := by
        rw [(ready_of_reach hclean hu).backupCount]
        exact hlt u hu
      have hkeeps := (hall u hu).keeps oneByte _ rfl hnext hrotated hless
      refine ⟨_, hu.step (a := oneByte) rfl hnext, ?_⟩
      calc ((n + 1 : ℕ) : ℕ∞) ≤ (s.numbers abs).encard + 1 := by
            rw [Nat.cast_add_one]
            gcongr
        _ = (u.numbers abs).encard + 1 := by rw [hnumbers]
        _ ≤ _ := hkeeps.encard_lt (hv.one_mem habs)
  obtain ⟨s, hs, hn⟩ := hmany backupCount
  exact (hlt s hs).not_ge hn

theorem false_of_subset {F : Finset ℕ} (hcard : F.card < backupCount)
    (hF : ∀ s, Run abs maxBytes backupCount files s →
      s.numbers abs ⊆ F) : False := by
  refine exists_full hclean habs hall fun s hs => ?_
  calc (s.numbers abs).encard ≤ (F : Set ℕ).encard := Set.encard_le_encard (hF s hs)
    _ = F.card := Set.encard_coe_eq_coe_finsetCard F
    _ < backupCount := by exact_mod_cast hcard

theorem count_small (hword : backupCount < 2 ^ 32) : backupCount < 2 ^ 31 := by
  by_contra hbig
  refine false_of_subset hclean habs hall (F := {1}) (by rw [Finset.card_singleton]; omega) ?_
  intro s hs i hi
  obtain ⟨j, hj, hjn, heq⟩ := (ready_of_reach hclean hs).numbers hi
  -- the loop does not run
  have hloop : (i32 backupCount - 1).toNat = 0 := by
    rw [i32, if_neg hbig]
    omega
  obtain rfl : j = 1 := by omega
  rw [take_of_short habs, nameOf_one habs] at heq
  rw [Finset.coe_singleton, Set.mem_singleton_iff]
  exact backupPath_injective abs heq

theorem last_fits : abs.length + 1 + (decimal backupCount).length < MAX_PATH := by
  by_contra hcut
  have hzero := count_ne_zero hclean habs hall
  refine false_of_subset hclean habs hall (F := Finset.Ico 1 backupCount)
    (by rw [Nat.card_Ico]; omega) ?_
  intro s hs i hi
  obtain ⟨j, -, -, heq⟩ := (ready_of_reach hclean hs).numbers hi
  have hlen := congrArg List.length heq
  rw [length_backupPath, nameOf, snprintf, List.length_take] at hlen
  rw [Finset.coe_Ico, Set.mem_Ico]
  refine ⟨hi.1, ?_⟩
  by_contra hge
  have := length_decimal_mono hzero (not_lt.mp hge)
  omega

theorem removed_fits (hsmall : backupCount < 2 ^ 31) (hdigits : 1 < (decimal backupCount).length) :
    abs.length + 1 + (decimal backupCount).length < MAX_PATH - 1 := by
  by_contra hcut
  have hfits := last_fits hclean habs hall
  have hten : 10 ≤ backupCount := le_of_one_lt_length_decimal hdigits
  have hgap : ∀ s, Run abs maxBytes backupCount files s →
      s.Ready abs maxBytes backupCount ∧ backupCount / 10 + 1 ∉ s.numbers abs := by
    intro s hs
    refine reach_rule (P := fun s => s.Ready abs maxBytes backupCount ∧
      backupCount / 10 + 1 ∉ s.numbers abs) ⟨ready_opened hclean, ?_⟩
      (fun s path bytes hfp h => ?_) (fun s h => ?_) hs
    · rintro ⟨-, hi⟩
      simp [opened, openAppend, update_of_ne (backupPath_ne abs _), hclean _] at hi
    · rw [h.1.numbers_appended hfp]
      exact ⟨h.1.appended hfp bytes, h.2⟩
    · exact ⟨h.1.rotate, h.1.gap_rotate habs hfits (by omega) hsmall hten⟩
  refine false_of_subset hclean habs hall (F := (Finset.Icc 1 backupCount).erase
    (backupCount / 10 + 1)) ?_ fun s hs i hi => ?_
  · rw [Finset.card_erase_of_mem (by rw [Finset.mem_Icc]; omega), Nat.card_Icc]
    omega
  · obtain ⟨hready, hgone⟩ := hgap s hs
    obtain ⟨j, hj, hjn, heq⟩ := hready.numbers hi
    rw [toNat_loop hsmall] at hjn
    rw [take_of_short habs, nameOf_of_le hfits hj (by omega)] at heq
    obtain rfl := backupPath_injective abs heq
    rw [Finset.mem_coe, Finset.mem_erase, Finset.mem_Icc]
    exact ⟨fun heq => hgone (heq ▸ hi), hj, by omega⟩

end Run

theorem Inv.mem_numbers (h : s.Inv) {i : ℕ} :
    i ∈ s.numbers s.filepath ↔ 1 ≤ i ∧ i ≤ s.rotated.length ∧ i ≤ s.backupCount := by
  rw [numbers, Set.mem_ofPred_eq]
  refine and_congr_right fun h1 => ?_
  rw [h.backup i h1]
  split_ifs with hi
  · simp [hi]
    omega
  · simp [hi]

theorem Inv.within (h : s.Inv) : s.Within s.filepath := by
  refine ⟨?_, ?_, fun m t hm hnext hrotated hless => ?_⟩
  · have hsub : s.numbers s.filepath ⊆ Finset.Icc 1 s.backupCount := by
      intro i hi
      obtain ⟨h1, -, hle⟩ := h.mem_numbers.mp hi
      exact Finset.mem_coe.mpr (Finset.mem_Icc.mpr ⟨h1, hle⟩)
    have hle := Set.encard_le_encard hsub
    rwa [Set.encard_coe_eq_coe_finsetCard, Nat.card_Icc, Nat.add_sub_cancel] at hle
  · rw [i32_of_lt h.small]
    omega
  · rcases next_cases hm hnext with rfl | ⟨path, bytes, hfp, rfl | rfl⟩
    · exact absurd rfl hrotated
    · exact absurd rfl hrotated
    · obtain rfl : path = s.filepath := Option.some.inj (hfp.symm.trans h.fp)
      have hroom : s.rotated.length < s.backupCount := by
        by_contra hfull
        refine hless.not_ge ?_
        have hsub : (Finset.Icc 1 s.backupCount : Set ℕ) ⊆ s.numbers s.filepath := by
          intro i hi
          obtain ⟨h1, hle⟩ := Finset.mem_Icc.mp (Finset.mem_coe.mp hi)
          exact h.mem_numbers.mpr ⟨h1, by omega, hle⟩
        have hle := Set.encard_le_encard hsub
        rwa [Set.encard_coe_eq_coe_finsetCard, Nat.card_Icc, Nat.add_sub_cancel] at hle
      have ht : ((s.appended s.filepath bytes).rotate true).2.Inv := (h.append bytes _).rotate
      refine ⟨(· + 1), (add_left_injective 1).injOn, fun i hi => ?_⟩
      obtain ⟨h1, hlen, hle⟩ := h.mem_numbers.mp hi
      refine ⟨Nat.lt_succ_of_le h1, (ht.backup (i + 1) (by omega)).trans ?_⟩
      rw [h.backup i h1, if_pos hle]
      obtain ⟨k, rfl⟩ : ∃ k, i = k + 1 := ⟨i - 1, by omega⟩
      exact if_pos (show k + 1 + 1 ≤ s.backupCount by omega)

/-- **The count is kept, and no backup is lost early,** in every run exactly if `backup_count` is
between 1 and `INT_MAX` and the names fit. -/
theorem within_iff (hword : backupCount < 2 ^ 32)
    (hclean : ∀ i, 1 ≤ i → files (backupPath abs i) = none) :
    (∀ s, Run abs maxBytes backupCount files s → s.Within abs) ↔
      if abs.length < MAX_PATH - 2 then
        1 ≤ backupCount ∧ backupCount < 2 ^ 31 ∧ Fits abs backupCount
      else backupCount ≠ 2 ^ 31 := by
  split_ifs with habs
  · constructor
    · intro hall
      have hsmall := count_small hclean habs hall hword
      exact ⟨Nat.one_le_iff_ne_zero.mpr (count_ne_zero hclean habs hall), hsmall,
        last_fits hclean habs hall, removed_fits hclean habs hall hsmall⟩
    · rintro ⟨hcount, hsmall, hfits⟩ s hs
      have hinv : s.Inv ∧ s.filepath = abs := by
        refine reach_rule (P := fun s => s.Inv ∧ s.filepath = abs)
          ⟨inv_opened hfits hcount hsmall maxBytes hclean, take_of_short habs⟩
          (fun s path bytes hfp h => ⟨?_, h.2⟩) (fun s h => ⟨h.1.rotate, h.2⟩) hs
        obtain rfl : path = s.filepath := Option.some.inj (hfp.symm.trans h.1.fp)
        exact h.1.append bytes _
      exact hinv.2 ▸ hinv.1.within
  · constructor
    · rintro hall rfl
      have hloop := (hall _ .start).loop
      rw [(ready_of_reach hclean .start).backupCount] at hloop
      revert hloop
      decide
    · intro hne s hs
      have hready := ready_of_reach hclean hs
      have hnone : s.numbers abs = ∅ := by
        refine Set.eq_empty_of_forall_notMem fun i hi => ?_
        obtain ⟨j, -, -, heq⟩ := hready.numbers hi
        have hlen := congrArg List.length heq
        have := length_decimal_pos i
        rw [length_backupPath, nameOf, snprintf, List.length_take] at hlen
        omega
      refine ⟨?_, ?_, fun m t _ _ _ _ => ⟨id, Set.injOn_id _, ?_⟩⟩
      · rw [hnone, Set.encard_empty]
        exact zero_le
      · rw [hready.backupCount, i32]
        split_ifs <;> omega
      · rw [hnone]
        exact fun i hi => absurd hi (Set.notMem_empty i)

theorem within_twoBackups : ∃ s : FileRotate, (s.files "/a.1".toList, s.files "/a.2".toList) =
      (some [5, 6, 7, 8], some [1, 2, 3, 4]) ∧ s.Within "/a".toList := by
  exact Steps.exists_of_execWhen (init "/a".toList 3 2 (fun _ => none) true) twoRotations
    (by decide +kernel) fun s hs _ => (within_iff (by decide) fun _ _ => rfl).mpr (by decide) s hs

theorem not_within_zero : ∃ s, Run "/a".toList 1 0 (fun _ => none) s ∧
    s.files "/a.1".toList = some [0] ∧ ¬ s.Within "/a".toList := by
  obtain ⟨s, hs, hfile, hcount⟩ : ∃ s,
      next (init "/a".toList 1 0 (fun _ => none) true) oneByte = some s ∧
      s.files "/a.1".toList = some [0] ∧ s.backupCount = 0 := by
    decide
  have hone : 1 ∈ s.numbers "/a".toList := by
    refine ⟨le_rfl, ?_⟩
    rw [show backupPath "/a".toList 1 = "/a.1".toList by decide, hfile]
    rfl
  exact ⟨s, .step (a := oneByte) .start rfl hs, hfile, fun h => h.count_ne_zero hone hcount⟩

end FileRotate

end Mugglec
