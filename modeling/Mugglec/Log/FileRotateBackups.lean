import Mugglec.Machinery.Steps
import Mugglec.Log.FileRotateHandler

/-!
# Log/FileRotateBackups — the backups are the contents rotated out

While the file names fit into their buffers (`Fits`) a rotation is a shift of the backups, with the
file itself as the new first one (`Inv.rotate`).
-/

namespace Mugglec

open Function CText FileStore

namespace FileRotate

/-- **The names of the backups fit** into the buffers. -/
def Fits (filepath : List Char) (backupCount : ℕ) : Prop :=
  filepath.length + 1 + (decimal backupCount).length < MAX_PATH ∧
    (1 < (decimal backupCount).length →
      filepath.length + 1 + (decimal backupCount).length < MAX_PATH - 1)

instance (filepath : List Char) (backupCount : ℕ) : Decidable (Fits filepath backupCount) :=
  inferInstanceAs (Decidable (_ ∧ _))

def backups (s : FileRotate) : ℕ := min s.rotated.length s.backupCount

structure Backed (s : FileRotate) : Prop where
  backup : ∀ i, 1 ≤ i → s.files (backupPath s.filepath i) =
    if i ≤ s.backups then s.rotated[i - 1]? else none
  stream : ∃ current, s.files s.filepath = some current ∧
    s.initial ++ s.written = (s.rotated.drop s.backups).reverse.flatten ++
      ((s.rotated.take s.backups).reverse.flatten ++ current)

variable (filepath : List Char)

theorem numberedPath_natCast (i : ℕ) : numberedPath filepath i = backupPath filepath i := by
  simp [numberedPath, backupPath, not_lt.mpr (Int.natCast_nonneg i)]

theorem backupPath_injective : Injective (backupPath filepath) :=
  fun _ _ h => decimal_injective (List.cons.inj (List.append_cancel_left h)).2

theorem backupPath_ne (i : ℕ) : backupPath filepath i ≠ filepath := by
  intro h
  have := congrArg List.length h
  rw [backupPath, List.length_append, List.length_cons] at this
  omega

theorem length_backupPath (i : ℕ) :
    (backupPath filepath i).length = filepath.length + 1 + (decimal i).length := by
  rw [backupPath, List.length_append, List.length_cons]
  omega

variable {filepath : List Char} {backupCount : ℕ}

theorem Fits.name (h : Fits filepath backupCount) {i : ℕ} (h1 : 1 ≤ i) (hi : i ≤ backupCount) :
    snprintf MAX_PATH (backupPath filepath i) = backupPath filepath i := by
  refine snprintf_of_lt ?_
  have := length_decimal_mono (m := i) (by omega) hi
  have := h.1
  rw [length_backupPath]
  omega

theorem Fits.removed (h : Fits filepath backupCount) :
    snprintf (MAX_PATH - 1) (backupPath filepath backupCount) = backupPath filepath backupCount ∨
      (snprintf (MAX_PATH - 1) (backupPath filepath backupCount) ≠ filepath ∧
        ∀ i, backupPath filepath i ≠
          snprintf (MAX_PATH - 1) (backupPath filepath backupCount)) := by
  obtain ⟨h1, h2⟩ := h
  by_cases hfit : filepath.length + 1 + (decimal backupCount).length < MAX_PATH - 1
  · exact .inl (snprintf_of_lt (by rwa [length_backupPath]))
  · -- the number has one digit, and that digit is cut off
    have hdigit : (decimal backupCount).length ≤ 1 := not_lt.mp fun hlt => hfit (h2 hlt)
    have hpos := length_decimal_pos backupCount
    have hlen : MAX_PATH - 1 - 1 = (filepath ++ ['.']).length := by
      rw [List.length_append, List.length_singleton]
      omega
    have hcut : snprintf (MAX_PATH - 1) (backupPath filepath backupCount) = filepath ++ ['.'] := by
      have hsplit : backupPath filepath backupCount = (filepath ++ ['.']) ++ decimal backupCount :=
        List.append_cons ..
      rw [snprintf, hlen, hsplit, List.take_left]
    rw [hcut]
    refine .inr ⟨fun heq => ?_, fun i heq => ?_⟩
    · have := congrArg List.length heq
      rw [List.length_append, List.length_singleton] at this
      omega
    · have hempty : decimal i = [] := (List.cons.inj (List.append_cancel_left heq)).2
      exact (length_decimal_pos i).ne' (congrArg List.length hempty)

section Steps

variable (filepath backupCount) (files : List Char → Option (List UInt8))

def withoutLast : List Char → Option (List UInt8) :=
  let buf := snprintf (MAX_PATH - 1) (backupPath filepath backupCount)
  if (files buf).isSome then remove files buf else files

def shifted : List Char → Option (List UInt8) :=
  shiftUp (fun i => snprintf MAX_PATH (backupPath filepath i)) (backupCount - 1)
    (withoutLast filepath backupCount files)

variable {filepath backupCount files}

theorem withoutLast_of_ne {p : List Char}
    (hp : p ≠ snprintf (MAX_PATH - 1) (backupPath filepath backupCount)) :
    withoutLast filepath backupCount files p = files p := by
  rw [withoutLast]
  split_ifs
  · exact update_of_ne hp ..
  · rfl

variable (h : Fits filepath backupCount)
include h

theorem Fits.withoutLast_filepath :
    withoutLast filepath backupCount files filepath = files filepath := by
  refine withoutLast_of_ne ?_
  rcases h.removed with heq | ⟨hne, -⟩
  · rw [heq]
    exact (backupPath_ne _ _).symm
  · exact hne.symm

theorem Fits.withoutLast_backup {i : ℕ} (hi : i ≠ backupCount) :
    withoutLast filepath backupCount files (backupPath filepath i) =
      files (backupPath filepath i) := by
  refine withoutLast_of_ne ?_
  rcases h.removed with heq | ⟨-, hne⟩
  · rw [heq]
    exact fun h' => hi (backupPath_injective _ h')
  · exact hne i

theorem Fits.withoutLast_last :
    withoutLast filepath backupCount files (backupPath filepath backupCount) = none ∨
      withoutLast filepath backupCount files (backupPath filepath backupCount) =
        files (backupPath filepath backupCount) := by
  rcases h.removed with heq | ⟨-, hne⟩
  · left
    rw [withoutLast, heq]
    split_ifs with hsome
    · exact update_self ..
    · simpa using hsome
  · exact .inr (withoutLast_of_ne (hne _))

theorem Fits.shifted_of_ne (hcount : 1 ≤ backupCount) {p : List Char}
    (hp : ∀ i, 1 ≤ i → i ≤ backupCount → p ≠ backupPath filepath i) :
    shifted filepath backupCount files p = withoutLast filepath backupCount files p := by
  refine shiftUp_of_ne fun i h1 hi => ?_
  rw [h.name h1 (by omega)]
  exact hp i h1 (by omega)

theorem Fits.shifted_succ
    (hlast : (files (backupPath filepath backupCount)).isSome →
      (files (backupPath filepath (backupCount - 1))).isSome)
    {i : ℕ} (h1 : 1 ≤ i) (hi : i < backupCount) :
    shifted filepath backupCount files (backupPath filepath (i + 1)) =
      files (backupPath filepath i) := by
  set name := fun i => snprintf MAX_PATH (backupPath filepath i)
  have hnames : ∀ j, 1 ≤ j → j ≤ backupCount → name j = backupPath filepath j :=
    fun j h1 hj => h.name h1 hj
  have hinj : ∀ j k, 1 ≤ j → j < k → k ≤ backupCount - 1 + 1 → name j ≠ name k := by
    intro j k hj hjk hk
    rw [hnames j hj (by omega), hnames k (by omega) (by omega)]
    exact fun heq => hjk.ne (backupPath_injective _ heq)
  have htop : withoutLast filepath backupCount files (name (backupCount - 1 + 1)) = none ∨
      (withoutLast filepath backupCount files (name (backupCount - 1))).isSome := by
    rw [Nat.sub_add_cancel (by omega), hnames _ (by omega) le_rfl, hnames _ (by omega) (by omega),
      h.withoutLast_backup (show backupCount - 1 ≠ backupCount by omega)]
    have hremoved :
        withoutLast filepath backupCount files (backupPath filepath backupCount) = none ∨
        withoutLast filepath backupCount files (backupPath filepath backupCount) =
          files (backupPath filepath backupCount) := h.withoutLast_last
    rcases hremoved with hnone | hkept
    · exact .inl hnone
    · rw [hkept]
      cases hsome : files (backupPath filepath backupCount) with
      | none => exact .inl rfl
      | some c => exact .inr (hlast (by rw [hsome]; rfl))
  rw [← hnames (i + 1) (by omega) (by omega), shifted, shiftUp_slot hinj (.inr htop) h1 (by omega),
    hnames i h1 hi.le, h.withoutLast_backup hi.ne]

end Steps

structure Inv (s : FileRotate) : Prop where
  fits : Fits s.filepath s.backupCount
  count : 1 ≤ s.backupCount
  small : s.backupCount < 2 ^ 31
  fp : s.fp = some s.filepath
  backup : ∀ i, 1 ≤ i → s.files (backupPath s.filepath i) =
    if i ≤ s.backupCount then s.rotated[i - 1]? else none
  stream : ∃ current, s.files s.filepath = some current ∧
    s.initial ++ s.written = s.rotated.reverse.flatten ++ current

variable {s : FileRotate}

theorem Inv.backed (h : s.Inv) : s.Backed := by
  refine ⟨fun i h1 => ?_, ?_⟩
  · rw [h.backup i h1, backups]
    by_cases hlen : i ≤ s.rotated.length
    · simp [hlen]
    · have hnone : s.rotated[i - 1]? = none := List.getElem?_eq_none (by omega)
      simp [hnone]
  · obtain ⟨current, hfile, hstream⟩ := h.stream
    refine ⟨current, hfile, ?_⟩
    rw [hstream, ← List.append_assoc, ← List.flatten_append, ← List.reverse_append,
      List.take_append_drop]

theorem Inv.last (h : s.Inv) (hcount : 1 < s.backupCount)
    (hlast : (s.files (backupPath s.filepath s.backupCount)).isSome) :
    (s.files (backupPath s.filepath (s.backupCount - 1))).isSome := by
  rw [h.backup _ h.count, if_pos le_rfl, Option.isSome_iff_exists] at hlast
  obtain ⟨c, hc⟩ := hlast
  obtain ⟨hlt, -⟩ := List.getElem?_eq_some_iff.mp hc
  rw [h.backup _ (by omega), if_pos (by omega), List.getElem?_eq_getElem (by omega)]
  rfl

theorem Inv.rotate (h : s.Inv) : (s.rotate true).2.Inv := by
  obtain ⟨current, hfile, hstream⟩ := h.stream
  have hcount := h.count
  set files := shifted s.filepath s.backupCount s.files with hfiles
  have hfile' : files s.filepath = some current := by
    rw [hfiles, h.fits.shifted_of_ne hcount fun i _ _ => (backupPath_ne _ i).symm,
      h.fits.withoutLast_filepath, hfile]
  have hrotate : (s.rotate true).2 = { s with
      rotated := current :: s.rotated
      fp := some s.filepath
      files := openAppend (rename files s.filepath (backupPath s.filepath 1)) s.filepath
      offset := 0 } := by
    have hloop : ((s.backupCount : ℤ) - 1).toNat = s.backupCount - 1 := by
      omega
    rw [← h.fits.name le_rfl hcount]
    simp only [FileRotate.rotate, if_true, hfile, hloop, Option.getD_some, i32_of_lt h.small,
      numberedPath_natCast]
    rfl
  rw [hrotate]
  refine ⟨h.fits, hcount, h.small, rfl, fun i h1 => ?_, [], ?_, ?_⟩
  · simp only [openAppend]
    rw [update_of_ne (backupPath_ne _ i)]
    rcases h1.lt_or_eq with h1 | rfl
    · have hne : backupPath s.filepath i ≠ backupPath s.filepath 1 :=
        fun heq => h1.ne' (backupPath_injective _ heq)
      rw [rename_of_ne (backupPath_ne _ i) hne]
      by_cases hi : i ≤ s.backupCount
      · -- backup `i` was backup `i - 1`
        obtain ⟨j, rfl⟩ : ∃ j, i = j + 1 := ⟨i - 1, by omega⟩
        rw [hfiles, h.fits.shifted_succ (h.last (by omega)) (by omega) hi, h.backup j (by omega),
          if_pos hi, if_pos (by omega), Nat.add_sub_cancel]
        obtain ⟨k, rfl⟩ : ∃ k, j = k + 1 := ⟨j - 1, by omega⟩
        rw [List.getElem?_cons_succ, Nat.add_sub_cancel]
      · rw [if_neg hi, hfiles, h.fits.shifted_of_ne hcount fun j _ hj heq =>
          hi ((backupPath_injective _ heq).trans_le hj), h.fits.withoutLast_backup (by omega),
          h.backup i (by omega), if_neg hi]
    · rw [rename_dst (by rw [hfile']; rfl), hfile', if_pos hcount]
      rfl
  · simp only [openAppend, rename_src (backupPath_ne s.filepath 1).symm]
    exact update_self ..
  · rw [List.reverse_cons, List.flatten_append, hstream]
    simp

theorem Inv.append (h : s.Inv) (bytes : List UInt8) (n : ℕ) :
    Inv { s with
      files := appendBytes s.files s.filepath bytes
      written := s.written ++ bytes
      offset := n } := by
  obtain ⟨current, hfile, hstream⟩ := h.stream
  refine ⟨h.fits, h.count, h.small, h.fp, fun i h1 => ?_, current ++ bytes, ?_, ?_⟩
  · simp only [appendBytes]
    rw [update_of_ne (backupPath_ne _ i), h.backup i h1]
  · simp [appendBytes, hfile]
  · simp only
    rw [← List.append_assoc, hstream, List.append_assoc]

/-- The record is all in its array, and `fopen` succeeds. -/
def Ordinary (_ : FileRotate) (m : LogWrite) : Prop :=
  (∀ f ∈ m.fmt, f.ret ≤ f.buf.length) ∧ m.opens = true

instance (s : FileRotate) (m : LogWrite) : Decidable (Ordinary s m) :=
  match m with
  | ⟨none, _, opens⟩ => decidable_of_iff (opens = true) (by simp [Ordinary])
  | ⟨some f, _, opens⟩ =>
    decidable_of_iff (f.ret ≤ f.buf.length ∧ opens = true) (by simp [Ordinary])

theorem Inv.write (h : s.Inv) {m : LogWrite} (hm : s.Ordinary m) :
    ∃ ret s', s.write m = some (ret, s') ∧ s'.Inv := by
  obtain ⟨fmt, accepted, opens⟩ := m
  obtain ⟨hret, rfl⟩ : (∀ f ∈ fmt, f.ret ≤ f.buf.length) ∧ opens = true := hm
  cases fmt with
  | none => exact ⟨-1, s, rfl, h⟩
  | some f =>
    simp only [FileRotate.write]
    split_ifs with hneg
    · exact ⟨-2, s, rfl, h⟩
    · have hbytes : f.fwrite accepted = some ((f.buf.take f.ret.toNat).take accepted) :=
        if_pos (hret f rfl)
      rw [h.fp]
      simp only [hbytes, Option.bind_eq_bind, Option.bind_some]
      refine ⟨_, _, rfl, ?_⟩
      have happend := h.append ((f.buf.take f.ret.toNat).take accepted)
        (s.offset + ((f.buf.take f.ret.toNat).take accepted).length)
      rw [h.fp] at happend
      split_ifs
      · exact happend.rotate
      · exact happend

def opened (absFilepath : List Char) (maxBytes backupCount : ℕ)
    (files : List Char → Option (List UInt8)) : FileRotate where
  filepath := absFilepath.take (MAX_PATH - 1)
  fp := some absFilepath
  maxBytes := maxBytes
  backupCount := backupCount
  offset := ((files absFilepath).getD []).length
  files := openAppend files absFilepath
  initial := (files absFilepath).getD []
  written := []
  rotated := []

theorem inv_opened (hfits : Fits filepath backupCount) (hcount : 1 ≤ backupCount)
    (hsmall : backupCount < 2 ^ 31) (maxBytes : ℕ) {files : List Char → Option (List UInt8)}
    (hclean : ∀ i, 1 ≤ i → files (backupPath filepath i) = none) :
    (opened filepath maxBytes backupCount files).Inv := by
  have hpath : filepath.take (MAX_PATH - 1) = filepath := by
    have := hfits.1
    exact List.take_of_length_le (by omega)
  rw [opened, hpath]
  refine ⟨hfits, hcount, hsmall, rfl, fun i h1 => ?_, (files filepath).getD [], ?_, by simp⟩
  · simp only [openAppend]
    rw [update_of_ne (backupPath_ne _ i), hclean i h1]
    simp
  · exact update_self ..

theorem inv_init (hfits : Fits filepath backupCount) (hcount : 1 ≤ backupCount)
    (hsmall : backupCount < 2 ^ 31) (maxBytes : ℕ) {files : List Char → Option (List UInt8)}
    (hclean : ∀ i, 1 ≤ i → files (backupPath filepath i) = none) :
    (init filepath maxBytes backupCount files true).Inv := by
  have hopened := inv_opened hfits hcount hsmall maxBytes hclean
  rw [init]
  simp only
  split_ifs
  · exact hopened.rotate
  · exact hopened

def next (s : FileRotate) (m : LogWrite) : Option FileRotate := (s.write m).map Prod.snd

/-- **In every run the backups are in order**, if the names fit and the records are not too long. -/
theorem backed_of_reach (hfits : Fits filepath backupCount) (hcount : 1 ≤ backupCount)
    (hsmall : backupCount < 2 ^ 31) {maxBytes : ℕ} {files : List Char → Option (List UInt8)}
    (hclean : ∀ i, 1 ≤ i → files (backupPath filepath i) = none)
    (hs : Steps.Reach next Ordinary (init filepath maxBytes backupCount files true) s) :
    s.Backed ∧ ∀ m, s.Ordinary m → (s.write m).isSome := by
  have hinv : s.Inv := by
    refine hs.invariant (inv_init hfits hcount hsmall maxBytes hclean) fun s m s' h hm hnext => ?_
    obtain ⟨ret, t, hwrite, ht⟩ := h.write hm
    rw [next, hwrite, Option.map_some, Option.some.injEq] at hnext
    exact hnext ▸ ht
  refine ⟨hinv.backed, fun m hm => ?_⟩
  obtain ⟨ret, t, hwrite, -⟩ := hinv.write hm
  rw [hwrite]
  rfl

def twoRotations : List LogWrite :=
  let record (a b : UInt8) : LogWrite := ⟨some ⟨2, [a, b, 0, 0]⟩, 2, true⟩
  [record 1 2, record 3 4, record 5 6, record 7 8]

theorem backed_twoRotations : ∃ s : FileRotate,
    (s.files "/a".toList, s.files "/a.1".toList, s.files "/a.2".toList, s.rotated) =
      (some [], some [5, 6, 7, 8], none, [[5, 6, 7, 8], [1, 2, 3, 4]]) ∧ s.Backed := by
  exact Steps.exists_of_execWhen (init "/a".toList 3 1 (fun _ => none) true) twoRotations
    (by decide +kernel) fun _ hs _ =>
      (backed_of_reach (by decide) le_rfl (by decide) (fun _ _ => rfl) hs).1

def fullPath : List Char :=
  (List.replicate 5 ('/' :: List.replicate 199 'a')).flatten ++ '/' :: List.replicate 22 'b'

theorem not_backed_fullBuffer : ∃ s : FileRotate,
    next (init fullPath 1 1 (fun _ => none) true) ⟨some ⟨1, [7, 0]⟩, 1, true⟩ = some s ∧
      s.rotated.length = 1 ∧ s.files (backupPath fullPath 1) = none ∧ s.files fullPath = some [7] ∧
      ¬ s.Backed := by
  obtain ⟨s, hs, hnone, hfile, hpath, hcount, hlen⟩ : ∃ s,
      next (init fullPath 1 1 (fun _ => none) true) ⟨some ⟨1, [7, 0]⟩, 1, true⟩ = some s ∧
      s.files (backupPath fullPath 1) = none ∧ s.files fullPath = some [7] ∧
      s.filepath = fullPath ∧ s.backups = 1 ∧ s.rotated.length = 1 := by
    decide +kernel
  refine ⟨s, hs, hlen, hnone, hfile, fun hbacked => ?_⟩
  have hfirst := hbacked.backup 1 le_rfl
  rw [hpath, hnone, hcount, if_pos le_rfl, Nat.sub_self,
    List.getElem?_eq_getElem (by omega)] at hfirst
  cases hfirst

end FileRotate

end Mugglec
