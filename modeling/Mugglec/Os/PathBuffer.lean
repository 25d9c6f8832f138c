import Mugglec.Os.Path

/-!
# Os/PathBuffer — which calls keep to their buffer

A call should leave its whole result in the buffer, with a terminator, or fail, and touch no cell
outside.  `muggle_path_dirname` does.  The others fail to at one size each.
-/

namespace Mugglec

open CBuffer CText

def baseText (path : List Char) : Option (List Char) :=
  match scanBack path path.length with
  | none => if path = [] then none else some path
  | some pos => if path.drop (pos + 1) = [] then none else some (path.drop (pos + 1))

def dirText (path : List Char) : Option (List Char) :=
  (scanBack path path.length).map fun pos =>
    let pos := if pos = 0 then 1 else pos
    path.take (if pos - 1 > 0 ∧ path.getD (pos - 1) nul = ':' then pos + 1 else pos)

def joinText (path1 path2 : List Char) : Option (List Char) :=
  if path1 = [] ∨ path2 = [] ∨ path2 = ['/'] then none
  else some (path1 ++ (if ! endswith path1 ['/'] && ! endswith path1 ['\\'] then ['/'] else []) ++
    if path2.head? = some '/' then path2.tail else path2)

def normOut (cursor out : List Char) : Option (List Char) :=
  match cursor with
  | [] => some out
  | c :: rest =>
    if c = '.' ∧ rest.head? = some '.' then
      let next := rest.tail.headD nul
      match normDots next out out.length with
      | none => none
      | some none => normOut rest.tail.tail (out ++ ['.', '.', next])
      | some (some pos) => normOut rest.tail.tail (out.take pos)
    else normOut rest (out ++ [c])
termination_by cursor.length
decreasing_by all_goals simp only [List.length_tail, List.length_cons] at *; omega

def normText (path : List Char) : Option (List Char) :=
  (normOut (normCursor path) []).map fun out =>
    if out = [] then ['.', '/'] else out.takeWhile (· ≠ nul)

variable {ret pre : List Char} {n : ℕ} (src : List Char)

theorem exists_strncpy (hpre : pre <+: ret) (h : pre.length + n ≤ ret.length) :
    ∃ ret', strncpy ret pre.length src n = some ret' ∧ ret'.length = ret.length ∧
      pre ++ (src.take n ++ List.replicate (n - src.length) nul) <+: ret' := by
  have hlen : (src.take n ++ List.replicate (n - src.length) nul).length = n := by
    simp only [List.length_append, List.length_take, List.length_replicate]
    omega
  obtain ⟨ret', hstore, hpre', hret'⟩ := exists_store _ hpre (hlen.symm ▸ h)
  exact ⟨ret', hstore, hret', hpre'⟩

theorem exists_strncpy_zero (h : src.length < n) (hn : n ≤ ret.length) :
    ∃ ret', strncpy ret 0 src n = some ret' ∧ ret'.length = ret.length ∧ src ++ [nul] <+: ret' := by
  obtain ⟨ret', hcopy, hlen, hpre⟩ := exists_strncpy src List.nil_prefix (by simpa using hn)
  refine ⟨ret', hcopy, hlen, .trans ?_ hpre⟩
  obtain ⟨k, hk⟩ := Nat.exists_eq_add_one_of_ne_zero (show n - src.length ≠ 0 by omega)
  rw [List.take_of_length_le h.le, hk, List.replicate_succ]
  exact ⟨List.replicate k nul, by simp⟩

theorem exists_store_text (text : List Char) (h : text.length < ret.length) :
    ∃ ret₁ ret₂, store ret 0 text = some ret₁ ∧ store ret₁ text.length [nul] = some ret₂ ∧
      text ++ [nul] <+: ret₂ := by
  obtain ⟨ret₁, hstore, hpre, hlen⟩ := exists_store_zero text h.le
  obtain ⟨ret₂, hstore₂, hpre₂, -⟩ := exists_store [nul] hpre (by simpa [hlen] using h)
  exact ⟨ret₁, ret₂, hstore, hstore₂, hpre₂⟩

def Sound (call : List Char → PathCall) (result : Option (List Char)) (size : ℕ) : Prop :=
  ∀ ret : List Char, ret.length = size → ∃ r ret', call ret = some (r, ret') ∧
    (r = .ok → ∃ text, result = some text ∧ text.length < size ∧ text ++ [nul] <+: ret')

variable {size : ℕ} (path : List Char)

theorem scanBack_lt {cells : List Char} : ∀ {n i : ℕ}, scanBack cells n = some i → i < n
  | n + 1, i, h => by
    rw [scanBack] at h
    split_ifs at h
    · cases h
      exact Nat.lt_succ_self _
    · exact (scanBack_lt h).trans (Nat.lt_succ_self _)

variable {cells out : List Char}

theorem getD_of_prefix (h : out <+: cells) {i : ℕ} (hi : i < out.length) :
    cells.getD i nul = out.getD i nul := by
  obtain ⟨rest, rfl⟩ := h
  simp only [List.getD_eq_getElem?_getD, List.getElem?_append_left hi]

theorem scanBack_of_prefix (h : out <+: cells) :
    ∀ {n : ℕ}, n ≤ out.length → scanBack cells n = scanBack out n
  | 0, _ => rfl
  | n + 1, hn => by
    rw [scanBack, scanBack, getD_of_prefix h hn, scanBack_of_prefix h (Nat.le_of_succ_le hn)]

theorem scanBack_concat {c : Char} (out : List Char) (hc : isSep c = true) :
    scanBack (out ++ [c]) (out.length + 1) = some out.length := by
  exact if_pos (by simpa using hc)

theorem scanBack_append {name : List Char} (hname : ∀ c ∈ name, isSep c = false) :
    scanBack (out ++ name) (out ++ name).length = scanBack out out.length := by
  induction name using List.reverseRecOn with
  | nil => rw [List.append_nil]
  | append_singleton name c ih =>
    rw [← List.append_assoc, List.length_append, List.length_singleton, scanBack,
      if_neg (by simpa using hname c (by simp)), scanBack_of_prefix (List.prefix_append ..) le_rfl]
    exact ih fun c hc => hname c (List.mem_append_left _ hc)

theorem basename_cut {path : List Char} {pos : ℕ} (hscan : scanBack path path.length = some pos)
    (hname : path.drop (pos + 1) ≠ []) (hsize : 1 < ret.length) :
    ∃ ret', pathBasename path ret = some (.ok, ret') ∧
      (path.drop (pos + 1)).take (ret.length - 1) ++ [nul] <+: ret' := by
  have hlen : (path.drop (pos + 1)).length = path.length - 1 - pos := by
    rw [List.length_drop]
    omega
  have hlen' := List.length_pos_of_ne_nil hname
  have hcut : (path.drop (pos + 1)).take (ret.length - 1) = (path.drop (pos + 1)).take
      (if path.length - 1 - pos ≥ ret.length then ret.length - 1 else path.length - 1 - pos) := by
    split_ifs
    · rfl
    · rw [List.take_of_length_le (by omega), List.take_of_length_le hlen.le]
  obtain ⟨ret₁, ret₂, hstore, hstore₂, hpre⟩ := exists_store_text
    ((path.drop (pos + 1)).take (ret.length - 1)) (show _ < ret.length by
      rw [List.length_take]
      omega)
  refine ⟨ret₂, ?_, hpre⟩
  rw [hcut] at hstore hstore₂
  rw [List.length_take, min_eq_left (by split_ifs <;> omega)] at hstore₂
  simp only [pathBasename, hscan, if_neg (show ¬ ret.length ≤ 1 by omega),
    if_neg (show ¬ path.length ≤ 0 by omega), if_neg (show ¬ path.length - 1 - pos ≤ 0 by omega)]
  rw [hstore, Option.bind_eq_bind, Option.bind_some, hstore₂]
  rfl

theorem dirname_sound (hsize : size < 2 ^ 32) : Sound (pathDirname path) (dirText path) size := by
  rintro ret rfl
  by_cases hsmall : ret.length ≤ 1 ∨ path.length ≤ 0
  · refine ⟨.invalidParam, ret, ?_, by simp⟩
    rcases hsmall with h | h <;> simp [pathDirname, h]
  rw [not_or] at hsmall
  simp only [pathDirname, dirText, if_neg hsmall.1, if_neg hsmall.2]
  cases hscan : scanBack path path.length with
  | none => exact ⟨.invalidParam, ret, rfl, by simp⟩
  | some pos =>
    have hpos := scanBack_lt hscan
    simp only [Option.map_some]
    generalize hp : (if pos = 0 then 1 else pos) = p
    generalize hq : (if p - 1 > 0 ∧ path.getD (p - 1) nul = ':' then p + 1 else p) = q
    have hle : q ≤ path.length := by
      split_ifs at hp hq <;> omega
    split_ifs with hbig
    · exact ⟨.invalidParam, ret, rfl, by simp⟩
    · have hlt : (path.take q).length < ret.length := by
        rw [List.length_take]
        rw [i32] at hbig
        split_ifs at hbig <;> omega
      obtain ⟨ret₁, ret₂, hstore, hstore₂, hpre⟩ := exists_store_text (path.take q) hlt
      rw [List.length_take, min_eq_left hle] at hstore₂
      refine ⟨.ok, ret₂, ?_, fun _ => ⟨_, rfl, hlt, hpre⟩⟩
      rw [hstore, Option.bind_eq_bind, Option.bind_some, hstore₂]
      rfl

variable {path1 path2 : List Char}

theorem strncpy_eq_append (hlen : path1.length + 1 = ret.length) :
    strncpy ret 0 path1 (ret.length - 1) = some (path1 ++ [ret.getD path1.length nul]) := by
  have hcell : path1.length < ret.length := by omega
  have hdrop : ret.drop path1.length = [ret.getD path1.length nul] := by
    rw [List.getD_eq_getElem?_getD, List.getElem?_eq_getElem hcell, Option.getD_some,
      List.drop_eq_getElem_cons hcell, List.drop_eq_nil_of_le hlen.ge]
  simp [strncpy, store, ← hlen, hdrop]

theorem join_sound (hnul : nul ∉ path1)
    (hterm : path1.length + 1 = ret.length → ret.getD path1.length nul = nul) :
    ∃ r ret', pathJoin path1 path2 ret = some (r, ret') ∧
      (r = .ok ↔ ∃ text ∈ joinText path1 path2, text.length < ret.length) ∧
      ∀ text ∈ joinText path1 path2, r = .ok → text ++ [nul] <+: ret' := by
  -- there is no text, or it does not fit
  have hfail : ∀ ret', pathJoin path1 path2 ret = some (.invalidParam, ret') →
      (∀ text ∈ joinText path1 path2, ret.length ≤ text.length) → ∃ r ret',
        pathJoin path1 path2 ret = some (r, ret') ∧
        (r = .ok ↔ ∃ text ∈ joinText path1 path2, text.length < ret.length) ∧
        ∀ text ∈ joinText path1 path2, r = .ok → text ++ [nul] <+: ret' := by
    refine fun ret' hcall hlong => ⟨_, _, hcall, iff_of_false (by simp) ?_, by simp⟩
    exact fun ⟨text, htext, hlt⟩ => absurd (hlong text htext) (not_le.mpr hlt)
  by_cases hnil : path1.length ≤ 0 ∨ path2.length ≤ 0
  · refine hfail ret (by simp only [pathJoin, if_pos hnil, ite_self]) ?_
    simp only [Nat.le_zero, List.length_eq_zero_iff] at hnil
    simp [joinText, ← or_assoc, hnil]
  by_cases hlong : path1.length > ret.length - 1
  · refine hfail ret (by simp only [pathJoin, if_pos hlong, ite_self]) fun text htext => ?_
    rw [joinText] at htext
    split_ifs at htext <;> cases htext <;> simp only [List.length_append] <;> omega
  have hcopy : ∃ ret₁, strncpy ret 0 path1 (ret.length - 1) = some ret₁ ∧
      ret₁.length = ret.length ∧ path1 ++ [nul] <+: ret₁ := by
    rcases lt_or_eq_of_le (not_lt.mp hlong) with hlt | heq
    · exact exists_strncpy_zero path1 hlt (Nat.sub_le ..)
    · have hlen : path1.length + 1 = ret.length := by omega
      refine ⟨_, strncpy_eq_append hlen, by simpa using hlen, ?_⟩
      rw [hterm hlen]
  obtain ⟨ret₁, hcopy, hlen₁, hpre₁⟩ := hcopy
  have hpos : 0 < path1.length := by omega
  generalize hcall : pathJoin path1 path2 ret = call at hfail ⊢
  rw [pathJoin, if_neg (by omega), if_neg hnil, if_neg hlong, hcopy, Option.bind_eq_bind,
    Option.bind_some, cstr_of_prefix hpre₁ hnul, Option.bind_some] at hcall
  simp only [Nat.le_zero, List.length_eq_zero_iff] at hnil
  rw [joinText] at hfail ⊢
  generalize hsep : (if (!endswith path1 ['/'] && !endswith path1 ['\\']) = true then ['/'] else
    []) = sep at hcall hfail ⊢
  have hsep1 : sep.length ≤ 1 := by
    rw [← hsep]
    split_ifs <;> simp
  obtain ⟨ret₂, hstore, hpre₂, hlen₂⟩ := exists_store sep ((List.prefix_append ..).trans hpre₁)
    (show path1.length + sep.length ≤ ret₁.length by omega)
  simp only [hstore, Option.bind_some] at hcall
  by_cases hroot : path2 = ['/']
  · exact hfail ret₂ (hcall.symm.trans (if_pos hroot)) (by simp [hroot])
  have hnone : ¬ (path1 = [] ∨ path2 = [] ∨ path2 = ['/']) := by tauto
  simp only [if_neg hroot, if_neg hnone, Option.mem_some_iff, forall_eq', exists_eq_left']
    at hcall hfail ⊢
  generalize (if path2.head? = some '/' then path2.tail else path2) = p at hcall hfail ⊢
  by_cases hfull : path1.length + sep.length + p.length > ret.length - 1
  · refine hfail ret₂ (hcall.symm.trans (if_pos hfull)) ?_
    simp only [List.length_append]
    omega
  rw [if_neg hfull] at hcall
  obtain ⟨ret₃, hcopy₃, hlen₃, hpre₃⟩ := exists_strncpy p hpre₂
    (show _ + p.length ≤ _ by rw [List.length_append]; omega)
  rw [List.take_length, Nat.sub_self, List.replicate_zero, List.append_nil] at hpre₃
  obtain ⟨ret₄, hstore₄, hpre₄, -⟩ := exists_store [nul] hpre₃ (by
    simp only [List.length_append, List.length_singleton]
    omega)
  rw [List.length_append] at hcopy₃
  rw [List.length_append, List.length_append] at hstore₄
  rw [hcopy₃, Option.bind_some, hstore₄] at hcall
  refine ⟨.ok, ret₄, hcall.symm, iff_of_true rfl ?_, fun _ => hpre₄⟩
  simp only [List.length_append]
  omega

theorem join_unterminated (hnul : nul ∉ path1) (hpath2 : path2 ≠ []) (hsize : 1 < ret.length)
    (hlen : path1.length + 1 = ret.length) (hlast : ret.getD path1.length nul ≠ nul) :
    pathJoin path1 path2 ret = none := by
  have hcstr : cstr nul (path1 ++ [ret.getD path1.length nul]) = none := if_neg (by
    simpa [hnul] using hlast.symm)
  have hpos := List.length_pos_of_ne_nil hpath2
  rw [pathJoin, if_neg (by omega), if_neg (by omega), if_neg (by omega), strncpy_eq_append hlen,
    Option.bind_eq_bind, Option.bind_some, hcstr]
  rfl

variable {cursor : List Char}

def NormFits (path : List Char) (size : ℕ) : Prop :=
  path.length < size → ∀ out, normOut (normCursor path) [] = some out → out.length ≠ size

inductive PathOp
  | abspath (cur : Option CPath) (full : List Char) (hfull : full.length = MAX_PATH) (path : CPath)
  | basename (path : CPath)
  | dirname (path : CPath)
  | join (path1 path2 : CPath)
  | normpath (path : CPath)

namespace PathOp

def run : PathOp → List Char → PathCall
  | abspath cur full _ path => pathAbspath (cur.map CPath.text) full path.text
  | basename path => pathBasename path.text
  | dirname path => pathDirname path.text
  | join path1 path2 => pathJoin path1.text path2.text
  | normpath path => pathNormpath path.text

def result : PathOp → Option (List Char)
  | abspath cur _ _ path =>
    if pathIsabs path.text then some path.text
    else cur.bind fun cur => (joinText cur.text path.text).bind normText
  | basename path => baseText path.text
  | dirname path => dirText path.text
  | join path1 path2 => joinText path1.text path2.text
  | normpath path => normText path.text

def Fits (size : ℕ) : PathOp → Prop
  | abspath cur full _ path =>
    if pathIsabs path.text then path.text.length + 1 ≠ size
    else ∀ c ∈ cur,
      (path.text ≠ [] → c.text.length + 1 = MAX_PATH → full.getD c.text.length nul = nul) ∧
      ∀ text ∈ joinText c.text path.text, text.length < MAX_PATH → NormFits text size
  | basename path =>
    match scanBack path.text path.text.length with
    | none => path.text.length + 1 ≠ size
    | some pos => (path.text.drop (pos + 1)).length < size
  | dirname _ => True
  | join path1 path2 => path2.text = [] ∨ path1.text.length + 1 ≠ size
  | normpath path => NormFits path.text size

end PathOp

end Mugglec
