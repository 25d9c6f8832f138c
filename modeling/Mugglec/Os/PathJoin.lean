import Mugglec.Os.PathBuffer

/-!
# Os/PathJoin — a path is its directory and its name

`dirname` leaves the last separator out, or keeps it where it is the root's, alone or behind a
drive; `join` adds one where there is none.
-/

namespace Mugglec

open CBuffer CText

theorem endswith_concat (s : List Char) (c d : Char) :
    endswith (s ++ [c]) [d] = (d == c) := by
  simp [endswith, List.isSuffixOf, List.isPrefixOf]

theorem exists_last_slash {path : List Char} (h : '/' ∈ path) (hback : '\\' ∉ path) :
    ∃ dir name, path = dir ++ '/' :: name ∧ ∀ c ∈ name, isSep c = false := by
  obtain ⟨as, bs, hrev, hnot⟩ := List.eq_append_cons_of_mem (List.mem_reverse.mpr h)
  have hpath : path = bs.reverse ++ '/' :: as.reverse := by
    rw [← List.reverse_reverse path, hrev]
    simp
  refine ⟨bs.reverse, as.reverse, hpath, fun c hc => ?_⟩
  have hne : c ≠ '/' := fun h => hnot (h ▸ List.mem_reverse.mp hc)
  have hne' : c ≠ '\\' := fun h => hback (h ▸ hpath ▸ by simp [List.mem_reverse.mp hc])
  simp [isSep, hne, hne']

theorem scanBack_slash {dir name : List Char} (hname : ∀ c ∈ name, isSep c = false) :
    scanBack (dir ++ '/' :: name) (dir ++ '/' :: name).length = some dir.length := by
  rw [List.append_cons, scanBack_append hname, List.length_append]
  exact scanBack_concat dir (by decide)

theorem joinText_of_name {d name : List Char} (hd : d ≠ []) (hne : name ≠ [])
    (hname : ∀ c ∈ name, isSep c = false) : joinText d name =
      some (d ++ (if ! endswith d ['/'] && ! endswith d ['\\'] then ['/'] else []) ++ name) := by
  have hslash : '/' ∉ name := fun h => by
    have := hname _ h
    revert this
    decide
  have hroot : name ≠ ['/'] := fun h => hslash (by simp [h])
  have hhead : name.head? ≠ some '/' := fun h => hslash (List.mem_of_mem_head? h)
  rw [joinText, if_neg (by simp [hd, hne, hroot]), if_neg hhead]

theorem joinText_dirText {dir name : List Char} (hname : ∀ c ∈ name, isSep c = false)
    (hne : name ≠ []) (hback : '\\' ∉ dir) (hdouble : ¬ ['/', '/'] <:+: dir ++ '/' :: name) :
    ∃ d, d ≠ [] ∧ dirText (dir ++ '/' :: name) = some d ∧
      joinText d name = some (dir ++ '/' :: name) := by
  have hpath : dir ++ '/' :: name = dir ++ ['/'] ++ name := by simp
  rw [dirText, scanBack_slash hname, Option.map_some]
  -- with the separator it is the root
  have hroot : ∀ d, d = dir ++ ['/'] → joinText d name = some (dir ++ '/' :: name) := by
    rintro d rfl
    rw [joinText_of_name (by simp) hne hname, endswith_concat, hpath]
    simp
  rcases List.eq_nil_or_concat' dir with rfl | ⟨u, c, rfl⟩
  · exact ⟨['/'], by simp, by simp, hroot _ rfl⟩
  have hc : c ≠ '/' := by
    rintro rfl
    exact hdouble ⟨u, name, by simp⟩
  have hc' : c ≠ '\\' := fun h => hback (by simp [h])
  have hlast : (u ++ [c] ++ '/' :: name).getD u.length nul = c := by simp
  simp only [hlast, List.length_append, List.length_singleton, Nat.add_eq_zero_iff,
    one_ne_zero, and_false, if_false, Nat.add_sub_cancel]
  by_cases hdrive : u.length > 0 ∧ c = ':'
  · refine ⟨u ++ [c] ++ ['/'], by simp, ?_, hroot _ rfl⟩
    rw [if_pos hdrive, hpath, List.take_left' (by simp)]
  · refine ⟨u ++ [c], by simp, ?_, ?_⟩
    · rw [if_neg hdrive, List.take_left' (by simp)]
    · rw [joinText_of_name (by simp) hne hname, endswith_concat, endswith_concat]
      simp [hc.symm, hc'.symm]

theorem join_eq_ok {path1 path2 ret ret' : List Char} (hnul : nul ∉ path1)
    (h : pathJoin path1 path2 ret = some (.ok, ret')) :
    ∃ text ∈ joinText path1 path2, text.length < ret.length ∧ text ++ [nul] <+: ret' := by
  by_cases hterm : path1.length + 1 = ret.length → ret.getD path1.length nul = nul
  · obtain ⟨r, ret₂, hcall, hok, hpre⟩ := join_sound hnul hterm
    cases h.symm.trans hcall
    obtain ⟨text, htext, hlt⟩ := hok.mp rfl
    exact ⟨text, htext, hlt, hpre text htext rfl⟩
  -- otherwise the call does not even come back
  push Not at hterm
  by_cases hfail : ret.length ≤ 1 ∨ path2 = []
  · rcases hfail with hfail | rfl <;> simp_all [pathJoin]
  · push Not at hfail
    rw [join_unterminated hnul hfail.2 hfail.1 hterm.1 hterm.2] at h
    cases h

/-- **The directory and the name of a path, joined again, are the path**, if the calls succeed. -/
theorem join_dirname_basename (path : CPath) (hslash : '/' ∈ path.text) (hback : '\\' ∉ path.text)
    (hdouble : ¬ ['/', '/'] <:+: path.text) (hend : path.text.getLast? ≠ some '/')
    {d d' b b' : List Char} (hsize : d.length < 2 ^ 32)
    (hdir : pathDirname path.text d = some (.ok, d'))
    (hbase : pathBasename path.text b = some (.ok, b')) :
    ∃ dir base, cstr nul d' = some dir ∧ cstr nul b' = some base ∧
      ∀ j j', j.length ≤ b.length → pathJoin dir base j = some (.ok, j') →
        cstr nul j' = some path.text := by
  obtain ⟨dir, name, hpath, hname⟩ := exists_last_slash hslash hback
  have hne : name ≠ [] := fun h => hend (by simp [hpath, h])
  have hnul := path.nul_notMem
  rw [hpath] at hback hdouble hdir hbase hnul ⊢
  obtain ⟨d₀, hd₀, hdirText, hjoin⟩ := joinText_dirText hname hne
    (fun h => hback (List.mem_append_left _ h)) hdouble
  have hnul₀ : nul ∉ d₀ := by
    rw [dirText, Option.map_eq_some_iff] at hdirText
    obtain ⟨_, _, rfl⟩ := hdirText
    exact fun h => hnul (List.mem_of_mem_take h)
  have hdrop : (dir ++ '/' :: name).drop (dir.length + 1) = name := by
    rw [List.append_cons]
    exact List.drop_left' (by simp)
  have hb : 1 < b.length := by
    by_contra hle
    simp [pathBasename, not_lt.mp hle] at hbase
  obtain ⟨r, d₁, hcall, hok⟩ := dirname_sound _ hsize d rfl
  cases hdir.symm.trans hcall
  obtain ⟨text, htext, -, hpre⟩ := hok rfl
  cases hdirText.symm.trans htext
  obtain ⟨b₁, hcall', hpre'⟩ := basename_cut (scanBack_slash hname) (hdrop.symm ▸ hne) hb
  cases hbase.symm.trans hcall'
  rw [hdrop] at hpre'
  refine ⟨d₀, name.take (b.length - 1), cstr_of_prefix hpre hnul₀, cstr_of_prefix hpre' ?_, ?_⟩
  · exact fun h => hnul (by simp [List.mem_of_mem_take h])
  intro j j' hle hj
  obtain ⟨text, htext, hlt, hprej⟩ := join_eq_ok hnul₀ hj
  have hcut : name.take (b.length - 1) = name := by
    rw [joinText_of_name hd₀ (by simp [hne]; omega) fun c hc => hname c (List.mem_of_mem_take hc),
      Option.mem_some_iff] at htext
    have hlen := List.length_pos_of_ne_nil hd₀
    subst htext
    simp only [List.length_append, List.length_take] at hlt
    exact List.take_of_length_le (by omega)
  rw [hcut, hjoin] at htext
  cases htext
  exact cstr_of_prefix hprej hnul

theorem join_dirname_basename_drive :
    ∃ dir base, cstr nul ['c', ':', '/', nul, 'x', 'x'] = some dir ∧
      cstr nul ['b', nul, 'x', 'x', 'x', 'x'] = some base ∧
      ∀ j j', j.length ≤ 6 → pathJoin dir base j = some (.ok, j') →
        cstr nul j' = some ['c', ':', '/', 'b'] :=
  join_dirname_basename ⟨['c', ':', '/', 'b'], by decide, by decide⟩ (by decide) (by decide)
    (by decide) (by decide) (show (List.replicate 6 'x').length < 2 ^ 32 by decide)
    (by decide) (show pathBasename _ (List.replicate 6 'x') = _ by decide)

end Mugglec
