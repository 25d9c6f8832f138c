import Mugglec.Log.FileHandler
import Mugglec.Machinery.CBuffer

/-!
# Os/Path — paths in buffers of the caller (`os/path.c`)

Every function writes its result to `ret[0, size)`.  The buffer is the list of its `size` cells, and
a call that would read or write a cell outside is `none`; a path is its characters, an `int` having
its length (`CPath`).
-/

namespace Mugglec

open CBuffer CText

structure CPath where
  text : List Char
  nul_notMem : nul ∉ text
  length_lt : text.length < 2 ^ 31

abbrev PathCall := Option (Err × List Char)

def isSep (c : Char) : Bool := c = '/' ∨ c = '\\'

def strncpy (ret : List Char) (off : ℕ) (src : List Char) (n : ℕ) : Option (List Char) :=
  store ret off (src.take n ++ List.replicate (n - src.length) nul)

def scanBack (cells : List Char) : ℕ → Option ℕ
  | 0 => none
  | pos + 1 => if isSep (cells.getD pos nul) then some pos else scanBack cells pos

def startswith (str pre : List Char) : Bool := pre.isPrefixOf str && !(str ≠ [] ∧ pre = [])

def endswith (str suffix : List Char) : Bool := suffix.isSuffixOf str && !(str ≠ [] ∧ suffix = [])

def pathIsabs (path : List Char) : Bool :=
  match path with
  | c₀ :: c₁ :: rest =>
    c₀ = '/' ∨ ('a' ≤ c₀ ∧ c₀ ≤ 'z' ∨ 'A' ≤ c₀ ∧ c₀ ≤ 'Z') ∧ c₁ = ':' ∧ rest.head?.any isSep
  | _ => false

def pathBasename (path ret : List Char) : PathCall :=
  let size := ret.length
  if size ≤ 1 then some (.invalidParam, ret)
  else if path.length ≤ 0 then some (.invalidParam, ret)
  else
    match scanBack path path.length with
    | none =>
      if path.length > size - 1 then some (.invalidParam, ret)
      else (strncpy ret 0 path (size - 1)).map (.ok, ·)
    | some pos =>
      let len := path.length - 1 - pos
      if len ≤ 0 then some (.invalidParam, ret)
      else
        let len := if len ≥ size then size - 1 else len
        do
          let ret ← store ret 0 ((path.drop (pos + 1)).take len)
          return (.ok, ← store ret len [nul])

def pathDirname (path ret : List Char) : PathCall :=
  let size := ret.length
  if size ≤ 1 then some (.invalidParam, ret)
  else if path.length ≤ 0 then some (.invalidParam, ret)
  else
    match scanBack path path.length with
    | none => some (.invalidParam, ret)
    | some pos =>
      let pos := if pos = 0 then 1 else pos
      let pos := if pos - 1 > 0 ∧ path.getD (pos - 1) nul = ':' then pos + 1 else pos
      if (pos : ℤ) ≥ i32 size then some (.invalidParam, ret)
      else do
        let ret ← store ret 0 (path.take pos)
        return (.ok, ← store ret pos [nul])

def pathJoin (path1 path2 ret : List Char) : PathCall :=
  let maxLen := ret.length - 1
  if maxLen ≤ 0 then some (.invalidParam, ret)
  else if path1.length ≤ 0 ∨ path2.length ≤ 0 then some (.invalidParam, ret)
  else if path1.length > maxLen then some (.invalidParam, ret)
  else do
    let ret ← strncpy ret 0 path1 maxLen
    let str ← cstr nul ret
    let sep := if ! endswith str ['/'] && ! endswith str ['\\'] then ['/'] else []
    -- the looks at `*path2 == '\0'` and at `pos >= size` cannot succeed any more
    let ret ← store ret path1.length sep
    let len1 := path1.length + sep.length
    if path2 = ['/'] then return (.invalidParam, ret)
    let p := if path2.head? = some '/' then path2.tail else path2
    if len1 + p.length > maxLen then return (.invalidParam, ret)
    let ret ← strncpy ret len1 p p.length
    return (.ok, ← store ret (len1 + p.length) [nul])

def normDots (next : Char) (cells : List Char) (pos : ℕ) : Option (Option ℕ) :=
  if next ≠ nul ∧ isSep next = false then none
  else if pos = 0 ∨ (pos ≥ 3 ∧ cells.getD (pos - 3) nul = '.' ∧ cells.getD (pos - 2) nul = '.' ∧
      isSep (cells.getD (pos - 1) nul)) then some none
  else if isSep (cells.getD (pos - 1) nul) = false then none
  else if pos < 2 then none
  else some (some (match scanBack cells (pos - 1) with | some i => i + 1 | none => 0))

def normLoop (cursor : List Char) (pos : ℕ) (ret : List Char) : Option (Option ℕ × List Char) :=
  match cursor with
  | [] => some (some pos, ret)
  | c :: rest =>
    if c = '.' ∧ rest.head? = some '.' then
      let next := rest.tail.headD nul
      match normDots next ret pos with
      | none => some (none, ret)
      | some none => (store ret pos ['.', '.', next]).bind (normLoop rest.tail.tail (pos + 3))
      | some (some pos) => normLoop rest.tail.tail pos ret
    else (store ret pos [c]).bind (normLoop rest (pos + 1))
termination_by cursor.length
decreasing_by all_goals simp only [List.length_tail, List.length_cons] at *; omega

/-- Where `muggle_path_normpath` begins: behind a `./` in front. -/
def normCursor (path : List Char) : List Char :=
  if ! pathIsabs path && (startswith path ['.', '/'] || startswith path ['.', '\\']) then
    path.drop 2
  else path

/-- The end of `muggle_path_normpath`, behind its loop. -/
def normEnd (pos : Option ℕ) (ret : List Char) : PathCall :=
  match pos with
  | none => some (.invalidParam, ret)
  | some 0 =>
    if ret.length ≤ 2 then some (.invalidParam, ret)
    else (store ret 0 ['.', '/', nul]).map (.ok, ·)
  | some pos => (store ret pos [nul]).map (.ok, ·)

def pathNormpath (path ret : List Char) : PathCall :=
  if path.length ≥ ret.length then some (.invalidParam, ret)
  else (normLoop (normCursor path) 0 ret).bind fun (pos, ret) => normEnd pos ret

def pathAbspath (cur : Option (List Char)) (full path ret : List Char) : PathCall :=
  let size := ret.length
  if size ≤ 1 then some (.invalidParam, ret)
  else if pathIsabs path then
    if path.length > size - 1 then some (.invalidParam, ret)
    else (strncpy ret 0 path (size - 1)).map (.ok, ·)
  else
    match cur with
    | none => some (.sysCall, ret)
    | some cur => do
      let (r, full) ← pathJoin cur path full
      if r ≠ .ok then return (r, ret)
      pathNormpath (← cstr nul full) ret

end Mugglec
