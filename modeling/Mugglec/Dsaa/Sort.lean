import Mugglec.Dsaa.Heap

/-!
# Dsaa/Sort — the sorting functions (`dsaa/sort.c`)

All of them sort an array of pointers in place with a comparison function.  Insertion and shell sort
shift elements to the right of a hole, merge sort merges two halves into a buffer, quick sort
partitions around a median of three, and heap sort fills a heap and empties it.
-/

namespace Mugglec

inductive SortFault
  | access (idx : ℕ)
  | unset
  | bound
deriving DecidableEq, Repr

def u64 (x : ℕ) : ℕ := x % 2 ^ 64

def usub (x y : ℕ) : ℕ := (x + (2 ^ 64 - y % 2 ^ 64)) % 2 ^ 64

/-- An array of pointers: its size in bytes is a `size_t`. -/
structure PtrArray (α : Type) where
  elems : List α
  fits : 8 * elems.length < 2 ^ 64

namespace Sorting

variable {α : Type}

def load (ptr : List α) (idx : ℕ) : Except SortFault α :=
  match ptr[idx]? with
  | some x => .ok x
  | none => .error (.access idx)

def store (ptr : List α) (idx : ℕ) (x : α) : Except SortFault (List α) :=
  if idx < ptr.length then .ok (ptr.set idx x) else .error (.access idx)

def swap (ptr : List α) (i j : ℕ) : Except SortFault (List α) := do
  let tmp ← load ptr i
  let ptr ← store ptr i (← load ptr j)
  store ptr j tmp

variable (cmp : α → α → ℤ)

def insertionShift (base : ℕ) (tmp : α) : ℕ → List α → Except SortFault (ℕ × List α)
  | 0, ptr => .ok (0, ptr)
  | j + 1, ptr => do
    let prev ← load ptr (base + j)
    if cmp prev tmp > 0 then
      insertionShift base tmp j (← store ptr (base + (j + 1)) prev)
    else return (j + 1, ptr)

def insertionRound (base : ℕ) (ptr : List α) (i : ℕ) : Except SortFault (List α) := do
  let tmp ← load ptr (base + i)
  let (j, ptr) ← insertionShift cmp base tmp i ptr
  store ptr (base + j) tmp

/-- `muggle_insertion_sort` on `ptr + base`. -/
def insertionSort (base : ℕ) (ptr : List α) (count : ℕ) : Except SortFault (List α) :=
  (List.range' 1 (count - 1)).foldlM (insertionRound cmp base) ptr

/-- The inner loop of `muggle_shell_sort`: where the hole stops. -/
def shellShift (increment : ℕ) (tmp : α) : ℕ → ℕ → List α → Except SortFault (ℕ × List α)
  | 0, _, _ => .error .bound
  | n + 1, j, ptr =>
    if j ≥ increment then do
      let prev ← load ptr (j - increment)
      if cmp tmp prev < 0 then
        shellShift increment tmp n (j - increment) (← store ptr j prev)
      else return (j, ptr)
    else .ok (j, ptr)

def shellRound (increment : ℕ) (ptr : List α) (i : ℕ) : Except SortFault (List α) := do
  let tmp ← load ptr i
  let (j, ptr) ← shellShift cmp increment tmp (i + 1) i ptr
  store ptr j tmp

def shellPass (count increment : ℕ) (ptr : List α) : Except SortFault (List α) :=
  (List.range' increment (count - increment)).foldlM (shellRound cmp increment) ptr

def shellLoop (count : ℕ) : ℕ → ℕ → List α → Except SortFault (List α)
  | 0, _, _ => .error .bound
  | n + 1, increment, ptr =>
    if increment > 0 then do
      shellLoop count n (increment / 2) (← shellPass cmp count increment ptr)
    else .ok ptr

def shellSort (ptr : List α) : Except SortFault (List α) :=
  shellLoop cmp ptr.length (ptr.length + 1) (ptr.length / 2) ptr

structure Merge (α : Type) where
  l : ℕ
  r : ℕ
  idx : ℕ
  arr : List (Option α)

def takeLeft (ptr : List α) (m : Merge α) : Except SortFault (Merge α) := do
  let x ← load ptr m.l
  let arr ← store m.arr m.idx (some x)
  return { m with l := m.l + 1, idx := m.idx + 1, arr := arr }

def takeRight (ptr : List α) (m : Merge α) : Except SortFault (Merge α) := do
  let x ← load ptr m.r
  let arr ← store m.arr m.idx (some x)
  return { m with r := m.r + 1, idx := m.idx + 1, arr := arr }

def mergeLoop (ptr : List α) (center right : ℕ) : ℕ → Merge α → Except SortFault (Merge α)
  | 0, _ => .error .bound
  | n + 1, m =>
    if m.l ≤ center ∧ m.r ≤ right then do
      let x ← load ptr m.l
      let y ← load ptr m.r
      if cmp x y ≤ 0 then mergeLoop ptr center right n (← takeLeft ptr m)
      else mergeLoop ptr center right n (← takeRight ptr m)
    else .ok m

def drainLeft (ptr : List α) (center : ℕ) : ℕ → Merge α → Except SortFault (Merge α)
  | 0, _ => .error .bound
  | n + 1, m => if m.l ≤ center then do drainLeft ptr center n (← takeLeft ptr m) else .ok m

def drainRight (ptr : List α) (right : ℕ) : ℕ → Merge α → Except SortFault (Merge α)
  | 0, _ => .error .bound
  | n + 1, m => if m.r ≤ right then do drainRight ptr right n (← takeRight ptr m) else .ok m

def copyBack (arr : List (Option α)) (right : ℕ) : ℕ → ℕ → List α → Except SortFault (List α)
  | 0, _, _ => .error .bound
  | n + 1, idx, ptr =>
    if idx ≤ right then do
      match ← load arr idx with
      | none => .error .unset
      | some x => copyBack arr right n (idx + 1) (← store ptr idx x)
    else .ok ptr

def mergeSortRecursive : ℕ → ℕ → ℕ → List α × List (Option α) →
    Except SortFault (List α × List (Option α))
  | 0, _, _, _ => .error .bound
  | depth + 1, left, right, s =>
    if left < right then do
      let center := u64 (left + right) / 2
      let s ← mergeSortRecursive depth left center s
      let s ← mergeSortRecursive depth (center + 1) right s
      -- a round accesses an element that no earlier one has
      let rounds := 2 * s.1.length + 1
      let m ← mergeLoop cmp s.1 center right rounds ⟨left, center + 1, left, s.2⟩
      let m ← drainLeft s.1 center rounds m
      let m ← drainRight s.1 right rounds m
      let ptr ← copyBack m.arr right rounds left s.1
      return (ptr, m.arr)
    else .ok s

def mergeSort (mem : Bool) (depth : ℕ) (ptr : List α) : Except SortFault (Bool × List α) :=
  if ! mem then .ok (false, ptr)
  else do
    let arr : List (Option α) := List.replicate (u64 (8 * ptr.length) / 8) none
    let s ← mergeSortRecursive cmp depth 0 (usub ptr.length 1) (ptr, arr)
    return (true, s.1)

def order (ptr : List α) (i j : ℕ) : Except SortFault (List α) := do
  let x ← load ptr i
  let y ← load ptr j
  if cmp x y > 0 then swap ptr i j else return ptr

def median3 (ptr : List α) (left right : ℕ) : Except SortFault (α × List α) := do
  let center := u64 (left + right) / 2
  let ptr ← order cmp ptr left center
  let ptr ← order cmp ptr left right
  let ptr ← order cmp ptr center right
  let ptr ← swap ptr center (usub right 1)
  return (← load ptr (usub right 1), ptr)

def scanUp (pivot : α) (ptr : List α) : ℕ → ℕ → Except SortFault ℕ
  | 0, _ => .error .bound
  | n + 1, i => do
    let x ← load ptr (i + 1)
    if cmp x pivot < 0 then scanUp pivot ptr n (i + 1) else return i + 1

def scanDown (pivot : α) (ptr : List α) : ℕ → ℕ → Except SortFault ℕ
  | 0, _ => .error .bound
  | n + 1, j => do
    let x ← load ptr (usub j 1)
    if cmp x pivot > 0 then scanDown pivot ptr n (usub j 1) else return usub j 1

structure ScanStop where
  left : ℕ
  right : ℕ
  i : ℕ
  j : ℕ
deriving DecidableEq, Repr

def partition (pivot : α) (left right : ℕ) :
    ℕ → ℕ → ℕ → List α → Except SortFault (ℕ × List α × List ScanStop)
  | 0, _, _, _ => .error .bound
  | n + 1, i, j, ptr => do
    let i ← scanUp cmp pivot ptr (ptr.length + 1) i
    let j ← scanDown cmp pivot ptr (ptr.length + 1) j
    if i < j then
      let ptr ← swap ptr i j
      let (k, ptr, stops) ← partition pivot left right n i j ptr
      return (k, ptr, ⟨left, right, i, j⟩ :: stops)
    else return (i, ptr, [⟨left, right, i, j⟩])

def QUICK_SORT_CUTOFF : ℕ := 10

def quickSortRecursive : ℕ → ℕ → ℕ → List α → Except SortFault (List α × List ScanStop)
  | 0, _, _, _ => .error .bound
  | depth + 1, left, right, ptr =>
    if u64 (left + QUICK_SORT_CUTOFF) ≤ right then do
      let (pivot, ptr) ← median3 cmp ptr left right
      let (i, ptr, stops) ← partition cmp pivot left right (ptr.length + 1) left (usub right 1) ptr
      -- restore pivot
      let ptr ← swap ptr i (usub right 1)
      let (ptr, stops₁) ← quickSortRecursive depth left (usub i 1) ptr
      let (ptr, stops₂) ← quickSortRecursive depth (i + 1) right ptr
      return (ptr, stops ++ stops₁ ++ stops₂)
    else do
      return (← insertionSort cmp left ptr (usub (u64 (right + 1)) left), [])

def quickSort (depth : ℕ) (ptr : List α) : Except SortFault (List α × List ScanStop) :=
  quickSortRecursive cmp depth 0 (usub ptr.length 1) ptr

section HeapSort

variable {K : Type} (cmp : Option K → Option K → ℤ)

def onHeap {β : Type} (r : Option β) : Except SortFault β :=
  match r with
  | some b => .ok b
  | none => .error .unset

def heapFill (mem : ℕ → Bool) (ptr : List (Option K)) (H : Heap K Unit) (i : ℕ) :
    Except SortFault (Heap K Unit) := do
  let (_, H) ← onHeap (H.insert cmp (← load ptr i) none (mem i))
  return H

structure Drain (K : Type) where
  heap : Heap K Unit
  node : Option (Option K × Option Unit)
  ptr : List (Option K)

def heapDrain (s : Drain K) (i : ℕ) : Except SortFault (Drain K) := do
  let (res, H) ← onHeap (s.heap.extract cmp)
  match res.or s.node with
  | none => .error .unset
  | some node => return ⟨H, some node, ← store s.ptr i node.1⟩

def heapSort (mem : ℕ → Bool) (ptr : List (Option K)) : Except SortFault (Bool × List (Option K)) :=
  match Heap.init true (u32 (u32 ptr.length + 1)) (mem 0) with
  | none => .ok (false, ptr)
  | some H => do
    let H ← (List.range ptr.length).foldlM (heapFill cmp (fun i => mem (i + 1)) ptr) H
    let s ← (List.range ptr.length).foldlM (heapDrain cmp) ⟨H, none, ptr⟩
    -- `muggle_heap_destroy`
    let _ ← onHeap (s.heap.clear false false)
    return (true, s.ptr)

end HeapSort

end Sorting

end Mugglec
