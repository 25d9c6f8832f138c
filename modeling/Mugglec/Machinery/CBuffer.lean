import Mathlib.Tactic

/-!
# Machinery/CBuffer — strings in an array that has an end

A buffer is the list of its cells.  Writing is partial: `store` is `none` as soon as a cell outside
would be written, and so is `cstr`, which reads up to the terminator, if there is none.  A buffer
holds a text if the text and a terminator are a prefix of it.
-/

namespace CBuffer

variable {α : Type*}

def store (buf : List α) (off : ℕ) (bs : List α) : Option (List α) :=
  if off + bs.length ≤ buf.length then
    some (buf.take off ++ bs ++ buf.drop (off + bs.length))
  else none

variable {buf pre bs text : List α}

theorem store_eq_none {off : ℕ} (h : buf.length < off + bs.length) : store buf off bs = none :=
  if_neg (not_le.mpr h)

theorem exists_store (bs : List α) (hpre : pre <+: buf) (h : pre.length + bs.length ≤ buf.length) :
    ∃ buf', store buf pre.length bs = some buf' ∧ pre ++ bs <+: buf' ∧
      buf'.length = buf.length := by
  refine ⟨_, if_pos h, ?_, ?_⟩
  · rw [← List.prefix_iff_eq_take.mp hpre]
    exact List.prefix_append ..
  · simp only [List.length_append, List.length_take, List.length_drop]
    omega

theorem exists_store_zero (bs : List α) (h : bs.length ≤ buf.length) :
    ∃ buf', store buf 0 bs = some buf' ∧ bs <+: buf' ∧ buf'.length = buf.length :=
  exists_store bs List.nil_prefix (by simpa using h)

variable [DecidableEq α] {nul : α}

def cstr (nul : α) (buf : List α) : Option (List α) :=
  if nul ∈ buf then some (buf.takeWhile (· ≠ nul)) else none

theorem cstr_of_prefix (h : text ++ [nul] <+: buf) (hnul : nul ∉ text) :
    cstr nul buf = some text := by
  obtain ⟨rest, rfl⟩ := h
  have htext : ∀ c ∈ text, decide (c ≠ nul) = true := fun c hc => by
    simpa using ne_of_mem_of_not_mem hc hnul
  rw [cstr, if_pos (by simp), List.append_assoc, List.takeWhile_append_of_pos htext]
  simp

end CBuffer
