import Mugglec.Sync.ShmRingFifo

/-!
# Sync/ShmRingMark — the mark and the records share one header

The reader takes a header with `n_bytes` zero for the mark and goes back to line 0.  A ring with a
record of where the writer last left the tail (`ShmMarked`) can say whether it is right.
-/

namespace Mugglec

open Steps

structure ShmMarked extends ShmState where
  abandoned : Option ℕ

namespace ShmMarked

def next (m : ShmMarked) (a : ShmStep) : Option ShmMarked :=
  (m.toShmState.next a).map fun s => ⟨s, m.markAfter a m.abandoned⟩

def start (nCacheline : ℕ) (data : ℤ → UInt8) : ShmMarked := ⟨.start nCacheline data, none⟩

def Unambiguous (m : ShmMarked) : Prop :=
  m.reader = .reset → m.abandoned = some m.readCursor ∧
    ∀ rec ∈ m.unread, m.readCursor < rec.pos ∨ rec.pos + rec.lines ≤ m.readCursor

variable {m m' : ShmMarked}

theorem inv_next {a : ShmStep} (h : m.Inv m.abandoned) (hok : m.Guarded a)
    (hnext : m.next a = some m') : m'.Inv m'.abandoned := by
  obtain ⟨s, hs, rfl⟩ := Option.map_eq_some_iff.mp hnext
  exact h.step hok hs

theorem unambiguous_of_inv (h : m.Inv m.abandoned) : m.Unambiguous := by
  intro hpc
  have hok := h.reader
  rw [hpc] at hok
  obtain ⟨hmark, -⟩ := hok
  refine ⟨hmark, fun rec hrec => .inr ?_⟩
  have hlayout := h.layout
  rw [hmark] at hlayout
  obtain ⟨-, -, hlt, old, new, hrecs, hold, hnew⟩ := hlayout
  rw [hold.eq_nil, List.nil_append] at hrecs
  exact (hnew.bounds (hrecs ▸ hrec)).2.trans hlt.le

/-- **The mark is unambiguous** in every interleaving of guarded steps. -/
theorem unambiguous_of_reach {k : ℕ} (hk : k ≤ 31) {data : ℤ → UInt8}
    (hs : Reach next (fun m a => m.Guarded a) (start (2 ^ k) data) m) : m.Unambiguous := by
  have hsize : 2 ^ k ≤ 2 ^ 31 := Nat.pow_le_pow_right (by omega) hk
  have hstart : (start (2 ^ k) data).Inv (start (2 ^ k) data).abandoned :=
    ShmState.inv_start (Nat.two_pow_pos k) hsize data
  exact unambiguous_of_inv (hs.invariant (P := fun m => m.Inv m.abandoned) hstart
    fun _ _ _ => inv_next)

def followRound : List ShmStep := ShmState.roundLap.take 31

theorem unambiguous_followRound : ∃ m : ShmMarked,
    (m.reader, m.readCursor, m.abandoned) = (.reset, 6, some 6) ∧ m.Unambiguous := by
  exact exists_of_execWhen (start (2 ^ 3) fun _ => 0) followRound (by decide) fun _ hm _ =>
    unambiguous_of_reach (by decide) hm

def emptyMessage : List ShmStep :=
  [.allocBytes 1, .writer, .writer, .wMove, .rFetch, .reader, .reader, .rMove, .reader,
    .allocBytes 0, .writer, .writer, .wMove, .rFetch, .reader]

theorem ambiguous_emptyMessage : ∃ m : ShmMarked,
    exec next (start (2 ^ 3) fun _ => 0) emptyMessage = some m ∧
      (m.reader, m.readCursor, m.abandoned) = (.reset, 3, none) ∧
      m.unread.map ShmRecord.pos = [3] ∧ ¬ m.Unambiguous := by
  obtain ⟨m, hm, hplace, hunread, hreader, hnone⟩ : ∃ m,
      exec next (start (2 ^ 3) fun _ => 0) emptyMessage = some m ∧
      (m.reader, m.readCursor, m.abandoned) = (.reset, 3, none) ∧
      m.unread.map ShmRecord.pos = [3] ∧ m.reader = .reset ∧ m.abandoned = none := by
    decide +kernel
  refine ⟨m, hm, hplace, hunread, fun h => ?_⟩
  exact nomatch hnone.symm.trans (h hreader).1

end ShmMarked

end Mugglec
