import Mugglec.Dsaa.AvlTreeRotate

/-!
# Dsaa/AvlTreeRetrace — retracing restores the balances

After a leaf was added or erased, one subtree has another height than the balances on the path above
it say.  The retracing loops walk up that path.  Each round corrects the balance of one node and
knows, from the corrected value, whether the node's own height is the old one.
-/

namespace Mugglec

open LinkedTree OwnedHeap AvlLinks

variable {A K V : Type} {L : AvlLinks A K V} {s t : Shape A (AvlData K V)}
  {f : Frame A (AvlData K V)} {fs : List (Frame A (AvlData K V))} {n rounds : ℕ}

theorem pairs_setBalance (b : ℤ) :
    pairs (plug ({ f with data := f.data.setBalance b } :: fs) t) = pairs (plug (f :: fs) t) := by
  rw [plug_cons, plug_cons]
  refine pairs_plug_congr ?_
  obtain ⟨side, a, d, sib⟩ := f
  cases side <;> simp [Frame.fill, pairs, Shape.join, Shape.inorder, pair_setBalance]

theorem PathBalanced.correct (hpath : PathBalanced (f :: fs) n) {m : ℕ} {b : ℤ}
    (hb : b = f.side.sign * (m - f.sib.height)) (hlo : -1 ≤ b) (hhi : b ≤ 1)
    (hsame : max f.sib.height m = max f.sib.height n) :
    PathBalanced ({ f with data := f.data.setBalance b } :: fs) m := by
  obtain ⟨-, -, -, hsib, hrest⟩ := hpath
  refine ⟨hb, hlo, hhi, hsib, ?_⟩
  rwa [hsame]

theorem balanced_fill {b : ℤ} (hb : b = f.side.sign * (s.height - f.sib.height)) (hlo : -1 ≤ b)
    (hhi : b ≤ 1) (hsib : Balanced f.sib) (hs : Balanced s) :
    Balanced (Frame.fill { f with data := f.data.setBalance b } s) :=
  balanced_join.mpr ⟨hb, hlo, hhi, hsib, hs⟩

variable [DecidableEq A]

theorem sideUnder_holds {root : Option A} {h : A → Option (Cell A (AvlData K V))}
    (hH : Holds ⟨root, h⟩ (plug (f :: fs) s)) (side : Side) :
    ∃ side', sideUnder h (top none fs) f.addr side = some side' ∧
      ∀ g ∈ fs.head?, side' = g.side := by
  cases fs with
  | nil => exact ⟨side, rfl, fun g hg => absurd hg (by simp)⟩
  | cons g fs =>
    obtain ⟨c, hc, hg⟩ := hH.read_parent
    refine ⟨g.side, ?_, fun g' hg' => by rw [Option.mem_some.mp hg']⟩
    simp only at hc
    rw [top, sideUnder, hc, Option.map_some, hg]

theorem insertRetrace_holds (hL : Holds L (plug (f :: fs) s)) (hpath : PathBalanced (f :: fs) n)
    (hs : Balanced s) (hgrown : s.height = n + 1) (huneven : n = 0 ∨ rootBalance s ≠ 0)
    (hrounds : fs.length < rounds) :
    ∃ L' t', insertRetrace rounds L f.addr f.side = some L' ∧ Holds L' t' ∧ Balanced t' ∧
      pairs t' = pairs (plug (f :: fs) s) := by
  induction rounds generalizing f fs L s n with
  | zero => exact absurd hrounds (Nat.not_lt_zero _)
  | succ rounds ih =>
    obtain ⟨h, heq, hcell, hH⟩ := hL.modify_top fun d => d.setBalance (d.balance + f.side.sign)
    obtain ⟨hbal, hlo, hhi, hsib, hrest⟩ := id hpath
    -- the corrected balance is the difference of height
    obtain ⟨b, hb⟩ : ∃ b, b = f.data.balance + f.side.sign := ⟨_, rfl⟩
    have hnew : b = f.side.sign * (s.height - f.sib.height) := by
      rw [hb, hbal, hgrown]
      push_cast
      ring
    rw [← hb] at hcell hH
    simp only [insertRetrace, heq, hcell, Option.bind_eq_bind, Option.bind_some, Cell.facing_data,
      Cell.facing_parent, Option.pure_def, balance_setBalance]
    have hnew' := f.side.sign_mul (s.height - f.sib.height)
    have hbal' := f.side.sign_mul (n - f.sib.height)
    by_cases hzero : b = 0
    · -- the other subtree was higher: the height is the old one
      have hsame : max f.sib.height s.height = max f.sib.height n := by omega
      rw [if_pos hzero]
      exact ⟨_, _, rfl, hH, balanced_plug.mpr ⟨hs, hpath.correct hnew (by omega) (by omega) hsame⟩,
        pairs_setBalance b⟩
    rw [if_neg hzero]
    by_cases hone : b = 1 ∨ b = -1
    · -- the subtrees were even: this one has grown, too
      rw [if_pos hone]
      have heven : f.sib.height = n := by omega
      have hfill := balanced_fill hnew (by omega) (by omega) hsib hs
      rw [← pairs_setBalance b]
      cases fs with
      | nil => exact ⟨_, _, rfl, hH, hfill, rfl⟩
      | cons g fs =>
        obtain ⟨c, hc, hside⟩ := hH.read_parent
        rw [top]
        simp only at hc hside ⊢
        rw [hc, Option.bind_some, hside]
        have hheight : max f.sib.height n + 1 = n + 1 := by omega
        rw [hheight] at hrest
        refine ih hH hrest hfill ?_ (.inr ?_) ?_
        · rw [Frame.fill, Shape.height_join]
          change max f.sib.height s.height + 1 = _
          omega
        · rwa [Frame.fill, rootBalance_join, balance_setBalance]
        · exact Nat.lt_of_succ_lt_succ hrounds
    · rw [if_neg hone]
      have hhigh : s.height = f.sib.height + 2 := by omega
      have htwo : (f.data.setBalance b).balance = 2 * f.side.sign := by
        rw [balance_setBalance, hnew, hhigh]
        push_cast
        ring
      have hguard : b = 2 ∨ b = -2 := by omega
      obtain ⟨decrease, L', t', heq', hL', hbal', hpairs, hheight, hdec⟩ :=
        rebalance_holds hH htwo hsib hs hhigh
      have hdecrease : decrease = true := hdec (huneven.resolve_left (by omega))
      simp only [guard, if_pos hguard, Option.pure_def, Option.bind_some, heq']
      refine ⟨L', _, rfl, hL', balanced_plug.mpr ⟨hbal', ?_⟩, ?_⟩
      · -- the rotation takes back what the subtree has grown
        have hsame : t'.height = max f.sib.height n + 1 := by
          rw [hheight, hdecrease, if_pos rfl]
          omega
        rwa [hsame]
      · rw [pairs_plug_congr hpairs]
        exact pairs_setBalance b

theorem removeRetrace_holds {side : Side} (hL : Holds L (plug fs s))
    (hpath : PathBalanced fs (n + 1)) (hs : Balanced s) (hshrunk : s.height = n)
    (hside : ∀ f ∈ fs.head?, side = f.side) (hrounds : fs.length < rounds) :
    ∃ L' t', removeRetrace rounds L (top none fs) side = some L' ∧ Holds L' t' ∧ Balanced t' ∧
      pairs t' = pairs (plug fs s) := by
  induction rounds generalizing fs L s n side with
  | zero => exact absurd hrounds (Nat.not_lt_zero _)
  | succ rounds ih =>
    cases fs with
    | nil => exact ⟨L, s, rfl, hL, hs, rfl⟩
    | cons f fs =>
      obtain rfl : side = f.side := hside f rfl
      obtain ⟨h, heq, hcell, hH⟩ := hL.modify_top fun d => d.setBalance (d.balance - f.side.sign)
      obtain ⟨hbal, hlo, hhi, hsib, hrest⟩ := id hpath
      obtain ⟨b, hb⟩ : ∃ b, b = f.data.balance - f.side.sign := ⟨_, rfl⟩
      have hnew : b = f.side.sign * (s.height - f.sib.height) := by
        rw [hb, hbal, hshrunk]
        push_cast
        ring
      rw [← hb] at hcell hH
      rw [top]
      simp only [removeRetrace, heq, hcell, Option.bind_eq_bind, Option.bind_some, Cell.facing_data,
        Cell.facing_parent, Option.pure_def, balance_setBalance]
      have hnew' := f.side.sign_mul (s.height - f.sib.height)
      have hbal' := f.side.sign_mul (↑(n + 1) - f.sib.height)
      by_cases hone : b = 1 ∨ b = -1
      · -- the subtrees were even: the height is the old one
        have hsame : max f.sib.height s.height = max f.sib.height (n + 1) := by omega
        rw [if_pos hone]
        exact ⟨_, _, rfl, hH,
          balanced_plug.mpr ⟨hs, hpath.correct hnew (by omega) (by omega) hsame⟩,
          pairs_setBalance b⟩
      rw [if_neg hone, ← pairs_setBalance b]
      by_cases hzero : b = 0
      · -- this one was higher: the node has shrunk, too
        rw [if_pos hzero]
        have hfill := balanced_fill hnew (by omega) (by omega) hsib hs
        cases fs with
        | nil => exact ⟨_, _, rfl, hH, hfill, rfl⟩
        | cons g fs =>
          obtain ⟨c, hc, hg⟩ := hH.read_parent
          rw [top]
          simp only at hc hg ⊢
          rw [hc, Option.bind_some, hg]
          have hheight : max f.sib.height (n + 1) + 1 = n + 1 + 1 := by omega
          rw [hheight] at hrest
          rw [plug_cons] at hH ⊢
          refine ih hH hrest hfill ?_ (fun g' hg' => by rw [Option.mem_some.mp hg']) ?_
          · rw [Frame.fill, Shape.height_join]
            change max f.sib.height s.height + 1 = _
            omega
          · exact Nat.lt_of_succ_lt_succ hrounds
      · rw [if_neg hzero]
        -- the other subtree is higher by two
        have hhigh : f.sib.height = s.height + 2 := by omega
        have htwo : (f.data.setBalance b).balance = 2 * f.side.other.sign := by
          rw [balance_setBalance, hnew, hhigh, Side.sign_other]
          push_cast
          ring
        have hguard : b = 2 ∨ b = -2 := by omega
        obtain ⟨side, hunder, hside⟩ := sideUnder_holds hH f.side
        rw [plug_cons, Frame.fill, ← Shape.join_other] at hH ⊢
        obtain ⟨decrease, L', t', heq', hL', hbal', hpairs, hheight, -⟩ :=
          rebalance_holds hH htwo hs hsib hhigh
        simp only [guard, if_pos hguard, Option.pure_def, Option.bind_some, hunder, heq']
        rw [← pairs_plug_congr hpairs]
        have hold : max f.sib.height (n + 1) + 1 = f.sib.height + 1 := by omega
        rw [hold] at hrest
        cases decrease with
        | true => exact ih hL' hrest hbal' hheight hside (Nat.lt_of_succ_lt_succ hrounds)
        | false => exact ⟨L', _, rfl, hL', balanced_plug.mpr ⟨hbal', by rwa [hheight]⟩, rfl⟩

end Mugglec
