import Mathlib.Tactic

/-!
# Machinery/Steps — guarded steps, the runs they make, and what survives a run

A concurrent program is a state type `σ`, a type `ι` of steps (one atomic access of one thread,
with the value the environment supplies) and `next s a`, the state after step `a`, or `none` where
`a` is not enabled.  An interleaving is a list of steps.
-/

namespace Steps

variable {σ ι : Type*}

inductive Reach (next : σ → ι → Option σ) (ok : σ → ι → Prop) (s₀ : σ) : σ → Prop
  | start : Reach next ok s₀ s₀
  | step {s s' : σ} {a : ι} (hs : Reach next ok s₀ s) (hok : ok s a) (hnext : next s a = some s') :
      Reach next ok s₀ s'

def anyStep (_ : σ) (_ : ι) : Prop := True

variable {next : σ → ι → Option σ} {ok : σ → ι → Prop} {s₀ s : σ}

theorem Reach.invariant {P : σ → Prop} (hstart : P s₀)
    (hstep : ∀ s a s', P s → ok s a → next s a = some s' → P s')
    (hs : Reach next ok s₀ s) : P s := by
  induction hs with
  | start => exact hstart
  | step _ hok hnext ih => exact hstep _ _ _ ih hok hnext

def exec (next : σ → ι → Option σ) : σ → List ι → Option σ
  | s, [] => some s
  | s, a :: as => (next s a).bind fun s' => exec next s' as

def execWhen (next : σ → ι → Option σ) (ok : σ → ι → Bool) : σ → List ι → Option σ
  | s, [] => some s
  | s, a :: as => if ok s a then (next s a).bind fun s' => execWhen next ok s' as else none

theorem Reach.trans {s₁ s₂ : σ} (h : Reach next ok s₀ s₁) (h' : Reach next ok s₁ s₂) :
    Reach next ok s₀ s₂ := by
  induction h' with
  | start => exact h
  | step _ hok hnext ih => exact Reach.step ih hok hnext

theorem Reach.of_exec : ∀ {s₀ s : σ} (as : List ι), exec next s₀ as = some s →
    Reach next anyStep s₀ s
  | _, _, [], h => by
      cases h
      exact Reach.start
  | _, _, a :: as, h => by
      obtain ⟨s₁, h₁, h₂⟩ := Option.bind_eq_some_iff.mp h
      exact (Reach.step Reach.start trivial h₁).trans (Reach.of_exec as h₂)

theorem Reach.of_execWhen (okb : σ → ι → Bool) (hok : ∀ s a, okb s a = true → ok s a) :
    ∀ {s₀ s : σ} (as : List ι), execWhen next okb s₀ as = some s → Reach next ok s₀ s
  | _, _, [], h => by
      cases h
      exact Reach.start
  | s₀, _, a :: as, h => by
      rw [execWhen] at h
      by_cases ha : okb s₀ a = true
      · rw [if_pos ha] at h
        obtain ⟨s₁, h₁, h₂⟩ := Option.bind_eq_some_iff.mp h
        exact (Reach.step Reach.start (hok _ _ ha) h₁).trans (Reach.of_execWhen okb hok as h₂)
      · rw [if_neg ha] at h
        cases h

theorem Reach.of_decide [∀ s a, Decidable (ok s a)] {as : List ι}
    (hs : execWhen next (fun s a => decide (ok s a)) s₀ as = some s) : Reach next ok s₀ s :=
  Reach.of_execWhen _ (fun _ _ => of_decide_eq_true) as hs

-- what a run on a given schedule ends with is decided by running it
instance decidableExistsSome {run : Option σ} {P : σ → Prop} [DecidablePred P] :
    Decidable (∃ s, run = some s ∧ P s) :=
  inferInstanceAs (Decidable (∃ s ∈ run, P s))

section View

variable {β : Type*} {view : σ → β} {v : β} {P : σ → Prop}

theorem exists_reach (as : List ι) (hrun : (exec next s₀ as).map view = some v) :
    ∃ s, Reach next anyStep s₀ s ∧ view s = v := by
  obtain ⟨s, hs, hview⟩ := Option.map_eq_some_iff.mp hrun
  exact ⟨s, Reach.of_exec as hs, hview⟩

theorem exists_exec {as : List ι} (hrun : (exec next s₀ as).map view = some v)
    (hP : ∀ s, Reach next anyStep s₀ s → view s = v → P s) :
    ∃ s, exec next s₀ as = some s ∧ view s = v ∧ P s := by
  obtain ⟨s, hs, hview⟩ := Option.map_eq_some_iff.mp hrun
  exact ⟨s, hs, hview, hP s (Reach.of_exec as hs) hview⟩

theorem exists_of_exec (s₀ : σ) (as : List ι) (hrun : (exec next s₀ as).map view = some v)
    (hP : ∀ s, Reach next anyStep s₀ s → view s = v → P s) : ∃ s, view s = v ∧ P s := by
  obtain ⟨s, hs, hview⟩ := exists_reach as hrun
  exact ⟨s, hview, hP s hs hview⟩

theorem exists_of_execWhen [∀ s a, Decidable (ok s a)] (s₀ : σ) (as : List ι)
    (hrun : (execWhen next (fun s a => decide (ok s a)) s₀ as).map view = some v)
    (hP : ∀ s, Reach next ok s₀ s → view s = v → P s) : ∃ s, view s = v ∧ P s := by
  obtain ⟨s, hs, hview⟩ := Option.map_eq_some_iff.mp hrun
  exact ⟨s, hview, hP s (Reach.of_decide hs) hview⟩

end View

section Along

variable {Inv Good : σ → Prop} {Sound : σ → ι → Prop}

/-- `Good` holds in every state that the run goes through. -/
def Always (next : σ → ι → Option σ) (Good : σ → Prop) : σ → List ι → Prop
  | s, [] => Good s
  | s, a :: as => Good s ∧ ∀ s' ∈ next s a, Always next Good s' as

def EachStep (next : σ → ι → Option σ) (Sound : σ → ι → Prop) : σ → List ι → Prop
  | _, [] => True
  | s, a :: as => Sound s a ∧ ∀ s' ∈ next s a, EachStep next Sound s' as

instance decidableEachStep [∀ s a, Decidable (Sound s a)] :
    ∀ (s : σ) (as : List ι), Decidable (EachStep next Sound s as)
  | _, [] => inferInstanceAs (Decidable True)
  | s, a :: as =>
    have : DecidablePred fun s' => EachStep next Sound s' as := fun s' => decidableEachStep s' as
    inferInstanceAs (Decidable (Sound s a ∧ ∀ s' ∈ next s a, EachStep next Sound s' as))

theorem always_iff_eachStep (hinv : ∀ s a s', Inv s → ok s a → next s a = some s' → Inv s')
    (hstep : ∀ s a s', Inv s → ok s a → next s a = some s' → Good s → (Good s' ↔ Sound s a))
    (okb : σ → ι → Bool) (hok : ∀ s a, okb s a = true → ok s a) {s t : σ} {as : List ι}
    (hs : Inv s) (hgood : Good s) (hrun : execWhen next okb s as = some t) :
    Always next Good s as ↔ EachStep next Sound s as := by
  induction as generalizing s with
  | nil => exact iff_of_true hgood trivial
  | cons a as ih =>
    rw [execWhen] at hrun
    split_ifs at hrun with ha
    obtain ⟨s', hnext, hrun⟩ := Option.bind_eq_some_iff.mp hrun
    have hs' : Inv s' := hinv s a s' hs (hok s a ha) hnext
    have hiff := hstep s a s' hs (hok s a ha) hnext hgood
    simp only [Always, EachStep, hnext, Option.mem_some_iff, forall_eq']
    constructor
    · rintro ⟨-, halways⟩
      have hgood' : Good s' := by
        cases as with
        | nil => exact halways
        | cons b bs => exact halways.1
      exact ⟨hiff.mp hgood', (ih hs' hgood' hrun).mp halways⟩
    · rintro ⟨hsound, heach⟩
      exact ⟨hgood, (ih hs' (hiff.mpr hsound) hrun).mpr heach⟩

end Along

section Fold

variable {f : σ → ι → σ} {Inv Good : σ → Prop} {Sound : σ → ι → Prop}

theorem foldl_invariant (hstart : Inv s₀) (hstep : ∀ s a, Inv s → Sound s a → Inv (f s a)) :
    ∀ as : List ι, (∀ pre a, pre ++ [a] <+: as → Sound (pre.foldl f s₀) a) →
      Inv (as.foldl f s₀) := by
  intro as
  induction as using List.reverseRecOn with
  | nil => exact fun _ => hstart
  | append_singleton as a ih =>
    intro h
    have hpre : Inv (as.foldl f s₀) := ih fun pre b hb =>
      h pre b (hb.trans (List.prefix_append as [a]))
    rw [List.foldl_append]
    exact hstep _ _ hpre (h as a (List.prefix_refl _))

theorem forall_prefix_iff (hstart : Inv s₀) (hstep : ∀ s a, Inv s → Sound s a → Inv (f s a))
    (hgood : ∀ s, Inv s → Good s) (hbad : ∀ s a, Inv s → ¬ Sound s a → ¬ Good (f s a))
    (as : List ι) :
    (∀ pre, pre <+: as → Good (pre.foldl f s₀)) ↔
      ∀ pre a, pre ++ [a] <+: as → Sound (pre.foldl f s₀) a := by
  constructor
  · induction as using List.reverseRecOn with
    | nil => exact fun _ pre a h => absurd (List.prefix_nil.mp h) (by simp)
    | append_singleton as b ih =>
      intro h
      have hsound := ih fun pre hpre => h pre (hpre.trans (List.prefix_append as [b]))
      have hinv : Inv (as.foldl f s₀) := foldl_invariant hstart hstep as hsound
      have hlast : Sound (as.foldl f s₀) b := by
        by_contra hns
        have hg := h (as ++ [b]) (List.prefix_refl _)
        rw [List.foldl_append] at hg
        exact hbad _ _ hinv hns hg
      intro pre a hpre
      rcases List.prefix_concat_iff.mp hpre with heq | hpre
      · obtain ⟨rfl, ha⟩ := List.append_inj' heq rfl
        obtain rfl := List.singleton_injective ha
        exact hlast
      · exact hsound pre a hpre
  · intro h pre hpre
    exact hgood _ (foldl_invariant hstart hstep pre fun p a hp => h p a (hp.trans hpre))

end Fold

end Steps
