/-
# What holds at every step of a run

A run feeds a list of events to a step function.  A property of the state and the next event
holds *at every step* when it holds of each event in the state in which the run takes it.

Two such properties are often equivalent only as long as the run has behaved, because the
argument that connects them needs an invariant, and the invariant needs the run to have
behaved.  Then they are still equivalent over whole runs.
-/

import Mathlib.Data.List.Basic

namespace GeckoOS.Math

variable {σ ε : Type*} {step : σ → ε → σ} {right safe : σ → ε → Prop} {s : σ} {events : List ε}

/-- The property holds of each event of the run, in the state before it. -/
def AtEveryStep (step : σ → ε → σ) (p : σ → ε → Prop) (s : σ) (events : List ε) : Prop :=
  ∀ before event, before ++ [event] <+: events → p (before.foldl step s) event

theorem atEveryStep_nil {p : σ → ε → Prop} : AtEveryStep step p s [] := by
  intro before event hprefix
  exact absurd (List.prefix_nil.mp hprefix) (by simp)

theorem AtEveryStep.of_prefix {p : σ → ε → Prop} (hrun : AtEveryStep step p s events)
    {before : List ε} (hbefore : before <+: events) : AtEveryStep step p s before :=
  fun earlier event hearlier => hrun earlier event (hearlier.trans hbefore)

theorem atEveryStep_cons {p : σ → ε → Prop} {event : ε} :
    AtEveryStep step p s (event :: events) ↔
      p s event ∧ AtEveryStep step p (step s event) events := by
  constructor
  · intro hall
    refine ⟨hall [] event (by simp), fun before next hprefix => ?_⟩
    exact hall (event :: before) next (by simpa using hprefix)
  · rintro ⟨hfirst, hrest⟩ before next hprefix
    cases before with
    | nil =>
        obtain ⟨rfl, -⟩ := List.cons_prefix_cons.mp hprefix
        exact hfirst
    | cons first before =>
        obtain ⟨rfl, hbelow⟩ := List.cons_prefix_cons.mp hprefix
        exact hrest before next hbelow

/-- Two properties that agree wherever an invariant holds, and whose steps keep the invariant,
agree over every run that starts with the invariant. -/
theorem atEveryStep_iff {inv : σ → Prop}
    (hagree : ∀ s event, inv s → (right s event ↔ safe s event))
    (hkeeps : ∀ s event, inv s → safe s event → inv (step s event)) (hinv : inv s) :
    AtEveryStep step right s events ↔ AtEveryStep step safe s events := by
  induction events generalizing s with
  | nil => exact iff_of_true atEveryStep_nil atEveryStep_nil
  | cons event events ih =>
      rw [atEveryStep_cons, atEveryStep_cons, hagree s event hinv]
      exact and_congr_right fun hsafe => ih (hkeeps s event hinv hsafe)

/-- The invariant itself holds wherever such a run has come to. -/
theorem AtEveryStep.inv_foldl {inv : σ → Prop} (hrun : AtEveryStep step safe s events)
    (hkeeps : ∀ s event, inv s → safe s event → inv (step s event)) (hinv : inv s) :
    inv (events.foldl step s) := by
  induction events generalizing s with
  | nil => exact hinv
  | cons event events ih =>
      obtain ⟨hfirst, hrest⟩ := atEveryStep_cons.mp hrun
      exact ih hrest (hkeeps s event hinv hfirst)

end GeckoOS.Math
