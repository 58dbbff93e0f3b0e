/-
# Loops without a bound

Some loops of a program have no bound in the source and need not end.  Such a
loop is given by its round, which from a state either leaves with a result or
goes on in a new state.  Running it for a fixed number of rounds is a
computation; its meaning is what enough rounds return, and nothing when no
number of rounds is enough.

Three rules are all that is used of it: one round can be unfolded at any time, what
every round preserves holds of every result, and a loop whose rounds are the images of
those of another loop returns the images of its results.
-/

import Mathlib.Data.Nat.Find

namespace GeckoOS.Math

variable {σ α : Type} {step : σ → α ⊕ σ} {s : σ} {a : α}

/-- At most `n` rounds. -/
def loopFor (step : σ → α ⊕ σ) : Nat → σ → Option α
  | 0, _ => none
  | n + 1, s =>
      match step s with
      | .inl a => some a
      | .inr t => loopFor step n t

open Classical in
/-- As many rounds as it takes; `none` when the loop never ends. -/
noncomputable def loop (step : σ → α ⊕ σ) (s : σ) : Option α :=
  if h : ∃ n, (loopFor step n s).isSome then loopFor step (Nat.find h) s else none

theorem loopFor_add {n : Nat} (hresult : loopFor step n s = some a) (more : Nat) :
    loopFor step (n + more) s = some a := by
  induction n generalizing s with
  | zero => cases hresult
  | succ n ih =>
      rw [Nat.succ_add, loopFor]
      rw [loopFor] at hresult
      cases hround : step s with
      | inl b => rwa [hround] at hresult
      | inr t =>
          rw [hround] at hresult
          exact ih hresult

theorem loopFor_unique {n m : Nat} {b : α} (hfirst : loopFor step n s = some a)
    (hsecond : loopFor step m s = some b) : a = b := by
  have hmore := loopFor_add hfirst m
  have hmore' := loopFor_add hsecond n
  rw [Nat.add_comm, hmore'] at hmore
  exact (Option.some.inj hmore).symm

/-- The loop returns what some number of rounds returns. -/
theorem loop_eq_some_iff : loop step s = some a ↔ ∃ n, loopFor step n s = some a := by
  unfold loop
  constructor
  · intro hresult
    split_ifs at hresult with hends
    exact ⟨_, hresult⟩
  · rintro ⟨n, hresult⟩
    have hends : ∃ n, (loopFor step n s).isSome := ⟨n, by rw [hresult]; rfl⟩
    rw [dif_pos hends]
    obtain ⟨b, hb⟩ := Option.isSome_iff_exists.mp (Nat.find_spec hends)
    rw [hb, loopFor_unique hb hresult]

/-- One round unfolded. -/
theorem loop_eq (step : σ → α ⊕ σ) (s : σ) :
    loop step s = match step s with
      | .inl a => some a
      | .inr t => loop step t := by
  apply Option.ext
  intro b
  rw [loop_eq_some_iff]
  cases hround : step s with
  | inl a =>
      constructor
      · rintro ⟨_ | n, hresult⟩
        · cases hresult
        · rwa [loopFor, hround] at hresult
      · exact fun hresult => ⟨1, by rwa [loopFor, hround]⟩
  | inr t =>
      change _ ↔ loop step t = some b
      rw [loop_eq_some_iff]
      constructor
      · rintro ⟨_ | n, hresult⟩
        · cases hresult
        · rw [loopFor, hround] at hresult
          exact ⟨n, hresult⟩
      · rintro ⟨n, hresult⟩
        exact ⟨n + 1, by rwa [loopFor, hround]⟩

/-- What the last round establishes and every earlier one passes back holds of
every result. -/
theorem loop_induct {motive : σ → α → Prop} (hleave : ∀ s a, step s = .inl a → motive s a)
    (hround : ∀ s t a, step s = .inr t → motive t a → motive s a)
    (hresult : loop step s = some a) : motive s a := by
  obtain ⟨n, hrun⟩ := loop_eq_some_iff.mp hresult
  clear hresult
  induction n generalizing s with
  | zero => cases hrun
  | succ n ih =>
      rw [loopFor] at hrun
      cases hstep : step s with
      | inl b =>
          rw [hstep] at hrun
          obtain rfl := Option.some.inj hrun
          exact hleave s b hstep
      | inr t =>
          rw [hstep] at hrun
          exact hround s t a hstep (ih hrun)

/-! ## The state on the way -/

/-- At most `n` rounds, with the state reached when these are not enough. -/
def rounds (step : σ → α ⊕ σ) : Nat → σ → α ⊕ σ
  | 0, s => .inr s
  | n + 1, s =>
      match step s with
      | .inl a => .inl a
      | .inr t => rounds step n t

theorem rounds_eq_inl_iff {n : Nat} : rounds step n s = .inl a ↔ loopFor step n s = some a := by
  induction n generalizing s with
  | zero =>
      constructor <;> intro hresult <;> cases hresult
  | succ n ih =>
      rw [rounds, loopFor]
      cases step s with
      | inl b =>
          constructor
          · exact fun hsame => congrArg some (Sum.inl.inj hsame)
          · exact fun hsame => congrArg Sum.inl (Option.some.inj hsame)
      | inr t => exact ih

/-- A result that enough rounds return is returned by every larger number of them. -/
theorem exists_rounds_of_loop (hresult : loop step s = some a) :
    ∃ n, ∀ m, n ≤ m → rounds step m s = .inl a := by
  obtain ⟨n, hrun⟩ := loop_eq_some_iff.mp hresult
  refine ⟨n, fun m hm => ?_⟩
  obtain ⟨more, rfl⟩ := Nat.exists_eq_add_of_le hm
  exact rounds_eq_inl_iff.mpr (loopFor_add hrun more)

/-! ## Loops that do the same -/

section Map

variable {τ β : Type} {step' : τ → β ⊕ τ} {onState : σ → τ} {onResult : α → β}
  (hstep : ∀ s, step' (onState s) = (step s).map onResult onState)

include hstep

/-- A loop whose rounds are the images of those of another loop goes through the images
of its states. -/
theorem rounds_map (n : Nat) (s : σ) :
    rounds step' n (onState s) = (rounds step n s).map onResult onState := by
  induction n generalizing s with
  | zero => rfl
  | succ n ih =>
      rw [rounds, rounds, hstep]
      cases step s with
      | inl a => rfl
      | inr t => exact ih t

/-- It returns the images of its results. -/
theorem loop_map (s : σ) : loop step' (onState s) = (loop step s).map onResult := by
  apply Option.ext
  intro b
  rw [loop_eq_some_iff, Option.map_eq_some_iff]
  constructor
  · rintro ⟨n, hrun⟩
    rw [← rounds_eq_inl_iff, rounds_map hstep] at hrun
    cases hrounds : rounds step n s with
    | inl a =>
        rw [hrounds] at hrun
        exact ⟨a, loop_eq_some_iff.mpr ⟨n, rounds_eq_inl_iff.mp hrounds⟩, Sum.inl.inj hrun⟩
    | inr t =>
        rw [hrounds] at hrun
        cases hrun
  · rintro ⟨a, hresult, rfl⟩
    obtain ⟨n, hrun⟩ := loop_eq_some_iff.mp hresult
    refine ⟨n, rounds_eq_inl_iff.mp ?_⟩
    rw [rounds_map hstep, rounds_eq_inl_iff.mpr hrun]
    rfl

end Map

end GeckoOS.Math
