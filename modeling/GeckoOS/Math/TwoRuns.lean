/-
# Two computations side by side

Two computations are run from two related states, possibly of different types.  `Alike`
says that they end in the same way: both in the same value or both in the same error, and
in related states.  The second computation may be spoilt, for example by a limit that the
first one does not reach, and then nothing is said; for this the state in which a
computation ends matters even when it ends in an error.

`Alike` follows the text of the computations like `Ensures` does.  Between two parts of a
text it must be known that the rest of it does not mend a state that is spoilt, which is
what `Stays` says.

`Refines` is for a computation that does what another one does, but may stop on the way:
whatever it returns, the other one returns.
-/

import GeckoOS.Math.Outcome

namespace GeckoOS.Math

variable {ε σ τ α β : Type}

/-- The state a computation ends in, with a value or with an error. -/
def lastState : EStateM.Result ε σ α → σ
  | .ok _ s => s
  | .error _ s => s

/-- The value a computation ends in, if any. -/
def endValue : EStateM.Result ε σ α → Option α
  | .ok a _ => some a
  | .error _ _ => none

theorem eq_ok_of_endValue {result : EStateM.Result ε σ α} {a : α} (hvalue : endValue result = some a) :
    result = .ok a (lastState result) := by
  cases result with
  | ok b s => rw [Option.some.inj hvalue, lastState]
  | error e s => cases hvalue

/-- The same value or the same error, and related states. -/
def SameEnd (post : α → σ → τ → Prop) (stop : σ → τ → Prop) :
    EStateM.Result ε σ α → EStateM.Result ε τ α → Prop
  | .ok a s, .ok b t => a = b ∧ post a s t
  | .error e s, .error e' t => e = e' ∧ stop s t
  | _, _ => False

/-- A state of this kind leads to such states only. -/
def Stays (kind : τ → Prop) (y : EStateM ε τ α) : Prop := ∀ t, kind t → kind (lastState (y t))

/-- Unless the second computation is spoilt, both end in the same way. -/
def Alike (spoilt : τ → Prop) (stop : σ → τ → Prop) (x : EStateM ε σ α) (y : EStateM ε τ α)
    (s : σ) (t : τ) (post : α → σ → τ → Prop) : Prop :=
  spoilt (lastState (y t)) ∨ SameEnd post stop (x s) (y t)

/-! ## What a state stays -/

section Stays

variable {kind : τ → Prop} {y : EStateM ε τ α} {g : α → EStateM ε τ β}

theorem stays_pure (a : α) : Stays kind (pure a : EStateM ε τ α) := fun _ ht => ht

theorem stays_throw (e : ε) : Stays kind (throw e : EStateM ε τ α) := fun _ ht => ht

theorem stays_bind (hy : Stays kind y) (hg : ∀ a, Stays kind (g a)) : Stays kind (y >>= g) := by
  intro t ht
  have hmid := hy t ht
  cases hrun : y t with
  | ok a t' =>
      rw [hrun] at hmid
      rw [bind_run hrun]
      exact hg a t' hmid
  | error e t' =>
      rw [hrun] at hmid
      rw [bind_error hrun]
      exact hmid

theorem stays_ite {c : Prop} [Decidable c] {y' : EStateM ε τ α} (hy : Stays kind y)
    (hy' : Stays kind y') : Stays kind (if c then y else y') := by
  by_cases hc : c
  · rwa [if_pos hc]
  · rwa [if_neg hc]

/-- Only the state at hand matters when it is looked at first. -/
theorem stays_getBind {g : τ → EStateM ε τ β} (hg : ∀ t, kind t → kind (lastState (g t t))) :
    Stays kind (get >>= g) := hg

end Stays

/-! ## How two computations end -/

section Alike

variable {spoilt : τ → Prop} {stop : σ → τ → Prop} {x : EStateM ε σ α} {y : EStateM ε τ α}
  {f : α → EStateM ε σ β} {g : α → EStateM ε τ β} {s : σ} {t : τ}
  {post post' : α → σ → τ → Prop} {result : β → σ → τ → Prop}

theorem SameEnd.mono {stop' : σ → τ → Prop} {r : EStateM.Result ε σ α} {r' : EStateM.Result ε τ α}
    (hsame : SameEnd post stop r r') (hpost : ∀ a s t, post a s t → post' a s t)
    (hstop : ∀ s t, stop s t → stop' s t) : SameEnd post' stop' r r' := by
  cases r with
  | ok a s =>
      cases r' with
      | ok b t => exact ⟨hsame.1, hpost a s t hsame.2⟩
      | error e t => exact hsame
  | error e s =>
      cases r' with
      | ok b t => exact hsame
      | error e' t => exact ⟨hsame.1, hstop s t hsame.2⟩

theorem alike_pure {a : α} (hpost : post a s t) :
    Alike spoilt stop (pure a) (pure a : EStateM ε τ α) s t post :=
  .inr ⟨rfl, hpost⟩

theorem alike_throw (e : ε) (hstop : stop s t) :
    Alike spoilt stop (throw e : EStateM ε σ α) (throw e : EStateM ε τ α) s t post :=
  .inr ⟨rfl, hstop⟩

theorem alike_modify {change : σ → σ} {change' : τ → τ} {unit : Unit → σ → τ → Prop}
    (hunit : unit () (change s) (change' t)) :
    Alike spoilt stop (modify change : EStateM ε σ Unit) (modify change' : EStateM ε τ Unit) s t
      unit :=
  .inr ⟨rfl, hunit⟩

theorem alike_set {s' : σ} {t' : τ} {unit : Unit → σ → τ → Prop} (hunit : unit () s' t') :
    Alike spoilt stop (set s' : EStateM ε σ Unit) (set t' : EStateM ε τ Unit) s t unit :=
  .inr ⟨rfl, hunit⟩

/-- Both look at their states. -/
theorem alike_getBind {f : σ → EStateM ε σ β} {g : τ → EStateM ε τ β}
    (halike : Alike spoilt stop (f s) (g t) s t result) :
    Alike spoilt stop (get >>= f) (get >>= g) s t result := halike

/-- Parts of two texts that end alike, and then the rest of them. -/
theorem alike_bind (hx : Alike spoilt stop x y s t post)
    (hf : ∀ a s' t', post a s' t' → Alike spoilt stop (f a) (g a) s' t' result)
    (hstays : ∀ a, Stays spoilt (g a)) :
    Alike spoilt stop (x >>= f) (y >>= g) s t result := by
  cases hy : y t with
  | ok b t' =>
      rw [Alike, hy] at hx
      rcases hx with hspoilt | hsame
      · left
        rw [bind_run hy]
        exact hstays b t' hspoilt
      · cases hx : x s with
        | ok a s' =>
            rw [hx] at hsame
            obtain ⟨rfl, hpost⟩ := hsame
            rw [Alike, bind_run hx, bind_run hy]
            exact hf a s' t' hpost
        | error e s' =>
            rw [hx] at hsame
            exact absurd hsame id
  | error e t' =>
      rw [Alike, hy] at hx
      rw [Alike, bind_error hy]
      refine hx.imp_right fun hsame => ?_
      cases hx : x s with
      | ok a s' =>
          rw [hx] at hsame
          exact absurd hsame id
      | error e' s' =>
          rw [hx] at hsame
          rw [bind_error hx]
          exact hsame

theorem alike_ite {c : Prop} [Decidable c] {x' : EStateM ε σ α} {y' : EStateM ε τ α}
    (hthen : c → Alike spoilt stop x y s t post) (helse : ¬ c → Alike spoilt stop x' y' s t post) :
    Alike spoilt stop (if c then x else x') (if c then y else y') s t post := by
  by_cases hc : c
  · rw [if_pos hc, if_pos hc]
    exact hthen hc
  · rw [if_neg hc, if_neg hc]
    exact helse hc

end Alike

/-! ## Computations that may stop earlier -/

section Refines

variable {x x' : EStateM ε σ α} {f f' : α → EStateM ε σ β}

/-- Whatever the first computation returns, the second one returns. -/
def Refines (x x' : EStateM ε σ α) : Prop := ∀ s a s', x s = .ok a s' → x' s = .ok a s'

theorem refines_refl (x : EStateM ε σ α) : Refines x x := fun _ _ _ hrun => hrun

theorem refines_throw (e : ε) : Refines (throw e) x' := fun _ _ _ hrun => nomatch hrun

theorem refines_bind (hx : Refines x x') (hf : ∀ a, Refines (f a) (f' a)) :
    Refines (x >>= f) (x' >>= f') := by
  intro s b s'' hrun
  obtain ⟨a, s', hfirst, hrest⟩ := bind_eq_ok.mp hrun
  exact bind_eq_ok.mpr ⟨a, s', hx s a s' hfirst, hf a s' b s'' hrest⟩

theorem refines_ite {c : Prop} [Decidable c] {y y' : EStateM ε σ α} (hx : c → Refines x x')
    (hy : ¬ c → Refines y y') : Refines (if c then x else y) (if c then x' else y') := by
  by_cases hc : c
  · rw [if_pos hc, if_pos hc]
    exact hx hc
  · rw [if_neg hc, if_neg hc]
    exact hy hc

/-- What holds of whatever the second computation returns holds of the first one. -/
theorem Refines.ensures (hrefines : Refines x x') {s : σ} {post : α → σ → Prop}
    (hensures : Ensures x' s post) : Ensures x s post :=
  fun a s' hrun => hensures a s' (hrefines s a s' hrun)

@[inherit_doc Refines.ensures]
theorem Refines.keeps (hrefines : Refines x x') {rel : σ → σ → Prop} (hkeeps : Keeps rel x') :
    Keeps rel x :=
  fun s => hrefines.ensures (hkeeps s)

end Refines

end GeckoOS.Math
