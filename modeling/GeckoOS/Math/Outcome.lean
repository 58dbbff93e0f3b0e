/-
# Outcomes of stateful computations

A computation in `EStateM` ends in a value and a state, or in an error.  Three statements
about its outcome have simple rules that follow its text: `Ensures` says what holds
whenever it ends in a value, `Returns` says that it does end in a value for which
something holds, and `Ends` says what holds of a value and what of an error.  The rules
are equivalences, so that rewriting with them computes what remains to be shown of the
computations a text is made of.
-/

import Mathlib.Order.Defs.Unbundled

namespace GeckoOS.Math

variable {ε σ α β : Type} {x : EStateM ε σ α} {f : α → EStateM ε σ β} {s : σ}
  {post post' : α → σ → Prop} {result : β → σ → Prop}

/-- Whenever `x` ends in a value, the value and the state satisfy `post`. -/
def Ensures (x : EStateM ε σ α) (s : σ) (post : α → σ → Prop) : Prop :=
  ∀ a s', x s = .ok a s' → post a s'

/-- `x` ends in a value, and the value and the state satisfy `post`. -/
def Returns (x : EStateM ε σ α) (s : σ) (post : α → σ → Prop) : Prop :=
  ∃ a s', x s = .ok a s' ∧ post a s'

/-! ## What follows a computation -/

theorem Ensures.mono (hensures : Ensures x s post) (hpost : ∀ a s', post a s' → post' a s') :
    Ensures x s post' :=
  fun a s' hrun => hpost a s' (hensures a s' hrun)

theorem Returns.mono (hreturns : Returns x s post) (hpost : ∀ a s', post a s' → post' a s') :
    Returns x s post' := by
  obtain ⟨a, s', hrun, ha⟩ := hreturns
  exact ⟨a, s', hrun, hpost a s' ha⟩

/-- A computation that ends in a value has no other outcome. -/
theorem ensures_of_run {a : α} {s' : σ} (hrun : x s = .ok a s') :
    Ensures x s post ↔ post a s' := by
  constructor
  · exact fun hensures => hensures a s' hrun
  · intro hpost b s'' hrun'
    rw [hrun] at hrun'
    cases hrun'
    exact hpost

@[inherit_doc ensures_of_run]
theorem returns_of_run {a : α} {s' : σ} (hrun : x s = .ok a s') :
    Returns x s post ↔ post a s' := by
  constructor
  · rintro ⟨b, s'', hrun', hpost⟩
    rw [hrun] at hrun'
    cases hrun'
    exact hpost
  · exact fun hpost => ⟨a, s', hrun, hpost⟩

theorem bind_eq_ok {b : β} {s'' : σ} :
    (x >>= f) s = .ok b s'' ↔ ∃ a s', x s = .ok a s' ∧ f a s' = .ok b s'' := by
  change EStateM.bind x f s = _ ↔ _
  rw [EStateM.bind]
  cases x s with
  | ok a s' =>
      constructor
      · exact fun hrun => ⟨a, s', rfl, hrun⟩
      · rintro ⟨_, _, ⟨⟩, hrun⟩
        exact hrun
  | error e s' => simp

/-- A computation that ends in a value hands it on. -/
theorem bind_run {a : α} {s' : σ} (hx : x s = .ok a s') : (x >>= f) s = f a s' := by
  change EStateM.bind x f s = _
  rw [EStateM.bind, hx]

/-- An error is the end. -/
theorem bind_error {e : ε} {s' : σ} (hx : x s = .error e s') : (x >>= f) s = .error e s' := by
  change EStateM.bind x f s = _
  rw [EStateM.bind, hx]

@[simp]
theorem ensures_bind :
    Ensures (x >>= f) s result ↔ Ensures x s fun a s' => Ensures (f a) s' result := by
  constructor
  · intro hensures a s' hx b s'' hf
    exact hensures b s'' (bind_eq_ok.mpr ⟨a, s', hx, hf⟩)
  · intro hensures b s'' hrun
    obtain ⟨a, s', hx, hf⟩ := bind_eq_ok.mp hrun
    exact hensures a s' hx b s'' hf

@[simp]
theorem returns_bind :
    Returns (x >>= f) s result ↔ Returns x s fun a s' => Returns (f a) s' result := by
  constructor
  · rintro ⟨b, s'', hrun, hb⟩
    obtain ⟨a, s', hx, hf⟩ := bind_eq_ok.mp hrun
    exact ⟨a, s', hx, b, s'', hf, hb⟩
  · rintro ⟨a, s', hx, b, s'', hf, hb⟩
    exact ⟨b, s'', bind_eq_ok.mpr ⟨a, s', hx, hf⟩, hb⟩

@[simp]
theorem ensures_map {g : α → β} :
    Ensures (g <$> x) s result ↔ Ensures x s fun a s' => result (g a) s' := by
  rw [map_eq_pure_bind, ensures_bind]
  constructor
  · exact fun hensures a s' hx => hensures a s' hx (g a) s' rfl
  · rintro hensures a s' hx b s'' ⟨⟩
    exact hensures a s' hx

@[simp]
theorem returns_map {g : α → β} :
    Returns (g <$> x) s result ↔ Returns x s fun a s' => result (g a) s' := by
  rw [map_eq_pure_bind, returns_bind]
  constructor
  · rintro ⟨a, s', hx, b, s'', ⟨⟩, hresult⟩
    exact ⟨a, s', hx, hresult⟩
  · rintro ⟨a, s', hx, hresult⟩
    exact ⟨a, s', hx, g a, s', rfl, hresult⟩

/-! ## Single steps -/

@[simp]
theorem ensures_pure (a : α) : Ensures (pure a : EStateM ε σ α) s post ↔ post a s := by
  constructor
  · exact fun hensures => hensures a s rfl
  · rintro hpost a s' ⟨⟩
    exact hpost

@[simp]
theorem returns_pure (a : α) : Returns (pure a : EStateM ε σ α) s post ↔ post a s := by
  constructor
  · rintro ⟨a, s', ⟨⟩, hpost⟩
    exact hpost
  · exact fun hpost => ⟨a, s, rfl, hpost⟩

@[simp]
theorem ensures_throw (e : ε) : Ensures (throw e : EStateM ε σ α) s post :=
  fun _ _ hrun => nomatch hrun

@[simp]
theorem not_returns_throw (e : ε) : ¬ Returns (throw e : EStateM ε σ α) s post := by
  rintro ⟨a, s', ⟨⟩, -⟩

variable {state : σ → σ → Prop} {unit : Unit → σ → Prop}

@[simp]
theorem ensures_get : Ensures (get : EStateM ε σ σ) s state ↔ state s s := by
  constructor
  · exact fun hensures => hensures s s rfl
  · rintro hstate a s' ⟨⟩
    exact hstate

@[simp]
theorem returns_get : Returns (get : EStateM ε σ σ) s state ↔ state s s := by
  constructor
  · rintro ⟨a, s', ⟨⟩, hstate⟩
    exact hstate
  · exact fun hstate => ⟨s, s, rfl, hstate⟩

@[simp]
theorem ensures_set (s' : σ) : Ensures (set s' : EStateM ε σ Unit) s unit ↔ unit () s' := by
  constructor
  · exact fun hensures => hensures () s' rfl
  · rintro hunit a s'' ⟨⟩
    exact hunit

@[simp]
theorem returns_set (s' : σ) : Returns (set s' : EStateM ε σ Unit) s unit ↔ unit () s' := by
  constructor
  · rintro ⟨a, s'', ⟨⟩, hunit⟩
    exact hunit
  · exact fun hunit => ⟨(), s', rfl, hunit⟩

@[simp]
theorem ensures_modify (change : σ → σ) :
    Ensures (modify change : EStateM ε σ Unit) s unit ↔ unit () (change s) := by
  constructor
  · exact fun hensures => hensures () (change s) rfl
  · rintro hunit a s'' ⟨⟩
    exact hunit

@[simp]
theorem returns_modify (change : σ → σ) :
    Returns (modify change : EStateM ε σ Unit) s unit ↔ unit () (change s) := by
  constructor
  · rintro ⟨a, s'', ⟨⟩, hunit⟩
    exact hunit
  · exact fun hunit => ⟨(), change s, rfl, hunit⟩

/-! ## Branches -/

@[simp]
theorem ensures_ite {c : Prop} [Decidable c] {y : EStateM ε σ α} :
    Ensures (if c then x else y) s post ↔ (c → Ensures x s post) ∧ (¬ c → Ensures y s post) := by
  by_cases hc : c <;> simp [hc]

@[simp]
theorem returns_ite {c : Prop} [Decidable c] {y : EStateM ε σ α} :
    Returns (if c then x else y) s post ↔ (c → Returns x s post) ∧ (¬ c → Returns y s post) := by
  by_cases hc : c <;> simp [hc]

/-! ## Both ways to end -/

/-- However `x` ends, `post` holds of a value and its state, `fails` of an error and its. -/
def Ends (x : EStateM ε σ α) (s : σ) (post : α → σ → Prop) (fails : ε → σ → Prop) : Prop :=
  match x s with
  | .ok a s' => post a s'
  | .error e s' => fails e s'

variable {fails : ε → σ → Prop}

theorem Ends.mono (hends : Ends x s post fails) (hpost : ∀ a s', post a s' → post' a s') :
    Ends x s post' fails := by
  unfold Ends at hends ⊢
  cases hrun : x s with
  | ok a s' =>
      rw [hrun] at hends
      exact hpost a s' hends
  | error e s' =>
      rw [hrun] at hends
      exact hends

@[simp]
theorem ends_bind :
    Ends (x >>= f) s result fails ↔ Ends x s (fun a s' => Ends (f a) s' result fails) fails := by
  unfold Ends
  cases hx : x s with
  | ok a s' => rw [bind_run hx]
  | error e s' => rw [bind_error hx]

@[simp]
theorem ends_pure (a : α) : Ends (pure a : EStateM ε σ α) s post fails ↔ post a s := Iff.rfl

@[simp]
theorem ends_throw (e : ε) : Ends (throw e : EStateM ε σ α) s post fails ↔ fails e s := Iff.rfl

@[simp]
theorem ends_modify (change : σ → σ) :
    Ends (modify change : EStateM ε σ Unit) s unit fails ↔ unit () (change s) := Iff.rfl

@[simp]
theorem ends_ite {c : Prop} [Decidable c] {y : EStateM ε σ α} :
    Ends (if c then x else y) s post fails ↔
      (c → Ends x s post fails) ∧ (¬ c → Ends y s post fails) := by
  by_cases hc : c <;> simp [hc]

/-! ## What a computation keeps

A relation between the state before and the state after that every computation of a text
keeps is kept by the text, if it is reflexive and transitive. -/

/-- Every run that ends in a value leads to a related state. -/
def Keeps (rel : σ → σ → Prop) (x : EStateM ε σ α) : Prop :=
  ∀ s, Ensures x s fun _ s' => rel s s'

section Keeps

variable {rel : σ → σ → Prop} [IsPreorder σ rel]

theorem keeps_bind (hx : Keeps rel x) (hf : ∀ a, Keeps rel (f a)) : Keeps rel (x >>= f) :=
  fun s => ensures_bind.mpr ((hx s).mono fun a s' hrel =>
    (hf a s').mono fun _ _ hrel' => trans_of rel hrel hrel')

theorem keeps_pure (a : α) : Keeps rel (pure a : EStateM ε σ α) :=
  fun s => (ensures_pure a).mpr (refl_of rel s)

omit [IsPreorder σ rel] in
theorem keeps_throw (e : ε) : Keeps rel (throw e : EStateM ε σ α) :=
  fun _ => ensures_throw e

theorem keeps_get : Keeps rel (get : EStateM ε σ σ) :=
  fun s => ensures_get.mpr (refl_of rel s)

omit [IsPreorder σ rel] in
theorem keeps_modify {change : σ → σ} (hchange : ∀ s, rel s (change s)) :
    Keeps rel (modify change : EStateM ε σ Unit) :=
  fun s => (ensures_modify change).mpr (hchange s)

omit [IsPreorder σ rel] in
theorem keeps_ite {c : Prop} [Decidable c] {y : EStateM ε σ α} (hx : c → Keeps rel x)
    (hy : ¬ c → Keeps rel y) : Keeps rel (if c then x else y) := by
  by_cases hc : c
  · rw [if_pos hc]
    exact hx hc
  · rw [if_neg hc]
    exact hy hc

end Keeps

end GeckoOS.Math
