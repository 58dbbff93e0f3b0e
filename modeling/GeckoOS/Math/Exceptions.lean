/-
# Exceptions and notes of them

A computation stops early in one of two ways: it throws an exception, or it notes in its state that
it has stopped and leaves it to what comes next to find the note.  `Mirrors` says that one of the
second kind does what one of the first kind does.  Behind an exception nothing runs; behind a note
something may, and it has to keep the note.
-/

import GeckoOS.Math.Outcome

namespace GeckoOS.Math

variable {ε δ σ τ α β γ κ : Type} {x : EStateM ε σ α} {y : EStateM δ τ β} {s s' : σ} {t t' : τ}
  {post post' : α → σ → β → τ → Prop} {stop stop' : δ → τ → EStateM.Result ε σ α → Prop}

/-- Where `y` returns, `x` returns too, and the values and states satisfy `post`; where `y` throws,
`x` ends in a result that stands for the exception. -/
def Mirrors (x : EStateM ε σ α) (s : σ) (y : EStateM δ τ β) (t : τ)
    (post : α → σ → β → τ → Prop) (stop : δ → τ → EStateM.Result ε σ α → Prop) : Prop :=
  match y t with
  | .ok b t' => ∃ a s', x s = .ok a s' ∧ post a s' b t'
  | .error e t' => stop e t' (x s)

theorem mirrors_of_ok {a : α} {b : β} (hx : x s = .ok a s') (hy : y t = .ok b t')
    (hpost : post a s' b t') : Mirrors x s y t post stop := by
  rw [Mirrors, hy]
  exact ⟨a, s', hx, hpost⟩

theorem mirrors_of_error {e : δ} (hy : y t = .error e t') (hstop : stop e t' (x s)) :
    Mirrors x s y t post stop := by
  rw [Mirrors, hy]
  exact hstop

theorem mirrors_pure {a : α} {b : β} (hpost : post a s b t) :
    Mirrors (pure a) s (pure b) t post stop :=
  ⟨a, s, rfl, hpost⟩

theorem Mirrors.mono (hmirrors : Mirrors x s y t post stop)
    (hpost : ∀ a s' b t', post a s' b t' → post' a s' b t')
    (hstop : ∀ e t' r, stop e t' r → stop' e t' r) : Mirrors x s y t post' stop' := by
  unfold Mirrors at hmirrors ⊢
  cases hy : y t with
  | ok b t' =>
      rw [hy] at hmirrors
      obtain ⟨a, s', hx, hab⟩ := hmirrors
      exact ⟨a, s', hx, hpost a s' b t' hab⟩
  | error e t' =>
      rw [hy] at hmirrors
      exact hstop e t' _ hmirrors

/-- One computation behind another. -/
theorem Mirrors.bind {f : α → EStateM ε σ γ} {g : β → EStateM δ τ κ}
    {result : γ → σ → κ → τ → Prop} {halt : δ → τ → EStateM.Result ε σ γ → Prop}
    (hmirrors : Mirrors x s y t post stop)
    (hgo : ∀ a s' b t', post a s' b t' → Mirrors (f a) s' (g b) t' result halt)
    (hstop : ∀ e t', stop e t' (x s) → halt e t' ((x >>= f) s)) :
    Mirrors (x >>= f) s (y >>= g) t result halt := by
  unfold Mirrors at hmirrors
  cases hy : y t with
  | ok b t' =>
      rw [hy] at hmirrors
      obtain ⟨a, s', hx, hab⟩ := hmirrors
      have hrest := hgo a s' b t' hab
      unfold Mirrors at hrest ⊢
      rwa [bind_run hx, bind_run hy]
  | error e t' =>
      rw [hy] at hmirrors
      exact mirrors_of_error (bind_error hy) (hstop e t' hmirrors)

/-- Only the result matters. -/
theorem Mirrors.congr {x' : EStateM ε σ α} (hmirrors : Mirrors x s y t post stop)
    (hx : x' s = x s) : Mirrors x' s y t post stop := by
  unfold Mirrors at hmirrors ⊢
  rwa [hx]

theorem Mirrors.congrRight {y' : EStateM δ τ β} (hmirrors : Mirrors x s y t post stop)
    (hy : y' t = y t) : Mirrors x s y' t post stop := by
  unfold Mirrors at hmirrors ⊢
  rwa [hy]

/-- A step that the computation with notes does alone. -/
theorem Mirrors.afterStep {f : γ → EStateM ε σ α} {z : EStateM ε σ γ} {c : γ}
    (hz : z s = .ok c s') (hmirrors : Mirrors (f c) s' y t post stop) :
    Mirrors (z >>= f) s y t post stop := by
  unfold Mirrors at hmirrors ⊢
  rwa [bind_run hz]

/-- A step that the computation with exceptions does alone. -/
theorem Mirrors.beforeStep {g : κ → EStateM δ τ β} {z : EStateM δ τ κ} {c : κ}
    (hz : z t = .ok c t') (hmirrors : Mirrors x s (g c) t' post stop) :
    Mirrors x s (z >>= g) t post stop := by
  unfold Mirrors at hmirrors ⊢
  rwa [bind_run hz]

/-- A last step that the computation with exceptions does alone. -/
theorem Mirrors.thenStep {g : β → EStateM δ τ κ} {result : α → σ → κ → τ → Prop}
    (hmirrors : Mirrors x s y t post stop)
    (hg : ∀ a s' b t', post a s' b t' → ∃ c t'', g b t' = .ok c t'' ∧ result a s' c t'') :
    Mirrors x s (y >>= g) t result stop := by
  unfold Mirrors at hmirrors
  cases hy : y t with
  | ok b t' =>
      rw [hy] at hmirrors
      obtain ⟨a, s', hx, hab⟩ := hmirrors
      obtain ⟨c, t'', hrun, hac⟩ := hg a s' b t' hab
      exact mirrors_of_ok hx (by rw [bind_run hy, hrun]) hac
  | error e t' =>
      rw [hy] at hmirrors
      exact mirrors_of_error (bind_error hy) hmirrors

theorem tryCatch_run {handle : δ → EStateM δ τ β} {b : β} (hy : y t = .ok b t') :
    (MonadExcept.tryCatch y handle : EStateM δ τ β) t = .ok b t' := by
  change EStateM.tryCatch y handle t = _
  delta EStateM.tryCatch
  rw [hy]

theorem tryCatch_error {handle : δ → EStateM δ τ β} {e : δ} (hy : y t = .error e t') :
    (MonadExcept.tryCatch y handle : EStateM δ τ β) t = handle e t' := by
  change EStateM.tryCatch y handle t = _
  delta EStateM.tryCatch
  rw [hy]
  rfl

/-- Where exceptions are caught. -/
theorem Mirrors.tryCatch {handle : δ → EStateM δ τ β} {x' : EStateM ε σ α}
    (hmirrors : Mirrors x s y t post stop)
    (hok : ∀ a s' b t', x s = .ok a s' → post a s' b t' → Mirrors x' s (pure b) t' post' stop')
    (hstop : ∀ e t', stop e t' (x s) → Mirrors x' s (handle e) t' post' stop') :
    Mirrors x' s (MonadExcept.tryCatch y handle) t post' stop' := by
  unfold Mirrors at hmirrors ⊢
  cases hy : y t with
  | ok b t' =>
      rw [hy] at hmirrors
      rw [tryCatch_run hy]
      obtain ⟨a, s', hx, hab⟩ := hmirrors
      exact hok a s' b t' hx hab
  | error e t' =>
      rw [hy] at hmirrors
      rw [tryCatch_error hy]
      exact hstop e t' hmirrors

end GeckoOS.Math
