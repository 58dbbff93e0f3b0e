/-
# Computations that keep a log

The state is changed by events only, and every event is entered into a log, the newest
first.  So the state at any moment of a run is what the older part of the log makes of the
state at the beginning, also in a run that does not end in a value.

A condition on events, which may depend on the state an event meets, holds of a whole log
if it holds of each event when it is emitted.  `Emits` carries this through the text of a
computation, along with what is known of the state.
-/

import GeckoOS.Math.Outcome

namespace GeckoOS.Math

/-- A state, with the events that have led to it, the newest first. -/
structure Log (σ event : Type) where
  state : σ
  events : List event

variable {ε σ event α β : Type} (apply : event → σ → σ)

/-- What events make of a state. -/
def replay (s : σ) (events : List event) : σ := events.foldr apply s

/-- One more event. -/
def Log.add (e : event) (log : Log σ event) : Log σ event := ⟨apply e log.state, e :: log.events⟩

/-- Let an event happen. -/
def emit (e : event) : EStateM ε (Log σ event) Unit := modify (Log.add apply e)

/-- The state at hand. -/
def look : EStateM ε (Log σ event) σ := do
  let log ← get
  return log.state

/-- The log leads to the state, and each of its events fits the state that it met. -/
structure Every (fits : σ → event → Prop) (s : σ) (log : Log σ event) : Prop where
  state : log.state = replay apply s log.events
  fits : ∀ later e earlier, log.events = later ++ e :: earlier → fits (replay apply s earlier) e

/-- From this state, only events that fit are emitted, and a value comes with a state as
`post` says. -/
def Emits (fits : σ → event → Prop) (x : EStateM ε (Log σ event) α) (s : σ)
    (post : α → σ → Prop) : Prop :=
  ∀ start log, log.state = s → Every apply fits start log →
    (∀ a log', x log = .ok a log' → Every apply fits start log' ∧ post a log'.state) ∧
      ∀ e log', x log = .error e log' → Every apply fits start log'

section

variable {apply} {fits : σ → event → Prop} {s : σ} {log : Log σ event}
  {x y : EStateM ε (Log σ event) α} {f : α → EStateM ε (Log σ event) β} {post post' : α → σ → Prop}
  {result : β → σ → Prop}

theorem Every.start (s : σ) : Every apply fits s ⟨s, []⟩ :=
  ⟨rfl, fun later _ _ hnil => absurd hnil.symm (by simp)⟩

theorem Every.add {start : σ} {e : event} (hlog : Every apply fits start log)
    (he : fits log.state e) : Every apply fits start (log.add apply e) := by
  refine ⟨?_, fun later e' earlier hevents => ?_⟩
  · change apply e log.state = apply e (replay apply start log.events)
    rw [hlog.state]
  · change e :: log.events = later ++ e' :: earlier at hevents
    cases later with
    | nil =>
        obtain ⟨rfl, rfl⟩ := List.cons_eq_cons.mp hevents
        rw [← hlog.state]
        exact he
    | cons first later =>
        obtain ⟨-, hrest⟩ := List.cons_eq_cons.mp hevents
        exact hlog.fits later e' earlier hrest

theorem Emits.mono (hx : Emits apply fits x s post) (hpost : ∀ a s', post a s' → post' a s') :
    Emits apply fits x s post' := by
  intro start log hstate hlog
  obtain ⟨hok, herror⟩ := hx start log hstate hlog
  exact ⟨fun a log' hrun => ⟨(hok a log' hrun).1, hpost a _ (hok a log' hrun).2⟩, herror⟩

theorem emits_pure {a : α} (hpost : post a s) :
    Emits apply fits (pure a : EStateM ε (Log σ event) α) s post := by
  rintro start log rfl hlog
  refine ⟨fun b log' hrun => ?_, fun e log' hrun => ?_⟩
  · cases hrun
    exact ⟨hlog, hpost⟩
  · cases hrun

theorem emits_throw (e : ε) :
    Emits apply fits (throw e : EStateM ε (Log σ event) α) s post := by
  rintro start log rfl hlog
  refine ⟨fun b log' hrun => ?_, fun e log' hrun => ?_⟩
  · cases hrun
  · cases hrun
    exact hlog

theorem emits_emit {e : event} {unit : Unit → σ → Prop} (he : fits s e)
    (hunit : unit () (apply e s)) :
    Emits apply fits (emit apply e : EStateM ε (Log σ event) Unit) s unit := by
  rintro start log rfl hlog
  refine ⟨fun b log' hrun => ?_, fun e log' hrun => ?_⟩
  · cases hrun
    exact ⟨hlog.add he, hunit⟩
  · cases hrun

theorem emits_bind (hx : Emits apply fits x s post)
    (hf : ∀ a s', post a s' → Emits apply fits (f a) s' result) :
    Emits apply fits (x >>= f) s result := by
  intro start log hstate hlog
  obtain ⟨hok, herror⟩ := hx start log hstate hlog
  cases hrun : x log with
  | ok a log' =>
      obtain ⟨hlog', hpost⟩ := hok a log' hrun
      rw [bind_run hrun]
      exact hf a log'.state hpost start log' rfl hlog'
  | error e log' =>
      rw [bind_error hrun]
      refine ⟨fun b log'' hrun' => ?_, fun e' log'' hrun' => ?_⟩
      · cases hrun'
      · cases hrun'
        exact herror e log' hrun

/-- An event, and then the rest. -/
theorem emits_emitBind {e : event} {f : Unit → EStateM ε (Log σ event) β} (he : fits s e)
    (hf : Emits apply fits (f ()) (apply e s) result) :
    Emits apply fits (emit apply e >>= f) s result := by
  have hstep : Emits apply fits (emit apply e : EStateM ε (Log σ event) Unit) s
      fun _ s' => s' = apply e s := emits_emit he rfl
  exact emits_bind hstep fun _ _ hstate => hstate ▸ hf

/-- The state is looked at. -/
theorem emits_look {f : σ → EStateM ε (Log σ event) β} (hf : Emits apply fits (f s) s result) :
    Emits apply fits (look >>= f) s result := by
  intro start log hstate hlog
  subst hstate
  exact hf start log rfl hlog

theorem emits_ite {c : Prop} [Decidable c] (hx : c → Emits apply fits x s post)
    (hy : ¬ c → Emits apply fits y s post) : Emits apply fits (if c then x else y) s post := by
  by_cases hc : c
  · rw [if_pos hc]
    exact hx hc
  · rw [if_neg hc]
    exact hy hc

end

end GeckoOS.Math
