/-
# Nothing happens after the first error

An error is no exception: `eval` returns through all the code that is in progress, and
each part of it has to notice.  Behind every evaluation of a node the code looks at the
error before it prints, reads or sets anything, and `eval` itself begins so.

In the log of a run this is a condition on each event: where there is an error already, all
that may happen is an access, a variable that goes with its call, and a change of the depth
or of a flag.
-/

import GeckoOS.Gk.Erasure

namespace GeckoOS.Gk

open GeckoOS.Math

/-- Nothing is printed or read, no variable is made or changed, no function defined and no
error entered. -/
def Event.quiet : Event → Bool
  | .print _ | .read | .update _ _ | .bind _ _ | .define _ | .fail _ => false
  | _ => true

/-- After an error, only quiet events. -/
def QuietAfterError (s : GkState) (e : Event) : Prop := s.error ≠ [] → e.quiet

/-- What quiet events leave as it was. -/
structure Unchanged (s s' : GkState) : Prop where
  output : s'.output = s.output
  typed : s'.typed = s.typed
  funcs : s'.funcs = s.funcs
  error : s'.error = s.error
  /-- Variables only go. -/
  vars : s'.vars <:+ s.vars

theorem Unchanged.refl (s : GkState) : Unchanged s s := ⟨rfl, rfl, rfl, rfl, List.suffix_rfl⟩

theorem Event.unchanged {e : Event} (hquiet : e.quiet) {s s' : GkState} (hs : Unchanged s s') :
    Unchanged s (e.apply s') := by
  cases e with
  | pop => exact ⟨hs.output, hs.typed, hs.funcs, hs.error, (List.tail_suffix _).trans hs.vars⟩
  | print text => cases hquiet
  | read => cases hquiet
  | update name val => cases hquiet
  | bind name val => cases hquiet
  | define f => cases hquiet
  | fail text => cases hquiet
  | _ => exact ⟨hs.output, hs.typed, hs.funcs, hs.error, hs.vars⟩

theorem unchanged_replay {later : List Event} (hquiet : ∀ e ∈ later, e.quiet) (s : GkState) :
    Unchanged s (replay Event.apply s later) := by
  induction later with
  | nil => exact .refl s
  | cons e later ih =>
      exact Event.unchanged (hquiet e List.mem_cons_self)
        (ih fun e' he' => hquiet e' (List.mem_cons_of_mem _ he'))

/-- If each event fits, then all are quiet from the first error on. -/
theorem quiet_of_every {s : GkState} {log : Log GkState Event}
    (hlog : Every Event.apply QuietAfterError s log) {later earlier : List Event}
    (hevents : log.events = later ++ earlier) (herror : (replay Event.apply s earlier).error ≠ []) :
    ∀ e ∈ later, e.quiet := by
  have hall : ∀ later newer, log.events = newer ++ (later ++ earlier) → ∀ e ∈ later, e.quiet := by
    intro later
    induction later with
    | nil => exact fun _ _ _ he => absurd he List.not_mem_nil
    | cons e later ih =>
        intro newer hevents e' he'
        have hlater := ih (newer ++ [e]) (by rw [hevents, List.append_assoc]; rfl)
        rcases List.mem_cons.mp he' with rfl | he'
        · refine hlog.fits newer e' (later ++ earlier) hevents ?_
          rw [replay, List.foldr_append]
          exact (unchanged_replay hlater (replay Event.apply s earlier)).error ▸ herror
        · exact hlater e' he'
  exact hall later [] hevents

/-! ## The parts of the interpreter -/

section

variable {s : GkState} {α : Type} {post : α → GkState → Prop}

/-- Whatever there is in the log, it is quiet behind an error. -/
def Orderly (x : Traced α) (s : GkState) : Prop :=
  Emits Event.apply QuietAfterError x s fun _ _ => True

theorem allows_quiet (s : GkState) (buffer : Buffer) (n : Nat) :
    Allows QuietAfterError s buffer n := fun _ _ _ => rfl

theorem quiet_access (s : GkState) (buffer : Buffer) (i : Int) :
    QuietAfterError s (.access buffer i) := fun _ => rfl

/-- Where there is no error, everything may happen. -/
theorem fits_of_ok (hok : s.error = []) (e : Event) : QuietAfterError s e :=
  fun herror => absurd hok herror

theorem orderly_pure (a : α) : Orderly (pure a) s := emits_pure trivial

theorem orderly_bind {β : Type} {x : Traced β} {f : β → Traced α} (hx : Orderly x s)
    (hf : ∀ a s, Orderly (f a) s) : Orderly (x >>= f) s :=
  emits_bind hx fun a s' _ => hf a s'

theorem orderly_unlessFailed {early : α} {more : Traced α}
    (hmore : s.error = [] → Orderly more s) :
    Orderly (Traced.failed >>= fun stop => if stop then pure early else more) s :=
  emits_unlessFailed (quiet_access _ _ _) (fun _ => trivial) hmore

theorem orderly_failWith (hok : s.error = []) (text : Text) : Orderly (Traced.failWith text) s :=
  orderly_bind (emits_setError (allows_quiet _ _ _) (fits_of_ok hok _) trivial)
    fun _ _ => orderly_pure _

theorem orderly_failWithName (hok : s.error = []) (text name : Text) :
    Orderly (Traced.failWithName text name) s :=
  emits_touchToBind (allows_quiet _ _ _) (emits_strcat (allows_quiet _ _ _) (allows_quiet _ _ _)
    (allows_quiet _ _ _) (emits_emitBind (fits_of_ok hok _) (orderly_pure _)))

/-- Behind a set variable there is still no error. -/
theorem emits_setVar (hok : s.error = []) (src : Buffer) (name : Text) (val : Value) :
    Emits Event.apply QuietAfterError (Traced.setVar src name val) s
      fun ok s' => ok = true → s'.error = [] := by
  refine emits_look (emits_keepBind (emits_findOwn val (fun _ _ => quiet_access _ _ _)
    fun _ _ => ⟨allows_quiet _ _ _, allows_quiet _ _ _⟩) ?_)
  refine emits_ite (fun _ => ?_) fun _ => emits_ite (fun _ => ?_) fun _ => ?_
  · exact emits_emitBind (fits_of_ok hok _) (emits_pure fun _ => hok)
  · have hset : Orderly (Traced.setError (ascii "too many variables")) s :=
      emits_setError (allows_quiet _ _ _) (fits_of_ok hok _) trivial
    exact emits_bind hset fun _ _ _ => emits_pure fun hno => absurd hno Bool.false_ne_true
  · refine emits_touch (quiet_access _ _ _)
      (emits_strcpy (allows_quiet _ _ _) (allows_quiet _ _ _) ?_)
    exact emits_emitBind (fits_of_ok hok _) (emits_pure fun _ => hok)

theorem orderly_bindParams (hok : s.error = []) (i : Nat) (params : List Text) (args : List Value) :
    Orderly (Traced.bindParams i params args) s := by
  induction params generalizing i args s with
  | nil => exact orderly_pure _
  | cons param params ih =>
      cases args with
      | nil => exact orderly_pure _
      | cons arg args =>
          refine emits_touch (quiet_access _ _ _) (emits_touch (quiet_access _ _ _) ?_)
          refine emits_bind (emits_setVar hok _ _ _) fun ok s hset => ?_
          exact emits_ite (fun htrue => ih (hset htrue) _ _) fun _ => orderly_pure _

/-- A loop goes on only where there is no error. -/
theorem emits_afterRound (s : GkState) : Emits Event.apply QuietAfterError Traced.afterRound s
    fun go s' => go = true → s'.error = [] := by
  refine emits_touch (quiet_access _ _ _) (emits_look (emits_ite (fun _ => ?_) fun hgo => ?_))
  · exact emits_pure fun hno => absurd hno Bool.false_ne_true
  · have hok : s.error = [] := of_not_not (not_or.mp hgo).1
    refine emits_ite (fun _ => ?_) fun _ => ?_
    · exact emits_emitBind (fits_of_ok hok _) (emits_pure fun hno => absurd hno Bool.false_ne_true)
    · exact emits_emitBind (fits_of_ok hok _) (emits_pure fun _ => hok)

theorem orderly_leaveCall (result : Value) (s : GkState) : Orderly (do
    let s ← look
    if s.returning then Traced.event .returned
    Traced.popScope
    Traced.event (.depth (-1))
    return if s.returning then s.returnVal else result) s := by
  have hpop : ∀ (v : Value) s, Orderly (do
      Traced.popScope
      Traced.event (.depth (-1))
      return v) s := fun v s => by
    refine orderly_bind (emits_look ?_) fun _ s => emits_emitBind (fun _ => rfl) (orderly_pure v)
    exact (emits_popVars rfl (fun _ _ => rfl) fun _ _ _ => quiet_access _ _ _).mono
      fun _ _ _ => trivial
  refine emits_look (emits_ite (fun _ => ?_) fun _ => hpop _ s)
  exact emits_emitBind (fun _ => rfl) (hpop _ _)

theorem orderly_evalDef (hok : s.error = []) (node : Node) : Orderly (Traced.evalDef node) s := by
  refine emits_look (emits_ite (fun _ => orderly_failWith hok _) fun _ => ?_)
  refine emits_touch (quiet_access _ _ _)
    (emits_strcpy (allows_quiet _ _ _) (allows_quiet _ _ _) ?_)
  refine emits_keepBind (emits_copyParams (fun _ _ => ⟨quiet_access _ _ _, quiet_access _ _ _⟩)
    fun _ _ => ⟨quiet_access _ _ _, allows_quiet _ _ _, allows_quiet _ _ _⟩) ?_
  exact emits_touch (quiet_access _ _ _) (emits_emitBind (fits_of_ok hok _) (orderly_pure _))

theorem orderly_binopTexts (op : Option TokenType) (l r : Value) :
    Emits Event.apply QuietAfterError (Traced.binopTexts op l r) s fun b s' => b = () ∧ s' = s := by
  have hstreq : ∀ a b : Text, Emits Event.apply QuietAfterError (Traced.streq .str .str a b) s
      fun b s' => b = () ∧ s' = s := fun a b =>
    emits_touchToBind (allows_quiet _ _ _)
      ((emits_touchTo (allows_quiet _ _ _)).mono fun _ _ hs => ⟨rfl, hs⟩)
  unfold Traced.binopTexts
  split
  · refine emits_strcpy (allows_quiet _ _ _) (allows_quiet _ _ _) ?_
    refine emits_valToStr (fun _ _ => allows_quiet _ _ _) (allows_quiet _ _ _) ?_
    refine emits_strcat (allows_quiet _ _ _) (allows_quiet _ _ _) (allows_quiet _ _ _) ?_
    exact emits_touchToBind (allows_quiet _ _ _)
      ((emits_touchTo (allows_quiet _ _ _)).mono fun _ _ hs => ⟨rfl, hs⟩)
  · exact hstreq _ _
  · exact hstreq _ _
  · exact emits_pure ⟨rfl, rfl⟩

theorem orderly_operate {x : Eval Value} (hx : Operator x) (hok : s.error = []) :
    Orderly (Traced.operate x) s := by
  refine emits_look ?_
  obtain ⟨v, rfl⟩ | ⟨text, hsome, rfl⟩ := hx
  · change Orderly (do
      if s.error ≠ [] then Traced.setError s.error
      return v) s
    rw [if_neg (not_not.mpr hok)]
    exact orderly_pure v
  · change Orderly (do
      if text ≠ [] then Traced.setError text
      return Value.none) s
    rw [if_pos hsome]
    exact orderly_failWith hok text

end

section

variable {s : GkState} {evalNode : Int → Traced Value} (heval : ∀ c s, Orderly (evalNode c) s)

include heval

/-- A child is evaluated, with or without an error. -/
theorem orderly_child {α : Type} (node : Node) (i : Nat) {f : Value → Traced α}
    (hf : ∀ v s, Orderly (f v) s) :
    Orderly (Traced.childAt node i >>= fun c => evalNode c >>= f) s :=
  emits_childAt (quiet_access _ _ _) (orderly_bind (heval _ s) hf)

theorem orderly_evalLogic (stop : Bool) (node : Node) :
    Orderly (Traced.evalLogic evalNode stop node) s :=
  orderly_child heval node 0 fun _ _ => emits_ite (fun _ => orderly_pure _) fun _ =>
    orderly_child heval node 1 fun _ _ => orderly_pure _

theorem orderly_evalPrint (hok : s.error = []) (i : Nat) (children : List Nat) :
    Orderly (Traced.evalPrint evalNode i children) s := by
  induction children generalizing i s with
  | nil => exact emits_emitBind (fits_of_ok hok _) (orderly_pure _)
  | cons c more ih =>
      refine emits_touch (quiet_access _ _ _) (orderly_bind (heval c s) fun v s => ?_)
      refine orderly_unlessFailed fun hok => emits_valToStr (fun _ _ => allows_quiet _ _ _)
        (allows_quiet _ _ _) (emits_emitBind (fits_of_ok hok _) ?_)
      refine emits_ite (fun _ => ?_) fun _ => @ih (Event.apply (.print (valToStr v)) s) hok _
      exact emits_emitBind (fits_of_ok hok _)
        (@ih (Event.apply (.print (ascii " ")) (Event.apply (.print (valToStr v)) s)) hok _)

theorem orderly_evalInput (hok : s.error = []) (node : Node) :
    Orderly (Traced.evalInput evalNode node) s := by
  have hread : ∀ s : GkState, s.error = [] → Orderly (do
      let line ← Traced.readLine (maxStr - 2)
      Traced.gkPrint (ascii "\n")
      Traced.strcpy .str .str line
      return Value.str line) s := by
    intro s hok
    have hline : Emits Event.apply QuietAfterError (Traced.readLine (maxStr - 2)) s
        fun _ s' => s'.error = [] := by
      refine emits_touch (quiet_access _ _ _) (emits_look (emits_emitBind (fits_of_ok hok _) ?_))
      exact emits_touchToBind (allows_quiet _ _ _) (emits_pure hok)
    refine emits_bind hline fun line s hok => emits_emitBind (fits_of_ok hok _) ?_
    exact emits_strcpy (allows_quiet _ _ _) (allows_quiet _ _ _) (orderly_pure _)
  refine emits_ite (fun _ => orderly_child heval node 0 fun prompt s => ?_) fun _ => hread s hok
  refine orderly_unlessFailed fun hok => emits_valToStr (fun _ _ => allows_quiet _ _ _)
    (allows_quiet _ _ _) (emits_emitBind (fits_of_ok hok _) (hread _ hok))

theorem orderly_evalIntCast (hok : s.error = []) (node : Node) :
    Orderly (Traced.evalIntCast evalNode node) s := by
  refine emits_ite (fun _ => orderly_failWith hok _) fun _ =>
    orderly_child heval node 0 fun v s => ?_
  refine orderly_unlessFailed fun hok => ?_
  cases v with
  | int v => exact orderly_pure _
  | str text =>
      refine emits_touchToBind (allows_quiet _ _ _) ?_
      cases intOfText text with
      | none => exact orderly_failWith hok _
      | some v => exact orderly_pure _
  | bool v => exact orderly_failWith hok _
  | none => exact orderly_failWith hok _

theorem orderly_evalBlock (i : Nat) (children : List Nat) (last : Value) :
    Orderly (Traced.evalBlock evalNode i children last) s := by
  induction children generalizing i last s with
  | nil => exact orderly_pure _
  | cons c more ih =>
      refine emits_touch (quiet_access _ _ _) (orderly_bind (heval c s) fun last s => ?_)
      refine emits_touch (quiet_access _ _ _) (emits_look ?_)
      exact emits_ite (fun _ => orderly_pure _) fun _ => ih _ _

/-- A round of a loop's body, and what comes behind it where there is no error. -/
theorem orderly_afterBody (node : Node) {more : Value → Traced Value}
    (hmore : ∀ result s, s.error = [] → Orderly (more result) s) : Orderly (do
      let result ← evalNode (← Traced.childAt node 1)
      if ← Traced.afterRound then more result else return result) s :=
  orderly_child heval node 1 fun result s => emits_bind (emits_afterRound s) fun _ s hgo =>
    emits_ite (fun htrue => hmore result s (hgo htrue)) fun _ => orderly_pure _

theorem orderly_evalWhile (node : Node) (fuel : Nat) (result : Value) :
    Orderly (Traced.evalWhile evalNode node fuel result) s := by
  induction fuel generalizing result s with
  | zero => exact emits_throw _
  | succ fuel ih =>
      refine orderly_child heval node 0 fun cond s => emits_failed (quiet_access _ _ _) ?_
      exact emits_ite (fun _ => orderly_pure _) fun _ =>
        orderly_afterBody heval node fun result _ _ => ih result

theorem orderly_evalRounds (hok : s.error = []) (node : Node) (left : Nat) (i : Int32)
    (result : Value) : Orderly (Traced.evalRounds evalNode node left i result) s := by
  induction left generalizing i result s with
  | zero => exact orderly_pure _
  | succ left ih =>
      refine emits_bind (emits_setVar hok _ _ _) fun _ s _ =>
        emits_ite (fun _ => orderly_pure _) fun _ => ?_
      exact orderly_afterBody heval node fun result _ hok => ih hok (i + 1) result

theorem orderly_evalFor (hok : s.error = []) (node : Node) :
    Orderly (Traced.evalFor evalNode node) s := by
  refine emits_childAt (quiet_access _ _ _) (emits_nodeAt (quiet_access _ _ _) ?_)
  refine emits_ite (fun _ => orderly_failWith hok _) fun _ => ?_
  split_ifs
  all_goals
    refine orderly_child heval _ 0 fun v s => ?_
    refine orderly_unlessFailed fun hok => ?_
    cases v with
    | int limit => exact orderly_evalRounds heval hok node _ _ _
    | str text => exact orderly_failWith hok _
    | bool v => exact orderly_failWith hok _
    | none => exact orderly_failWith hok _

theorem emits_evalArgs (hok : s.error = []) (i : Nat) (children : List Nat) :
    Emits Event.apply QuietAfterError (Traced.evalArgs evalNode i children) s
      fun args s' => args ≠ none → s'.error = [] := by
  induction children generalizing i s with
  | nil => exact emits_pure fun _ => hok
  | cons c more ih =>
      refine emits_touch (quiet_access _ _ _) (emits_bind (heval c s) fun v s _ => ?_)
      refine emits_touch (quiet_access _ _ _) (emits_unlessFailed (quiet_access _ _ _)
        (fun _ hnone => absurd rfl hnone) fun hok => ?_)
      refine emits_bind (ih hok _) fun args s hargs => emits_pure fun hsome => hargs ?_
      rintro rfl
      exact hsome rfl

theorem orderly_evalCall (hok : s.error = []) (node : Node) :
    Orderly (Traced.evalCall evalNode node) s := by
  refine emits_look (emits_keepBind (emits_findFunc (fun _ _ => quiet_access _ _ _)
    fun _ _ => ⟨allows_quiet _ _ _, allows_quiet _ _ _⟩) ?_)
  cases findFunc s.funcs node.strVal with
  | none => exact orderly_failWithName hok _ _
  | some f =>
      refine emits_ite (fun _ => orderly_failWith hok _) fun _ =>
        emits_ite (fun _ => orderly_failWith hok _) fun _ => ?_
      refine emits_bind (emits_evalArgs heval hok 0 node.child) fun args s hargs => ?_
      cases args with
      | none => exact orderly_pure _
      | some args =>
          have hok := hargs (Option.some_ne_none args)
          refine emits_emitBind (fun _ => rfl) ?_
          refine orderly_bind (@orderly_bindParams (Event.apply (.depth 1) s) hok 0 _ _) fun ok s =>
            emits_ite (fun _ => ?_) fun _ => ?_
          · exact emits_emitBind (fun _ => rfl) (orderly_pure _)
          · exact orderly_bind (heval _ s) fun result s => orderly_leaveCall result s

theorem orderly_evalCases (hok : s.error = []) (fuel : Nat) (node : Node) :
    Orderly (Traced.evalCases evalNode fuel node) s := by
  unfold Traced.evalCases
  cases node.type with
  | int => exact orderly_pure _
  | str => exact emits_strcpy (allows_quiet _ _ _) (allows_quiet _ _ _) (orderly_pure _)
  | bool => exact orderly_pure _
  | var =>
      refine emits_look (emits_keepBind (emits_findVar (fun _ _ => quiet_access _ _ _)
        fun _ _ => ⟨allows_quiet _ _ _, allows_quiet _ _ _⟩) ?_)
      cases findVar s.vars node.strVal with
      | none => exact orderly_failWithName hok _ _
      | some v => exact orderly_pure _
  | assign =>
      refine orderly_child heval node 0 fun val s => orderly_unlessFailed fun hok => ?_
      exact emits_bind (emits_setVar hok _ _ _) fun _ _ _ =>
        emits_ite (fun _ => orderly_pure _) fun _ => orderly_pure _
  | unop =>
      exact orderly_child heval node 0 fun v s => orderly_unlessFailed fun hok =>
        orderly_operate (evalUnop_operator _ v) hok
  | binop =>
      refine emits_ite (fun _ => orderly_evalLogic heval _ node) fun _ =>
        emits_ite (fun _ => orderly_evalLogic heval _ node) fun _ => ?_
      refine orderly_child heval node 0 fun l s => orderly_unlessFailed fun hok =>
        orderly_child heval node 1 fun r s => orderly_unlessFailed fun hok => ?_
      exact emits_keepBind (orderly_binopTexts _ l r)
        (orderly_operate (evalBinop_operator _ l r) hok)
  | print => exact orderly_evalPrint heval hok 0 node.child
  | input => exact orderly_evalInput heval hok node
  | intCast => exact orderly_evalIntCast heval hok node
  | block => exact orderly_evalBlock heval 0 node.child .none
  | if_ =>
      refine orderly_child heval node 0 fun cond s => orderly_unlessFailed fun hok => ?_
      refine emits_ite (fun _ => emits_childAt (quiet_access _ _ _) (heval _ s)) fun _ => ?_
      exact emits_ite (fun _ => emits_childAt (quiet_access _ _ _) (heval _ s)) fun _ =>
        orderly_pure _
  | while_ => exact orderly_evalWhile heval node fuel .none
  | for_ => exact orderly_evalFor heval hok node
  | def_ => exact orderly_evalDef hok node
  | call => exact orderly_evalCall heval hok node
  | return_ =>
      refine emits_ite (fun _ => emits_emitBind (fits_of_ok hok _) (orderly_pure _)) fun _ => ?_
      exact orderly_child heval node 0 fun v s => orderly_unlessFailed fun hok =>
        emits_emitBind (fits_of_ok hok _) (orderly_pure _)
  | break_ => exact emits_emitBind (fits_of_ok hok _) (orderly_pure _)
  | continue_ => exact emits_emitBind (fits_of_ok hok _) (orderly_pure _)
  | range => exact orderly_failWith hok _

end

theorem orderly_eval (fuel : Nat) (c : Int) (s : GkState) : Orderly (Traced.eval fuel c) s := by
  induction fuel generalizing c s with
  | zero => exact emits_throw _
  | succ fuel ih =>
      refine emits_ite (fun _ => orderly_pure _) fun _ => orderly_unlessFailed fun hok => ?_
      exact emits_nodeAt (quiet_access _ _ _) (orderly_evalCases ih hok fuel _)

/-! ## Runs -/

/-- The log of a run of `eval`, as far as the bound lets it go. -/
def runLog (s : GkState) (fuel : Nat) (c : Int) : Log GkState Event :=
  lastState (Traced.eval fuel c ⟨s, []⟩)

/-- It leads to the state in which `eval` ends. -/
theorem runLog_state (s : GkState) (fuel : Nat) (c : Int) :
    (runLog s fuel c).state = lastState (eval fuel c s) := by
  have hsame := erases_eval fuel c ⟨s, []⟩ rfl
  rw [runLog]
  cases hrun : Traced.eval fuel c ⟨s, []⟩ with
  | ok v log =>
      rw [hrun] at hsame
      cases heval : eval fuel c s with
      | ok v' s' =>
          rw [heval] at hsame
          exact hsame.2
      | error e s' =>
          rw [heval] at hsame
          exact absurd hsame id
  | error e log =>
      rw [hrun] at hsame
      cases heval : eval fuel c s with
      | ok v' s' =>
          rw [heval] at hsame
          exact absurd hsame id
      | error e' s' =>
          rw [heval] at hsame
          exact hsame.2

/-- The log of a run, each of whose events fits. -/
theorem runLog_every {fits : GkState → Event → Prop} {s : GkState} {fuel : Nat} {c : Int}
    {post : Value → GkState → Prop}
    (hemits : Emits Event.apply fits (Traced.eval fuel c) s post) :
    Every Event.apply fits s (runLog s fuel c) := by
  obtain ⟨hok, herror⟩ := hemits s ⟨s, []⟩ rfl (.start s)
  rw [runLog]
  cases hrun : Traced.eval fuel c ⟨s, []⟩ with
  | ok v log => exact (hok v log hrun).1
  | error e log => exact herror e log hrun

/-- **First error.**  From the moment of a run at which there is an error, all events are
quiet, and in the end the state is what it was then, but for variables that are gone and the
depth and the flags. -/
theorem quiet_after_error {s : GkState} {fuel : Nat} {c : Int} {later earlier : List Event}
    (hevents : (runLog s fuel c).events = later ++ earlier)
    (herror : (replay Event.apply s earlier).error ≠ []) :
    (∀ e ∈ later, e.quiet) ∧
      Unchanged (replay Event.apply s earlier) (lastState (eval fuel c s)) := by
  have hlog := runLog_every (orderly_eval fuel c s)
  have hquiet := quiet_of_every hlog hevents herror
  refine ⟨hquiet, ?_⟩
  have hstate : lastState (eval fuel c s) =
      replay Event.apply (replay Event.apply s earlier) later := by
    rw [← runLog_state, hlog.state, hevents, replay, List.foldr_append]
    rfl
  rw [hstate]
  exact unchanged_replay hquiet _

/-- A program that fails in a call. -/
def failing : List Token :=
  (gkLex [] (ascii "def f(x):\n    return 1 / x\nprint(f(0))\nprint(2)\n")).2.tokens

/-- The state before it runs. -/
def beforeFailing : GkState :=
  match gkParse failing with
  | .ok _ p => .start p.nodes []
  | .error _ p => .start p.nodes []

/-- The events from the division on. -/
theorem quiet_after_error_failing :
    (∀ e ∈ (runLog beforeFailing 9 0).events.take 7, e.quiet) ∧
      Unchanged (replay Event.apply beforeFailing ((runLog beforeFailing 9 0).events.drop 7))
        (lastState (eval 9 0 beforeFailing)) :=
  quiet_after_error (List.take_append_drop 7 _).symm (by decide +kernel)

end GeckoOS.Gk
