/-
# Without its log, the interpreter is `eval`

The interpreter with a log ends in the same values and the same states as `eval`, and stops
with `eval` where the bound is too small.  So what is shown of its log is shown of the runs
of `eval`.
-/

import GeckoOS.Gk.Scoping
import GeckoOS.Gk.Traced

namespace GeckoOS.Gk

open GeckoOS.Math

variable {α β : Type} {s : GkState}

/-- From this state, both end in the same way. -/
def Erases (x : Traced α) (y : Eval α) (s : GkState) : Prop :=
  ∀ log, log.state = s → SameEnd (fun _ log s => log.state = s) (fun log s => log.state = s)
    (x log) (y s)

/-- Only indices are used, and this is the value. -/
def Yields (x : Traced α) (a : α) : Prop :=
  ∀ log, ∃ log', x log = .ok a log' ∧ log'.state = log.state

/-! ## Rules -/

theorem erases_pure (a : α) : Erases (pure a) (pure a) s := fun _ hstate => ⟨rfl, hstate⟩

theorem erases_bind {x : Traced α} {y : Eval α} {f : α → Traced β} {g : α → Eval β}
    (hx : Erases x y s) (hf : ∀ a s', Erases (f a) (g a) s') : Erases (x >>= f) (y >>= g) s := by
  intro log hstate
  have halike : Alike (fun _ => False) (fun log s => log.state = s) (x >>= f) (y >>= g) log s
      fun _ log s => log.state = s :=
    alike_bind (.inr (hx log hstate)) (fun a log' s' hstate' => .inr (hf a s' log' hstate'))
      fun _ _ hfalse => hfalse.elim
  exact halike.resolve_left id

theorem erases_yields {x : Traced α} {a : α} {f : α → Traced β} {y : Eval β} (hx : Yields x a)
    (hf : Erases (f a) y s) : Erases (x >>= f) y s := by
  intro log hstate
  obtain ⟨log', hrun, hsame⟩ := hx log
  rw [bind_run hrun]
  exact hf log' (hsame.trans hstate)

theorem erases_look {f : GkState → Traced α} {y : Eval α} (hf : Erases (f s) y s) :
    Erases (look >>= f) y s := by
  intro log hstate
  have hrun : (look : Traced GkState) log = .ok s log := congrArg (EStateM.Result.ok · log) hstate
  rw [bind_run hrun]
  exact hf log hstate

theorem erases_get {x : Traced α} {g : GkState → Eval α} (hx : Erases x (g s) s) :
    Erases x (get >>= g) s := hx

theorem erases_event {e : Event} {y : Eval Unit} (hy : y s = .ok () (e.apply s)) :
    Erases (Traced.event e) y s := by
  rintro log rfl
  rw [hy]
  exact ⟨rfl, rfl⟩

theorem erases_ite {c : Prop} [Decidable c] {x x' : Traced α} {y y' : Eval α}
    (hx : c → Erases x y s) (hy : ¬ c → Erases x' y' s) :
    Erases (if c then x else x') (if c then y else y') s := by
  by_cases hc : c
  · rw [if_pos hc, if_pos hc]
    exact hx hc
  · rw [if_neg hc, if_neg hc]
    exact hy hc

theorem erases_throw : Erases (throw .outOfFuel : Traced α) (throw .outOfFuel) s :=
  fun _ hstate => ⟨rfl, hstate⟩

theorem yields_pure (a : α) : Yields (pure a) a := fun log => ⟨log, rfl, rfl⟩

theorem yields_bind {x : Traced α} {a : α} {f : α → Traced β} {b : β} (hx : Yields x a)
    (hf : Yields (f a) b) : Yields (x >>= f) b := by
  intro log
  obtain ⟨log', hrun, hsame⟩ := hx log
  obtain ⟨log'', hrun', hsame'⟩ := hf log'
  exact ⟨log'', (bind_run hrun).trans hrun', hsame'.trans hsame⟩

theorem yields_ite {c : Prop} [Decidable c] {x y : Traced α} {a : α} (hx : c → Yields x a)
    (hy : ¬ c → Yields y a) : Yields (if c then x else y) a := by
  by_cases hc : c
  · rw [if_pos hc]
    exact hx hc
  · rw [if_neg hc]
    exact hy hc

/-! ## Indices and texts -/

theorem yields_touch (buffer : Buffer) (index : Int) : Yields (Traced.touch buffer index) () :=
  fun _ => ⟨_, rfl, rfl⟩

theorem yields_touchTo (buffer : Buffer) (n : Nat) : Yields (Traced.touchTo buffer n) () := by
  induction n with
  | zero => exact yields_touch buffer 0
  | succ n ih => exact yields_bind ih (yields_touch buffer (n + 1))

theorem yields_strcpy (dst src : Buffer) (text : Text) : Yields (Traced.strcpy dst src text) () :=
  yields_bind (yields_touchTo _ _) (yields_touchTo _ _)

theorem yields_streq (left right : Buffer) (a b : Text) : Yields (Traced.streq left right a b) () :=
  yields_bind (yields_touchTo _ _) (yields_touchTo _ _)

theorem yields_strcat (dst src : Buffer) (start text : Text) :
    Yields (Traced.strcat dst src start text) () :=
  yields_bind (yields_touchTo _ _) (yields_bind (yields_touchTo _ _) (yields_touchTo _ _))

theorem yields_valToStr (v : Value) : Yields (Traced.valToStr v) (valToStr v) := by
  have hrest : Yields (do
      Traced.touchTo .str (valToStr v).length
      return valToStr v) (valToStr v) := yields_bind (yields_touchTo _ _) (yields_pure _)
  cases v with
  | int v =>
      refine yields_ite (fun _ => ?_) fun _ => ?_
      · exact yields_bind (yields_touchTo _ _) hrest
      · exact hrest
  | str text => exact yields_bind (yields_touchTo _ _) hrest
  | bool v => exact hrest
  | none => exact hrest

theorem erases_setError (text : Text) : Erases (Traced.setError text) (setError text) s :=
  erases_yields (yields_touchTo _ _) (erases_event rfl)

theorem erases_failWith (text : Text) : Erases (Traced.failWith text) (failWith text) s :=
  erases_bind (erases_setError text) fun _ _ => erases_pure _

theorem erases_failWithName (text name : Text) :
    Erases (Traced.failWithName text name) (failWith (strcat text name)) s :=
  erases_yields (yields_touchTo _ _) (erases_yields (yields_strcat _ _ _ _)
    (erases_bind (y := setError (strcat text name)) (erases_event rfl) fun _ _ => erases_pure _))

theorem erases_failed : Erases Traced.failed failed s :=
  erases_yields (yields_touch _ _) (erases_look (erases_get (erases_pure _)))

theorem erases_failedBind {f : Bool → Traced α} {y : Eval α}
    (hf : Erases (f (decide (s.error ≠ []))) y s) : Erases (Traced.failed >>= f) y s := by
  intro log hstate
  obtain ⟨log', htouch, hsame⟩ := yields_touch .error 0 log
  have hrun : Traced.failed log = .ok (decide (log'.state.error ≠ [])) log' := by
    rw [Traced.failed, bind_run htouch]
    rfl
  rw [bind_run hrun, hsame, hstate]
  exact hf log' (hsame.trans hstate)

theorem erases_gkPrint (text : Text) : Erases (Traced.gkPrint text) (gkPrint text) s :=
  erases_event rfl

theorem erases_readLine (size : Nat) : Erases (Traced.readLine size) (readLine size) s := by
  refine erases_yields (yields_touch _ _) (erases_look (erases_get ?_))
  refine erases_bind (erases_event rfl) fun _ _ => ?_
  exact erases_yields (yields_touchTo _ _) (erases_pure _)

/-! ## Variables -/

theorem findVar_cons (v : Var) (older : List Var) (name : Text) :
    findVar (v :: older) name = if v.name = name then some v else findVar older name := by
  by_cases hname : v.name = name
  · simp [findVar, hname]
  · simp [findVar, hname]

theorem findFunc_cons (f : FuncDef) (newer : List FuncDef) (name : Text) :
    findFunc (f :: newer) name = if f.name = name then some f else findFunc newer name := by
  by_cases hname : f.name = name
  · simp [findFunc, hname]
  · simp [findFunc, hname]

theorem yields_findVar (name : Text) (vars : List Var) :
    Yields (Traced.findVar name vars) (findVar vars name) := by
  induction vars with
  | nil => exact yields_pure none
  | cons v older ih =>
      rw [findVar_cons]
      refine yields_bind (yields_touch _ _) (yields_bind (yields_streq _ _ _ _) ?_)
      refine yields_ite (fun hname => ?_) fun hname => ?_
      · rw [if_pos hname]
        exact yields_pure _
      · rw [if_neg hname]
        exact ih

theorem yields_findOwn (depth : Int) (src : Buffer) (name : Text) (val : Value) (vars : List Var) :
    Yields (Traced.findOwn depth src name vars) (updateVar depth name val vars).isSome := by
  induction vars with
  | nil => exact yields_pure false
  | cons v older ih =>
      rw [updateVar]
      refine yields_bind (yields_touch _ _) (yields_ite (fun hbelow => ?_) fun hbelow => ?_)
      · rw [if_pos hbelow]
        exact yields_pure false
      · rw [if_neg hbelow]
        refine yields_bind (yields_streq _ _ _ _) (yields_ite (fun hname => ?_) fun hname => ?_)
        · rw [if_pos hname]
          exact yields_pure true
        · rw [if_neg hname, Option.isSome_map]
          exact ih

theorem erases_setVar (src : Buffer) (name : Text) (val : Value) :
    Erases (Traced.setVar src name val) (setVar name val) s := by
  refine erases_look (erases_get (erases_yields (yields_findOwn _ src name val _) ?_))
  cases hupdate : updateVar s.callDepth name val s.vars with
  | some vars =>
      refine erases_bind (y := set { s with vars := vars }) (erases_event ?_) fun _ _ =>
        erases_pure _
      rw [Event.apply, hupdate]
      rfl
  | none =>
      rw [Option.isSome_none, if_neg Bool.false_ne_true]
      refine erases_ite (fun _ => ?_) fun _ => ?_
      · exact erases_bind (erases_setError _) fun _ _ => erases_pure _
      · refine erases_yields (yields_touch _ _) (erases_yields (yields_strcpy _ _ _) ?_)
        exact erases_bind (erases_event rfl) fun _ _ => erases_pure _

theorem popVars_run (depth : Int) (vars : List Var) : ∀ log : Log GkState Event,
    log.state.vars = vars → ∃ log', Traced.popVars depth vars log = .ok () log' ∧
      log'.state = { log.state with vars := varsBelow depth vars } := by
  induction vars with
  | nil =>
      intro log hvars
      exact ⟨log, rfl, by rw [varsBelow, List.dropWhile_nil, ← hvars]⟩
  | cons v older ih =>
      intro log hvars
      obtain ⟨log', htouch, hsame⟩ := yields_touch .vars older.length log
      rw [Traced.popVars, bind_run htouch]
      by_cases hdepth : depth ≤ v.scope
      · have hpop : Traced.event .pop log' = .ok () (log'.add Event.apply .pop) := rfl
        obtain ⟨log'', hrun, hstate⟩ := ih (log'.add Event.apply .pop)
          (by rw [Log.add, Event.apply, hsame, hvars]; rfl)
        refine ⟨log'', ?_, ?_⟩
        · rw [if_pos hdepth, bind_run hpop, hrun]
        · rw [hstate, varsBelow_cons hdepth, Log.add, Event.apply, hsame]
      · rw [if_neg hdepth]
        refine ⟨log', rfl, ?_⟩
        rw [hsame, varsBelow_stop (not_le.mp hdepth), ← hvars]

theorem erases_popScope : Erases Traced.popScope popScope s := by
  refine erases_look fun log hstate => ?_
  obtain ⟨log', hrun, hstate'⟩ := popVars_run s.callDepth s.vars log (congrArg _ hstate)
  rw [hrun]
  exact ⟨rfl, hstate'.trans (congrArg (fun s' : GkState =>
    { s' with vars := varsBelow s.callDepth s.vars }) hstate)⟩

theorem yields_findFunc (name : Text) (i : Nat) (funcs : List FuncDef) :
    Yields (Traced.findFunc name i funcs) (findFunc funcs name) := by
  induction funcs generalizing i with
  | nil => exact yields_pure none
  | cons f newer ih =>
      rw [findFunc_cons]
      refine yields_bind (yields_touch _ _) (yields_bind (yields_streq _ _ _ _) ?_)
      refine yields_ite (fun hname => ?_) fun hname => ?_
      · rw [if_pos hname]
        exact yields_pure _
      · rw [if_neg hname]
        exact ih (i + 1)

/-! ## Operators -/

/-- What an operator does: nothing, or it enters an error. -/
def Operator (x : Eval Value) : Prop :=
  (∃ v, x = pure v) ∨ ∃ text, text ≠ [] ∧ x = failWith text

theorem evalBinop_operator (op : Option TokenType) (l r : Value) : Operator (evalBinop op l r) := by
  have hdiv : ∀ (c : Prop) [Decidable c] (text : Text) (v : Value), text ≠ [] →
      Operator (if c then failWith text else pure v) := by
    intro c _ text v hsome
    by_cases hc : c
    · rw [if_pos hc]
      exact .inr ⟨text, hsome, rfl⟩
    · rw [if_neg hc]
      exact .inl ⟨v, rfl⟩
  unfold evalBinop
  split
  all_goals
    first
      | exact .inl ⟨_, rfl⟩
      | exact .inr ⟨_, by decide, rfl⟩
      | exact hdiv _ _ _ (by decide)

theorem evalUnop_operator (op : Option TokenType) (operand : Value) :
    Operator (evalUnop op operand) := by
  unfold evalUnop
  split
  all_goals
    first
      | exact .inl ⟨_, rfl⟩
      | exact .inr ⟨_, by decide, rfl⟩

theorem yields_binopTexts (op : Option TokenType) (l r : Value) :
    Yields (Traced.binopTexts op l r) () := by
  unfold Traced.binopTexts
  split
  · exact yields_bind (yields_strcpy _ _ _) (yields_bind (yields_valToStr _)
      (yields_bind (yields_strcat _ _ _ _) (yields_strcpy _ _ _)))
  · exact yields_streq _ _ _ _
  · exact yields_streq _ _ _ _
  · exact yields_pure ()

theorem erases_operate {x : Eval Value} (hx : Operator x) : Erases (Traced.operate x) x s := by
  refine erases_look ?_
  obtain ⟨v, rfl⟩ | ⟨text, hsome, rfl⟩ := hx
  · change Erases (do
      if s.error ≠ [] then Traced.setError s.error
      return v) (pure v) s
    by_cases herror : s.error ≠ []
    · rw [if_pos herror]
      exact erases_bind (y := setError s.error) (erases_setError _) fun _ _ => erases_pure v
    · rw [if_neg herror]
      exact erases_pure v
  · change Erases (do
      if text ≠ [] then Traced.setError text
      return Value.none) (failWith text) s
    rw [if_pos hsome]
    exact erases_bind (erases_setError text) fun _ _ => erases_pure _

/-! ## Nodes -/

theorem erases_nodeAt {i : Int} {f : Node → Traced α} {y : Eval α}
    (hf : Erases (f (s.nodes.getD i.toNat (blankNode .int 0))) y s) :
    Erases (Traced.nodeAt i >>= f) y s := by
  intro log hstate
  obtain ⟨log', htouch, hsame⟩ := yields_touch .nodes i log
  have hrun : Traced.nodeAt i log =
      .ok (log'.state.nodes.getD i.toNat (blankNode .int 0)) log' := by
    rw [Traced.nodeAt, bind_run htouch]
    rfl
  rw [bind_run hrun, hsame, hstate]
  exact hf log' (hsame.trans hstate)

theorem yields_childAt (node : Node) (i : Nat) : Yields (Traced.childAt node i) (node.childAt i) :=
  yields_bind (yields_touch _ _) (yields_pure _)

theorem erases_afterRound : Erases Traced.afterRound afterRound s := by
  refine erases_yields (yields_touch _ _) (erases_look (erases_get ?_))
  refine erases_ite (fun _ => erases_pure _) fun _ => erases_ite (fun _ => ?_) fun _ => ?_
  · exact erases_bind (erases_event rfl) fun _ _ => erases_pure _
  · exact erases_bind (erases_event rfl) fun _ _ => erases_pure _

/-- The way of code that gives up after an error. -/
theorem erases_unlessFailed {early : α} {x : Traced α} {y : Eval α} (hmore : ∀ s, Erases x y s) :
    Erases (Traced.failed >>= fun stop => if stop then pure early else x)
      (failed >>= fun stop => if stop then pure early else y) s :=
  erases_bind erases_failed fun _ s' => erases_ite (fun _ => erases_pure _) fun _ => hmore s'

theorem getD_strVal (nodes : List Node) (n : Nat) (type type' : NodeType) :
    (nodes.getD n (blankNode type 0)).strVal = (nodes.getD n (blankNode type' 0)).strVal := by
  rw [List.getD_eq_getElem?_getD, List.getD_eq_getElem?_getD]
  cases nodes[n]? with
  | none => rfl
  | some node => rfl

theorem copyParams_run (i : Nat) (children : List Nat) (log : Log GkState Event) :
    ∃ log', Traced.copyParams i children log =
      .ok (children.map fun pn => (log.state.nodes.getD pn (blankNode .var 0)).strVal) log' ∧
        log'.state = log.state := by
  induction children generalizing i log with
  | nil => exact ⟨log, rfl, rfl⟩
  | cons pn more ih =>
      obtain ⟨log₁, hchild, hsame₁⟩ := yields_touch .child i log
      obtain ⟨log₂, hnode, hsame₂⟩ := yields_touch .nodes pn log₁
      obtain ⟨log₃, hparams, hsame₃⟩ := yields_touch .params i log₂
      obtain ⟨log₄, hcopy, hsame₄⟩ :=
        yields_strcpy .name .str (log₂.state.nodes.getD pn (blankNode .int 0)).strVal log₃
      obtain ⟨log₅, hrest, hsame₅⟩ := ih (i + 1) log₄
      have hstate : log₄.state = log.state := by rw [hsame₄, hsame₃, hsame₂, hsame₁]
      have hat : Traced.nodeAt pn log₁ =
          .ok (log₂.state.nodes.getD pn (blankNode .int 0)) log₂ := by
        rw [Traced.nodeAt, bind_run hnode]
        rfl
      refine ⟨log₅, ?_, hsame₅.trans hstate⟩
      rw [Traced.copyParams, bind_run hchild, bind_run hat, bind_run hparams, bind_run hcopy,
        bind_run hrest, hstate, List.map_cons, getD_strVal _ _ .var .int, hsame₂, hsame₁]
      rfl

section

variable {evalNode : Int → Traced Value} {evalNode' : Int → Eval Value}
  (heval : ∀ c s, Erases (evalNode c) (evalNode' c) s)

include heval

theorem erases_child (node : Node) (i : Nat) {f : Value → Traced α} {g : Value → Eval α}
    (hf : ∀ v s, Erases (f v) (g v) s) :
    Erases (Traced.childAt node i >>= fun c => evalNode c >>= f)
      (evalNode' (node.childAt i) >>= g) s :=
  erases_yields (yields_childAt node i) (erases_bind (heval _ s) hf)

theorem erases_evalLogic (stop : Bool) (node : Node) :
    Erases (Traced.evalLogic evalNode stop node) (evalLogic evalNode' stop node) s :=
  erases_child heval node 0 fun _ _ => erases_ite (fun _ => erases_pure _) fun _ =>
    erases_child heval node 1 fun _ _ => erases_pure _

theorem erases_evalPrint (i : Nat) (children : List Nat) :
    Erases (Traced.evalPrint evalNode i children) (evalPrint evalNode' children) s := by
  induction children generalizing i s with
  | nil => exact erases_bind (erases_gkPrint _) fun _ _ => erases_pure _
  | cons c more ih =>
      refine erases_yields (yields_touch _ _) (erases_bind (heval c s) fun v s => ?_)
      refine erases_unlessFailed fun s => erases_yields (yields_valToStr v) ?_
      refine erases_bind (erases_gkPrint _) fun _ s => erases_ite (fun _ => ?_) fun _ => ih _
      exact erases_bind (erases_gkPrint _) fun _ s => ih _

theorem erases_evalInput (node : Node) :
    Erases (Traced.evalInput evalNode node) (evalInput evalNode' node) s := by
  have hread : ∀ s, Erases (do
      let line ← Traced.readLine (maxStr - 2)
      Traced.gkPrint (ascii "\n")
      Traced.strcpy .str .str line
      return Value.str line) (do
      let line ← readLine (maxStr - 2)
      gkPrint (ascii "\n")
      return Value.str line) s := fun s =>
    erases_bind (erases_readLine _) fun _ _ => erases_bind (erases_gkPrint _) fun _ _ =>
      erases_yields (yields_strcpy _ _ _) (erases_pure _)
  refine erases_ite (fun _ => erases_child heval node 0 fun prompt s => ?_) fun _ => hread s
  exact erases_unlessFailed fun s => erases_yields (yields_valToStr prompt)
    (erases_bind (erases_gkPrint _) fun _ s => hread s)

theorem erases_evalIntCast (node : Node) :
    Erases (Traced.evalIntCast evalNode node) (evalIntCast evalNode' node) s := by
  refine erases_ite (fun _ => erases_failWith _) fun _ => erases_child heval node 0 fun v s => ?_
  refine erases_unlessFailed fun s => ?_
  cases v with
  | int v => exact erases_pure _
  | str text =>
      refine erases_yields (yields_touchTo _ _) ?_
      dsimp only
      cases intOfText text with
      | none => exact erases_failWith _
      | some v => exact erases_pure _
  | bool v => exact erases_failWith _
  | none => exact erases_failWith _

theorem erases_evalBlock (i : Nat) (children : List Nat) (last : Value) :
    Erases (Traced.evalBlock evalNode i children last) (evalBlock evalNode' children last) s := by
  induction children generalizing i last s with
  | nil => exact erases_pure _
  | cons c more ih =>
      refine erases_yields (yields_touch _ _) (erases_bind (heval c s) fun last s => ?_)
      refine erases_yields (yields_touch _ _) (erases_look (erases_get ?_))
      exact erases_ite (fun _ => erases_pure _) fun _ => ih _ _

theorem erases_afterBody (node : Node) {more : Value → Traced Value} {more' : Value → Eval Value}
    (hmore : ∀ result s, Erases (more result) (more' result) s) : Erases (do
      let result ← evalNode (← Traced.childAt node 1)
      if ← Traced.afterRound then more result else return result) (do
      let result ← evalNode' (node.childAt 1)
      if ← afterRound then more' result else return result) s :=
  erases_child heval node 1 fun result _ => erases_bind erases_afterRound fun _ s =>
    erases_ite (fun _ => hmore result s) fun _ => erases_pure _

theorem erases_evalWhile (node : Node) (fuel : Nat) (result : Value) :
    Erases (Traced.evalWhile evalNode node fuel result)
      (evalWhile evalNode' node fuel result) s := by
  induction fuel generalizing result s with
  | zero => exact erases_throw
  | succ fuel ih =>
      refine erases_child heval node 0 fun cond s => erases_bind erases_failed fun _ s => ?_
      exact erases_ite (fun _ => erases_pure _) fun _ =>
        erases_afterBody heval node fun result _ => ih result

theorem erases_evalRounds (node : Node) (left : Nat) (i : Int32) (result : Value) :
    Erases (Traced.evalRounds evalNode node left i result)
      (evalRounds evalNode' node left i result) s := by
  induction left generalizing i result s with
  | zero => exact erases_pure _
  | succ left ih =>
      refine erases_bind (erases_setVar _ _ _) fun _ s =>
        erases_ite (fun _ => erases_pure _) fun _ => ?_
      exact erases_afterBody heval node fun result _ => ih (i + 1) result

theorem erases_evalFor (node : Node) :
    Erases (Traced.evalFor evalNode node) (evalFor evalNode' node) s := by
  refine erases_yields (yields_childAt node 0) (erases_nodeAt (erases_get ?_))
  refine erases_ite (fun _ => erases_failWith _) fun _ => ?_
  by_cases hrange : (s.nodes.getD (node.childAt 0).toNat (blankNode .int 0)).type = .range
  · simp only [if_pos hrange]
    refine erases_child heval _ 0 fun v s => erases_unlessFailed fun s => ?_
    cases v with
    | int limit => exact erases_evalRounds heval node _ _ _
    | str text => exact erases_failWith _
    | bool v => exact erases_failWith _
    | none => exact erases_failWith _
  · simp only [if_neg hrange]
    refine erases_child heval _ 0 fun v s => erases_unlessFailed fun s => ?_
    cases v with
    | int limit => exact erases_evalRounds heval node _ _ _
    | str text => exact erases_failWith _
    | bool v => exact erases_failWith _
    | none => exact erases_failWith _

theorem erases_evalArgs (i : Nat) (children : List Nat) :
    Erases (Traced.evalArgs evalNode i children) (evalArgs evalNode' children) s := by
  induction children generalizing i s with
  | nil => exact erases_pure _
  | cons c more ih =>
      refine erases_yields (yields_touch _ _) (erases_bind (heval c s) fun v s => ?_)
      exact erases_yields (yields_touch _ _) (erases_unlessFailed fun s =>
        erases_bind (ih _) fun _ _ => erases_pure _)

end

theorem erases_evalDef (node : Node) : Erases (Traced.evalDef node) (evalDef node) s := by
  refine erases_look (erases_get (erases_ite (fun _ => erases_failWith _) fun _ => ?_))
  refine erases_yields (yields_touch _ _) (erases_yields (yields_strcpy _ _ _) fun log hstate => ?_)
  obtain ⟨log', hrun, hsame⟩ := copyParams_run 0 (node.child.dropLast.take maxParams) log
  rw [bind_run hrun, hstate]
  exact erases_yields (yields_touch _ _) (erases_bind (erases_event rfl) fun _ _ =>
    erases_pure _) log'
    (hsame.trans hstate)

theorem erases_bindParams (i : Nat) (params : List Text) (args : List Value) :
    Erases (Traced.bindParams i params args) (bindParams params args) s := by
  induction params generalizing i args s with
  | nil => exact erases_pure _
  | cons param params ih =>
      cases args with
      | nil => exact erases_pure _
      | cons arg args =>
          refine erases_yields (yields_touch _ _) (erases_yields (yields_touch _ _) ?_)
          exact erases_bind (erases_setVar _ _ _) fun _ s =>
            erases_ite (fun _ => ih _ _) fun _ => erases_pure _

theorem erases_leaveCall (result : Value) : Erases (do
    let s ← look
    if s.returning then Traced.event .returned
    Traced.popScope
    Traced.event (.depth (-1))
    return if s.returning then s.returnVal else result) (leaveCall result) s := by
  have hpop : ∀ (v : Value) s, Erases (do
      Traced.popScope
      Traced.event (.depth (-1))
      return v) (do
      popScope
      addDepth (-1)
      return v) s := fun v s =>
    erases_bind erases_popScope fun _ _ => erases_bind (erases_event rfl) fun _ _ => erases_pure v
  refine erases_look (erases_get (erases_ite (fun _ => ?_) fun _ => hpop _ s))
  exact erases_bind (erases_event rfl) fun _ _ => hpop _ _

section

variable {evalNode : Int → Traced Value} {evalNode' : Int → Eval Value}
  (heval : ∀ c s, Erases (evalNode c) (evalNode' c) s)

include heval

theorem erases_evalCall (node : Node) :
    Erases (Traced.evalCall evalNode node) (evalCall evalNode' node) s := by
  refine erases_look (erases_get (erases_yields (yields_findFunc _ _ _) ?_))
  cases findFunc s.funcs node.strVal with
  | none => exact erases_failWithName _ _
  | some f =>
      refine erases_ite (fun _ => erases_failWith _) fun _ =>
        erases_ite (fun _ => erases_failWith _) fun _ => ?_
      refine erases_bind (erases_evalArgs heval 0 node.child) fun args s => ?_
      cases args with
      | none => exact erases_pure _
      | some args =>
          refine erases_bind (erases_event rfl) fun _ s =>
            erases_bind (erases_bindParams 0 f.params args) fun _ s =>
              erases_ite (fun _ => ?_) fun _ => ?_
          · exact erases_bind (erases_event rfl) fun _ _ => erases_pure _
          · exact erases_bind (heval _ _) fun result _ => erases_leaveCall result

theorem erases_evalCases (fuel : Nat) (node : Node) :
    Erases (Traced.evalCases evalNode fuel node) (evalCases evalNode' fuel node) s := by
  unfold Traced.evalCases evalCases
  cases htype : node.type with
  | int => exact erases_pure _
  | str => exact erases_yields (yields_strcpy _ _ _) (erases_pure _)
  | bool => exact erases_pure _
  | var =>
      refine erases_look (erases_get (erases_yields (yields_findVar _ _) ?_))
      cases findVar s.vars node.strVal with
      | none => exact erases_failWithName _ _
      | some v => exact erases_pure _
  | assign =>
      exact erases_child heval node 0 fun val s => erases_unlessFailed fun s =>
        erases_bind (erases_setVar _ _ _) fun _ _ =>
          erases_ite (fun _ => erases_pure _) fun _ => erases_pure _
  | unop =>
      exact erases_child heval node 0 fun v s => erases_unlessFailed fun s =>
        erases_operate (evalUnop_operator _ v)
  | binop =>
      refine erases_ite (fun _ => erases_evalLogic heval _ node) fun _ =>
        erases_ite (fun _ => erases_evalLogic heval _ node) fun _ => ?_
      exact erases_child heval node 0 fun l s => erases_unlessFailed fun s =>
        erases_child heval node 1 fun r s => erases_unlessFailed fun s =>
          erases_yields (yields_binopTexts _ l r) (erases_operate (evalBinop_operator _ l r))
  | print => exact erases_evalPrint heval 0 node.child
  | input => exact erases_evalInput heval node
  | intCast => exact erases_evalIntCast heval node
  | block => exact erases_evalBlock heval 0 node.child .none
  | if_ =>
      refine erases_child heval node 0 fun cond s => erases_unlessFailed fun s => ?_
      refine erases_ite (fun _ => erases_yields (yields_childAt node 1) (heval _ s)) fun _ => ?_
      exact erases_ite (fun _ => erases_yields (yields_childAt node 2) (heval _ s)) fun _ =>
        erases_pure _
  | while_ => exact erases_evalWhile heval node fuel .none
  | for_ => exact erases_evalFor heval node
  | def_ => exact erases_evalDef node
  | call => exact erases_evalCall heval node
  | return_ =>
      refine erases_ite (fun _ => ?_) fun _ => ?_
      · exact erases_bind (erases_event rfl) fun _ _ => erases_pure _
      · exact erases_child heval node 0 fun v s => erases_unlessFailed fun s =>
          erases_bind (erases_event rfl) fun _ _ => erases_pure _
  | break_ => exact erases_bind (erases_event rfl) fun _ _ => erases_pure _
  | continue_ => exact erases_bind (erases_event rfl) fun _ _ => erases_pure _
  | range => exact erases_failWith _

end

/-- **Erasure.**  The interpreter with a log does what `eval` does. -/
theorem erases_eval (fuel : Nat) (c : Int) : Erases (Traced.eval fuel c) (eval fuel c) s := by
  induction fuel generalizing c s with
  | zero => exact erases_throw
  | succ fuel ih =>
      refine erases_get ?_
      by_cases hc : c < 0
      · rw [Traced.eval, if_pos hc, if_pos (.inl hc)]
        exact erases_pure _
      · rw [Traced.eval, if_neg hc]
        refine erases_failedBind ?_
        by_cases herror : s.error ≠ []
        · rw [if_pos (decide_eq_true herror), if_pos (.inr herror)]
          exact erases_pure _
        · have hstop : ¬ decide (s.error ≠ []) = true := by simpa using herror
          rw [if_neg hstop, if_neg (not_or.mpr ⟨hc, herror⟩)]
          exact erases_nodeAt (erases_evalCases (fun c s => ih c) fuel _)

end GeckoOS.Gk
