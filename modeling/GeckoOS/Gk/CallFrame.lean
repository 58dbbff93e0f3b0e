/-
# What a call leaves behind

All variables live on one stack, each with the depth of the call that made it.  `set_var`
only looks at the variables of the current depth, a call raises the depth for its
parameters and its body, and `pop_scope` drops what they have made.  So the variables of
the callers come back unchanged, however deep the calls below them nest.

Two relations between states are shown for `eval`, by induction on its bound.  Whatever is
evaluated keeps the variables of the callers.  An expression, which holds no statement
except in the bodies of the functions it calls, keeps all variables.
-/

import GeckoOS.Gk.Keeping
import GeckoOS.Gk.Lexer

namespace GeckoOS.Gk

open GeckoOS.Math

/-- The variables below a depth: those of the callers. -/
def varsBelow (depth : Int) (vars : List Var) : List Var :=
  vars.dropWhile fun v => depth ≤ v.scope

/-- No variable belongs to a deeper call than the current one. -/
def GkState.Bounded (s : GkState) : Prop := ∀ v ∈ s.vars, v.scope ≤ s.callDepth

/-- What every evaluation over these nodes does, unless it fails. -/
def KeepsCallers (nodes : List Node) (s s' : GkState) : Prop :=
  s.nodes = nodes → s'.nodes = nodes ∧
    (s'.error = [] → s.error = [] ∧
      (s.Bounded → s'.Bounded ∧ s'.callDepth = s.callDepth ∧
        varsBelow s.callDepth s'.vars = varsBelow s.callDepth s.vars))

/-- What the evaluation of an expression over these nodes does, unless it fails. -/
def KeepsVars (nodes : List Node) (s s' : GkState) : Prop :=
  s.nodes = nodes → s'.nodes = nodes ∧
    (s'.error = [] → s.error = [] ∧
      (s.Bounded → s'.callDepth = s.callDepth ∧ s'.vars = s.vars))

variable {nodes : List Node} {s s' : GkState} {node : Node} {evalNode : Int → Eval Value}

theorem GkState.Bounded.congr (hbounded : s.Bounded) (hdepth : s'.callDepth = s.callDepth)
    (hvars : s'.vars = s.vars) : s'.Bounded := by
  rw [GkState.Bounded, hvars, hdepth]
  exact hbounded

instance : IsPreorder GkState (KeepsCallers nodes) where
  refl _ := fun hnodes => ⟨hnodes, fun hok => ⟨hok, fun hbounded => ⟨hbounded, rfl, rfl⟩⟩⟩
  trans _ _ _ hfirst hsecond := fun hnodes => by
    obtain ⟨hnodes', hfirst⟩ := hfirst hnodes
    obtain ⟨hnodes'', hsecond⟩ := hsecond hnodes'
    refine ⟨hnodes'', fun hok => ?_⟩
    obtain ⟨hok', hkept'⟩ := hsecond hok
    obtain ⟨hok'', hkept⟩ := hfirst hok'
    refine ⟨hok'', fun hbounded => ?_⟩
    obtain ⟨hbounded', hdepth, hvars⟩ := hkept hbounded
    obtain ⟨hbounded'', hdepth', hvars'⟩ := hkept' hbounded'
    rw [hdepth] at hvars'
    exact ⟨hbounded'', hdepth'.trans hdepth, hvars'.trans hvars⟩

instance : IsPreorder GkState (KeepsVars nodes) where
  refl _ := fun hnodes => ⟨hnodes, fun hok => ⟨hok, fun _ => ⟨rfl, rfl⟩⟩⟩
  trans _ _ _ hfirst hsecond := fun hnodes => by
    obtain ⟨hnodes', hfirst⟩ := hfirst hnodes
    obtain ⟨hnodes'', hsecond⟩ := hsecond hnodes'
    refine ⟨hnodes'', fun hok => ?_⟩
    obtain ⟨hok', hkept'⟩ := hsecond hok
    obtain ⟨hok'', hkept⟩ := hfirst hok'
    refine ⟨hok'', fun hbounded => ?_⟩
    obtain ⟨hdepth, hvars⟩ := hkept hbounded
    obtain ⟨hdepth', hvars'⟩ := hkept' (hbounded.congr hdepth hvars)
    exact ⟨hdepth'.trans hdepth, hvars'.trans hvars⟩

/-- Keeping all variables is more than keeping those of the callers. -/
theorem KeepsVars.callers (hkeeps : KeepsVars nodes s s') : KeepsCallers nodes s s' := by
  intro hnodes
  obtain ⟨hnodes', hkeeps⟩ := hkeeps hnodes
  refine ⟨hnodes', fun hok => ?_⟩
  obtain ⟨hok', hkept⟩ := hkeeps hok
  refine ⟨hok', fun hbounded => ?_⟩
  obtain ⟨hdepth, hvars⟩ := hkept hbounded
  exact ⟨hbounded.congr hdepth hvars, hdepth, by rw [hvars]⟩

/-- Steps that change neither the variables nor the depth, nor take an error back. -/
theorem KeepsVars.of_same (hnodes : s'.nodes = s.nodes) (herror : s'.error = s.error)
    (hdepth : s'.callDepth = s.callDepth) (hvars : s'.vars = s.vars) : KeepsVars nodes s s' :=
  fun h => ⟨hnodes.trans h, fun hok => ⟨herror ▸ hok, fun _ => ⟨hdepth, hvars⟩⟩⟩

instance : KeptByExprs (KeepsVars nodes) where
  console _ _ _ := .of_same rfl rfl rfl rfl
  fail _ _ hsome := fun hnodes => ⟨hnodes, fun hok => absurd hok hsome⟩

/-- Evaluating a node that is an expression keeps the variables. -/
def ExprsKeep (nodes : List Node) (evalNode : Int → Eval Value) : Prop :=
  ∀ c : Int, (c < 0 ∨ ExprAt nodes c.toNat) → Keeps (KeepsVars nodes) (evalNode c)

/-! ## Variables -/

theorem keeps_callers {α : Type} {x : Eval α} (hx : Keeps (KeepsVars nodes) x) :
    Keeps (KeepsCallers nodes) x :=
  fun s => (hx s).mono fun _ _ hkeeps => hkeeps.callers

/-- The variables of the current call are passed over. -/
theorem varsBelow_cons {depth : Int} {v : Var} (hdepth : depth ≤ v.scope) (older : List Var) :
    varsBelow depth (v :: older) = varsBelow depth older :=
  List.dropWhile_cons_of_pos (decide_eq_true hdepth)

/-- Only a variable of the current call is updated, and only its value. -/
theorem updateVar_eq_some {depth : Int} {name : Text} {val : Value} {vars vars' : List Var}
    (hupdate : updateVar depth name val vars = some vars') :
    varsBelow depth vars' = varsBelow depth vars ∧
      vars'.map (·.scope) = vars.map (·.scope) := by
  induction vars generalizing vars' with
  | nil => cases hupdate
  | cons v older ih =>
      rw [updateVar] at hupdate
      split_ifs at hupdate with hbelow hname
      · obtain rfl := Option.some.inj hupdate
        have hdepth : depth ≤ v.scope := not_lt.mp hbelow
        have hdepth' : depth ≤ ({ v with val := val } : Var).scope := hdepth
        exact ⟨by rw [varsBelow_cons hdepth', varsBelow_cons hdepth], rfl⟩
      · obtain ⟨older', holder, rfl⟩ := Option.map_eq_some_iff.mp hupdate
        obtain ⟨hvars, hscopes⟩ := ih holder
        have hdepth : depth ≤ v.scope := not_lt.mp hbelow
        exact ⟨by rw [varsBelow_cons hdepth, varsBelow_cons hdepth, hvars],
          by rw [List.map_cons, List.map_cons, hscopes]⟩

/-- Setting a variable keeps those of the callers, and it fails only with an error. -/
theorem setVar_keeps (name : Text) (val : Value) (s : GkState) :
    Ensures (setVar name val) s fun ok s' =>
      KeepsCallers nodes s s' ∧ (ok = false → s'.error ≠ []) := by
  rw [setVar, ensures_bind, ensures_get]
  cases hupdate : updateVar s.callDepth name val s.vars with
  | some vars =>
      simp only [ensures_bind, ensures_set, ensures_pure]
      obtain ⟨hvars, hscopes⟩ := updateVar_eq_some hupdate
      refine ⟨fun hnodes => ⟨hnodes, fun hok => ⟨hok, fun hbounded => ⟨?_, rfl, hvars⟩⟩⟩,
        fun hno => absurd hno.symm Bool.false_ne_true⟩
      intro v hv
      obtain ⟨old, hold, hscope⟩ := List.mem_map.mp (hscopes ▸ List.mem_map_of_mem hv)
      exact hscope ▸ hbounded old hold
  | none =>
      simp only [ensures_bind, ensures_ite, ensures_set, ensures_pure]
      refine ⟨fun _ => ?_, fun _ => ⟨fun hnodes => ⟨hnodes, fun hok => ⟨hok, fun hbounded => ?_⟩⟩,
        fun hno => absurd hno.symm Bool.false_ne_true⟩⟩
      · rw [setError, ensures_modify]
        have hsome : ascii "too many variables" ≠ [] := by decide
        exact ⟨fun hnodes => ⟨hnodes, fun hok => absurd hok hsome⟩, fun _ => hsome⟩
      · refine ⟨fun v hv => ?_, rfl, varsBelow_cons le_rfl _⟩
        rcases List.mem_cons.mp hv with rfl | hv
        · exact le_rfl
        · exact hbounded v hv

/-- So does binding the parameters of a call. -/
theorem bindParams_keeps (params : List Text) (args : List Value) (s : GkState) :
    Ensures (bindParams params args) s fun ok s' =>
      KeepsCallers nodes s s' ∧ (ok = false → s'.error ≠ []) := by
  induction params generalizing args s with
  | nil =>
      exact (ensures_pure _).mpr ⟨refl_of (KeepsCallers nodes) s,
        fun hno => absurd hno.symm Bool.false_ne_true⟩
  | cons param params ih =>
      cases args with
      | nil =>
          exact (ensures_pure _).mpr ⟨refl_of (KeepsCallers nodes) s,
        fun hno => absurd hno.symm Bool.false_ne_true⟩
      | cons arg args =>
          rw [bindParams, ensures_bind]
          refine (@setVar_keeps nodes param arg s).mono fun ok s' hset => ?_
          obtain ⟨hkeeps, hfail⟩ := hset
          rw [ensures_ite, ensures_pure]
          refine ⟨fun _ => (ih args s').mono fun _ _ hrest => ?_, fun hno => ?_⟩
          · exact ⟨trans_of (KeepsCallers nodes) hkeeps hrest.1, hrest.2⟩
          · exact ⟨hkeeps, fun _ => hfail (Bool.eq_false_of_not_eq_true hno)⟩

instance : KeptByStmts (KeepsCallers nodes) where
  console _ _ _ := (KeepsVars.of_same rfl rfl rfl rfl).callers
  fail s text hsome := (@KeptByExprs.fail (KeepsVars nodes) _ s text hsome).callers
  define _ _ := (KeepsVars.of_same rfl rfl rfl rfl).callers
  return_ _ _ := (KeepsVars.of_same rfl rfl rfl rfl).callers
  jump _ _ _ := (KeepsVars.of_same rfl rfl rfl rfl).callers
  set name val s := (setVar_keeps name val s).mono fun _ _ hkeeps => hkeeps.1

/-! ## Calls -/

/-- What belongs to no deeper call is all there is below the next depth. -/
theorem GkState.Bounded.varsBelow (hbounded : s.Bounded) :
    varsBelow (s.callDepth + 1) s.vars = s.vars := by
  cases hvars : s.vars with
  | nil => rfl
  | cons v older =>
      have hscope := hbounded v (hvars ▸ List.mem_cons_self)
      exact List.dropWhile_cons_of_neg (by simpa using Int.lt_add_one_iff.mpr hscope)

/-- From the raised depth to the lowered one: what the body of a call has left on the stack
is dropped. -/
theorem KeepsVars.popped {s₁ s₂ s' : GkState} (hargs : KeepsVars nodes s s₁)
    (hbody : KeepsCallers nodes { s₁ with callDepth := s₁.callDepth + 1 } s₂)
    (hnodes : s'.nodes = s₂.nodes) (herror : s'.error = s₂.error)
    (hdepth : s'.callDepth = s₂.callDepth + -1)
    (hvars : s'.vars = Gk.varsBelow s₂.callDepth s₂.vars) : KeepsVars nodes s s' := by
  intro hpool
  obtain ⟨hpool₁, hargs⟩ := hargs hpool
  obtain ⟨hpool₂, hbody⟩ := hbody hpool₁
  refine ⟨hnodes.trans hpool₂, fun hok => ?_⟩
  obtain ⟨hok₁, hcallers⟩ := hbody (herror ▸ hok)
  obtain ⟨hok₀, hsame⟩ := hargs hok₁
  refine ⟨hok₀, fun hbounded => ?_⟩
  obtain ⟨hdepth₁, hvars₁⟩ := hsame hbounded
  have hbounded₁ : s₁.Bounded := hbounded.congr hdepth₁ hvars₁
  obtain ⟨-, hdepth₂, hvars₂⟩ := hcallers fun v hv => (hbounded₁ v hv).trans (Int.le_add_one le_rfl)
  change s₂.callDepth = s₁.callDepth + 1 at hdepth₂
  change varsBelow (s₁.callDepth + 1) s₂.vars = varsBelow (s₁.callDepth + 1) s₁.vars at hvars₂
  constructor
  · rw [hdepth, hdepth₂, hdepth₁, Int.add_neg_cancel_right]
  · rw [hvars, hdepth₂, hvars₂, hbounded₁.varsBelow, hvars₁]

theorem evalCall_keeps (hexprs : ExprsKeep nodes evalNode)
    (heval : ∀ c, Keeps (KeepsCallers nodes) (evalNode c))
    (hchild : ∀ c ∈ node.child, ExprAt nodes c) :
    Keeps (KeepsVars nodes) (evalCall evalNode node) := by
  intro s
  rw [evalCall, ensures_bind, ensures_get]
  cases findFunc s.funcs node.strVal with
  | none => exact keeps_failWith (strcat_ne_nil (by decide)) s
  | some f =>
      simp only [ensures_ite]
      refine ⟨fun _ => keeps_failWith (by decide) s, fun _ => ⟨fun _ =>
        keeps_failWith (by decide) s, fun _ => ?_⟩⟩
      rw [ensures_bind]
      refine (keeps_evalArgs hexprs node.child hchild s).mono fun args s₁ hargs => ?_
      cases args with
      | none => exact (ensures_pure _).mpr hargs
      | some args =>
          simp only [addDepth, popScope, ensures_bind, ensures_modify, ensures_ite, ensures_pure,
            ensures_get, ensures_set]
          refine (@bindParams_keeps nodes _ _ _).mono fun ok s₂ hbound =>
            ⟨fun hno hpool => ?_, fun _ => ?_⟩
          all_goals obtain ⟨hparams, hfail⟩ := hbound
          · have hbad : s₂.error ≠ [] := hfail (by simpa using hno)
            exact ⟨(hparams (hargs hpool).1).1, fun hok => absurd hok hbad⟩
          · refine (heval _ s₂).mono fun result s₃ hbody => ?_
            have hinside := trans_of (KeepsCallers nodes) hparams hbody
            exact ⟨fun _ => .popped hargs hinside rfl rfl rfl rfl,
              fun _ => .popped hargs hinside rfl rfl rfl rfl⟩

/-! ## All nodes -/

/-- One level of `eval`, given the levels below it. -/
theorem eval_step (hclosed : ExprsClosed nodes) {fuel : Nat} (hexprs : ExprsKeep nodes (eval fuel))
    (heval : ∀ c, Keeps (KeepsCallers nodes) (eval fuel c)) :
    ExprsKeep nodes (eval (fuel + 1)) ∧
      ∀ c, Keeps (KeepsCallers nodes) (eval (fuel + 1) c) := by
  have hcases : ∀ node : Node, node.type.isExpr → (∀ c ∈ node.child, ExprAt nodes c) →
      Keeps (KeepsVars nodes) (evalCases (eval fuel) fuel node) :=
    fun node hexpr hchild => keeps_evalCases_expr hexprs fuel hchild hexpr
      fun _ => evalCall_keeps hexprs heval hchild
  constructor
  · intro c hc s
    rw [eval, ensures_bind, ensures_get, ensures_ite, ensures_pure]
    refine ⟨fun _ => refl_of (KeepsVars nodes) s, fun hgo => ?_⟩
    by_cases hpool : s.nodes = nodes
    · obtain ⟨type, htype, hexpr⟩ := hc.resolve_left fun hneg => hgo (.inl hneg)
      obtain ⟨node, hnode, rfl⟩ := Option.map_eq_some_iff.mp htype
      rw [hpool, List.getD_eq_getElem?_getD, hnode, Option.getD_some]
      exact hcases node hexpr (hclosed node (List.mem_of_getElem? hnode) hexpr) s
    · exact fun _ _ _ hnodes => absurd hnodes hpool
  · intro c s
    rw [eval, ensures_bind, ensures_get, ensures_ite, ensures_pure]
    refine ⟨fun _ => refl_of (KeepsCallers nodes) s, fun _ => ?_⟩
    by_cases hpool : s.nodes = nodes
    · rw [hpool, List.getD_eq_getElem?_getD]
      cases hnode : nodes[c.toNat]? with
      | none => exact keeps_callers (hcases _ rfl fun _ hc => absurd hc List.not_mem_nil) s
      | some node =>
          rw [Option.getD_some]
          cases hexpr : node.type.isExpr with
          | true =>
              exact keeps_callers (hcases node hexpr
                (hclosed node (List.mem_of_getElem? hnode) hexpr)) s
          | false => exact keeps_evalCases_stmt heval fuel hexpr s
    · exact fun _ _ _ hnodes => absurd hnodes hpool

/-- Evaluating an expression keeps all variables, and evaluating anything keeps those of the
callers. -/
theorem eval_keeps (hclosed : ExprsClosed nodes) (fuel : Nat) :
    ExprsKeep nodes (eval fuel) ∧ ∀ c, Keeps (KeepsCallers nodes) (eval fuel c) := by
  induction fuel with
  | zero => exact ⟨fun _ _ => keeps_throw _, fun _ => keeps_throw _⟩
  | succ fuel ih => exact eval_step hclosed ih.1 ih.2

/-- **Scope.**  A call that is evaluated without setting an error leaves the depth and all
variables as they were: over the nodes `gk_parse` has built, from any state in which no
variable belongs to a deeper call. -/
theorem call_restores_vars {tokens : List Token} {root : Nat} {p : Parser}
    (hparse : gkParse tokens = .ok root p) (hnodes : s.nodes = p.nodes)
    (hbounded : ∀ v ∈ s.vars, v.scope ≤ s.callDepth) {c : Nat}
    (hcall : typeAt p.nodes c = some .call) {fuel : Nat} {v : Value}
    (heval : eval fuel c s = .ok v s') (hok : s.error = [] → s'.error = []) :
    s'.callDepth = s.callDepth ∧ s'.vars = s.vars := by
  have hclosed := gkParse_exprsClosed hparse
  by_cases herror : s.error = []
  · have hkeeps := (eval_keeps hclosed fuel).1 c (.inr ⟨.call, hcall, rfl⟩) s v s' heval
    exact ((hkeeps hnodes).2 (hok herror)).2 hbounded
  · -- After an error nothing is evaluated.
    cases fuel with
    | zero => cases heval
    | succ fuel =>
        rw [eval, bind_eq_ok] at heval
        obtain ⟨_, _, ⟨⟩, hrun⟩ := heval
        rw [if_pos (.inr herror)] at hrun
        cases hrun
        exact ⟨rfl, rfl⟩

/-- A function that uses the name of a global variable, and a call of it. -/
def shadowing : List Token :=
  (gkLex [] (ascii "def f(x):\n    y = x\nf(1)\n")).2.tokens

/-- The state in which it is called, with `y` set. -/
def beforeCall (nodes : List Node) : GkState where
  nodes := nodes
  vars := [⟨ascii "y", .int 7, 0⟩]
  funcs := [⟨ascii "f", [ascii "x"], 3⟩]
  callDepth := 0
  returning := false
  breaking := false
  continuing := false
  returnVal := .none
  error := []
  output := []
  typed := []

theorem call_restores_vars_shadowing : ∃ p v s', gkParse shadowing = .ok 0 p ∧
    eval 5 6 (beforeCall p.nodes) = .ok v s' ∧ s'.vars = [⟨ascii "y", .int 7, 0⟩] := by
  have hrun : (match gkParse shadowing with
      | .ok root p => decide (root = 0 ∧ typeAt p.nodes 6 = some .call) &&
          match eval 5 6 (beforeCall p.nodes) with
          | .ok _ s' => decide (s'.error = [])
          | .error _ _ => false
      | .error _ _ => false) = true := by decide +kernel
  cases hparse : gkParse shadowing with
  | error e p => rw [hparse] at hrun; cases hrun
  | ok root p =>
      simp only [hparse, Bool.and_eq_true, decide_eq_true_eq] at hrun
      obtain ⟨⟨rfl, hcall⟩, hrun⟩ := hrun
      cases heval : eval 5 6 (beforeCall p.nodes) with
      | error e s' => rw [heval] at hrun; cases hrun
      | ok v s' =>
          simp only [heval, decide_eq_true_eq] at hrun
          have hbounded : ∀ v ∈ (beforeCall p.nodes).vars,
              v.scope ≤ (beforeCall p.nodes).callDepth := by
            intro v hv
            obtain rfl := List.mem_singleton.mp hv
            exact le_rfl
          exact ⟨p, v, s', rfl, heval,
            (call_restores_vars hparse rfl hbounded hcall heval fun _ => hrun).2⟩

end GeckoOS.Gk
