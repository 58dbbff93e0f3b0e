/-
# Jumps out of loops and functions

A `break`, `continue` or `return` statement sets a flag, and the statements around it end
until someone clears the flag: a loop for the first two, a call for the last.  A call does
not clear the other two, so a jump that stands in no loop of its function is taken by a loop
of the caller.

It is shown that there is no other way.  As long as every jump stands in a loop of its
function, an expression leaves no flag behind, and a statement leaves those of jumps behind
only in the body of a loop, and without an error.
-/

import GeckoOS.Gk.CallFrame
import GeckoOS.Gk.NodeTree
import GeckoOS.Gk.Run

namespace GeckoOS.Gk

open GeckoOS.Math

/-- The jumps that pass are those in a loop of their function. -/
def jumpsInLoops : Monitor := { Monitor.all with jump := fun inLoop => inLoop }

/-- No flag is set. -/
structure GkState.Calm (s : GkState) : Prop where
  returning : s.returning = false
  breaking : s.breaking = false
  continuing : s.continuing = false

/-- What the evaluation of an expression over these nodes keeps. -/
def KeepsCalm (nodes : List Node) (s s' : GkState) : Prop :=
  s.nodes = nodes ∧ s.Calm → s'.nodes = nodes ∧ s'.Calm

/-- What is left behind by a statement that was begun without a flag. -/
structure StmtEnd (nodes : List Node) (inLoop : Bool) (s : GkState) : Prop where
  nodes : s.nodes = nodes
  breaking : s.breaking → inLoop ∧ s.error = [] ∧ s.returning = false ∧ s.continuing = false
  continuing : s.continuing → inLoop ∧ s.error = [] ∧ s.returning = false ∧ s.breaking = false

/-- Statements over these nodes that are begun without a flag end so. -/
def StmtsEnd (nodes : List Node) (inLoop : Bool) (evalNode : Int → Eval Value) : Prop :=
  ∀ c s, s.nodes = nodes → s.Calm → Ensures (evalNode c) s fun _ s' => StmtEnd nodes inLoop s'

variable {nodes : List Node} {s s' : GkState} {node : Node} {inLoop : Bool} {fuel : Nat}

instance : IsPreorder GkState (KeepsCalm nodes) where
  refl _ := id
  trans _ _ _ hfirst hsecond := fun hcalm => hsecond (hfirst hcalm)

/-- Steps that change no flag. -/
theorem KeepsCalm.of_same (hnodes : s'.nodes = s.nodes) (hreturning : s'.returning = s.returning)
    (hbreaking : s'.breaking = s.breaking) (hcontinuing : s'.continuing = s.continuing) :
    KeepsCalm nodes s s' := by
  rintro ⟨hpool, hcalm⟩
  exact ⟨hnodes.trans hpool, hreturning.trans hcalm.returning, hbreaking.trans hcalm.breaking,
    hcontinuing.trans hcalm.continuing⟩

instance : KeptByExprs (KeepsCalm nodes) where
  console _ _ _ := .of_same rfl rfl rfl rfl
  fail _ _ _ := .of_same rfl rfl rfl rfl

theorem GkState.Calm.ended (hcalm : s.Calm) (hnodes : s.nodes = nodes) : StmtEnd nodes inLoop s :=
  ⟨hnodes, fun hset => absurd (hcalm.breaking.symm.trans hset) Bool.false_ne_true,
    fun hset => absurd (hcalm.continuing.symm.trans hset) Bool.false_ne_true⟩

/-- Outside of loops no jump is left. -/
theorem StmtEnd.outside (hended : StmtEnd nodes false s) : s.breaking = false ∧ s.continuing = false :=
  ⟨Bool.eq_false_of_not_eq_true fun hset => Bool.false_ne_true (hended.breaking hset).1,
    Bool.eq_false_of_not_eq_true fun hset => Bool.false_ne_true (hended.continuing hset).1⟩

theorem StmtEnd.mono (hended : StmtEnd nodes false s) : StmtEnd nodes inLoop s := by
  obtain ⟨hbreaking, hcontinuing⟩ := hended.outside
  exact ⟨hended.nodes, fun hset => absurd (hbreaking.symm.trans hset) Bool.false_ne_true,
    fun hset => absurd (hcontinuing.symm.trans hset) Bool.false_ne_true⟩

/-! ## Variables -/

/-- Setting a variable changes no flag. -/
theorem keepsCalm_setVar (name : Text) (val : Value) :
    Keeps (KeepsCalm nodes) (setVar name val) := by
  intro s
  rw [setVar, ensures_bind, ensures_get]
  cases updateVar s.callDepth name val s.vars with
  | some vars =>
      simp only [ensures_bind, ensures_set, ensures_pure]
      exact .of_same rfl rfl rfl rfl
  | none =>
      simp only [ensures_bind, ensures_ite, ensures_set, ensures_pure]
      exact ⟨fun _ => keeps_setError (by decide) s, fun _ => .of_same rfl rfl rfl rfl⟩

theorem keepsCalm_evalDef (node : Node) : Keeps (KeepsCalm nodes) (evalDef node) := by
  intro s
  rw [evalDef, ensures_bind, ensures_get, ensures_ite]
  refine ⟨fun _ => keeps_failWith (by decide) s, fun _ => ?_⟩
  simp only [ensures_bind, ensures_set, ensures_pure]
  exact .of_same rfl rfl rfl rfl

theorem ends_of_keeps {α : Type} {x : Eval α} (hkeeps : Keeps (KeepsCalm nodes) x)
    (hnodes : s.nodes = nodes) (hcalm : s.Calm) :
    Ensures x s fun _ s' => StmtEnd nodes inLoop s' := by
  refine (hkeeps s).mono fun _ s' hkept => ?_
  obtain ⟨hnodes', hcalm'⟩ := hkept ⟨hnodes, hcalm⟩
  exact hcalm'.ended hnodes'

/-! ## Calls -/

/-- A call clears the one flag that its body can leave. -/
theorem callWith_calm {evalNode : Int → Eval Value} (hbody : StmtsEnd nodes false evalNode)
    (f : FuncDef) (args : List Value) : Keeps (KeepsCalm nodes) (callWith evalNode f args) := by
  rintro s v s' hrun ⟨hnodes, hcalm⟩
  rw [callWith, bind_run (rfl : addDepth 1 s = .ok () _), bind_eq_ok] at hrun
  obtain ⟨ok, s₁, hbind, hrun⟩ := hrun
  obtain ⟨hnodes₁, hcalm₁⟩ := keeps_bindParams keepsCalm_setVar _ _ _ ok s₁ hbind
    ⟨hnodes, hcalm.returning, hcalm.breaking, hcalm.continuing⟩
  cases ok with
  | false =>
      cases hrun
      exact ⟨hnodes₁, hcalm₁.returning, hcalm₁.breaking, hcalm₁.continuing⟩
  | true =>
      obtain ⟨result, s₂, hbody₂, hleave⟩ := bind_eq_ok.mp hrun
      have hended := hbody _ s₁ hnodes₁ hcalm₁ result s₂ hbody₂
      obtain ⟨hbreaking, hcontinuing⟩ := hended.outside
      rw [leaveCall_run] at hleave
      cases hleave
      exact ⟨hended.nodes, rfl, hbreaking, hcontinuing⟩

/-! ## Blocks and loops -/

section

variable {evalNode : Int → Eval Value}

/-- A block goes on only without a flag. -/
theorem evalBlock_ends (hstmts : StmtsEnd nodes inLoop evalNode) (children : List Nat)
    (last : Value) (hnodes : s.nodes = nodes) (hcalm : s.Calm) :
    Ensures (evalBlock evalNode children last) s fun _ s' => StmtEnd nodes inLoop s' := by
  induction children generalizing s last with
  | nil => exact (ensures_pure _).mpr (hcalm.ended hnodes)
  | cons c more ih =>
      rw [evalBlock, ensures_bind]
      refine (hstmts c s hnodes hcalm).mono fun last s₁ hended => ?_
      rw [ensures_bind, ensures_get, ensures_ite, ensures_pure]
      refine ⟨fun _ => hended, fun hgo => ih last hended.nodes ?_⟩
      simp only [not_or, Bool.not_eq_true] at hgo
      exact ⟨hgo.2.1, hgo.2.2.1, hgo.2.2.2⟩

/-- After a round no jump is left, and the loop goes on only without a flag. -/
theorem afterRound_ends (hended : StmtEnd nodes true s) :
    Ensures afterRound s fun more s' => StmtEnd nodes inLoop s' ∧ (more → s'.Calm) := by
  simp only [afterRound, ensures_bind, ensures_get, ensures_ite, ensures_set, ensures_pure]
  have hstop : ∀ {p : Prop}, (false = true → p) := fun h => absurd h Bool.false_ne_true
  refine ⟨fun hend => ⟨?_, hstop⟩, fun hgo => ⟨fun hbreaking => ⟨?_, hstop⟩, fun hno => ?_⟩⟩
  · have hnone : s.breaking = false ∧ s.continuing = false := by
      constructor
      all_goals
        refine Bool.eq_false_of_not_eq_true fun hset => ?_
      · obtain ⟨-, herror, hreturning, -⟩ := hended.breaking hset
        exact hend.elim (absurd herror) fun h => Bool.false_ne_true (hreturning.symm.trans h)
      · obtain ⟨-, herror, hreturning, -⟩ := hended.continuing hset
        exact hend.elim (absurd herror) fun h => Bool.false_ne_true (hreturning.symm.trans h)
    exact ⟨hended.nodes, fun hset => absurd (hnone.1.symm.trans hset) Bool.false_ne_true,
      fun hset => absurd (hnone.2.symm.trans hset) Bool.false_ne_true⟩
  · exact ⟨hended.nodes, hstop, fun hset =>
      hstop ((hended.breaking hbreaking).2.2.2.symm.trans hset)⟩
  · obtain ⟨-, hreturning⟩ := not_or.mp hgo
    have hcalm : ({ s with continuing := false } : GkState).Calm :=
      ⟨Bool.eq_false_of_not_eq_true hreturning, Bool.eq_false_of_not_eq_true hno, rfl⟩
    exact ⟨hcalm.ended hended.nodes, fun _ => hcalm⟩

theorem evalWhile_ends (hcond : Keeps (KeepsCalm nodes) (evalNode (node.childAt 0)))
    (hstmts : StmtsEnd nodes true evalNode) (fuel : Nat) (result : Value) (hnodes : s.nodes = nodes)
    (hcalm : s.Calm) :
    Ensures (evalWhile evalNode node fuel result) s fun _ s' => StmtEnd nodes inLoop s' := by
  induction fuel generalizing s result with
  | zero => exact ensures_throw _
  | succ fuel ih =>
      rw [evalWhile, ensures_bind]
      refine (hcond s).mono fun cond s₁ hkept => ?_
      obtain ⟨hnodes₁, hcalm₁⟩ := hkept ⟨hnodes, hcalm⟩
      simp only [failed, ensures_bind, ensures_get, ensures_pure, ensures_ite]
      refine ⟨fun _ => hcalm₁.ended hnodes₁, fun _ => ?_⟩
      refine (hstmts _ s₁ hnodes₁ hcalm₁).mono fun result s₂ hended => ?_
      refine (@afterRound_ends nodes s₂ inLoop hended).mono fun more s₃ hround => ?_
      exact ⟨fun hmore => ih result hround.1.nodes (hround.2 hmore), fun _ => hround.1⟩

theorem evalRounds_ends (hstmts : StmtsEnd nodes true evalNode) (left : Nat) (i : Int32)
    (result : Value) (hnodes : s.nodes = nodes) (hcalm : s.Calm) :
    Ensures (evalRounds evalNode node left i result) s fun _ s' => StmtEnd nodes inLoop s' := by
  induction left generalizing s i result with
  | zero => exact (ensures_pure _).mpr (hcalm.ended hnodes)
  | succ left ih =>
      rw [evalRounds, ensures_bind]
      refine (@keepsCalm_setVar nodes _ _ s).mono fun ok s₁ hkept => ?_
      obtain ⟨hnodes₁, hcalm₁⟩ := hkept ⟨hnodes, hcalm⟩
      rw [ensures_ite, ensures_pure]
      refine ⟨fun _ => hcalm₁.ended hnodes₁, fun _ => ?_⟩
      rw [ensures_bind]
      refine (hstmts _ s₁ hnodes₁ hcalm₁).mono fun result s₂ hended => ?_
      rw [ensures_bind]
      refine (@afterRound_ends nodes s₂ inLoop hended).mono fun more s₃ hround => ?_
      rw [ensures_ite, ensures_pure]
      exact ⟨fun hmore => ih _ result hround.1.nodes (hround.2 hmore), fun _ => hround.1⟩

end

/-! ## All nodes -/

section

variable {root : Nat} (htrees : Trees 0 nodes [root] [.block])
  {evalNode : Bool → Int → Eval Value}
  (hexprs : ∀ inLoop, ExprsKept (KeepsCalm nodes) nodes (evalNode inLoop))
  (hstmts : ∀ inLoop, StmtsEnd nodes inLoop (evalNode inLoop))

include htrees hexprs hstmts

theorem evalFor_ends {n : Nat} (hnode : nodes[n]? = some node) (htype : node.type = .for_)
    (hnodes : s.nodes = nodes) (hcalm : s.Calm) :
    Ensures (evalFor (evalNode true) node) s fun _ s' => StmtEnd nodes inLoop s' := by
  have hiter := htrees.firstChild hnode (by simp [htype]) (by simp [htype])
  rw [evalFor, ensures_bind, ensures_get, ensures_ite, hnodes]
  refine ⟨fun _ => ?_, fun _ => ?_⟩
  · exact ends_of_keeps (keeps_failWith (by decide)) hnodes hcalm
  rw [ensures_bind]
  have hover : Keeps (KeepsCalm nodes) (evalNode true
      (if (nodes.getD (node.childAt 0).toNat (blankNode .int 0)).type = .range then
        (nodes.getD (node.childAt 0).toNat (blankNode .int 0)).childAt 0
      else node.childAt 0)) := by
    split_ifs with hrange
    · rw [List.getD_eq_getElem?_getD] at hrange ⊢
      cases hfound : nodes[(node.childAt 0).toNat]? with
      | none =>
          rw [hfound] at hrange
          cases hrange
      | some iter =>
          rw [hfound, Option.getD_some] at hrange
          rw [Option.getD_some]
          exact hexprs true _ (htrees.firstChild hfound (by simp [hrange]) (by simp [hrange]))
    · exact hexprs true _ hiter
  refine (hover s).mono fun v s₁ hkept => ?_
  obtain ⟨hnodes₁, hcalm₁⟩ := hkept ⟨hnodes, hcalm⟩
  simp only [failed, ensures_bind, ensures_get, ensures_pure, ensures_ite]
  refine ⟨fun _ => hcalm₁.ended hnodes₁, fun _ => ?_⟩
  have hfails : ∀ text : Text, text ≠ [] →
      Ensures (failWith text) s₁ fun _ s' => StmtEnd nodes inLoop s' :=
    fun text hsome => ends_of_keeps (keeps_failWith hsome) hnodes₁ hcalm₁
  cases v with
  | int limit => exact evalRounds_ends (hstmts true) _ _ _ hnodes₁ hcalm₁
  | _ =>
      simp only [ensures_ite]
      exact ⟨fun _ => hfails _ (by decide), fun _ => hfails _ (by decide)⟩

/-- A statement. -/
theorem monitorCases_ends {n : Nat} (hnode : nodes[n]? = some node)
    (hstmt : node.type.isExpr = false) (hnodes : s.nodes = nodes) (hcalm : s.Calm)
    (herror : s.error = []) (fuel : Nat) :
    Ensures (monitorCases jumpsInLoops evalNode fuel inLoop node) s
      fun _ s' => StmtEnd nodes inLoop s' := by
  have hfirst : node.type ≠ .def_ → node.type ≠ .block →
      ∀ inLoop, Keeps (KeepsCalm nodes) (evalNode inLoop (node.childAt 0)) :=
    fun hdef hblock inLoop => hexprs inLoop _ (htrees.firstChild hnode hdef hblock)
  cases htype : node.type with
  | assign =>
      simp only [monitorCases, evalCases, htype]
      have hkeeps : Keeps (KeepsCalm nodes) (do
          let val ← evalNode inLoop (node.childAt 0)
          if ← failed then return .none
          if ← setVar node.strVal val then return val else return .none) :=
        keeps_bind (hfirst (by simp [htype]) (by simp [htype]) inLoop) fun val =>
          keeps_unlessFailed (keeps_bind (keepsCalm_setVar _ _) fun _ =>
            keeps_ite (fun _ => keeps_pure _) fun _ => keeps_pure _)
      exact ends_of_keeps hkeeps hnodes hcalm
  | block =>
      simpa only [monitorCases, evalCases, htype] using
        evalBlock_ends (hstmts inLoop) node.child .none hnodes hcalm
  | if_ =>
      simp only [monitorCases, evalCases, htype, ensures_bind]
      refine (hfirst (by simp [htype]) (by simp [htype]) inLoop s).mono fun cond s₁ hkept => ?_
      obtain ⟨hnodes₁, hcalm₁⟩ := hkept ⟨hnodes, hcalm⟩
      simp only [failed, ensures_bind, ensures_get, ensures_pure, ensures_ite]
      refine ⟨fun _ => hcalm₁.ended hnodes₁, fun _ => ⟨fun _ => ?_, fun _ => ⟨fun _ => ?_, fun _ =>
        hcalm₁.ended hnodes₁⟩⟩⟩
      · exact hstmts inLoop _ s₁ hnodes₁ hcalm₁
      · exact hstmts inLoop _ s₁ hnodes₁ hcalm₁
  | while_ =>
      simp only [monitorCases, evalCases, htype]
      exact evalWhile_ends (hfirst (by simp [htype]) (by simp [htype]) true) (hstmts true) fuel _
        hnodes hcalm
  | for_ =>
      simp only [monitorCases, evalCases, htype]
      exact evalFor_ends htrees hexprs hstmts hnode htype hnodes hcalm
  | def_ =>
      simp only [monitorCases, evalCases, htype]
      exact ends_of_keeps (keepsCalm_evalDef node) hnodes hcalm
  | return_ =>
      simp only [monitorCases, evalCases, htype, ensures_ite]
      have hreturns : ∀ (s' : GkState) (v : Value), s'.nodes = nodes → s'.Calm →
          StmtEnd nodes inLoop { s' with returning := true, returnVal := v } := by
        intro s' v hnodes' hcalm'
        obtain ⟨-, hbreaking, hcontinuing⟩ := hcalm'
        exact ⟨hnodes', fun hset => absurd (hbreaking.symm.trans hset) Bool.false_ne_true,
          fun hset => absurd (hcontinuing.symm.trans hset) Bool.false_ne_true⟩
      refine ⟨fun _ => ?_, fun _ => ?_⟩
      · simp only [ensures_bind, ensures_modify, ensures_pure]
        exact hreturns s _ hnodes hcalm
      · rw [ensures_bind]
        refine (hfirst (by simp [htype]) (by simp [htype]) inLoop s).mono fun v s₁ hkept => ?_
        obtain ⟨hnodes₁, hcalm₁⟩ := hkept ⟨hnodes, hcalm⟩
        simp only [failed, ensures_bind, ensures_get, ensures_pure, ensures_ite, ensures_modify]
        exact ⟨fun _ => hcalm₁.ended hnodes₁, fun _ => hreturns s₁ v hnodes₁ hcalm₁⟩
  | break_ =>
      simp only [monitorCases, evalCases, htype, jumpsInLoops, require]
      cases inLoop with
      | false =>
          intro _ _ hrun
          cases hrun
      | true =>
          simp only [ensures_bind, ensures_modify, ensures_pure, if_true]
          exact ⟨hnodes, fun _ => ⟨rfl, herror, hcalm.returning, hcalm.continuing⟩,
            fun hset => absurd (hcalm.continuing.symm.trans hset) Bool.false_ne_true⟩
  | continue_ =>
      simp only [monitorCases, evalCases, htype, jumpsInLoops, require]
      cases inLoop with
      | false =>
          intro _ _ hrun
          cases hrun
      | true =>
          simp only [ensures_bind, ensures_modify, ensures_pure, if_true]
          exact ⟨hnodes, fun hset => absurd (hcalm.breaking.symm.trans hset) Bool.false_ne_true,
            fun _ => ⟨rfl, herror, hcalm.returning, hcalm.breaking⟩⟩
  | _ => rw [htype] at hstmt; cases hstmt

end

/-- One level of the watched `eval`, given the levels below it. -/
theorem evalMonitored_step {root : Nat} (htrees : Trees 0 nodes [root] [.block])
    (hclosed : ExprsClosed nodes) {fuel : Nat}
    (hexprs : ∀ inLoop,
      ExprsKept (KeepsCalm nodes) nodes (evalMonitored jumpsInLoops fuel inLoop))
    (hstmts : ∀ inLoop, StmtsEnd nodes inLoop (evalMonitored jumpsInLoops fuel inLoop))
    (inLoop : Bool) :
    ExprsKept (KeepsCalm nodes) nodes (evalMonitored jumpsInLoops (fuel + 1) inLoop) ∧
      StmtsEnd nodes inLoop (evalMonitored jumpsInLoops (fuel + 1) inLoop) := by
  have hcases : ∀ node : Node, node.type.isExpr → (∀ c ∈ node.child, ExprAt nodes c) →
      Keeps (KeepsCalm nodes)
        (monitorCases jumpsInLoops (evalMonitored jumpsInLoops fuel) fuel inLoop node) :=
    fun node hexpr hchild => keeps_monitorCases_expr _ (hexprs inLoop) hchild fuel hexpr fun _ =>
      keeps_monitorCall _ (hexprs inLoop) hchild fun f args s _ =>
        callWith_calm (hstmts false) f args s
  constructor
  · intro c hc s
    rw [evalMonitored, ensures_bind, ensures_get, ensures_ite, ensures_pure]
    refine ⟨fun _ => refl_of (KeepsCalm nodes) s, fun hgo => ?_⟩
    by_cases hpool : s.nodes = nodes
    · obtain ⟨type, htype, hexpr⟩ := hc.resolve_left fun hneg => hgo (.inl hneg)
      obtain ⟨node, hnode, rfl⟩ := Option.map_eq_some_iff.mp htype
      rw [hpool, List.getD_eq_getElem?_getD, hnode, Option.getD_some]
      exact hcases node hexpr (hclosed node (List.mem_of_getElem? hnode) hexpr) s
    · exact fun _ _ _ hcalm => absurd hcalm.1 hpool
  · intro c s hnodes hcalm
    rw [evalMonitored, ensures_bind, ensures_get, ensures_ite, ensures_pure]
    refine ⟨fun _ => hcalm.ended hnodes, fun hgo => ?_⟩
    have herror : s.error = [] := by
      by_contra hsome
      exact hgo (.inr hsome)
    rw [hnodes, List.getD_eq_getElem?_getD]
    cases hnode : nodes[c.toNat]? with
    | none =>
        exact ends_of_keeps (hcases _ rfl fun _ hc => absurd hc List.not_mem_nil) hnodes hcalm
    | some node =>
        rw [Option.getD_some]
        cases hexpr : node.type.isExpr with
        | true =>
            exact ends_of_keeps (hcases node hexpr
              (hclosed node (List.mem_of_getElem? hnode) hexpr)) hnodes hcalm
        | false => exact monitorCases_ends htrees hexprs hstmts hnode hexpr hnodes hcalm herror fuel

/-- With every jump in a loop of its function, expressions leave no flag behind, and statements
only what the loop around them clears. -/
theorem evalMonitored_ends {root : Nat} (htrees : Trees 0 nodes [root] [.block])
    (hclosed : ExprsClosed nodes) (fuel : Nat) (inLoop : Bool) :
    ExprsKept (KeepsCalm nodes) nodes (evalMonitored jumpsInLoops fuel inLoop) ∧
      StmtsEnd nodes inLoop (evalMonitored jumpsInLoops fuel inLoop) := by
  induction fuel generalizing inLoop with
  | zero => exact ⟨fun _ _ => keeps_throw _, fun _ _ _ _ => ensures_throw _⟩
  | succ fuel ih =>
      exact evalMonitored_step htrees hclosed (fun inLoop => (ih inLoop).1)
        (fun inLoop => (ih inLoop).2) inLoop

/-! ## Calls and their callers -/

/-- **No flag escapes a call whose jumps all stand in loops of their functions.**  Over the nodes
of a program, from any state without a flag, a call leaves none behind; so the block of the
caller goes on with its next statement, and a loop of the caller with its next round, unless
there is an error. -/
theorem call_calm {tokens : List Token} {root : Nat} {p : Parser}
    (hparse : gkParse tokens = .ok root p) (hnodes : s.nodes = p.nodes) (hcalm : s.Calm) {c : Nat}
    (hcall : typeAt p.nodes c = some .call) {v : Value}
    (hrun : evalMonitored jumpsInLoops fuel inLoop c s = .ok v s') :
    eval fuel c s = .ok v s' ∧ s'.Calm ∧
      (∀ more last, evalBlock (eval fuel) (c :: more) last s =
        if s'.error = [] then evalBlock (eval fuel) more v s' else .ok v s') ∧
      afterRound s' = .ok (s'.error = []) s' := by
  have heval := refines_evalMonitored jumpsInLoops fuel inLoop c s v s' hrun
  have hexprs := (evalMonitored_ends (gkParse_tree hparse) (gkParse_exprsClosed hparse) fuel
    inLoop).1
  obtain ⟨-, hcalm'⟩ := hexprs c (.inr ⟨.call, hcall, rfl⟩) s v s' hrun ⟨hnodes, hcalm⟩
  refine ⟨heval, hcalm', fun more last => ?_, ?_⟩
  · rw [evalBlock, bind_run heval, bind_run (rfl : (get : Eval GkState) s' = .ok s' s'),
      hcalm'.returning, hcalm'.breaking, hcalm'.continuing]
    by_cases herror : s'.error = []
    · simp [herror]
    · simp only [ne_eq, herror, not_false_eq_true, true_or, if_true, if_false]
      rfl
  · rw [afterRound, bind_run (rfl : (get : Eval GkState) s' = .ok s' s')]
    by_cases herror : s'.error = []
    · have hsame : ({ s' with continuing := false } : GkState) = s' := by
        rw [← hcalm'.continuing]
      rw [if_neg (by simp [herror, hcalm'.returning]), if_neg (by simp [hcalm'.breaking]),
        decide_eq_true herror]
      exact congrArg (EStateM.Result.ok true) hsame
    · rw [if_pos (.inl herror), decide_eq_false herror]
      rfl

/-- A function with a jump in a loop of its own, and a call of it. -/
def looping : List Token :=
  (gkLex [] (ascii "def f(x):\n    for i in x:\n        break\nf(2)\n")).2.tokens

theorem call_calm_looping : ∃ v s', eval 9 8 (afterDefinition looping) = .ok v s' ∧ s'.Calm := by
  have hparse : gkParse looping = .ok 0 (lastState (gkParse looping)) :=
    eq_ok_of_endValue (by decide +kernel)
  have hnodes : (afterDefinition looping).nodes = (lastState (gkParse looping)).nodes := by
    decide +kernel
  have hcalm : (afterDefinition looping).Calm := ⟨by decide +kernel, by decide +kernel,
    by decide +kernel⟩
  have hrun : evalMonitored jumpsInLoops 9 false (8 : Nat) (afterDefinition looping) = .ok .none _ :=
    eq_ok_of_endValue (by decide +kernel)
  obtain ⟨heval, hcalm', -⟩ := call_calm hparse hnodes hcalm (by decide +kernel) hrun
  exact ⟨_, _, heval, hcalm'⟩

/-- A function with a jump that stands in no loop, and a call of it. -/
def jumping : List Token :=
  (gkLex [] (ascii "def f():\n    break\nf()\nprint(1)\n")).2.tokens

/-- The flag is still set behind the call, and the statement that follows is not run. -/
theorem call_notCalm_jumping : (afterDefinition jumping).Calm ∧
    typeAt (afterDefinition jumping).nodes 4 = some .call ∧
    ¬ (lastState (eval 9 4 (afterDefinition jumping))).Calm ∧
    (lastState (eval 9 0 (.start (lastState (gkParse jumping)).nodes []))).output = [] := by
  refine ⟨⟨by decide +kernel, by decide +kernel, by decide +kernel⟩, by decide +kernel,
    fun hcalm => ?_, by decide +kernel⟩
  exact absurd hcalm.breaking (by decide +kernel)

end GeckoOS.Gk
