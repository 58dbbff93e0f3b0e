/-
# What every part of the interpreter keeps

A relation between the state before and the state after is kept by a text if each step of
the text keeps it.  The texts here are the parts of `eval`: those for expressions only
print, read lines and enter errors, those for statements also set variables and flags.  So
a relation that such steps keep is kept by every part, provided that the evaluation of the
nodes below keeps it.  Only calls are left out: what they do to the depth and to the stack
is not one of these steps.
-/

import GeckoOS.Gk.Interp
import GeckoOS.Gk.NodePool

namespace GeckoOS.Gk

open GeckoOS.Math

/-- The console and the error do not matter, except that no error is taken back. -/
class KeptByExprs (rel : GkState → GkState → Prop) : Prop extends IsPreorder GkState rel where
  console : ∀ (s : GkState) output typed, rel s { s with output := output, typed := typed }
  fail : ∀ (s : GkState) text, text ≠ [] → rel s { s with error := text }

/-- Nor do the functions and the flags, and a variable may be set. -/
class KeptByStmts (rel : GkState → GkState → Prop) : Prop extends KeptByExprs rel where
  define : ∀ (s : GkState) funcs, rel s { s with funcs := funcs }
  return_ : ∀ (s : GkState) v, rel s { s with returning := true, returnVal := v }
  jump : ∀ (s : GkState) breaking continuing,
    rel s { s with breaking := breaking, continuing := continuing }
  set : ∀ name val, Keeps rel (setVar name val)

theorem strcat_ne_nil {dst src : Text} (hsome : dst ≠ []) : strcat dst src ≠ [] :=
  fun hnil => hsome (List.append_eq_nil_iff.mp hnil).1

variable {rel : GkState → GkState → Prop} {α : Type} {nodes : List Node} {node : Node}
  {evalNode : Int → Eval Value}

/-! ## Errors and the console -/

section

variable [KeptByExprs rel]

theorem keeps_setError {text : Text} (hsome : text ≠ []) : Keeps rel (setError text) :=
  keeps_modify fun s => KeptByExprs.fail s text hsome

theorem keeps_failWith {text : Text} (hsome : text ≠ []) : Keeps rel (failWith text) :=
  keeps_bind (keeps_setError hsome) fun _ => keeps_pure _

theorem keeps_failed : Keeps rel failed := keeps_bind keeps_get fun _ => keeps_pure _

theorem keeps_gkPrint (text : Text) : Keeps rel (gkPrint text) :=
  keeps_modify fun s => KeptByExprs.console s (s.output ++ text) s.typed

theorem keeps_readLine (size : Nat) : Keeps rel (readLine size) := by
  intro s
  simp only [readLine, ensures_bind, ensures_get, ensures_set, ensures_pure]
  exact KeptByExprs.console s s.output s.typed.tail

/-- The way of code that gives up after an error. -/
theorem keeps_unlessFailed {early : α} {more : Eval α} (hmore : Keeps rel more) :
    Keeps rel (failed >>= fun stop => if stop then pure early else more) :=
  keeps_bind keeps_failed fun _ => keeps_ite (fun _ => keeps_pure _) fun _ => hmore

/-! ## Operators -/

theorem keeps_evalBinop (op : Option TokenType) (l r : Value) :
    Keeps rel (evalBinop op l r) := by
  unfold evalBinop
  split
  all_goals
    first
      | exact keeps_pure _
      | exact keeps_failWith (by decide)
      | exact keeps_ite (fun _ => keeps_failWith (by decide)) fun _ => keeps_pure _

theorem keeps_evalUnop (op : Option TokenType) (operand : Value) :
    Keeps rel (evalUnop op operand) := by
  unfold evalUnop
  split
  all_goals
    first
      | exact keeps_pure _
      | exact keeps_failWith (by decide)

/-! ## Expressions -/

section Expressions

/-- Evaluating a node that is an expression, or none, keeps the relation. -/
def ExprsKept (rel : GkState → GkState → Prop) (nodes : List Node) (evalNode : Int → Eval Value) :
    Prop :=
  ∀ c : Int, (c < 0 ∨ ExprAt nodes c.toNat) → Keeps rel (evalNode c)

variable (heval : ExprsKept rel nodes evalNode) (hchild : ∀ c ∈ node.child, ExprAt nodes c)

include heval hchild

omit [KeptByExprs rel] in
theorem keeps_evalChild (i : Nat) : Keeps rel (evalNode (node.childAt i)) := by
  refine heval _ ?_
  rw [Node.childAt]
  cases hget : node.child[i]? with
  | none => exact .inl (by decide)
  | some c => exact .inr (hchild c (List.mem_of_getElem? hget))

theorem keeps_evalLogic (stop : Bool) : Keeps rel (evalLogic evalNode stop node) :=
  keeps_bind (keeps_evalChild heval hchild 0) fun _ => keeps_ite (fun _ => keeps_pure _) fun _ =>
    keeps_bind (keeps_evalChild heval hchild 1) fun _ => keeps_pure _

theorem keeps_evalInput : Keeps rel (evalInput evalNode node) := by
  have hread : Keeps rel (do
      let line ← readLine (maxStr - 2)
      gkPrint (ascii "\n")
      return Value.str line) :=
    keeps_bind (keeps_readLine _) fun _ => keeps_bind (keeps_gkPrint _) fun _ => keeps_pure _
  refine keeps_ite (fun _ => ?_) fun _ => hread
  refine keeps_bind (keeps_evalChild heval hchild 0) fun prompt => ?_
  exact keeps_unlessFailed (keeps_bind (keeps_gkPrint _) fun _ => hread)

theorem keeps_evalIntCast : Keeps rel (evalIntCast evalNode node) := by
  refine keeps_ite (fun _ => keeps_failWith (by decide)) fun _ => ?_
  refine keeps_bind (keeps_evalChild heval hchild 0) fun v => keeps_unlessFailed ?_
  cases v with
  | int v => exact keeps_pure _
  | str text =>
      dsimp only
      cases intOfText text with
      | none => exact keeps_failWith (by decide)
      | some v => exact keeps_pure _
  | bool v => exact keeps_failWith (by decide)
  | none => exact keeps_failWith (by decide)

end Expressions

theorem keeps_evalPrint (heval : ExprsKept rel nodes evalNode) (children : List Nat)
    (hchild : ∀ c ∈ children, ExprAt nodes c) : Keeps rel (evalPrint evalNode children) := by
  induction children with
  | nil => exact keeps_bind (keeps_gkPrint _) fun _ => keeps_pure _
  | cons c more ih =>
      have hrest := ih fun c hc => hchild c (List.mem_cons_of_mem _ hc)
      rw [evalPrint]
      refine keeps_bind (heval c (.inr (hchild c List.mem_cons_self))) fun v => ?_
      refine keeps_unlessFailed (keeps_bind (keeps_gkPrint _) fun _ => ?_)
      exact keeps_ite (fun _ => keeps_bind (keeps_gkPrint _) fun _ => hrest) fun _ => hrest

theorem keeps_evalArgs (heval : ExprsKept rel nodes evalNode) (children : List Nat)
    (hchild : ∀ c ∈ children, ExprAt nodes c) : Keeps rel (evalArgs evalNode children) := by
  induction children with
  | nil => exact keeps_pure _
  | cons c more ih =>
      have hrest := ih fun c hc => hchild c (List.mem_cons_of_mem _ hc)
      rw [evalArgs]
      refine keeps_bind (heval c (.inr (hchild c List.mem_cons_self))) fun v => ?_
      exact keeps_unlessFailed (keeps_bind hrest fun _ => keeps_pure _)

/-- An expression that is not a call. -/
theorem keeps_evalCases_expr (heval : ExprsKept rel nodes evalNode) (fuel : Nat)
    (hchild : ∀ c ∈ node.child, ExprAt nodes c) (hexpr : node.type.isExpr)
    (hcall : node.type = .call → Keeps rel (evalCall evalNode node)) :
    Keeps rel (evalCases evalNode fuel node) := by
  have hoperand := keeps_evalChild heval hchild
  cases htype : node.type with
  | int => simpa only [evalCases, htype] using keeps_pure _
  | str => simpa only [evalCases, htype] using keeps_pure _
  | bool => simpa only [evalCases, htype] using keeps_pure _
  | var =>
      simp only [evalCases, htype]
      refine keeps_bind keeps_get fun s => ?_
      cases findVar s.vars node.strVal with
      | none => exact keeps_failWith (strcat_ne_nil (by decide))
      | some v => exact keeps_pure _
  | unop =>
      simp only [evalCases, htype]
      exact keeps_bind (hoperand 0) fun v => keeps_unlessFailed (keeps_evalUnop _ v)
  | binop =>
      simp only [evalCases, htype]
      refine keeps_ite (fun _ => keeps_evalLogic heval hchild _) fun _ => ?_
      refine keeps_ite (fun _ => keeps_evalLogic heval hchild _) fun _ => ?_
      refine keeps_bind (hoperand 0) fun l => keeps_unlessFailed ?_
      exact keeps_bind (hoperand 1) fun r => keeps_unlessFailed (keeps_evalBinop _ l r)
  | call => simpa only [evalCases, htype] using hcall htype
  | print => simpa only [evalCases, htype] using keeps_evalPrint heval node.child hchild
  | range => simpa only [evalCases, htype] using keeps_failWith (by decide)
  | input => simpa only [evalCases, htype] using keeps_evalInput heval hchild
  | intCast => simpa only [evalCases, htype] using keeps_evalIntCast heval hchild
  | _ => rw [htype] at hexpr; cases hexpr

end

/-! ## Statements -/

/-- The parameters of a call are set one after the other. -/
theorem keeps_bindParams [IsPreorder GkState rel] (hset : ∀ name val, Keeps rel (setVar name val))
    (params : List Text) (args : List Value) : Keeps rel (bindParams params args) := by
  induction params generalizing args with
  | nil => exact keeps_pure _
  | cons param params ih =>
      cases args with
      | nil => exact keeps_pure _
      | cons arg args =>
          rw [bindParams]
          exact keeps_bind (hset param arg) fun _ =>
            keeps_ite (fun _ => ih args) fun _ => keeps_pure _

/-- The code after a round takes back the flag that it acts on. -/
theorem keeps_afterRound_of [IsPreorder GkState rel] (hjump : ∀ (s : GkState) breaking continuing,
    rel s { s with breaking, continuing }) : Keeps rel afterRound := by
  intro s
  simp only [afterRound, ensures_bind, ensures_get, ensures_ite, ensures_set, ensures_pure]
  exact ⟨fun _ => refl_of _ s, fun _ => ⟨fun _ => hjump s false s.continuing,
    fun _ => hjump s s.breaking false⟩⟩

section

variable [KeptByStmts rel]

theorem keeps_afterRound : Keeps rel afterRound := keeps_afterRound_of KeptByStmts.jump

theorem keeps_evalDef (node : Node) : Keeps rel (evalDef node) := by
  intro s
  rw [evalDef, ensures_bind, ensures_get, ensures_ite]
  refine ⟨fun _ => keeps_failWith (by decide) s, fun _ => ?_⟩
  simp only [ensures_bind, ensures_set, ensures_pure]
  exact KeptByStmts.define s _

variable (heval : ∀ c, Keeps rel (evalNode c))

include heval

theorem keeps_evalBlock (children : List Nat) (last : Value) :
    Keeps rel (evalBlock evalNode children last) := by
  induction children generalizing last with
  | nil => exact keeps_pure _
  | cons c more ih =>
      exact keeps_bind (heval c) fun last => keeps_bind keeps_get fun _ =>
        keeps_ite (fun _ => keeps_pure _) fun _ => ih last

theorem keeps_evalWhile (node : Node) (fuel : Nat) (result : Value) :
    Keeps rel (evalWhile evalNode node fuel result) := by
  induction fuel generalizing result with
  | zero => exact keeps_throw _
  | succ fuel ih =>
      refine keeps_bind (heval _) fun cond => keeps_bind keeps_failed fun _ => ?_
      refine keeps_ite (fun _ => keeps_pure _) fun _ => keeps_bind (heval _) fun result => ?_
      exact keeps_bind keeps_afterRound fun _ => keeps_ite (fun _ => ih result) fun _ =>
        keeps_pure _

theorem keeps_evalRounds (node : Node) (left : Nat) (i : Int32) (result : Value) :
    Keeps rel (evalRounds evalNode node left i result) := by
  induction left generalizing i result with
  | zero => exact keeps_pure _
  | succ left ih =>
      refine keeps_bind (KeptByStmts.set _ _) fun _ => keeps_ite (fun _ => keeps_pure _) fun _ => ?_
      refine keeps_bind (heval _) fun result => keeps_bind keeps_afterRound fun _ => ?_
      exact keeps_ite (fun _ => ih _ _) fun _ => keeps_pure _

theorem keeps_evalFor (node : Node) : Keeps rel (evalFor evalNode node) := by
  refine keeps_bind keeps_get fun s => keeps_ite (fun _ => keeps_failWith (by decide)) fun _ => ?_
  refine keeps_bind (heval _) fun v => keeps_unlessFailed ?_
  have hno : Keeps rel (if (s.nodes.getD (node.childAt 0).toNat (blankNode .int 0)).type = .range
      then failWith (ascii "range() argument must be integer")
      else failWith (ascii "for loop requires integer or range()")) :=
    keeps_ite (fun _ => keeps_failWith (by decide)) fun _ => keeps_failWith (by decide)
  cases v with
  | int limit => exact keeps_evalRounds heval node _ _ _
  | str _ => exact hno
  | bool _ => exact hno
  | none => exact hno

/-- A statement. -/
theorem keeps_evalCases_stmt (fuel : Nat) (hstmt : node.type.isExpr = false) :
    Keeps rel (evalCases evalNode fuel node) := by
  cases htype : node.type with
  | assign =>
      simp only [evalCases, htype]
      refine keeps_bind (heval _) fun val => keeps_unlessFailed ?_
      exact keeps_bind (KeptByStmts.set _ _) fun _ =>
        keeps_ite (fun _ => keeps_pure _) fun _ => keeps_pure _
  | block => simpa only [evalCases, htype] using keeps_evalBlock heval node.child .none
  | if_ =>
      simp only [evalCases, htype]
      refine keeps_bind (heval _) fun cond => keeps_unlessFailed ?_
      refine keeps_ite (fun _ => heval _) fun _ => ?_
      exact keeps_ite (fun _ => heval _) fun _ => keeps_pure _
  | while_ => simpa only [evalCases, htype] using keeps_evalWhile heval node fuel .none
  | for_ => simpa only [evalCases, htype] using keeps_evalFor heval node
  | def_ => simpa only [evalCases, htype] using keeps_evalDef node
  | return_ =>
      simp only [evalCases, htype]
      have hreturn : ∀ v, Keeps rel
          (modify fun s => { s with returning := true, returnVal := v } : Eval Unit) :=
        fun v => keeps_modify fun s => KeptByStmts.return_ s v
      refine keeps_ite (fun _ => keeps_bind (hreturn _) fun _ => keeps_pure _) fun _ => ?_
      exact keeps_bind (heval _) fun v => keeps_unlessFailed
        (keeps_bind (hreturn v) fun _ => keeps_pure _)
  | break_ =>
      simp only [evalCases, htype]
      exact keeps_bind (keeps_modify fun s => KeptByStmts.jump s true s.continuing)
        fun _ => keeps_pure _
  | continue_ =>
      simp only [evalCases, htype]
      exact keeps_bind (keeps_modify fun s => KeptByStmts.jump s s.breaking true)
        fun _ => keeps_pure _
  | _ => rw [htype] at hstmt; cases hstmt

end

end GeckoOS.Gk
