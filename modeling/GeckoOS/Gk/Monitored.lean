/-
# Monitored runs

A defect that shows in single steps of a run is a matter of what these steps are given, not
of the whole program.  Here `eval` is watched by someone who looks at such steps before they
are taken, and who can stop the run there.  What a watched run returns is what `eval`
returns, so what is shown of watched runs holds of all runs whose steps pass.

A watched run also knows whether it is in the body of a loop of the current function, which
the interpreter does not.
-/

import GeckoOS.Gk.Keeping
import GeckoOS.Gk.Scoping

namespace GeckoOS.Gk

open GeckoOS.Math

/-- Which steps pass. -/
structure Monitor where
  /-- A break or continue statement that stands in a loop of its function, or does not. -/
  jump : (inLoop : Bool) → Bool
  /-- The arguments are bound to the parameters. -/
  bind : GkState → FuncDef → List Value → Bool
  /-- An operator is applied. -/
  unop : Option TokenType → Value → Bool
  binop : Option TokenType → Value → Value → Bool
  /-- `int()` of a text. -/
  cast : Text → Bool

/-- Everything passes. -/
def Monitor.all : Monitor where
  jump _ := true
  bind _ _ _ := true
  unop _ _ := true
  binop _ _ _ := true
  cast _ := true

/-- The run goes on only if the step passes. -/
def require (ok : Bool) : Eval Unit := if ok then pure () else throw .outOfFuel

section

variable (m : Monitor)

/-- `int()`. -/
def monitorIntCast (evalNode : Int → Eval Value) (node : Node) : Eval Value := do
  if node.child.length ≠ 1 then failWith (ascii "int() takes exactly one argument")
  else
    let v ← evalNode (node.childAt 0)
    if ← failed then return .none
    match v with
    | .int v => return .int v
    | .str text => do
        require (m.cast text)
        match intOfText text with
        | some v => return .int v
        | none => failWith (ascii "int() invalid literal")
    | _ => failWith (ascii "int() requires a string or integer argument")

/-- A call of a function: its body is not in a loop. -/
def monitorCall (evalNode : Bool → Int → Eval Value) (inLoop : Bool) (node : Node) :
    Eval Value := do
  let s ← get
  match findFunc s.funcs node.strVal with
  | none => failWith (strcat (ascii "undefined function: ") node.strVal)
  | some f =>
      if node.child.length ≠ f.params.length then failWith (ascii "wrong number of arguments")
      else if maxCallDepth ≤ s.callDepth then failWith (ascii "max call depth exceeded")
      else
        match ← evalArgs (evalNode inLoop) node.child with
        | none => return .none
        | some args => do
            let s ← get
            require (m.bind s f args)
            callWith (evalNode false) f args

/-- The cases of `eval`. -/
def monitorCases (evalNode : Bool → Int → Eval Value) (fuel : Nat) (inLoop : Bool) (node : Node) :
    Eval Value :=
  match node.type with
  | .unop => do
      let operand ← evalNode inLoop (node.childAt 0)
      if ← failed then return .none
      require (m.unop node.op operand)
      evalUnop node.op operand
  | .binop =>
      if node.op = some .and then evalLogic (evalNode inLoop) false node
      else if node.op = some .or then evalLogic (evalNode inLoop) true node
      else do
        let l ← evalNode inLoop (node.childAt 0)
        if ← failed then return .none
        let r ← evalNode inLoop (node.childAt 1)
        if ← failed then return .none
        require (m.binop node.op l r)
        evalBinop node.op l r
  | .intCast => monitorIntCast m (evalNode inLoop) node
  | .while_ | .for_ => evalCases (evalNode true) fuel node
  | .call => monitorCall m evalNode inLoop node
  | .break_ | .continue_ => do
      require (m.jump inLoop)
      evalCases (evalNode inLoop) fuel node
  | _ => evalCases (evalNode inLoop) fuel node

/-- `eval` of a node that stands in a loop of its function, or does not. -/
def evalMonitored : Nat → Bool → Int → Eval Value
  | 0, _, _ => throw .outOfFuel
  | fuel + 1, inLoop, nodeIdx => do
      let s ← get
      if nodeIdx < 0 ∨ s.error ≠ [] then return .none
      monitorCases m (evalMonitored fuel) fuel inLoop (s.nodes.getD nodeIdx.toNat (blankNode .int 0))

end

/-! ## Comparing runs -/

/-- No error is taken back. -/
def ErrorStays (s s' : GkState) : Prop := s'.error = [] → s.error = []

/-- The console, the flags, the variables and the depth do not matter, and no error is taken back.
This is all that the parts of `eval` do, but for a definition. -/
class KeptByParts (rel : GkState → GkState → Prop) : Prop extends KeptByExprs rel where
  flags : ∀ (s : GkState) returning breaking continuing returnVal,
    rel s { s with returning, breaking, continuing, returnVal }
  vars : ∀ (s : GkState) vars, rel s { s with vars := vars }
  depth : ∀ (s : GkState) callDepth, rel s { s with callDepth := callDepth }

instance : KeptByParts ErrorStays where
  refl _ := id
  trans _ _ _ h h' hnone := h (h' hnone)
  console _ _ _ := id
  fail _ _ hsome hnone := absurd hnone hsome
  flags _ _ _ _ _ := id
  vars _ _ := id
  depth _ _ := id

section

variable {rel : GkState → GkState → Prop} [KeptByParts rel]

theorem keeps_setVar (name : Text) (val : Value) : Keeps rel (setVar name val) := by
  intro s
  unfold setVar
  rw [ensures_bind, ensures_get]
  cases updateVar s.callDepth name val s.vars with
  | some vars =>
      rw [ensures_bind, ensures_set, ensures_pure]
      exact KeptByParts.vars s vars
  | none =>
      rw [ensures_ite]
      refine ⟨fun _ => ?_, fun _ => ?_⟩
      · rw [ensures_bind, setError, ensures_modify, ensures_pure]
        exact KeptByExprs.fail s _ (by decide)
      · rw [ensures_bind, ensures_set, ensures_pure]
        exact KeptByParts.vars s _

/-- What the code after a round does to the flags. -/
theorem keeps_betweenRounds : Keeps rel afterRound :=
  keeps_afterRound_of fun s breaking continuing =>
    KeptByParts.flags s s.returning breaking continuing s.returnVal

theorem keeps_addDepth (levels : Int) : Keeps rel (addDepth levels) :=
  keeps_modify fun s => KeptByParts.depth s (s.callDepth + levels)

/-- What the end of a call does to the flag, the variables and the depth. -/
theorem keeps_leaveCall (result : Value) : Keeps rel (leaveCall result) := by
  intro s
  have hleave : ∀ returning vars callDepth,
      rel s { s with returning := returning, vars := vars, callDepth := callDepth } := by
    intro returning vars callDepth
    refine trans_of rel (KeptByParts.flags s returning s.breaking s.continuing s.returnVal) ?_
    exact trans_of rel (KeptByParts.vars _ vars) (KeptByParts.depth _ callDepth)
  simp only [leaveCall, popScope, addDepth, ensures_bind, ensures_get, ensures_ite, ensures_set,
    ensures_modify, ensures_pure]
  exact ⟨fun _ => hleave false _ _, fun _ => hleave s.returning _ _⟩

end

instance : KeptByStmts ErrorStays where
  define _ _ := id
  return_ _ _ := id
  jump _ _ _ := id
  set := keeps_setVar

/-- A way to compare computations that goes from the parts to the whole. -/
structure Comparison (R : (α : Type) → Eval α → Eval α → Prop) : Prop where
  refl : ∀ {α : Type} {x : Eval α}, Keeps ErrorStays x → R α x x
  bind : ∀ {α β : Type} {x x' : Eval α} {f f' : α → Eval β}, R α x x' → (∀ a, R β (f a) (f' a)) →
    R β (x >>= f) (x' >>= f')

/-- The same, where a computation need only be compared with itself if it keeps a relation. -/
structure Compares (rel : GkState → GkState → Prop) (R : (α : Type) → Eval α → Eval α → Prop) :
    Prop where
  refl : ∀ {α : Type} {x : Eval α}, Keeps rel x → R α x x
  bind : ∀ {α β : Type} {x x' : Eval α} {f f' : α → Eval β}, R α x x' → (∀ a, R β (f a) (f' a)) →
    R β (x >>= f) (x' >>= f')

theorem Comparison.compares {R : (α : Type) → Eval α → Eval α → Prop} (hR : Comparison R) :
    Compares ErrorStays R :=
  ⟨hR.refl, hR.bind⟩

/-- Whatever the one returns, the other one returns. -/
theorem comparison_refines : Comparison fun _ => Refines where
  refl _ := refines_refl _
  bind := refines_bind

section

variable {R : (α : Type) → Eval α → Eval α → Prop} {α : Type} {x y : Eval α}

theorem compare_ite {c : Prop} [Decidable c] {x' y' : Eval α} (hx : c → R α x x')
    (hy : ¬ c → R α y y') : R α (if c then x else y) (if c then x' else y') := by
  by_cases hc : c
  · rw [if_pos hc, if_pos hc]
    exact hx hc
  · rw [if_neg hc, if_neg hc]
    exact hy hc

variable {rel : GkState → GkState → Prop} [KeptByParts rel] (hR : Compares rel R)

include hR

theorem Compares.pure (a : α) : R α (Pure.pure a) (Pure.pure a) := hR.refl (keeps_pure a)

theorem Compares.failWith {text : Text} (hsome : text ≠ []) :
    R Value (failWith text) (failWith text) :=
  hR.refl (keeps_failWith hsome)

theorem Compares.unlessFailed {early : α} (hmore : R α x y) :
    R α (failed >>= fun stop => if stop then Pure.pure early else x)
      (failed >>= fun stop => if stop then Pure.pure early else y) :=
  hR.bind (hR.refl keeps_failed) fun _ => compare_ite (fun _ => hR.pure _) fun _ => hmore

variable {evalNode evalNode' : Int → Eval Value}
  (heval : ∀ c, R Value (evalNode c) (evalNode' c)) (node : Node)

include heval

theorem compare_evalLogic (stop : Bool) :
    R Value (evalLogic evalNode stop node) (evalLogic evalNode' stop node) :=
  hR.bind (heval _) fun _ => compare_ite (fun _ => hR.pure _) fun _ =>
    hR.bind (heval _) fun _ => hR.pure _

theorem compare_evalPrint (children : List Nat) :
    R Value (evalPrint evalNode children) (evalPrint evalNode' children) := by
  induction children with
  | nil => exact hR.refl (keeps_bind (keeps_gkPrint _) fun _ => keeps_pure _)
  | cons c more ih =>
      refine hR.bind (heval c) fun v => hR.unlessFailed ?_
      refine hR.bind (hR.refl (keeps_gkPrint _)) fun _ => compare_ite (fun _ => ?_) fun _ => ih
      exact hR.bind (hR.refl (keeps_gkPrint _)) fun _ => ih

theorem compare_evalInput : R Value (evalInput evalNode node) (evalInput evalNode' node) := by
  have hline : R Value (do
      let line ← readLine (maxStr - 2)
      gkPrint (ascii "\n")
      return .str line) (do
      let line ← readLine (maxStr - 2)
      gkPrint (ascii "\n")
      return .str line) :=
    hR.refl (keeps_bind (keeps_readLine _) fun _ => keeps_bind (keeps_gkPrint _) fun _ =>
      keeps_pure _)
  refine compare_ite (fun _ => ?_) fun _ => hline
  exact hR.bind (heval _) fun prompt => hR.unlessFailed
    (hR.bind (hR.refl (keeps_gkPrint _)) fun _ => hline)

theorem compare_evalBlock (children : List Nat) (last : Value) :
    R Value (evalBlock evalNode children last) (evalBlock evalNode' children last) := by
  induction children generalizing last with
  | nil => exact hR.pure _
  | cons c more ih =>
      exact hR.bind (heval c) fun last => hR.bind (hR.refl keeps_get) fun _ =>
        compare_ite (fun _ => hR.pure _) fun _ => ih last

theorem compare_evalWhile (fuel : Nat) (result : Value) :
    R Value (evalWhile evalNode node fuel result) (evalWhile evalNode' node fuel result) := by
  induction fuel generalizing result with
  | zero => exact hR.refl (keeps_throw _)
  | succ fuel ih =>
      refine hR.bind (heval _) fun cond => hR.bind (hR.refl keeps_failed) fun _ => ?_
      refine compare_ite (fun _ => hR.pure _) fun _ => hR.bind (heval _) fun result => ?_
      exact hR.bind (hR.refl keeps_betweenRounds) fun _ => compare_ite (fun _ => ih result) fun _ =>
        hR.pure _

theorem compare_evalRounds (left : Nat) (i : Int32) (result : Value) :
    R Value (evalRounds evalNode node left i result) (evalRounds evalNode' node left i result) := by
  induction left generalizing i result with
  | zero => exact hR.pure _
  | succ left ih =>
      refine hR.bind (hR.refl (keeps_setVar _ _)) fun _ => compare_ite (fun _ => hR.pure _) fun _ => ?_
      refine hR.bind (heval _) fun result => hR.bind (hR.refl keeps_betweenRounds) fun _ => ?_
      exact compare_ite (fun _ => ih _ _) fun _ => hR.pure _

theorem compare_evalFor : R Value (evalFor evalNode node) (evalFor evalNode' node) := by
  refine hR.bind (hR.refl keeps_get) fun s => compare_ite (fun _ => hR.failWith (by decide)) fun _ => ?_
  refine hR.bind (heval _) fun v => hR.unlessFailed ?_
  have hno : ∀ iter : Node, R Value
      (if iter.type = .range then failWith (ascii "range() argument must be integer")
        else failWith (ascii "for loop requires integer or range()"))
      (if iter.type = .range then failWith (ascii "range() argument must be integer")
        else failWith (ascii "for loop requires integer or range()")) :=
    fun iter => compare_ite (fun _ => hR.failWith (by decide)) fun _ => hR.failWith (by decide)
  cases v with
  | int limit => exact compare_evalRounds hR heval node _ _ _
  | str text => exact hno _
  | bool v => exact hno _
  | none => exact hno _

theorem compare_evalArgs (children : List Nat) :
    R _ (evalArgs evalNode children) (evalArgs evalNode' children) := by
  induction children with
  | nil => exact hR.pure _
  | cons c more ih =>
      exact hR.bind (heval c) fun v => hR.unlessFailed
        (hR.bind ih fun _ => hR.pure _)

theorem compare_callWith (f : FuncDef) (args : List Value) :
    R Value (callWith evalNode f args) (callWith evalNode' f args) := by
  refine hR.bind (hR.refl (keeps_addDepth 1)) fun _ =>
    hR.bind (hR.refl (keeps_bindParams keeps_setVar _ _)) fun _ => ?_
  refine compare_ite (fun _ => hR.refl (keeps_bind (keeps_addDepth (-1)) fun _ => keeps_pure _))
    fun _ => ?_
  exact hR.bind (heval _) fun _ => hR.refl (keeps_leaveCall _)

end

/-! ## Runs under two monitors -/

/-- `int()` of a text that passes. -/
def castText (text : Text) : Eval Value :=
  match intOfText text with
  | some v => return .int v
  | none => failWith (ascii "int() invalid literal")

/-- The steps compare that one or the other monitor lets pass. -/
structure Monitor.Compare (R : (α : Type) → Eval α → Eval α → Prop) (m m' : Monitor) : Prop where
  jump : ∀ inLoop {x : Eval Value}, R Value x x →
    R Value (require (m.jump inLoop) >>= fun _ => x) (require (m'.jump inLoop) >>= fun _ => x)
  bind : ∀ s f args {x x' : Eval Value}, R Value x x' →
    R Value (require (m.bind s f args) >>= fun _ => x) (require (m'.bind s f args) >>= fun _ => x')
  unop : ∀ op v, R Value (require (m.unop op v) >>= fun _ => evalUnop op v)
    (require (m'.unop op v) >>= fun _ => evalUnop op v)
  binop : ∀ op l r, R Value (require (m.binop op l r) >>= fun _ => evalBinop op l r)
    (require (m'.binop op l r) >>= fun _ => evalBinop op l r)
  cast : ∀ text, R Value (require (m.cast text) >>= fun _ => castText text)
    (require (m'.cast text) >>= fun _ => castText text)

section

variable {R : (α : Type) → Eval α → Eval α → Prop} {rel : GkState → GkState → Prop}
  [KeptByParts rel] (hR : Compares rel R) {m m' : Monitor}
  (hm : m.Compare R m') {evalNode evalNode' : Bool → Int → Eval Value}
  (heval : ∀ inLoop c, R Value (evalNode inLoop c) (evalNode' inLoop c)) (inLoop : Bool)
  (node : Node)

include hR hm heval

theorem compare_monitorIntCast :
    R Value (monitorIntCast m (evalNode inLoop) node)
      (monitorIntCast m' (evalNode' inLoop) node) := by
  refine compare_ite (fun _ => hR.failWith (by decide)) fun _ => ?_
  refine hR.bind (heval inLoop _) fun v => hR.unlessFailed ?_
  cases v with
  | str text => exact hm.cast text
  | int v => exact hR.pure _
  | bool v => exact hR.failWith (by decide)
  | none => exact hR.failWith (by decide)

theorem compare_monitorCall :
    R Value (monitorCall m evalNode inLoop node) (monitorCall m' evalNode' inLoop node) := by
  refine hR.bind (hR.refl keeps_get) fun s => ?_
  cases findFunc s.funcs node.strVal with
  | none => exact hR.failWith (strcat_ne_nil (by decide))
  | some f =>
      refine compare_ite (fun _ => hR.failWith (by decide)) fun _ =>
        compare_ite (fun _ => hR.failWith (by decide)) fun _ => ?_
      refine hR.bind (compare_evalArgs hR (heval inLoop) node.child) fun args => ?_
      cases args with
      | none => exact hR.pure _
      | some args =>
          refine hR.bind (hR.refl keeps_get) fun s => ?_
          exact hm.bind s f args (compare_callWith hR (heval false) f args)

theorem compare_monitorCases
    (hdef : node.type = .def_ → R Value (evalDef node) (evalDef node)) (fuel : Nat) :
    R Value (monitorCases m evalNode fuel inLoop node)
      (monitorCases m' evalNode' fuel inLoop node) := by
  cases htype : node.type with
  | int | str | bool =>
      simp only [monitorCases, evalCases, htype]
      exact hR.pure _
  | var =>
      simp only [monitorCases, evalCases, htype]
      refine hR.bind (hR.refl keeps_get) fun s => ?_
      cases findVar s.vars node.strVal with
      | some v => exact hR.pure _
      | none => exact hR.failWith (strcat_ne_nil (by decide))
  | assign =>
      simp only [monitorCases, evalCases, htype]
      refine hR.bind (heval inLoop _) fun val => hR.unlessFailed ?_
      exact hR.bind (hR.refl (keeps_setVar _ _)) fun _ =>
        compare_ite (fun _ => hR.pure _) fun _ => hR.pure _
  | unop =>
      simp only [monitorCases, htype]
      exact hR.bind (heval inLoop _) fun v => hR.unlessFailed (hm.unop _ v)
  | binop =>
      simp only [monitorCases, htype]
      refine compare_ite (fun _ => compare_evalLogic hR (heval inLoop) node _) fun _ => ?_
      refine compare_ite (fun _ => compare_evalLogic hR (heval inLoop) node _) fun _ => ?_
      exact hR.bind (heval inLoop _) fun l => hR.unlessFailed
        (hR.bind (heval inLoop _) fun r => hR.unlessFailed (hm.binop _ l r))
  | print =>
      simpa only [monitorCases, evalCases, htype] using
        compare_evalPrint hR (heval inLoop) node.child
  | input =>
      simpa only [monitorCases, evalCases, htype] using compare_evalInput hR (heval inLoop) node
  | intCast =>
      simpa only [monitorCases, htype] using compare_monitorIntCast hR hm heval inLoop node
  | block =>
      simpa only [monitorCases, evalCases, htype] using
        compare_evalBlock hR (heval inLoop) node.child .none
  | if_ =>
      simp only [monitorCases, evalCases, htype]
      refine hR.bind (heval inLoop _) fun cond => hR.unlessFailed ?_
      exact compare_ite (fun _ => heval inLoop _) fun _ =>
        compare_ite (fun _ => heval inLoop _) fun _ => hR.pure _
  | while_ =>
      simpa only [monitorCases, evalCases, htype] using
        compare_evalWhile hR (heval true) node fuel .none
  | for_ =>
      simpa only [monitorCases, evalCases, htype] using compare_evalFor hR (heval true) node
  | def_ =>
      simpa only [monitorCases, evalCases, htype] using hdef htype
  | call => simpa only [monitorCases, htype] using compare_monitorCall hR hm heval inLoop node
  | return_ =>
      have hreturn : ∀ v, Keeps rel
          (modify fun s => { s with returning := true, returnVal := v } : Eval Unit) :=
        fun v => keeps_modify fun s => KeptByParts.flags s true s.breaking s.continuing v
      simp only [monitorCases, evalCases, htype]
      refine compare_ite (fun _ => ?_) fun _ => ?_
      · exact hR.bind (hR.refl (hreturn _)) fun _ => hR.pure _
      · exact hR.bind (heval inLoop _) fun v => hR.unlessFailed
          (hR.bind (hR.refl (hreturn v)) fun _ => hR.pure _)
  | break_ =>
      simp only [monitorCases, evalCases, htype]
      exact hm.jump inLoop (hR.refl (keeps_bind (keeps_modify fun s =>
        KeptByParts.flags s s.returning true s.continuing s.returnVal) fun _ => keeps_pure _))
  | continue_ =>
      simp only [monitorCases, evalCases, htype]
      exact hm.jump inLoop (hR.refl (keeps_bind (keeps_modify fun s =>
        KeptByParts.flags s s.returning s.breaking true s.returnVal) fun _ => keeps_pure _))
  | range =>
      simp only [monitorCases, evalCases, htype]
      exact hR.failWith (by decide)

omit heval hR [KeptByParts rel] in
theorem compare_evalMonitored (hR : Comparison R) (fuel : Nat) (inLoop : Bool) (c : Int) :
    R Value (evalMonitored m fuel inLoop c) (evalMonitored m' fuel inLoop c) := by
  induction fuel generalizing inLoop c with
  | zero => exact hR.refl (keeps_throw _)
  | succ fuel ih =>
      refine hR.bind (hR.refl keeps_get) fun s =>
        compare_ite (fun _ => hR.compares.pure _) fun _ => ?_
      exact compare_monitorCases hR.compares hm ih inLoop _
        (fun _ => hR.refl (keeps_evalDef _)) fuel

end

/-! ## Monitored runs are runs -/

section

variable {x y : Eval Value} {evalNode evalNode' : Int → Eval Value}

theorem refines_require (ok : Bool) (hx : Refines x y) : Refines (require ok >>= fun _ => x) y := by
  cases ok with
  | true => exact hx
  | false => exact fun _ _ _ hrun => nomatch hrun

/-- Everything passes if nothing is watched. -/
theorem compare_all (m : Monitor) : m.Compare (fun _ => Refines) .all where
  jump _ _ hx := refines_require _ hx
  bind _ _ _ _ _ hx := refines_require _ hx
  unop _ _ := refines_require _ (refines_refl _)
  binop _ _ _ := refines_require _ (refines_refl _)
  cast _ := refines_require _ (refines_refl _)

/-- And then the evaluation is that of the interpreter. -/
theorem monitorCases_all (evalNode : Int → Eval Value) (fuel : Nat) (inLoop : Bool) (node : Node) :
    monitorCases .all (fun _ => evalNode) fuel inLoop node = evalCases evalNode fuel node := by
  cases htype : node.type with
  | unop | binop | intCast | call =>
      simp only [monitorCases, evalCases, htype]
      rfl
  | break_ | continue_ =>
      simp only [monitorCases, htype]
      rfl
  | _ => simp only [monitorCases, htype]

/-- The cases in which nothing is watched. -/
theorem compare_evalCases {R : (α : Type) → Eval α → Eval α → Prop}
    {rel : GkState → GkState → Prop} [KeptByParts rel] (hR : Compares rel R)
    (heval : ∀ c, R Value (evalNode c) (evalNode' c)) (node : Node)
    (hdef : node.type = .def_ → R Value (evalDef node) (evalDef node)) (fuel : Nat) :
    R Value (evalCases evalNode fuel node) (evalCases evalNode' fuel node) := by
  have hcast : ∀ text, Keeps rel (castText text) := by
    intro text
    rw [castText]
    cases intOfText text with
    | some v => exact keeps_pure _
    | none => exact keeps_failWith (by decide)
  have hall : Monitor.all.Compare R .all :=
    ⟨fun _ _ hx => hx, fun _ _ _ _ _ hx => hx, fun _ _ => hR.refl (keeps_evalUnop _ _),
      fun _ _ _ => hR.refl (keeps_evalBinop _ _ _), fun text => hR.refl (hcast text)⟩
  rw [← monitorCases_all evalNode fuel false, ← monitorCases_all evalNode' fuel false]
  exact compare_monitorCases hR hall (fun _ => heval) false node hdef fuel

theorem refines_evalCases (heval : ∀ c, Refines (evalNode c) (evalNode' c)) (node : Node)
    (fuel : Nat) : Refines (evalCases evalNode fuel node) (evalCases evalNode' fuel node) :=
  compare_evalCases comparison_refines.compares heval node (fun _ => refines_refl _) fuel

/-- Nothing but calls and loops changes whether the nodes below stand in a loop. -/
theorem refines_monitorCases_same (m : Monitor) (evalNode : Bool → Int → Eval Value) (fuel : Nat)
    (inLoop : Bool) (node : Node) (hcall : node.type ≠ .call) (hwhile : node.type ≠ .while_)
    (hfor : node.type ≠ .for_) :
    Refines (monitorCases m evalNode fuel inLoop node) (evalCases (evalNode inLoop) fuel node) := by
  have hsame : monitorCases m evalNode fuel inLoop node =
      monitorCases m (fun _ => evalNode inLoop) fuel inLoop node := by
    cases htype : node.type with
    | call => exact absurd htype hcall
    | while_ => exact absurd htype hwhile
    | for_ => exact absurd htype hfor
    | _ => simp only [monitorCases, htype]
  rw [hsame, ← monitorCases_all (evalNode inLoop) fuel inLoop]
  exact compare_monitorCases comparison_refines.compares (compare_all m)
    (fun _ c => refines_refl (evalNode inLoop c)) inLoop node (fun _ => refines_refl _) fuel

/-- What a watched run returns is what `eval` returns. -/
theorem refines_evalMonitored (m : Monitor) (fuel : Nat) (inLoop : Bool) (c : Int) :
    Refines (evalMonitored m fuel inLoop c) (eval fuel c) := by
  induction fuel generalizing inLoop c with
  | zero => exact refines_refl _
  | succ fuel ih =>
      refine refines_bind (refines_refl _) fun s => refines_ite (fun _ => refines_refl _) fun _ => ?_
      rw [← monitorCases_all (eval fuel) fuel inLoop]
      exact compare_monitorCases comparison_refines.compares (compare_all m) ih inLoop _
        (fun _ => refines_refl _) fuel

end

/-! ## What watched runs keep -/

section

variable {rel : GkState → GkState → Prop} [KeptByExprs rel] {nodes : List Node} {node : Node}
  {evalNode : Bool → Int → Eval Value} {inLoop : Bool} (m : Monitor)
  (heval : ExprsKept rel nodes (evalNode inLoop)) (hchild : ∀ c ∈ node.child, ExprAt nodes c)

include heval hchild

/-- A call keeps what the part behind the arguments keeps when it passes. -/
theorem keeps_monitorCall (hcall : ∀ f args s, m.bind s f args →
    Ensures (callWith (evalNode false) f args) s fun _ s' => rel s s') :
    Keeps rel (monitorCall m evalNode inLoop node) := by
  refine keeps_bind keeps_get fun s => ?_
  cases findFunc s.funcs node.strVal with
  | none => exact keeps_failWith (strcat_ne_nil (by decide))
  | some f =>
      refine keeps_ite (fun _ => keeps_failWith (by decide)) fun _ =>
        keeps_ite (fun _ => keeps_failWith (by decide)) fun _ => ?_
      refine keeps_bind (keeps_evalArgs heval node.child hchild) fun args => ?_
      cases args with
      | none => exact keeps_pure _
      | some args =>
          intro s
          rw [ensures_bind, ensures_get, require]
          cases hpass : m.bind s f args with
          | true => exact hcall f args s hpass
          | false => exact ensures_throw _

/-- An expression keeps what its calls keep. -/
theorem keeps_monitorCases_expr (fuel : Nat) (hexpr : node.type.isExpr)
    (hcall : node.type = .call → Keeps rel (monitorCall m evalNode inLoop node)) :
    Keeps rel (monitorCases m evalNode fuel inLoop node) := by
  by_cases htype : node.type = .call
  · simpa only [monitorCases, htype] using hcall htype
  · refine (refines_monitorCases_same m evalNode fuel inLoop node htype ?_ ?_).keeps
      (keeps_evalCases_expr heval fuel hchild hexpr fun h => absurd h htype)
    all_goals
      intro hother
      rw [hother] at hexpr
      cases hexpr

end

/-- A statement keeps what the nodes below it keep. -/
theorem keeps_monitorCases_stmt {rel : GkState → GkState → Prop} [KeptByStmts rel] {node : Node}
    {evalNode : Bool → Int → Eval Value} {inLoop : Bool} (m : Monitor)
    (heval : ∀ inLoop c, Keeps rel (evalNode inLoop c)) (fuel : Nat)
    (hstmt : node.type.isExpr = false) :
    Keeps rel (monitorCases m evalNode fuel inLoop node) := by
  by_cases hwhile : node.type = .while_
  · simpa only [monitorCases, hwhile] using keeps_evalCases_stmt (heval true) fuel hstmt
  by_cases hfor : node.type = .for_
  · simpa only [monitorCases, hfor] using keeps_evalCases_stmt (heval true) fuel hstmt
  refine (refines_monitorCases_same m evalNode fuel inLoop node ?_ hwhile hfor).keeps
    (keeps_evalCases_stmt (heval inLoop) fuel hstmt)
  intro hcall
  rw [hcall] at hstmt
  cases hstmt

end GeckoOS.Gk
