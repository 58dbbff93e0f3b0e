/-
# What a function sees of its callers

The documentation calls the variables made in a function local to it.  But `find_var` goes
through the whole stack, so the body of a function also sees the variables of the function
that called it, and of its callers.

Two runs of a call are compared, over stacks that end in different variables of callers.
While the call is evaluated both stacks have the same variables on top, all made by deeper
calls: the variables of the callers are never set.  So the runs can only differ where a
name is looked up, and they do not if every name is found with the same value below.
-/

import GeckoOS.Gk.CallFrame
import GeckoOS.Math.TwoRuns

namespace GeckoOS.Gk

open GeckoOS.Math

/-! ## Calls with evaluated arguments -/

/-- The part of `evalCall` behind the body. -/
def leaveCall (result : Value) : Eval Value := do
  let s ← get
  if s.returning then set { s with returning := false }
  popScope
  addDepth (-1)
  return if s.returning then s.returnVal else result

/-- The part of `evalCall` behind the arguments. -/
def callWith (evalNode : Int → Eval Value) (f : FuncDef) (args : List Value) : Eval Value := do
  addDepth 1
  if !(← bindParams f.params args) then
    addDepth (-1)
    return .none
  let result ← evalNode f.bodyNode
  leaveCall result

/-- The checks of a call come first, then its arguments. -/
theorem evalCall_eq (evalNode : Int → Eval Value) (node : Node) : evalCall evalNode node = (do
    let s ← get
    match findFunc s.funcs node.strVal with
    | none => failWith (strcat (ascii "undefined function: ") node.strVal)
    | some f =>
        if node.child.length ≠ f.params.length then failWith (ascii "wrong number of arguments")
        else if maxCallDepth ≤ s.callDepth then failWith (ascii "max call depth exceeded")
        else
          match ← evalArgs evalNode node.child with
          | none => return .none
          | some args => callWith evalNode f args) := rfl

/-- The value a name is looked up to. -/
def lookup (vars : List Var) (name : Text) : Option Value := (findVar vars name).map (·.val)

/-- The error of a full stack. -/
def tooMany : Text := ascii "too many variables"

theorem leaveCall_run (result : Value) (s : GkState) : leaveCall result s =
    .ok (if s.returning then s.returnVal else result)
      { s with
        returning := false
        vars := varsBelow s.callDepth s.vars
        callDepth := s.callDepth + -1 } := by
  cases s with
  | mk nodes vars funcs callDepth returning breaking continuing returnVal error output typed =>
      cases returning with
      | true => rfl
      | false => rfl

/-- What `set_var` enters when the stack is full. -/
def Full (s : GkState) : Prop := s.error = tooMany

/-! ## Two stacks -/

/-- Both stacks have the same variables of deeper calls on top, and the states differ in
nothing else. -/
structure Beside (base base' : List Var) (depth : Int) (level : Nat) (s t : GkState) : Prop where
  frame : ∃ frame : List Var, s.vars = frame ++ base ∧ t.vars = frame ++ base' ∧
    ∀ v ∈ frame, depth < v.scope
  depth : s.callDepth = depth + level
  rest : t = { s with vars := t.vars }

/-- The states differ in their variables only. -/
def SameButVars (s t : GkState) : Prop := t = { s with vars := t.vars }

/-- The variables of callers: two stacks on which every name has the same value. -/
structure Callers (base base' : List Var) (depth : Int) : Prop where
  scope : ∀ v ∈ base, v.scope ≤ depth
  scope' : ∀ v ∈ base', v.scope ≤ depth
  lookup : ∀ name, lookup base name = lookup base' name
  length : base.length ≤ base'.length

section

variable {base base' : List Var} {depth : Int} {level : Nat} {s t : GkState} {α β : Type}
  {evalNode : Int → Eval Value}

/-- Whatever is evaluated inside the call does the same on both stacks. -/
def Same (base base' : List Var) (depth : Int) (level : Nat) (x : Eval α) : Prop :=
  ∀ s t, Beside base base' depth level s t →
    Alike Full SameButVars x x s t fun _ => Beside base base' depth level

theorem Beside.error (hbeside : Beside base base' depth level s t) : t.error = s.error := by
  rw [hbeside.rest]

theorem same_pure (a : α) : Same base base' depth level (pure a) :=
  fun _ _ hbeside => alike_pure hbeside

theorem same_bind {x : Eval α} {f : α → Eval β} (hx : Same base base' depth level x)
    (hf : ∀ a, Same base base' depth level (f a)) (hstays : ∀ a, Stays Full (f a)) :
    Same base base' depth level (x >>= f) :=
  fun s t hbeside => alike_bind (hx s t hbeside) (fun a s' t' => hf a s' t') hstays

theorem same_ite {c : Prop} [Decidable c] {x y : Eval α} (hx : c → Same base base' depth level x)
    (hy : ¬ c → Same base base' depth level y) :
    Same base base' depth level (if c then x else y) :=
  fun s t hbeside => alike_ite (fun hc => hx hc s t hbeside) fun hc => hy hc s t hbeside

/-- A change that leaves the variables and the depth alone. -/
theorem Beside.write {s' t' : GkState} (hbeside : Beside base base' depth level s t)
    (hvars : s'.vars = s.vars) (hvars' : t'.vars = t.vars) (hdepth : s'.callDepth = s.callDepth)
    (hrest : t' = { s' with vars := t'.vars }) : Beside base base' depth level s' t' := by
  obtain ⟨frame, hs, ht, hframe⟩ := hbeside.frame
  exact ⟨⟨frame, hvars.trans hs, hvars'.trans ht, hframe⟩, hdepth.trans hbeside.depth, hrest⟩

@[inherit_doc Beside.write]
theorem same_modify {change : GkState → GkState}
    (hvars : ∀ s vars, change { s with vars := vars } = { change s with vars := vars })
    (hkeep : ∀ s, (change s).vars = s.vars) (hdepth : ∀ s, (change s).callDepth = s.callDepth) :
    Same base base' depth level (modify change : Eval Unit) := by
  intro s t hbeside
  refine alike_modify (hbeside.write (hkeep s) (hkeep t) (hdepth s) ?_)
  rw [hkeep]
  conv_lhs => rw [hbeside.rest]
  exact hvars s t.vars

theorem same_setError (text : Text) : Same base base' depth level (setError text) :=
  same_modify (fun _ _ => rfl) (fun _ => rfl) fun _ => rfl

theorem same_failWith (text : Text) : Same base base' depth level (failWith text) :=
  same_bind (same_setError text) (fun _ => same_pure _) fun _ => stays_pure _

theorem same_gkPrint (text : Text) : Same base base' depth level (gkPrint text) :=
  same_modify (fun _ _ => rfl) (fun _ => rfl) fun _ => rfl

/-- Code that looks at the state, but not at the variables. -/
theorem same_get {f : GkState → Eval α}
    (hvars : ∀ s vars, f { s with vars := vars } = f s)
    (hf : ∀ s, Same base base' depth level (f s)) : Same base base' depth level (get >>= f) := by
  intro s t hbeside
  refine alike_getBind ?_
  have hsame : f t = f s := by
    rw [hbeside.rest]
    exact hvars s t.vars
  rw [hsame]
  exact hf s s t hbeside

theorem same_failed : Same base base' depth level failed :=
  same_get (fun _ _ => rfl) fun _ => same_pure _

theorem same_readLine (size : Nat) : Same base base' depth level (readLine size) := by
  intro s t hbeside
  obtain ⟨vars, rfl⟩ : ∃ vars, t = { s with vars := vars } := ⟨_, hbeside.rest⟩
  exact .inr ⟨rfl, hbeside.write rfl rfl rfl rfl⟩

/-! ## A full stack stays an error

Behind every evaluation the code gives up when there is an error. -/

theorem stays_gkPrint (text : Text) : Stays Full (gkPrint text) := fun _ hfull => hfull

theorem stays_failed : Stays Full failed := fun _ hfull => hfull

theorem Full.failed (hfull : Full s) : s.error ≠ [] := by
  rw [hfull]
  decide

/-- Nothing more happens behind the check for an error. -/
theorem stays_unlessFailed {early : α} {more : Eval α} :
    Stays Full (failed >>= fun stop => if stop then pure early else more) := by
  intro s hfull
  have hrun : failed s = .ok true s := congrArg (EStateM.Result.ok · s)
    (decide_eq_true hfull.failed)
  rw [bind_run hrun]
  exact hfull

theorem stays_setVar (name : Text) (val : Value) : Stays Full (setVar name val) := by
  intro s hfull
  rw [setVar, bind_run (rfl : (get : Eval GkState) s = .ok s s)]
  cases updateVar s.callDepth name val s.vars with
  | some vars => exact hfull
  | none =>
      dsimp only
      split_ifs
      · rfl
      · exact hfull

theorem stays_bindParams (params : List Text) (args : List Value) :
    Stays Full (bindParams params args) := by
  induction params generalizing args with
  | nil => exact stays_pure _
  | cons param params ih =>
      cases args with
      | nil => exact stays_pure _
      | cons arg args =>
          exact stays_bind (stays_setVar param arg) fun _ => stays_ite (ih args) (stays_pure _)

theorem stays_afterRound : Stays Full afterRound := by
  refine stays_getBind fun s hfull => ?_
  rw [if_pos (.inl hfull.failed)]
  exact hfull

/-! ## The variables on top -/

/-- The variables of callers are not updated. -/
theorem updateVar_append {current : Int} {name : Text} {val : Value}
    (hbase : ∀ v ∈ base, v.scope < current) (frame : List Var) :
    updateVar current name val (frame ++ base) =
      (updateVar current name val frame).map (· ++ base) := by
  induction frame with
  | nil =>
      cases base with
      | nil => rfl
      | cons v older => exact if_pos (hbase v List.mem_cons_self)
  | cons v frame ih =>
      rw [List.cons_append, updateVar, updateVar]
      split_ifs
      · rfl
      · rfl
      · rw [ih, Option.map_map, Option.map_map]
        rfl

theorem varsBelow_stop {current : Int} {v : Var} (hv : v.scope < current) (older : List Var) :
    varsBelow current (v :: older) = v :: older := by
  have hneg : ¬ (fun v : Var => decide (current ≤ v.scope)) v = true := by simpa using hv
  exact List.dropWhile_cons_of_neg hneg

/-- Nor are they dropped. -/
theorem varsBelow_append {current : Int} (hbase : ∀ v ∈ base, v.scope < current)
    (frame : List Var) : varsBelow current (frame ++ base) = varsBelow current frame ++ base := by
  induction frame with
  | nil =>
      cases base with
      | nil => rfl
      | cons v older => exact varsBelow_stop (hbase v List.mem_cons_self) older
  | cons v frame ih =>
      by_cases hv : current ≤ v.scope
      · rw [List.cons_append, varsBelow_cons hv, varsBelow_cons hv, ih]
      · rw [List.cons_append, varsBelow_stop (not_le.mp hv), varsBelow_stop (not_le.mp hv)]
        rfl

/-- A name that is not on top is looked up below. -/
theorem lookup_append (frame : List Var) (name : Text) :
    lookup (frame ++ base) name = (lookup frame name).or (lookup base name) := by
  rw [lookup, findVar, List.find?_append, lookup, lookup, findVar, findVar]
  cases frame.find? fun v => decide (v.name = name) with
  | none => rfl
  | some v => rfl

section

variable (hcallers : Callers base base' depth)

include hcallers

theorem Callers.scope_lt (hlevel : 0 < level) {current : Int} (hcurrent : current = depth + level) :
    (∀ v ∈ base, v.scope < current) ∧ ∀ v ∈ base', v.scope < current := by
  constructor
  · intro v hv
    have hscope := hcallers.scope v hv
    omega
  · intro v hv
    have hscope := hcallers.scope' v hv
    omega

/-- Setting a variable: unless there is no room for it, the same happens on both stacks. -/
theorem same_setVar (hlevel : 0 < level) (name : Text) (val : Value) :
    Same base base' depth level (setVar name val) := by
  intro s t hbeside
  obtain ⟨frame, hs, ht, hframe⟩ := hbeside.frame
  have hdepth : t.callDepth = s.callDepth := by rw [hbeside.rest]
  obtain ⟨hbelow, hbelow'⟩ := hcallers.scope_lt hlevel hbeside.depth
  refine alike_getBind ?_
  rw [hdepth, hs, ht, updateVar_append hbelow, updateVar_append hbelow']
  cases hupdate : updateVar s.callDepth name val frame with
  | some frame' =>
      obtain ⟨-, hscopes⟩ := updateVar_eq_some hupdate
      refine alike_bind (alike_set ⟨⟨frame', rfl, rfl, fun v hv => ?_⟩, hbeside.depth, ?_⟩)
        (fun _ _ _ hbeside => alike_pure hbeside) fun _ => stays_pure _
      · obtain ⟨old, hold, hscope⟩ := List.mem_map.mp (hscopes ▸ List.mem_map_of_mem hv)
        exact hscope ▸ hframe old hold
      · conv_lhs => rw [hbeside.rest]
  | none =>
      rw [Option.map_none, Option.map_none]
      dsimp only
      have hlength := hcallers.length
      by_cases hfull : maxVars ≤ (frame ++ base').length
      · left
        rw [if_pos hfull]
        rfl
      · have hroom : ¬ maxVars ≤ (frame ++ base).length := by
          rw [List.length_append] at hfull ⊢
          omega
        rw [if_neg hroom, if_neg hfull]
        refine alike_bind (alike_set ⟨⟨⟨name, val, s.callDepth⟩ :: frame, rfl, rfl, ?_⟩,
          hbeside.depth, ?_⟩) (fun _ _ _ hbeside => alike_pure hbeside) fun _ => stays_pure _
        · intro v hv
          rcases List.mem_cons.mp hv with rfl | hv
          · have hcurrent := hbeside.depth
            dsimp only
            omega
          · exact hframe v hv
        · conv_lhs => rw [hbeside.rest]

theorem same_bindParams (hlevel : 0 < level) (params : List Text) (args : List Value) :
    Same base base' depth level (bindParams params args) := by
  induction params generalizing args with
  | nil => exact same_pure _
  | cons param params ih =>
      cases args with
      | nil => exact same_pure _
      | cons arg args =>
          exact same_bind (same_setVar hcallers hlevel param arg)
            (fun _ => same_ite (fun _ => ih args) fun _ => same_pure _)
            fun _ => stays_ite (stays_bindParams params args) (stays_pure _)

/-- A variable is found with the same value, on top or below. -/
theorem same_var (name : Text) : Same base base' depth level (do
    let s ← get
    match findVar s.vars name with
    | some v => return v.val
    | none => failWith (strcat (ascii "undefined variable: ") name)) := by
  intro s t hbeside
  obtain ⟨frame, hs, ht, -⟩ := hbeside.frame
  have hlookup : lookup s.vars name = lookup t.vars name := by
    rw [hs, ht, lookup_append, lookup_append, hcallers.lookup]
  refine alike_getBind ?_
  rw [lookup, lookup] at hlookup
  cases hfound : findVar s.vars name with
  | none =>
      rw [hfound] at hlookup
      rw [Option.map_eq_none_iff.mp hlookup.symm]
      exact same_failWith _ s t hbeside
  | some v =>
      rw [hfound] at hlookup
      obtain ⟨w, hw, hval⟩ := Option.map_eq_some_iff.mp hlookup.symm
      rw [hw]
      exact .inr ⟨hval.symm, hbeside⟩

end

/-! ## Operators -/

theorem same_evalBinop (op : Option TokenType) (l r : Value) :
    Same base base' depth level (evalBinop op l r) := by
  unfold evalBinop
  split
  all_goals
    first
      | exact same_pure _
      | exact same_failWith _
      | exact same_ite (fun _ => same_failWith _) fun _ => same_pure _

theorem same_evalUnop (op : Option TokenType) (operand : Value) :
    Same base base' depth level (evalUnop op operand) := by
  unfold evalUnop
  split
  all_goals
    first
      | exact same_pure _
      | exact same_failWith _

/-! ## Nodes -/

theorem same_unlessFailed {early : α} {more : Eval α} (hmore : Same base base' depth level more) :
    Same base base' depth level (failed >>= fun stop => if stop then pure early else more) := by
  intro s t hbeside
  have hs : failed s = .ok (decide (s.error ≠ [])) s := rfl
  have ht : failed t = .ok (decide (s.error ≠ [])) t := by
    rw [← hbeside.error]
    rfl
  rw [Alike, bind_run hs, bind_run ht]
  exact same_ite (fun _ => same_pure _) (fun _ => hmore) s t hbeside

theorem same_afterRound : Same base base' depth level afterRound := by
  intro s t hbeside
  obtain ⟨vars, rfl⟩ : ∃ vars, t = { s with vars := vars } := ⟨_, hbeside.rest⟩
  refine alike_getBind (alike_ite (fun _ => alike_pure hbeside) fun _ =>
    alike_ite (fun _ => ?_) fun _ => ?_)
  · exact .inr ⟨rfl, hbeside.write rfl rfl rfl rfl⟩
  · exact .inr ⟨rfl, hbeside.write rfl rfl rfl rfl⟩

theorem same_evalDef (node : Node) : Same base base' depth level (evalDef node) := by
  intro s t hbeside
  obtain ⟨vars, rfl⟩ : ∃ vars, t = { s with vars := vars } := ⟨_, hbeside.rest⟩
  exact alike_getBind (alike_ite (fun _ => same_failWith _ _ _ hbeside) fun _ =>
    .inr ⟨rfl, hbeside.write rfl rfl rfl rfl⟩)

section

variable (hsame : ∀ level, 0 < level → ∀ c, Same base base' depth level (evalNode c))
  (hstays : ∀ c, Stays Full (evalNode c)) (hlevel : 0 < level)

include hstays

theorem stays_evalPrint (children : List Nat) : Stays Full (evalPrint evalNode children) := by
  cases children with
  | nil => exact stays_bind (stays_gkPrint _) fun _ => stays_pure _
  | cons c more => exact stays_bind (hstays c) fun _ => stays_unlessFailed

theorem stays_afterBody (node : Node) {more : Value → Eval Value}
    (hmore : ∀ result, Stays Full (more result)) : Stays Full (do
      let result ← evalNode (node.childAt 1)
      if ← afterRound then more result else return result) :=
  stays_bind (hstays _) fun result => stays_bind stays_afterRound fun _ =>
    stays_ite (hmore result) (stays_pure _)

theorem stays_evalRounds (node : Node) (left : Nat) (i : Int32) (result : Value) :
    Stays Full (evalRounds evalNode node left i result) := by
  induction left generalizing i result with
  | zero => exact stays_pure _
  | succ left ih =>
      exact stays_bind (stays_setVar _ _) fun _ =>
        stays_ite (stays_pure _) (stays_afterBody hstays node (ih (i + 1)))

theorem stays_evalWhile (node : Node) (fuel : Nat) (result : Value) :
    Stays Full (evalWhile evalNode node fuel result) := by
  induction fuel generalizing result with
  | zero => exact stays_throw _
  | succ fuel ih =>
      exact stays_bind (hstays _) fun cond => stays_bind stays_failed fun _ =>
        stays_ite (stays_pure _) (stays_afterBody hstays node ih)

omit hstays

include hsame hlevel

/-- A child is evaluated, and the code gives up if there is an error. -/
theorem same_child {early : α} {more : Value → Eval α} (c : Int)
    (hmore : ∀ v, Same base base' depth level (more v)) :
    Same base base' depth level (evalNode c >>= fun v =>
      failed >>= fun stop => if stop then pure early else more v) :=
  same_bind (hsame level hlevel c) (fun v => same_unlessFailed (hmore v)) fun _ =>
    stays_unlessFailed

theorem same_evalInput (node : Node) :
    Same base base' depth level (evalInput evalNode node) := by
  have hread : Same base base' depth level (do
      let line ← readLine (maxStr - 2)
      gkPrint (ascii "\n")
      return Value.str line) :=
    same_bind (same_readLine _) (fun _ => same_bind (same_gkPrint _) (fun _ => same_pure _)
      fun _ => stays_pure _) fun _ => stays_bind (stays_gkPrint _) fun _ => stays_pure _
  refine same_ite (fun _ => ?_) fun _ => hread
  refine same_child hsame hlevel _ fun prompt =>
    same_bind (same_gkPrint _) (fun _ => hread) fun _ => ?_
  exact stays_bind (fun _ hfull => hfull) fun _ => stays_bind (stays_gkPrint _) fun _ =>
    stays_pure _

theorem same_evalIntCast (node : Node) :
    Same base base' depth level (evalIntCast evalNode node) := by
  refine same_ite (fun _ => same_failWith _) fun _ => same_child hsame hlevel _ fun v => ?_
  cases v with
  | int v => exact same_pure _
  | str text =>
      dsimp only
      cases intOfText text with
      | none => exact same_failWith _
      | some v => exact same_pure _
  | bool v => exact same_failWith _
  | none => exact same_failWith _

theorem same_evalBlock (children : List Nat) (last : Value) :
    Same base base' depth level (evalBlock evalNode children last) := by
  induction children generalizing last with
  | nil => exact same_pure _
  | cons c more ih =>
      refine same_bind (hsame level hlevel c) (fun last => ?_) fun last =>
        stays_getBind fun s hfull => ?_
      · refine same_get (fun _ _ => rfl) fun s => same_ite (fun _ => same_pure _) fun _ => ih last
      · rw [if_pos (.inl hfull.failed)]
        exact hfull

/-- The end of a round of a loop's body. -/
theorem same_afterBody (node : Node) {more : Value → Eval Value}
    (hmore : ∀ result, Same base base' depth level (more result))
    (hrest : ∀ result, Stays Full (more result)) : Same base base' depth level (do
      let result ← evalNode (node.childAt 1)
      if ← afterRound then more result else return result) :=
  same_bind (hsame level hlevel _) (fun result => same_bind same_afterRound (fun _ =>
    same_ite (fun _ => hmore result) fun _ => same_pure _) fun _ =>
      stays_ite (hrest result) (stays_pure _)) fun result =>
        stays_bind stays_afterRound fun _ => stays_ite (hrest result) (stays_pure _)

theorem same_evalArgs (children : List Nat) :
    Same base base' depth level (evalArgs evalNode children) := by
  induction children with
  | nil => exact same_pure _
  | cons c more ih =>
      exact same_child hsame hlevel c fun v => same_bind ih (fun _ => same_pure _) fun _ =>
        stays_pure _

include hstays

theorem same_evalLogic (stop : Bool) (node : Node) :
    Same base base' depth level (evalLogic evalNode stop node) := by
  have hright : ∀ l : Value, Same base base' depth level (do
      if isTruthy l = stop then return Value.bool stop
      let r ← evalNode (node.childAt 1)
      return Value.bool (isTruthy r)) := fun l =>
    same_ite (fun _ => same_pure _) fun _ =>
      same_bind (hsame level hlevel _) (fun _ => same_pure _) fun _ => stays_pure _
  exact same_bind (hsame level hlevel _) hright fun _ =>
    stays_ite (stays_pure _) (stays_bind (hstays _) fun _ => stays_pure _)

theorem same_evalPrint (children : List Nat) :
    Same base base' depth level (evalPrint evalNode children) := by
  induction children with
  | nil => exact same_bind (same_gkPrint _) (fun _ => same_pure _) fun _ => stays_pure _
  | cons c more ih =>
      have hrest := stays_evalPrint hstays more
      refine same_child hsame hlevel c fun v => same_bind (same_gkPrint _) (fun _ => ?_)
        fun _ => stays_ite (stays_bind (stays_gkPrint _) fun _ => hrest) hrest
      exact same_ite (fun _ => same_bind (same_gkPrint _) (fun _ => ih) fun _ => hrest) fun _ => ih

theorem same_evalWhile (node : Node) (fuel : Nat) (result : Value) :
    Same base base' depth level (evalWhile evalNode node fuel result) := by
  induction fuel generalizing result with
  | zero => exact fun _ _ hbeside => alike_throw _ hbeside.rest
  | succ fuel ih =>
      have hrest := stays_evalWhile hstays node fuel
      refine same_bind (hsame level hlevel _) (fun cond => same_bind same_failed (fun _ =>
        same_ite (fun _ => same_pure _) fun _ => same_afterBody hsame hlevel node ih hrest)
        fun _ => ?_) fun cond => stays_bind stays_failed fun _ => ?_
      · exact stays_ite (stays_pure _) (stays_afterBody hstays node hrest)
      · exact stays_ite (stays_pure _) (stays_afterBody hstays node hrest)

theorem same_evalRounds (hcallers : Callers base base' depth) (node : Node) (left : Nat) (i : Int32)
    (result : Value) : Same base base' depth level (evalRounds evalNode node left i result) := by
  induction left generalizing i result with
  | zero => exact same_pure _
  | succ left ih =>
      have hrest := stays_evalRounds hstays node left (i + 1)
      exact same_bind (same_setVar hcallers hlevel _ _) (fun _ => same_ite (fun _ => same_pure _)
        fun _ => same_afterBody hsame hlevel node (ih (i + 1)) hrest) fun _ =>
          stays_ite (stays_pure _) (stays_afterBody hstays node hrest)

theorem same_evalFor (hcallers : Callers base base' depth) (node : Node) :
    Same base base' depth level (evalFor evalNode node) := by
  refine same_get (fun _ _ => rfl) fun s => same_ite (fun _ => same_failWith _) fun _ => ?_
  refine same_child hsame hlevel _ fun v => ?_
  have hother : ∀ c : Prop, [Decidable c] → ∀ text text', Same base base' depth level
      (if c then failWith text else failWith text') :=
    fun _ _ _ _ => same_ite (fun _ => same_failWith _) fun _ => same_failWith _
  cases v with
  | int limit => exact same_evalRounds hsame hstays hlevel hcallers node _ _ _
  | str text => exact hother _ _ _
  | bool v => exact hother _ _ _
  | none => exact hother _ _ _

end

theorem stays_addDepth (levels : Int) : Stays Full (addDepth levels) := fun _ hfull => hfull

theorem stays_leaveCall (result : Value) : Stays Full (leaveCall result) := by
  intro s hfull
  rw [leaveCall_run]
  exact hfull

/-- Behind the parameters of a call. -/
theorem stays_runBody (hstays : ∀ c, Stays Full (evalNode c)) (body : Int) (ok : Bool) :
    Stays Full (if !ok then addDepth (-1) >>= fun _ => pure Value.none
      else evalNode body >>= leaveCall) :=
  stays_ite (stays_bind (stays_addDepth _) fun _ => stays_pure _)
    (stays_bind (hstays _) stays_leaveCall)

theorem stays_callWith (hstays : ∀ c, Stays Full (evalNode c)) (f : FuncDef) (args : List Value) :
    Stays Full (callWith evalNode f args) :=
  stays_bind (stays_addDepth _) fun _ => stays_bind (stays_bindParams _ _) fun ok =>
    stays_runBody hstays f.bodyNode ok

theorem Beside.addDepth (hbeside : Beside base base' depth level s t) {levels : Int} {level' : Nat}
    (hlevel : (level' : Int) = level + levels) : Alike Full SameButVars (Gk.addDepth levels)
      (Gk.addDepth levels) s t fun _ => Beside base base' depth level' := by
  obtain ⟨vars, rfl⟩ : ∃ vars, t = { s with vars := vars } := ⟨_, hbeside.rest⟩
  refine alike_modify ⟨hbeside.frame, ?_, rfl⟩
  have hcurrent := hbeside.depth
  dsimp only
  omega

/-- The variables that a call has made are dropped from both stacks. -/
theorem Beside.leaveCall (hcallers : Callers base base' depth) (result : Value)
    (hbeside : Beside base base' depth (level + 1) s t) : Alike Full SameButVars
      (Gk.leaveCall result) (Gk.leaveCall result) s t fun _ => Beside base base' depth level := by
  obtain ⟨vars, rfl⟩ : ∃ vars, t = { s with vars := vars } := ⟨_, hbeside.rest⟩
  obtain ⟨frame, hs, ht, hframe⟩ := hbeside.frame
  obtain ⟨hbelow, hbelow'⟩ := hcallers.scope_lt level.succ_pos hbeside.depth
  have hdepth : s.callDepth + -1 = depth + level := by
    have hcurrent := hbeside.depth
    omega
  right
  rw [leaveCall_run, leaveCall_run]
  refine ⟨rfl, ⟨varsBelow s.callDepth frame, ?_, ?_, fun v hv => ?_⟩, hdepth, rfl⟩
  · exact hs ▸ varsBelow_append hbelow frame
  · dsimp only at ht ⊢
    rw [ht, varsBelow_append hbelow']
  · exact hframe v ((List.dropWhile_sublist _).subset hv)

/-- A call does the same on both stacks. -/
theorem same_callWith (hcallers : Callers base base' depth)
    (hsame : ∀ level, 0 < level → ∀ c, Same base base' depth level (evalNode c))
    (hstays : ∀ c, Stays Full (evalNode c)) (f : FuncDef) (args : List Value) :
    Same base base' depth level (callWith evalNode f args) := by
  intro s t hbeside
  have hinner : (0 : Nat) < level + 1 := level.succ_pos
  refine alike_bind (hbeside.addDepth (level.cast_succ)) (fun _ s t hbeside => ?_) fun _ =>
    stays_bind (stays_bindParams _ _) fun ok => stays_runBody hstays f.bodyNode ok
  refine alike_bind (same_bindParams hcallers hinner _ _ s t hbeside) (fun ok s t hbeside => ?_)
    fun ok => stays_runBody hstays f.bodyNode ok
  refine alike_ite (fun _ => ?_) fun _ => ?_
  · exact alike_bind (hbeside.addDepth (by omega)) (fun _ _ _ hbeside => alike_pure hbeside)
      fun _ => stays_pure _
  · exact alike_bind (hsame (level + 1) hinner _ s t hbeside)
      (fun result _ _ hbeside => hbeside.leaveCall hcallers result) stays_leaveCall

theorem same_evalCall (hcallers : Callers base base' depth)
    (hsame : ∀ level, 0 < level → ∀ c, Same base base' depth level (evalNode c))
    (hstays : ∀ c, Stays Full (evalNode c)) (hlevel : 0 < level) (node : Node) :
    Same base base' depth level (evalCall evalNode node) := by
  rw [evalCall_eq]
  refine same_get (fun _ _ => rfl) fun s => ?_
  cases findFunc s.funcs node.strVal with
  | none => exact same_failWith _
  | some f =>
      refine same_ite (fun _ => same_failWith _) fun _ =>
        same_ite (fun _ => same_failWith _) fun _ => ?_
      refine same_bind (same_evalArgs hsame hlevel node.child) (fun args => ?_) fun args => ?_
      · cases args with
        | none => exact same_pure _
        | some args => exact same_callWith hcallers hsame hstays f args
      · cases args with
        | none => exact stays_pure _
        | some args => exact stays_callWith hstays f args

/-- The cases of `eval`, given the levels below. -/
theorem same_evalCases (hcallers : Callers base base' depth)
    (hsame : ∀ level, 0 < level → ∀ c, Same base base' depth level (evalNode c))
    (hstays : ∀ c, Stays Full (evalNode c)) (hlevel : 0 < level) (fuel : Nat) (node : Node) :
    Same base base' depth level (evalCases evalNode fuel node) := by
  have hflag : ∀ change : GkState → GkState,
      (∀ s vars, change { s with vars := vars } = { change s with vars := vars }) →
      (∀ s, (change s).vars = s.vars) → (∀ s, (change s).callDepth = s.callDepth) → ∀ v : Value,
      Same base base' depth level (modify change >>= fun _ => pure v) :=
    fun change hvars hkeep hdepth v =>
      same_bind (same_modify hvars hkeep hdepth) (fun _ => same_pure v) fun _ => stays_pure v
  cases htype : node.type with
  | int => simpa only [evalCases, htype] using same_pure _
  | str => simpa only [evalCases, htype] using same_pure _
  | bool => simpa only [evalCases, htype] using same_pure _
  | var =>
      simp only [evalCases, htype]
      exact same_var hcallers node.strVal
  | assign =>
      simp only [evalCases, htype]
      refine same_child hsame hlevel _ fun val => same_bind (same_setVar hcallers hlevel _ _)
        (fun _ => same_ite (fun _ => same_pure _) fun _ => same_pure _) fun _ => ?_
      exact stays_ite (stays_pure _) (stays_pure _)
  | unop =>
      simp only [evalCases, htype]
      exact same_child hsame hlevel _ fun v => same_evalUnop _ v
  | binop =>
      simp only [evalCases, htype]
      refine same_ite (fun _ => same_evalLogic hsame hstays hlevel _ node) fun _ => ?_
      refine same_ite (fun _ => same_evalLogic hsame hstays hlevel _ node) fun _ => ?_
      exact same_child hsame hlevel _ fun l => same_child hsame hlevel _ fun r =>
        same_evalBinop _ l r
  | print => simpa only [evalCases, htype] using same_evalPrint hsame hstays hlevel node.child
  | input => simpa only [evalCases, htype] using same_evalInput hsame hlevel node
  | intCast => simpa only [evalCases, htype] using same_evalIntCast hsame hlevel node
  | block => simpa only [evalCases, htype] using same_evalBlock hsame hlevel node.child .none
  | if_ =>
      simp only [evalCases, htype]
      refine same_child hsame hlevel _ fun cond =>
        same_ite (fun _ => hsame level hlevel _) fun _ => ?_
      exact same_ite (fun _ => hsame level hlevel _) fun _ => same_pure _
  | while_ =>
      simpa only [evalCases, htype] using same_evalWhile hsame hstays hlevel node fuel .none
  | for_ => simpa only [evalCases, htype] using same_evalFor hsame hstays hlevel hcallers node
  | def_ => simpa only [evalCases, htype] using same_evalDef node
  | call => simpa only [evalCases, htype] using same_evalCall hcallers hsame hstays hlevel node
  | return_ =>
      simp only [evalCases, htype]
      refine same_ite (fun _ => ?_) fun _ => same_child hsame hlevel _ fun v => ?_
      · exact hflag (fun s => { s with returning := true, returnVal := .none })
          (fun _ _ => rfl) (fun _ => rfl) (fun _ => rfl) .none
      · exact hflag (fun s => { s with returning := true, returnVal := v })
          (fun _ _ => rfl) (fun _ => rfl) (fun _ => rfl) v
  | break_ =>
      simp only [evalCases, htype]
      exact hflag (fun s => { s with breaking := true })
        (fun _ _ => rfl) (fun _ => rfl) (fun _ => rfl) .none
  | continue_ =>
      simp only [evalCases, htype]
      exact hflag (fun s => { s with continuing := true })
        (fun _ _ => rfl) (fun _ => rfl) (fun _ => rfl) .none
  | range => simpa only [evalCases, htype] using same_failWith _

/-- `eval` does nothing after an error. -/
theorem stays_eval (fuel : Nat) (c : Int) : Stays Full (eval fuel c) := by
  cases fuel with
  | zero => exact stays_throw _
  | succ fuel =>
      refine stays_getBind fun s hfull => ?_
      rw [if_pos (.inr hfull.failed)]
      exact hfull

/-- Inside the call, every evaluation does the same on both stacks. -/
theorem same_eval (hcallers : Callers base base' depth) (fuel : Nat) :
    ∀ level, 0 < level → ∀ c, Same base base' depth level (eval fuel c) := by
  induction fuel with
  | zero => exact fun level _ c s t hbeside => alike_throw _ hbeside.rest
  | succ fuel ih =>
      intro level hlevel c
      refine same_get (fun _ _ => rfl) fun s => same_ite (fun _ => same_pure _) fun _ => ?_
      exact same_evalCases hcallers ih (stays_eval fuel) hlevel fuel _

end

/-! ## All functions -/

/-- The function that a definition makes. -/
def funcOf (nodes : List Node) (node : Node) : FuncDef :=
  ⟨node.strVal, (node.child.dropLast.take maxParams).map fun pn =>
    (nodes.getD pn (blankNode .var 0)).strVal, node.childAt (node.child.length - 1)⟩

/-- A function of the program these nodes belong to. -/
def Defined (nodes : List Node) (f : FuncDef) : Prop :=
  ∃ tokens root rest, gkParse tokens = .ok root ⟨rest, nodes⟩ ∧
    ∃ node ∈ nodes, node.type = .def_ ∧ funcOf nodes node = f

/-- There is room for all variables of the call. -/
def Room (s : GkState) (f : FuncDef) (args : List Value) : Prop :=
  ∀ fuel, (lastState (callWith (eval fuel) f args s)).error ≠ tooMany

/-- The same result, output and error. -/
def SameOutcome : EStateM.Result OutOfFuel GkState Value → EStateM.Result OutOfFuel GkState Value →
    Prop :=
  SameEnd (fun _ s t => s.output = t.output ∧ s.error = t.error)
    fun s t => s.output = t.output ∧ s.error = t.error

/-- Stacks of a call at this depth, with the same global variables. -/
structure Stacks (depth : Int) (vars vars' : List Var) : Prop where
  limit : depth < maxCallDepth
  scope : ∀ v ∈ vars, 0 ≤ v.scope ∧ v.scope ≤ depth
  scope' : ∀ v ∈ vars', 0 ≤ v.scope ∧ v.scope ≤ depth
  globals : vars.filter (fun v => v.scope = 0) = vars'.filter fun v => v.scope = 0

/-- Every function does the same on both stacks, whatever its arguments are. -/
def CallsAgree (depth : Int) (vars vars' : List Var) : Prop :=
  ∀ (s : GkState) (f : FuncDef) (args : List Value), s.callDepth = depth → Defined s.nodes f →
    f ∈ s.funcs → args.length = f.params.length → Room { s with vars := vars } f args →
      Room { s with vars := vars' } f args → ∀ fuel,
        SameOutcome (callWith (eval fuel) f args { s with vars := vars })
          (callWith (eval fuel) f args { s with vars := vars' })

section

variable {depth : Int} {vars vars' : List Var}

theorem SameOutcome.symm {r r' : EStateM.Result OutOfFuel GkState Value}
    (hsame : SameOutcome r r') : SameOutcome r' r := by
  cases r with
  | ok v s =>
      cases r' with
      | ok v' s' => exact ⟨hsame.1.symm, hsame.2.1.symm, hsame.2.2.symm⟩
      | error e s' => exact hsame
  | error e s =>
      cases r' with
      | ok v s' => exact hsame
      | error e' s' => exact ⟨hsame.1.symm, hsame.2.1.symm, hsame.2.2.symm⟩

/-- Names that are looked up to the same values make no difference. -/
theorem Callers.sameOutcome (hcallers : Callers vars vars' depth) (s : GkState)
    (hdepth : s.callDepth = depth) (f : FuncDef) (args : List Value)
    (hroom : Room { s with vars := vars' } f args) (fuel : Nat) :
    SameOutcome (callWith (eval fuel) f args { s with vars := vars })
      (callWith (eval fuel) f args { s with vars := vars' }) := by
  have hbeside : Beside vars vars' depth 0 { s with vars := vars } { s with vars := vars' } :=
    ⟨⟨[], rfl, rfl, fun _ hv => absurd hv List.not_mem_nil⟩, by simpa using hdepth, rfl⟩
  have halike :=
    same_callWith hcallers (same_eval hcallers fuel) (stays_eval fuel) f args _ _ hbeside
  have hrest : ∀ s t : GkState, SameButVars s t → s.output = t.output ∧ s.error = t.error := by
    intro s t hst
    rw [hst]
    exact ⟨rfl, rfl⟩
  exact (halike.resolve_left (hroom fuel)).mono (fun _ s t hbeside => hrest s t hbeside.rest) hrest

theorem callsAgree_of_lookup (hstacks : Stacks depth vars vars')
    (hlookup : ∀ name, lookup vars name = lookup vars' name) : CallsAgree depth vars vars' := by
  intro s f args hdepth _ _ _ hroom hroom' fuel
  have hscope := fun v hv => (hstacks.scope v hv).2
  have hscope' := fun v hv => (hstacks.scope' v hv).2
  -- The stack that is full first is the longer one.
  rcases Nat.le_total vars.length vars'.length with hle | hle
  · exact Callers.sameOutcome ⟨hscope, hscope', hlookup, hle⟩ s hdepth f args hroom' fuel
  · have hcallers : Callers vars' vars depth :=
      ⟨hscope', hscope, fun name => (hlookup name).symm, hle⟩
    exact (hcallers.sameOutcome s hdepth f args hroom fuel).symm

end

/-! ## A function that reads one name -/

/-- The tokens of `def f(): return name`. -/
def reader (name : Text) : List Token :=
  [⟨.def_, 0, ascii "def", 1⟩, ⟨.ident, 0, ascii "f", 1⟩, ⟨.lparen, 0, [], 1⟩, ⟨.rparen, 0, [], 1⟩,
    ⟨.colon, 0, [], 1⟩, ⟨.newline, 0, [], 1⟩, ⟨.indent, 0, [], 2⟩, ⟨.return_, 0, ascii "return", 2⟩,
    ⟨.ident, 0, name, 2⟩, ⟨.newline, 0, [], 2⟩, ⟨.dedent, 0, [], 3⟩, ⟨.eof, 0, [], 3⟩]

/-- Its nodes. -/
def readerNodes (name : Text) : List Node :=
  [⟨.block, 0, 0, [], none, [1]⟩, ⟨.def_, 1, 0, ascii "f", none, [2]⟩,
    ⟨.block, 2, 0, [], none, [3]⟩, ⟨.return_, 2, 0, [], none, [4]⟩, ⟨.var, 2, 0, name, none, []⟩]

theorem gkParse_reader (name : Text) :
    gkParse (reader name) = .ok 0 ⟨[⟨.eof, 0, [], 3⟩], readerNodes name⟩ := rfl

/-- The function it defines. -/
def readerFunc : FuncDef := ⟨ascii "f", [], 2⟩

/-- A state in which it can be called. -/
def beforeReader (depth : Int) (name : Text) : GkState where
  nodes := readerNodes name
  vars := []
  funcs := [readerFunc]
  callDepth := depth
  returning := false
  breaking := false
  continuing := false
  returnVal := .none
  error := []
  output := []
  typed := []

section

variable {depth : Int} {vars vars' : List Var} {name : Text}

/-- One level of `eval`, when there is no error. -/
theorem returns_eval {s : GkState} {c fuel : Nat} {node : Node} {post : Value → GkState → Prop}
    (herror : s.error = []) (hnode : s.nodes[c]? = some node) :
    Returns (eval (fuel + 1) c) s post ↔ Returns (evalCases (eval fuel) fuel node) s post := by
  have hgo : ¬ ((c : Int) < 0 ∨ s.error ≠ []) := by simp [herror]
  rw [eval, returns_bind, returns_get, if_neg hgo, Int.toNat_natCast, List.getD_eq_getElem?_getD,
    hnode, Option.getD_some]

/-- The name is looked up when the body is evaluated. -/
theorem eval_reader {s : GkState} (hnodes : s.nodes = readerNodes name) (herror : s.error = [])
    (fuel : Nat) : Returns (eval (fuel + 3) 2) s fun _ s' =>
      if (lookup s.vars name).isSome then
        s'.returning = true ∧ s'.returnVal = (lookup s.vars name).getD .none ∧ s'.error = []
      else s'.returning = s.returning ∧ s'.error = strcat (ascii "undefined variable: ") name := by
  have hblock : s.nodes[2]? = some ⟨.block, 2, 0, [], none, [3]⟩ := by rw [hnodes]; rfl
  have hreturn : s.nodes[3]? = some ⟨.return_, 2, 0, [], none, [4]⟩ := by rw [hnodes]; rfl
  have hvar : s.nodes[4]? = some ⟨.var, 2, 0, name, none, []⟩ := by rw [hnodes]; rfl
  have hchild : Node.childAt ⟨.return_, 2, 0, [], none, [4]⟩ 0 = ((4 : Nat) : Int) := rfl
  refine (returns_eval (c := 2) herror hblock).mpr ?_
  simp only [evalCases, evalBlock, returns_bind]
  rw [returns_eval herror hreturn]
  simp only [evalCases, hchild]
  rw [if_neg (by simp), returns_bind, returns_eval herror hvar]
  simp only [evalCases, returns_bind, returns_get, lookup]
  obtain hnone | ⟨v, hsome⟩ := (findVar s.vars name).eq_none_or_eq_some
  · have herror' : strcat (ascii "undefined variable: ") name ≠ [] := strcat_ne_nil (by decide)
    simp [hnone, failWith, setError, failed, herror']
  · simp [hsome, failed, herror]

/-- So the function returns the value of the name, or leaves an error. -/
theorem callWith_reader (fuel : Nat) :
    Returns (callWith (eval (fuel + 3)) readerFunc []) { beforeReader depth name with vars := vars }
      fun v s' =>
        if (lookup vars name).isSome then v = (lookup vars name).getD .none ∧ s'.error = []
        else s'.error = strcat (ascii "undefined variable: ") name := by
  simp only [callWith, readerFunc, bindParams, returns_bind, addDepth, returns_modify, returns_pure]
  rw [if_neg (by decide), returns_bind]
  refine (eval_reader rfl rfl fuel).mono fun v s' hbody => ?_
  refine (returns_of_run (leaveCall_run v s')).mpr ?_
  dsimp only [beforeReader] at hbody ⊢
  by_cases hsome : (lookup vars name).isSome
  · rw [if_pos hsome] at hbody ⊢
    rw [if_pos hbody.1]
    exact hbody.2
  · rw [if_neg hsome] at hbody ⊢
    exact hbody.2

/-- It makes no variable, so there is always room for it. -/
theorem room_reader : Room { beforeReader depth name with vars := vars } readerFunc [] := by
  have hother : ([] : Text) ≠ tooMany := by decide
  have hundefined : strcat (ascii "undefined variable: ") name ≠ tooMany := by
    intro h
    have hhead : some (117 : UInt8) = some 116 := congrArg List.head? h
    exact absurd hhead (by decide)
  intro fuel
  rcases fuel with _ | _ | _ | fuel
  · exact hother
  · exact hother
  · exact hother
  · obtain ⟨v, s', hrun, hpost⟩ := @callWith_reader depth vars name fuel
    rw [hrun]
    change s'.error ≠ tooMany
    by_cases hsome : (lookup vars name).isSome
    · rw [if_pos hsome] at hpost
      rw [hpost.2]
      exact hother
    · rw [if_neg hsome] at hpost
      rw [hpost]
      exact hundefined


theorem defined_reader (depth : Int) : Defined (beforeReader depth name).nodes readerFunc :=
  ⟨reader name, 0, _, gkParse_reader name, _, .tail _ (.head _), rfl, rfl⟩

/-- The two runs of the function tell two values of the name apart. -/
theorem lookup_of_callsAgree (hagree : CallsAgree depth vars vars') (name : Text) :
    lookup vars name = lookup vars' name := by
  have hsame := hagree (beforeReader depth name) readerFunc [] rfl (defined_reader depth)
    (List.mem_singleton.mpr rfl) rfl room_reader room_reader 3
  obtain ⟨v, s, hrun, hpost⟩ := @callWith_reader depth vars name 0
  obtain ⟨v', s', hrun', hpost'⟩ := @callWith_reader depth vars' name 0
  rw [hrun, hrun'] at hsame
  obtain ⟨rfl, -, herror⟩ := hsame
  have hne : strcat (ascii "undefined variable: ") name ≠ [] := strcat_ne_nil (by decide)
  cases hlookup : lookup vars name with
  | none =>
      cases hlookup' : lookup vars' name with
      | none => rfl
      | some w =>
          simp only [hlookup, hlookup', Option.isSome_none, Option.isSome_some] at hpost hpost'
          exact absurd (hpost.symm.trans (herror.trans hpost'.2)) hne
  | some w =>
      cases hlookup' : lookup vars' name with
      | none =>
          simp only [hlookup, hlookup', Option.isSome_none, Option.isSome_some] at hpost hpost'
          exact absurd (hpost'.symm.trans (herror.symm.trans hpost.2)) hne
      | some w' =>
          simp only [hlookup, hlookup', Option.isSome_some] at hpost hpost'
          exact congrArg some (hpost.1.symm.trans hpost'.1)

end

/-- Two stacks in a function whose local variable has two values. -/
def localOf (v : Int32) : List Var := [⟨ascii "x", .int v, 1⟩, ⟨ascii "y", .int 7, 0⟩]

theorem stacks_localOf : Stacks 1 (localOf 1) (localOf 2) := by
  refine ⟨by decide, ?_, ?_, by decide⟩
  · exact List.forall_mem_cons.mpr ⟨by decide, List.forall_mem_singleton.mpr (by decide)⟩
  · exact List.forall_mem_cons.mpr ⟨by decide, List.forall_mem_singleton.mpr (by decide)⟩

end GeckoOS.Gk
