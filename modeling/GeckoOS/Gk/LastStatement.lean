/-
# What a function without a return statement returns

Every case of `eval` has a value, also those of statements: a block has that of its last
statement, an if statement that of the branch it takes, a loop that of its last round.  The
value of a body is what the call evaluates to when no return statement has been executed.

Here the statement is traced that this value comes from, with the state in which it is
executed.  It makes the call evaluate to something else than None exactly if it is an
expression, or assigns one, that does.
-/

import GeckoOS.Gk.CallFrame
import GeckoOS.Gk.Run

namespace GeckoOS.Gk

open GeckoOS.Math

/-- A statement that holds no other one, and the state in which it is executed. -/
structure Leaf where
  stmt : Int
  before : GkState

/-- Its node. -/
def Leaf.node (leaf : Leaf) : Node :=
  leaf.before.nodes.getD leaf.stmt.toNat (blankNode .int 0)

/-- It is an expression, or assigns one, that does not evaluate to None. -/
def Leaf.Valued (leaf : Leaf) : Prop :=
  ∃ expr : Int, (leaf.node.type.isExpr ∧ expr = leaf.stmt ∨
      leaf.node.type = .assign ∧ expr = leaf.node.childAt 0) ∧
    ∃ fuel v s', eval fuel expr leaf.before = .ok v s' ∧ v ≠ .none

/-! ## The last statement -/

section

variable (evalNode : Int → Eval Value) (lastNode : Int → Eval (Option Leaf))

/-- The last statement of a block that is executed. -/
def lastOfBlock : List Nat → Option Leaf → Eval (Option Leaf)
  | [], last => return last
  | child :: more, _ => do
      let last ← lastNode child
      let s ← get
      if s.error ≠ [] ∨ s.returning ∨ s.breaking ∨ s.continuing then return last
      lastOfBlock more last

/-- That of the last round of a while loop. -/
def lastOfWhile (node : Node) : Nat → Option Leaf → Eval (Option Leaf)
  | 0, _ => throw .outOfFuel
  | fuel + 1, last => do
      let cond ← evalNode (node.childAt 0)
      if (← failed) || !(isTruthy cond) then return last
      let last ← lastNode (node.childAt 1)
      if ← afterRound then lastOfWhile node fuel last else return last

/-- That of the last round of a for loop. -/
def lastOfRounds (node : Node) : Nat → Int32 → Option Leaf → Eval (Option Leaf)
  | 0, _, last => return last
  | left + 1, i, _ => do
      if !(← setVar node.strVal (.int i)) then return none
      let last ← lastNode (node.childAt 1)
      if ← afterRound then lastOfRounds node left (i + 1) last else return last

@[inherit_doc lastOfRounds]
def lastOfFor (node : Node) : Eval (Option Leaf) := do
  let s ← get
  let iter := s.nodes.getD (node.childAt 0).toNat (blankNode .int 0)
  if iter.type = .range ∧ iter.child = [] then return none
  else
    let v ← evalNode (if iter.type = .range then iter.childAt 0 else node.childAt 0)
    if ← failed then return none
    match v with
    | .int limit => lastOfRounds lastNode node limit.toInt.toNat 0 none
    | _ => return none

/-- That of the branch of an if statement that is taken, if there is one. -/
def lastOfIf (node : Node) : Eval (Option Leaf) := do
  let cond ← evalNode (node.childAt 0)
  if ← failed then return none
  if isTruthy cond then lastNode (node.childAt 1)
  else if node.child.length = 3 then lastNode (node.childAt 2)
  else return none

/-- The cases of `eval`; a statement that holds no other one is the last one itself. -/
def lastCases (fuel : Nat) (leaf : Leaf) : Eval (Option Leaf) :=
  match leaf.node.type with
  | .block => lastOfBlock lastNode leaf.node.child none
  | .if_ => lastOfIf evalNode lastNode leaf.node
  | .while_ => lastOfWhile evalNode lastNode leaf.node fuel none
  | .for_ => lastOfFor evalNode lastNode leaf.node
  | _ => do
      let _ ← evalCases evalNode fuel leaf.node
      return some leaf

end

/-- The statement in which the evaluation of a node ends, if any. -/
def lastStmt : Nat → Int → Eval (Option Leaf)
  | 0, _ => throw .outOfFuel
  | fuel + 1, c => do
      let s ← get
      if c < 0 ∨ s.error ≠ [] then return none
      lastCases (eval fuel) (lastStmt fuel) fuel ⟨c, s⟩

/-! ## A larger bound -/

theorem refines_evalWhile_succ {evalNode evalNode' : Int → Eval Value}
    (heval : ∀ c, Refines (evalNode c) (evalNode' c)) (node : Node) (fuel : Nat) (result : Value) :
    Refines (evalWhile evalNode node fuel result) (evalWhile evalNode' node (fuel + 1) result) := by
  induction fuel generalizing result with
  | zero => exact refines_throw _
  | succ fuel ih =>
      refine refines_bind (heval _) fun cond => refines_bind (refines_refl _) fun _ => ?_
      refine refines_ite (fun _ => refines_refl _) fun _ => refines_bind (heval _) fun result => ?_
      exact refines_bind (refines_refl _) fun _ => refines_ite (fun _ => ih result) fun _ =>
        refines_refl _

/-- A larger bound makes no difference. -/
theorem refines_eval_succ (fuel : Nat) (c : Int) : Refines (eval fuel c) (eval (fuel + 1) c) := by
  induction fuel generalizing c with
  | zero => exact refines_throw _
  | succ fuel ih =>
      refine refines_bind (refines_refl _) fun s => refines_ite (fun _ => refines_refl _) fun _ => ?_
      by_cases hwhile : (s.nodes.getD c.toNat (blankNode .int 0)).type = .while_
      · simp only [evalCases, hwhile]
        exact refines_evalWhile_succ ih _ fuel .none
      · have hsame : ∀ (evalNode : Int → Eval Value) (node : Node), node.type ≠ .while_ →
            evalCases evalNode (fuel + 1) node = evalCases evalNode fuel node := by
          intro evalNode node hother
          cases htype : node.type with
          | while_ => exact absurd htype hother
          | _ => simp only [evalCases, htype]
        rw [hsame _ _ hwhile]
        exact refines_evalCases ih _ fuel

theorem refines_eval_le {fuel fuel' : Nat} (hle : fuel ≤ fuel') (c : Int) :
    Refines (eval fuel c) (eval fuel' c) := by
  induction hle with
  | refl => exact refines_refl _
  | step _ ih => exact fun s v s' hrun => refines_eval_succ _ c s v s' (ih s v s' hrun)

/-- A node evaluates to one value at most. -/
theorem eval_unique {fuel fuel' : Nat} {c : Int} {s s₁ s₂ : GkState} {v w : Value}
    (hrun : eval fuel c s = .ok v s₁) (hrun' : eval fuel' c s = .ok w s₂) : v = w := by
  have hmax := refines_eval_le (Nat.le_max_left fuel fuel') c s v s₁ hrun
  have hmax' := refines_eval_le (Nat.le_max_right fuel fuel') c s w s₂ hrun'
  rw [hmax] at hmax'
  cases hmax'
  rfl

/-! ## The value comes from the last statement -/

/-- The end has been reached without an error and without a return. -/
structure GkState.Finished (s : GkState) : Prop where
  error : s.error = []
  returning : s.returning = false

/-- There is a last statement, and it has a value. -/
def HasValue (last : Option Leaf) : Prop := ∃ leaf, last = some leaf ∧ leaf.Valued

/-- Both come to the same end, and the one ends with a value if the other one does. -/
def Traces (x : Eval Value) (y : Eval (Option Leaf)) : Prop :=
  ∀ s v s', x s = .ok v s' → s'.Finished → ∃ last, y s = .ok last s' ∧ (v ≠ .none ↔ HasValue last)

variable {s s' : GkState} {node : Node} {evalNode : Int → Eval Value}
  {lastNode : Int → Eval (Option Leaf)}

theorem not_hasValue_none : ¬ HasValue none := by
  rintro ⟨leaf, ⟨⟩, -⟩

theorem traces_none : Traces (pure .none) (pure none) := by
  rintro s v s' ⟨⟩ -
  exact ⟨none, rfl, iff_of_false (not_not_intro rfl) not_hasValue_none⟩

/-- An error is not a normal end. -/
theorem traces_failWith {text : Text} (hsome : text ≠ []) (y : Eval (Option Leaf)) :
    Traces (failWith text) y := by
  rintro s v s' ⟨⟩ hfinished
  exact absurd hfinished.error hsome

theorem traces_ite {c : Prop} [Decidable c] {x x' : Eval Value} {y y' : Eval (Option Leaf)}
    (hx : c → Traces x y) (hx' : ¬ c → Traces x' y') :
    Traces (if c then x else x') (if c then y else y') := by
  split_ifs with hc
  · exact hx hc
  · exact hx' hc

/-- A common part, and then the rest. -/
theorem traces_bind {α : Type} {x : Eval α} {f : α → Eval Value} {g : α → Eval (Option Leaf)}
    (hf : ∀ a, Traces (f a) (g a)) : Traces (x >>= f) (x >>= g) := by
  intro s v s' hrun hfinished
  obtain ⟨a, s₁, hx, hrest⟩ := bind_eq_ok.mp hrun
  obtain ⟨last, hlast, hvalue⟩ := hf a s₁ v s' hrest hfinished
  exact ⟨last, (bind_run hx).trans hlast, hvalue⟩

/-- A statement, and then a text that does not go on after an error or a return. -/
theorem traces_after {x : Eval Value} {y : Eval (Option Leaf)} {f : Value → Eval Value}
    {g : Option Leaf → Eval (Option Leaf)} (hx : Traces x y)
    (hstops : ∀ v s w s', f v s = .ok w s' → s'.Finished → s.Finished)
    (hf : ∀ v last, (v ≠ .none ↔ HasValue last) → Traces (f v) (g last)) :
    Traces (x >>= f) (y >>= g) := by
  intro s w s' hrun hfinished
  obtain ⟨v, s₁, hstmt, hrest⟩ := bind_eq_ok.mp hrun
  obtain ⟨last, hlast, hvalue⟩ := hx s v s₁ hstmt (hstops v s₁ w s' hrest hfinished)
  obtain ⟨last', hlast', hvalue'⟩ := hf v last hvalue s₁ w s' hrest hfinished
  exact ⟨last', (bind_run hlast).trans hlast', hvalue'⟩

/-- What a loop does after a round does not change how it has ended. -/
theorem afterRound_stops {more : Bool} (hround : afterRound s = .ok more s') :
    (more → s.Finished) ∧ (more = false → s'.Finished → s.Finished) := by
  rw [afterRound, bind_run (rfl : (get : Eval GkState) s = .ok s s)] at hround
  split_ifs at hround with hend hbreaking
  · cases hround
    exact ⟨fun h => absurd h Bool.false_ne_true, fun _ hfinished => hfinished⟩
  · cases hround
    exact ⟨fun h => absurd h Bool.false_ne_true, fun _ hfinished => ⟨hfinished.1, hfinished.2⟩⟩
  · obtain ⟨herror, hreturning⟩ := not_or.mp hend
    have hfinished : s.Finished := ⟨not_not.mp herror, Bool.eq_false_of_not_eq_true hreturning⟩
    exact ⟨fun _ => hfinished, fun _ _ => hfinished⟩

section

variable (htraces : ∀ c, Traces (evalNode c) (lastNode c))

include htraces

theorem traces_evalBlock (children : List Nat) {value : Value} {last : Option Leaf}
    (hlast : value ≠ .none ↔ HasValue last) :
    Traces (evalBlock evalNode children value) (lastOfBlock lastNode children last) := by
  induction children generalizing value last with
  | nil =>
      rintro s v s' ⟨⟩ -
      exact ⟨last, rfl, hlast⟩
  | cons c more ih =>
      refine traces_after (htraces c) (fun v s w s' hrest hfinished => ?_) fun v last hvalue => ?_
      · rw [bind_run (rfl : (get : Eval GkState) s = .ok s s)] at hrest
        split_ifs at hrest with hend
        · cases hrest
          exact hfinished
        · simp only [not_or, not_not, Bool.not_eq_true] at hend
          exact ⟨hend.1, hend.2.1⟩
      · refine traces_bind fun s => traces_ite (fun _ => ?_) fun _ => ih hvalue
        rintro s v s' ⟨⟩ -
        exact ⟨last, rfl, hvalue⟩

/-- A round of a loop, and what follows it. -/
theorem traces_round (body : Int) {f : Value → Eval Value} {g : Option Leaf → Eval (Option Leaf)}
    (hf : ∀ v last, (v ≠ .none ↔ HasValue last) → Traces (f v) (g last)) :
    Traces
      (evalNode body >>= fun v => afterRound >>= fun more => if more then f v else pure v)
      (lastNode body >>= fun last => afterRound >>= fun more => if more then g last else pure last) := by
  refine traces_after (htraces body) (fun v s w s' hrest hfinished => ?_) fun v last hvalue => ?_
  · obtain ⟨more, s₁, hround, hrest⟩ := bind_eq_ok.mp hrest
    obtain ⟨hgoes, hstops⟩ := afterRound_stops hround
    cases more with
    | true => exact hgoes rfl
    | false =>
        cases hrest
        exact hstops rfl hfinished
  · refine traces_bind fun more => traces_ite (fun _ => hf v last hvalue) fun _ => ?_
    rintro s v s' ⟨⟩ -
    exact ⟨last, rfl, hvalue⟩

theorem traces_evalWhile (node : Node) (fuel : Nat) {value : Value} {last : Option Leaf}
    (hlast : value ≠ .none ↔ HasValue last) :
    Traces (evalWhile evalNode node fuel value) (lastOfWhile evalNode lastNode node fuel last) := by
  induction fuel generalizing value last with
  | zero => exact fun _ _ _ hrun => nomatch hrun
  | succ fuel ih =>
      refine traces_bind fun cond => traces_bind fun stop => traces_ite (fun _ => ?_) fun _ => ?_
      · rintro s v s' ⟨⟩ -
        exact ⟨last, rfl, hlast⟩
      · exact traces_round htraces _ fun v last hvalue => ih hvalue

theorem traces_evalRounds (node : Node) (left : Nat) (i : Int32) {value : Value}
    {last : Option Leaf} (hlast : value ≠ .none ↔ HasValue last) :
    Traces (evalRounds evalNode node left i value) (lastOfRounds lastNode node left i last) := by
  induction left generalizing i value last with
  | zero =>
      rintro s v s' ⟨⟩ -
      exact ⟨last, rfl, hlast⟩
  | succ left ih =>
      refine traces_bind fun ok => traces_ite (fun _ => traces_none) fun _ => ?_
      exact traces_round htraces _ fun v last hvalue => ih (i + 1) hvalue

theorem traces_evalFor (node : Node) :
    Traces (evalFor evalNode node) (lastOfFor evalNode lastNode node) := by
  have hnone : ((.none : Value) ≠ .none ↔ HasValue none) :=
    iff_of_false (not_not_intro rfl) not_hasValue_none
  refine traces_bind fun s => traces_ite (fun _ => traces_failWith (by decide) _) fun _ => ?_
  refine traces_bind fun v => traces_bind fun stop => traces_ite (fun _ => traces_none) fun _ => ?_
  have hfails : ∀ (c : Prop) [Decidable c] (y : Eval (Option Leaf)),
      Traces (if c then failWith (ascii "range() argument must be integer")
        else failWith (ascii "for loop requires integer or range()")) y := by
    intro c _ y
    split_ifs
    · exact traces_failWith (by decide) y
    · exact traces_failWith (by decide) y
  cases v with
  | int limit => exact traces_evalRounds htraces node _ 0 hnone
  | str text => exact hfails _ _
  | bool v => exact hfails _ _
  | none => exact hfails _ _

theorem traces_evalIf (hif : node.type = .if_) (fuel : Nat) :
    Traces (evalCases evalNode fuel node) (lastOfIf evalNode lastNode node) := by
  simp only [evalCases, hif]
  refine traces_bind fun cond => traces_bind fun stop => traces_ite (fun _ => traces_none) fun _ => ?_
  refine traces_ite (fun _ => htraces _) fun _ => ?_
  exact traces_ite (fun _ => htraces _) fun _ => traces_none

end

/-- The cases of `eval` for a node, unless there was an error before. -/
theorem eval_succ_run {fuel : Nat} {c : Int} (hc : ¬ (c < 0 ∨ s.error ≠ [])) :
    eval (fuel + 1) c s = evalCases (eval fuel) fuel (Leaf.mk c s).node s := by
  rw [eval, bind_run (rfl : (get : Eval GkState) s = .ok s s), if_neg hc]
  rfl

/-- An assignment has the value of its expression. -/
theorem evalAssign_value {fuel : Nat} {v : Value} (hassign : node.type = .assign)
    (hrun : evalCases evalNode fuel node s = .ok v s') (hfinished : s'.Finished) :
    ∃ s₁, evalNode (node.childAt 0) s = .ok v s₁ := by
  simp only [evalCases, hassign] at hrun
  obtain ⟨val, s₁, hexpr, hrest⟩ := bind_eq_ok.mp hrun
  refine ⟨s₁, ?_⟩
  rw [failed, bind_assoc, bind_run (rfl : (get : Eval GkState) s₁ = .ok s₁ s₁), pure_bind] at hrest
  split_ifs at hrest with herror
  · cases hrest
    exact absurd hfinished.error (of_decide_eq_true herror)
  · obtain ⟨ok, s₂, hset, hend⟩ := bind_eq_ok.mp hrest
    cases ok with
    | true =>
        cases hend
        exact hexpr
    | false =>
        cases hend
        exact absurd hfinished.error ((@setVar_keeps [] _ _ _ _ _ hset).2 rfl)

/-- The other statements that hold no statement have no value. -/
theorem evalCases_none {fuel : Nat} {v : Value} (hexpr : node.type.isExpr = false)
    (hassign : node.type ≠ .assign)
    (hblock : node.type ∉ [NodeType.block, .if_, .while_, .for_])
    (hrun : evalCases evalNode fuel node s = .ok v s') (hfinished : s'.Finished) : v = .none := by
  cases htype : node.type with
  | def_ =>
      simp only [evalCases, htype] at hrun
      rw [evalDef, bind_run (rfl : (get : Eval GkState) s = .ok s s)] at hrun
      split_ifs at hrun <;>
        · cases hrun
          rfl
  | return_ =>
      simp only [evalCases, htype] at hrun
      have hreturns : ∀ (s₁ : GkState) (w : Value),
          s' ≠ { s₁ with returning := true, returnVal := w } := by
        rintro s₁ w rfl
        exact absurd hfinished.returning.symm Bool.false_ne_true
      split_ifs at hrun
      · cases hrun
        rfl
      · obtain ⟨w, s₁, -, hrest⟩ := bind_eq_ok.mp hrun
        rw [failed, bind_assoc, bind_run (rfl : (get : Eval GkState) s₁ = .ok s₁ s₁),
          pure_bind] at hrest
        split_ifs at hrest
        · cases hrest
          rfl
        · cases hrest
          exact absurd rfl (hreturns s₁ v)
  | break_ =>
      simp only [evalCases, htype] at hrun
      cases hrun
      rfl
  | continue_ =>
      simp only [evalCases, htype] at hrun
      cases hrun
      rfl
  | assign => exact absurd htype hassign
  | block => exact absurd (by simp [htype]) hblock
  | if_ => exact absurd (by simp [htype]) hblock
  | while_ => exact absurd (by simp [htype]) hblock
  | for_ => exact absurd (by simp [htype]) hblock
  | _ => rw [htype] at hexpr; cases hexpr

/-- A statement that holds no other one has a value if its expression has. -/
theorem eval_valued {fuel : Nat} {c : Int} {v : Value} (hrun : eval (fuel + 1) c s = .ok v s')
    (hfinished : s'.Finished) (hc : ¬ (c < 0 ∨ s.error ≠ []))
    (hblock : (Leaf.mk c s).node.type ∉ [NodeType.block, .if_, .while_, .for_]) :
    v ≠ .none ↔ (Leaf.mk c s).Valued := by
  have hcases := hrun
  rw [eval_succ_run hc] at hcases
  cases hexpr : (Leaf.mk c s).node.type.isExpr with
  | true =>
      refine ⟨fun hv => ⟨c, .inl ⟨hexpr, rfl⟩, _, v, s', hrun, hv⟩, ?_⟩
      rintro ⟨expr, ⟨-, rfl⟩ | ⟨hassign, -⟩, fuel', w, s'', hrun', hw⟩
      · exact eval_unique hrun' hrun ▸ hw
      · rw [hassign] at hexpr
        cases hexpr
  | false =>
      by_cases hassign : (Leaf.mk c s).node.type = .assign
      · obtain ⟨s₁, hvalue⟩ := evalAssign_value hassign hcases hfinished
        refine ⟨fun hv => ⟨_, .inr ⟨hassign, rfl⟩, _, v, s₁, hvalue, hv⟩, ?_⟩
        rintro ⟨expr, ⟨hexpr', -⟩ | ⟨-, rfl⟩, fuel', w, s'', hrun', hw⟩
        · exact absurd (hexpr.symm.trans hexpr') Bool.false_ne_true
        · exact eval_unique hrun' hvalue ▸ hw
      · have hnot : ¬ (Leaf.mk c s).Valued := by
          rintro ⟨expr, ⟨hexpr', -⟩ | ⟨hassign', -⟩, -⟩
          · exact absurd (hexpr.symm.trans hexpr') Bool.false_ne_true
          · exact hassign hassign'
        exact iff_of_false (not_not_intro (evalCases_none hexpr hassign hblock hcases hfinished)) hnot

/-- The value of a node is that of the statement its evaluation ends in. -/
theorem traces_eval (fuel : Nat) (c : Int) : Traces (eval fuel c) (lastStmt fuel c) := by
  induction fuel generalizing c with
  | zero => exact fun _ _ _ hrun => nomatch hrun
  | succ fuel ih =>
      have hnone : ((.none : Value) ≠ .none ↔ HasValue none) :=
        iff_of_false (not_not_intro rfl) not_hasValue_none
      intro s v s' hrun hfinished
      rw [lastStmt, bind_run (rfl : (get : Eval GkState) s = .ok s s)]
      by_cases hc : c < 0 ∨ s.error ≠ []
      · rw [eval, bind_run (rfl : (get : Eval GkState) s = .ok s s), if_pos hc] at hrun
        rw [if_pos hc]
        exact traces_none s v s' hrun hfinished
      · rw [if_neg hc]
        have hcases := hrun
        rw [eval_succ_run hc] at hcases
        have hleaf : (Leaf.mk c s).node.type ∉ [NodeType.block, .if_, .while_, .for_] →
            ∃ last, (evalCases (eval fuel) fuel (Leaf.mk c s).node >>= fun _ =>
              (pure (some (Leaf.mk c s)) : Eval (Option Leaf))) s = .ok last s' ∧
                (v ≠ .none ↔ HasValue last) := by
          refine fun hblock => ⟨some ⟨c, s⟩, bind_run hcases, ?_⟩
          rw [eval_valued hrun hfinished hc hblock]
          constructor
          · exact fun hvalued => ⟨_, rfl, hvalued⟩
          · rintro ⟨leaf, ⟨⟩, hvalued⟩
            exact hvalued
        cases htype : (Leaf.mk c s).node.type with
        | block =>
            simp only [lastCases, htype]
            simp only [evalCases, htype] at hcases
            exact traces_evalBlock ih _ hnone s v s' hcases hfinished
        | if_ =>
            simp only [lastCases, htype]
            exact traces_evalIf ih htype fuel s v s' hcases hfinished
        | while_ =>
            simp only [lastCases, htype]
            simp only [evalCases, htype] at hcases
            exact traces_evalWhile ih _ fuel hnone s v s' hcases hfinished
        | for_ =>
            simp only [lastCases, htype]
            simp only [evalCases, htype] at hcases
            exact traces_evalFor ih _ s v s' hcases hfinished
        | _ =>
            simp only [lastCases, htype]
            exact hleaf (by simp [htype])

/-! ## Calls -/

/-- From `s`, the call at node `c` comes to the body of `f` in the state `entry` and to its end in
the state `exit`, without an error and without a return. -/
structure BodyEnds (fuel c : Nat) (s : GkState) (f : FuncDef) (entry exit : GkState) : Prop where
  error : s.error = []
  call : (Leaf.mk c s).node.type = .call
  func : findFunc s.funcs (Leaf.mk c s).node.strVal = some f
  count : (Leaf.mk c s).node.child.length = f.params.length
  depth : s.callDepth < maxCallDepth
  bound : ∃ args before, evalArgs (eval fuel) (Leaf.mk c s).node.child s = .ok (some args) before ∧
    bindParams f.params args { before with callDepth := before.callDepth + 1 } = .ok true entry
  body : ∃ result, eval fuel f.bodyNode entry = .ok result exit
  finished : exit.Finished

/-- **A call without a return.**  A call whose body comes to its end without an error and without
a return statement evaluates to None exactly if the statement in which the body ends, if there
is one, is not an expression, and does not assign one, with another value. -/
theorem call_none_iff {fuel c : Nat} {f : FuncDef} {entry exit : GkState}
    (hends : BodyEnds fuel c s f entry exit) :
    ∃ v s' last, eval (fuel + 1) c s = .ok v s' ∧
      lastStmt fuel f.bodyNode entry = .ok last exit ∧
        (v = .none ↔ ∀ leaf, last = some leaf → ¬ leaf.Valued) := by
  obtain ⟨herror, hcall, hfunc, hcount, hdepth, ⟨args, before, hargs, hbind⟩, ⟨result, hbody⟩,
    hfinished⟩ := hends
  obtain ⟨last, hlast, hvalue⟩ := traces_eval fuel f.bodyNode entry result exit hbody hfinished
  have hgo : ¬ ((c : Int) < 0 ∨ s.error ≠ []) := by simp [herror]
  have hleave : callWith (eval fuel) f args before = .ok result
      { exit with
        returning := false
        vars := varsBelow exit.callDepth exit.vars
        callDepth := exit.callDepth + -1 } := by
    rw [callWith, bind_run (rfl : addDepth 1 before = .ok () _), bind_run hbind]
    simp only [Bool.not_true, Bool.false_eq_true, if_false]
    rw [bind_run hbody, leaveCall_run, hfinished.returning]
    rfl
  have hrun : eval (fuel + 1) c s = callWith (eval fuel) f args before := by
    rw [eval_succ_run hgo]
    simp only [evalCases, hcall]
    rw [evalCall_eq, bind_run (rfl : (get : Eval GkState) s = .ok s s), hfunc]
    simp only [hcount, ne_eq, not_true, if_false, if_neg (not_le.mpr hdepth)]
    rw [bind_run hargs]
  refine ⟨result, _, last, hrun.trans hleave, hlast, ?_⟩
  rw [← not_iff_not, ← ne_eq, hvalue]
  simp only [HasValue, not_forall, not_not, exists_prop]

/-- A function without a return statement that ends by printing, and a call of it. -/
def printing : List Token := (gkLex [] (ascii "def f():\n    print(7)\nf()\n")).2.tokens

/-- The entry of a function without parameters that is called after its definition. -/
def bodyEntry (tokens : List Token) : GkState := { afterDefinition tokens with callDepth := 1 }

theorem call_none_iff_printing : ∃ v s' last, eval 10 5 (afterDefinition printing) = .ok v s' ∧
    lastStmt 9 2 (bodyEntry printing) = .ok last (lastState (eval 9 2 (bodyEntry printing))) ∧
      (v = .none ↔ ∀ leaf, last = some leaf → ¬ leaf.Valued) :=
  @call_none_iff _ 9 5 ⟨ascii "f", [], 2⟩ _ _
    { error := by decide +kernel
      call := by decide +kernel
      func := by decide +kernel
      count := by decide +kernel
      depth := by decide +kernel
      bound := ⟨[], afterDefinition printing, rfl, rfl⟩
      body := ⟨.none, eq_ok_of_endValue (by decide +kernel)⟩
      finished := ⟨by decide +kernel, by decide +kernel⟩ }

/-- A function without a return statement that ends with an assignment, and a call of it. -/
def assigning : List Token := (gkLex [] (ascii "def f():\n    x = 5\nf()\n")).2.tokens

/-- The call evaluates to 5. -/
theorem call_notNone_assigning :
    BodyEnds 9 5 (afterDefinition assigning) ⟨ascii "f", [], 2⟩ (bodyEntry assigning)
      (lastState (eval 9 2 (bodyEntry assigning))) ∧
    endValue (eval 10 5 (afterDefinition assigning)) = some (.int 5) :=
  ⟨{ error := by decide +kernel
     call := by decide +kernel
     func := by decide +kernel
     count := by decide +kernel
     depth := by decide +kernel
     bound := ⟨[], afterDefinition assigning, rfl, rfl⟩
     body := ⟨.int 5, eq_ok_of_endValue (by decide +kernel)⟩
     finished := ⟨by decide +kernel, by decide +kernel⟩ }, by decide +kernel⟩

end GeckoOS.Gk
