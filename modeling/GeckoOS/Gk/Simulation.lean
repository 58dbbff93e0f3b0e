/-
# The interpreter does what programs mean

`eval` has no exceptions: an error is entered into `error`, a return, a break or a continue raises a
flag, and whoever evaluates a node looks at them afterwards.  It has no frames either, but one stack
of variables, and it walks over nodes.  Still a run over the nodes of a program does what the
program means, step by step: it returns where the meaning returns, and where the meaning stops with
an exception it ends with the note of it.
-/

import GeckoOS.Gk.Frames
import GeckoOS.Gk.ProgramText
import GeckoOS.Gk.Run
import GeckoOS.Math.Exceptions

namespace GeckoOS.Gk

open GeckoOS.Math

/-! ## States and worlds -/

/-- This function is that one. -/
structure IsDefinition (nodes : List Node) (d : Definition) (f : FuncDef) : Prop where
  name : f.name = d.name
  params : f.params = d.params
  body : ∃ n : Nat, f.bodyNode = n ∧ IsStmt nodes 0 d.body n
  valid : d.body.Valid false .body

/-- The interpreter goes on in the state of this world. -/
structure Reflects (nodes : List Node) (depth : Nat) (s : GkState) (w : World) : Prop where
  pool : s.nodes = nodes
  error : s.error = []
  returning : s.returning = false
  breaking : s.breaking = false
  continuing : s.continuing = false
  level : s.callDepth = depth
  callers : w.callers.length = depth
  frames : FramesOf (w.locals :: w.callers) s.vars
  definitions : List.Forall₂ (IsDefinition nodes) w.definitions s.funcs
  output : s.output = w.output
  typed : s.typed = w.typed

/-- The interpreter has entered this error. -/
structure Failed (message : Text) (s : GkState) (w : World) : Prop where
  error : s.error = message
  ne : message ≠ []
  output : s.output = w.output

/-- The same value, in the state of the world. -/
def Agrees {α : Type} (nodes : List Node) (depth : Nat) (a : α) (s : GkState) (b : α) (w : World) :
    Prop :=
  a = b ∧ Reflects nodes depth s w

/-- An expression stops with an error, and the interpreter then returns such a value. -/
def Halts {α : Type} (early : α → Prop) :
    Exit → World → EStateM.Result OutOfFuel GkState α → Prop
  | .error message, w, r => ∃ a s, r = .ok a s ∧ early a ∧ Failed message s w
  | .outOfFuel, _, r => ∃ s, r = .error .outOfFuel s
  | _, _, _ => False

/-- A statement may also stop with a jump. -/
def Stops (nodes : List Node) (depth : Nat) (inLoop : Bool) :
    Exit → World → EStateM.Result OutOfFuel GkState Value → Prop
  | .return_ v, w, r => ∃ a s, r = .ok a s ∧ s.returning = true ∧ s.returnVal = v ∧
      Reflects nodes depth { s with returning := false } w
  | .break_, w, r => inLoop ∧ ∃ s, r = .ok .none s ∧ s.breaking = true ∧
      Reflects nodes depth { s with breaking := false } w
  | .continue_, w, r => inLoop ∧ ∃ s, r = .ok .none s ∧ s.continuing = true ∧
      Reflects nodes depth { s with continuing := false } w
  | exit, w, r => Halts (fun _ => True) exit w r

/-- Whoever finds an error returns this. -/
structure Passes {α : Type} (halt : Exit → World → EStateM.Result OutOfFuel GkState α → Prop)
    (early : α) : Prop where
  error : ∀ {message s w}, Failed message s w → halt (.error message) w (.ok early s)
  fuel : ∀ {s w}, halt .outOfFuel w (.error .outOfFuel s)

variable {nodes : List Node} {depth : Nat} {inLoop : Bool} {s s' : GkState} {w w' : World}
  {α β γ κ : Type} {message text name : Text} {v : Value} {evalNode : Int → Eval Value}
  {run : Stmt → Run Value}

theorem passes_halts {early : α → Prop} {a : α} (ha : early a) : Passes (Halts early) a where
  error hfailed := ⟨a, _, rfl, ha, hfailed⟩
  fuel := ⟨_, rfl⟩

theorem passes_stops : Passes (Stops nodes depth inLoop) v where
  error hfailed := ⟨v, _, rfl, trivial, hfailed⟩
  fuel := ⟨_, rfl⟩

theorem Halts.stops {exit : Exit} {r : EStateM.Result OutOfFuel GkState Value}
    (hhalts : Halts (fun _ => True) exit w r) : Stops nodes depth inLoop exit w r := by
  cases exit with
  | error | outOfFuel => exact hhalts
  | return_ | break_ | continue_ => exact hhalts.elim

/-! ## Steps -/

theorem failed_of_eq (herror : s.error = []) : failed s = .ok false s :=
  congrArg (EStateM.Result.ok · s) (decide_eq_false (not_not_intro herror))

theorem failed_of_ne (herror : s.error ≠ []) : failed s = .ok true s :=
  congrArg (EStateM.Result.ok · s) (decide_eq_true herror)

section

variable {post : α → GkState → β → World → Prop}
  {halt : Exit → World → EStateM.Result OutOfFuel GkState α → Prop}

/-- Behind a part that may end in the note of an error, the code keeps the note. -/
theorem mirrors_then {x : Eval γ} {y : Run κ} {f : γ → Eval α} {g : κ → Run β} {exits : γ → Prop}
    {between : γ → GkState → κ → World → Prop} (hpart : Mirrors x s y w between (Halts exits))
    (hfuel : ∀ {w s}, halt .outOfFuel w (.error .outOfFuel s))
    (hmore : ∀ c s d w, between c s d w → Mirrors (f c) s (g d) w post halt)
    (hfailed : ∀ c s' message w, x s = .ok c s' → exits c → Failed message s' w →
      halt (.error message) w (f c s')) : Mirrors (x >>= f) s (y >>= g) w post halt := by
  refine hpart.bind hmore fun exit w' hhalts => ?_
  cases exit with
  | error message =>
      obtain ⟨c, s', hx, hc, hfailure⟩ := hhalts
      rw [bind_run hx]
      exact hfailed c s' message w' hx hc hfailure
  | outOfFuel =>
      obtain ⟨s', hx⟩ := hhalts
      rw [bind_error hx]
      exact hfuel
  | return_ | break_ | continue_ => exact hhalts.elim

/-- A part is evaluated, and the code gives up if there is an error. -/
theorem mirrors_part {x : Eval Value} {y : Run Value} {more : Value → Eval α} {g : Value → Run β}
    {early : α} {exits : Value → Prop} (hpart : Mirrors x s y w (Agrees nodes depth) (Halts exits))
    (hpasses : Passes halt early)
    (hmore : ∀ v s w, Reflects nodes depth s w → Mirrors (more v) s (g v) w post halt) :
    Mirrors (x >>= fun v => failed >>= fun stop => if stop then pure early else more v) s
      (y >>= g) w post halt := by
  refine mirrors_then hpart hpasses.fuel ?_ ?_
  · rintro v s _ w ⟨rfl, hreflects⟩
    exact .afterStep (failed_of_eq hreflects.error) (hmore v s w hreflects)
  · intro v s' message w' _ _ hfailure
    rw [bind_run (failed_of_ne (hfailure.error ▸ hfailure.ne))]
    exact hpasses.error hfailure

theorem mirrors_failWith {halt : Exit → World → EStateM.Result OutOfFuel GkState Value → Prop}
    {post : Value → GkState → β → World → Prop} (hreflects : Reflects nodes depth s w)
    (hmessage : message ≠ []) (hpasses : Passes halt .none) :
    Mirrors (failWith message) s (raise message) w post halt :=
  mirrors_of_error rfl (hpasses.error ⟨rfl, hmessage, hreflects.output⟩)

theorem mirrors_say {more : Unit → Eval α} {more' : Unit → Run β}
    (hreflects : Reflects nodes depth s w) (text : Text)
    (hmore : ∀ s w, Reflects nodes depth s w → Mirrors (more ()) s (more' ()) w post halt) :
    Mirrors (gkPrint text >>= more) s (say text >>= more') w post halt :=
  .afterStep rfl (.beforeStep rfl
    (hmore _ _ { hreflects with output := congrArg (· ++ text) hreflects.output }))

theorem mirrors_hear {more : Text → Eval α} {more' : Text → Run β}
    (hreflects : Reflects nodes depth s w) (hmore : ∀ text s w, Reflects nodes depth s w →
      Mirrors (more text) s (more' text) w post halt) :
    Mirrors (readLine (maxStr - 2) >>= more) s (hear >>= more') w post halt := by
  refine .afterStep rfl (.beforeStep rfl ?_)
  rw [hreflects.typed]
  exact hmore _ _ _ { hreflects with typed := rfl }

end

theorem mirrors_value {halt : Exit → World → EStateM.Result OutOfFuel GkState α → Prop} {a : α}
    (hreflects : Reflects nodes depth s w) :
    Mirrors (pure a) s (pure a) w (Agrees nodes depth) halt :=
  mirrors_pure ⟨rfl, hreflects⟩

theorem mirrors_readVar (hreflects : Reflects nodes depth s w) (name : Text) :
    Mirrors (do
      let s ← get
      match findVar s.vars name with
      | some v => return v.val
      | none => failWith (strcat (ascii "undefined variable: ") name)) s
      (readVar name) w (Agrees nodes depth) (Halts fun _ => True) := by
  have hvalue : w.value name = (findVar s.vars name).map Var.val :=
    (hreflects.frames.value name).symm
  refine .afterStep rfl (.beforeStep rfl ?_)
  rw [hvalue]
  cases findVar s.vars name with
  | none =>
      refine mirrors_failWith hreflects ?_ (passes_halts trivial)
      exact List.append_ne_nil_of_left_ne_nil (by decide) _
  | some v => exact mirrors_value hreflects

theorem mirrors_writeVar (hreflects : Reflects nodes depth s w) (name : Text) (v : Value) :
    Mirrors (setVar name v) s (writeVar name v) w
      (fun ok s' _ w' => ok = true ∧ Reflects nodes depth s' w') (Halts (· = false)) := by
  have hlength : s.vars.length = w.size := hreflects.frames.length
  refine .afterStep rfl (.beforeStep rfl ?_)
  by_cases hmem : name ∈ w.locals
  · obtain ⟨vars, hupdate, hframes⟩ := @FramesOf.update _ _ _ _ v hreflects.frames hmem
    rw [hreflects.callers, ← hreflects.level] at hupdate
    rw [hupdate, if_pos (Or.inl hmem : name ∈ w.locals ∨ w.size < maxVars)]
    exact mirrors_of_ok rfl rfl ⟨rfl, { hreflects with frames := hframes }⟩
  · obtain ⟨hupdate, hframes⟩ := @FramesOf.push _ _ _ _ v hreflects.frames hmem
    rw [hreflects.callers, ← hreflects.level] at hupdate hframes
    rw [hupdate]
    dsimp only
    by_cases hroom : w.size < maxVars
    · rw [if_neg (by omega), if_pos (Or.inr hroom : name ∈ w.locals ∨ w.size < maxVars)]
      exact mirrors_of_ok rfl rfl ⟨rfl, { hreflects with frames := hframes }⟩
    · rw [if_pos (by omega), if_neg (not_or.mpr ⟨hmem, hroom⟩)]
      exact mirrors_of_error rfl ⟨false, _, rfl, rfl, rfl, by decide, hreflects.output⟩

/-! ## Operators -/

/-- A value, or the note of an error. -/
def noted : Except Text Value → Eval Value
  | .ok v => return v
  | .error message => failWith message

theorem mirrors_noted {r : Except Text Value} (hreflects : Reflects nodes depth s w)
    (hmessage : ∀ message, r = .error message → message ≠ []) :
    Mirrors (noted r) s (valueOf r) w (Agrees nodes depth) (Halts fun _ => True) := by
  cases r with
  | ok v => exact mirrors_value hreflects
  | error message => exact mirrors_failWith hreflects (hmessage message rfl) (passes_halts trivial)

theorem evalBinop_eq_noted (op : TokenType) (l r : Value) :
    evalBinop (some op) l r = noted (applyBinop op l r) := by
  cases l <;> cases r <;> cases op
  case int.int.slash | int.int.percent =>
    simp only [evalBinop, applyBinop, intBinop]
    split_ifs <;> rfl
  case int.int.eq | int.int.neq | bool.bool.eq | bool.bool.neq | str.str.eq | str.str.neq =>
    simp [evalBinop, applyBinop, sameValue, noted]
  all_goals rfl

theorem evalUnop_eq_noted {op : TokenType} (hop : op = .minus ∨ op = .not) (v : Value) :
    evalUnop (some op) v = noted (applyUnop op v) := by
  rcases hop with rfl | rfl <;> cases v <;> rfl

theorem intBinop_error {op : TokenType} {a b : Int32} (hrun : intBinop op a b = .error message) :
    message ≠ [] := by
  unfold intBinop at hrun
  split at hrun <;> try split_ifs at hrun
  all_goals
    cases hrun
    try decide

theorem applyBinop_error {op : TokenType} {l r : Value}
    (hrun : applyBinop op l r = .error message) : message ≠ [] := by
  unfold applyBinop at hrun
  split at hrun
  case h_4 => exact intBinop_error hrun
  all_goals
    cases hrun
    try decide

theorem applyUnop_error {op : TokenType} {v : Value} (hrun : applyUnop op v = .error message) :
    message ≠ [] := by
  unfold applyUnop at hrun
  split at hrun <;> cases hrun
  decide

theorem toInt_error (hrun : toInt v = .error message) : message ≠ [] := by
  unfold toInt at hrun
  split at hrun <;> try split at hrun
  all_goals
    cases hrun
    try decide

/-- A part whose value is all that is left to use, without a look at the error. -/
theorem mirrors_lastPart {x : Eval Value} {y : Run Value}
    (hpart : Mirrors x s y w (Agrees nodes depth) (Halts fun _ => True)) (f : Value → Value) :
    Mirrors (x >>= fun v => pure (f v)) s (y >>= fun v => pure (f v)) w (Agrees nodes depth)
      (Halts fun _ => True) := by
  refine mirrors_then hpart ⟨_, rfl⟩ ?_ fun v s' _ _ _ _ hfailure =>
    ⟨f v, s', rfl, trivial, hfailure⟩
  rintro v s _ w ⟨rfl, hreflects⟩
  exact mirrors_value hreflects

/-! ## Calls -/

/-- What is evaluated over these nodes is what it means. -/
structure Simulates (nodes : List Node) (evalNode : Int → Eval Value) (run : Stmt → Run Value) :
    Prop where
  expr : ∀ {e n lo depth s w}, Denotes nodes lo e n → e.Valid → Reflects nodes depth s w →
    Mirrors (evalNode n) s (run (.expr e)) w (Agrees nodes depth) (Halts fun _ => True)
  stmt : ∀ {st place inLoop n lo depth s w}, IsStmt nodes lo st n → st.Valid inLoop place →
    Reflects nodes depth s w →
      Mirrors (evalNode n) s (run st) w (Agrees nodes depth) (Stops nodes depth inLoop)
  /-- Behind an error nothing happens. -/
  idle : ∀ {n s v s'}, evalNode n s = .ok v s' → s'.error ≠ [] → ∀ m, evalNode m s' = .ok .none s'

variable {lo n : Nat} {node : Node} {fuel : Nat} {args : List Expr} {ids : List Nat}

theorem childAt_of_child {child : List Nat} {i k : Nat} (hchild : node.child = child)
    (hi : child[k]? = some i) : node.childAt k = i := by
  rw [Node.childAt, hchild, hi]
  rfl

section

variable (hsim : Simulates nodes evalNode run)

include hsim

theorem mirrors_evalPrint (hargs : DenotesAll nodes lo args ids) (hvalid : AllValid args)
    (hreflects : Reflects nodes depth s w) :
    Mirrors (evalPrint evalNode ids) s (printAll (args.map fun e => run (.expr e))) w
      (fun v s' _ w' => v = .none ∧ Reflects nodes depth s' w') (Halts fun _ => True) := by
  induction args generalizing ids s w with
  | nil =>
      obtain rfl := hargs
      exact mirrors_of_ok rfl rfl
        ⟨rfl, { hreflects with output := congrArg (· ++ ascii "\n") hreflects.output }⟩
  | cons e args ih =>
      obtain ⟨i, more, rfl, he, hargs⟩ := hargs
      rw [List.map_cons, printAll, evalPrint]
      refine mirrors_part (hsim.expr he hvalid.1 hreflects) (passes_halts trivial)
        fun v s w hreflects => ?_
      refine mirrors_say hreflects _ fun s w hreflects => ?_
      cases args with
      | nil =>
          obtain rfl := hargs
          exact ih rfl hvalid.2 hreflects
      | cons e' args =>
          obtain ⟨i', more, rfl, hmore⟩ := hargs
          exact mirrors_say hreflects _ fun s w hreflects =>
            ih ⟨i', more, rfl, hmore⟩ hvalid.2 hreflects

theorem mirrors_evalArgs (hargs : DenotesAll nodes lo args ids) (hvalid : AllValid args)
    (hreflects : Reflects nodes depth s w) :
    Mirrors (evalArgs evalNode ids) s (args.mapM fun e => run (.expr e)) w
      (fun values s' values' w' => values = some values' ∧ values'.length = args.length ∧
        Reflects nodes depth s' w') (Halts (· = none)) := by
  induction args generalizing ids s w with
  | nil =>
      obtain rfl := hargs
      exact mirrors_of_ok rfl rfl ⟨rfl, rfl, hreflects⟩
  | cons e args ih =>
      obtain ⟨i, more, rfl, he, hargs⟩ := hargs
      rw [List.mapM_cons, evalArgs]
      refine mirrors_part (hsim.expr he hvalid.1 hreflects) (passes_halts rfl)
        fun v s w hreflects => ?_
      refine mirrors_then (ih hargs hvalid.2 hreflects) ⟨_, rfl⟩ ?_ ?_
      · rintro _ s values w ⟨rfl, hlength, hreflects⟩
        exact mirrors_of_ok rfl rfl ⟨rfl, congrArg (· + 1) hlength, hreflects⟩
      · rintro _ s' message w' - rfl hfailure
        exact ⟨none, s', rfl, rfl, hfailure⟩

end

theorem Reflects.enter (hreflects : Reflects nodes depth s w) :
    Reflects nodes (depth + 1) { s with callDepth := s.callDepth + 1 }
      { w with locals := ∅, callers := w.locals :: w.callers } :=
  { hreflects with
    level := by
      rw [hreflects.level]
      rfl
    callers := congrArg (· + 1) hreflects.callers
    frames := hreflects.frames.enter }

theorem Reflects.leave (hreflects : Reflects nodes (depth + 1) s w) :
    Reflects nodes depth
      { s with
        returning := false
        vars := varsBelow s.callDepth s.vars
        callDepth := s.callDepth + -1 }
      { w with locals := w.callers.headD ∅, callers := w.callers.tail } := by
  obtain ⟨hpool, herror, -, hbreaking, hcontinuing, hlevel, hcallers, hframes, hdefinitions,
    houtput, htyped⟩ := hreflects
  cases w with
  | mk locals callers definitions output typed =>
      cases callers with
      | nil => exact absurd hcallers (Nat.succ_ne_zero _).symm
      | cons frame frames =>
          refine ⟨hpool, herror, rfl, hbreaking, hcontinuing, ?_, Nat.succ.inj hcallers, ?_,
            hdefinitions, houtput, htyped⟩
          · change s.callDepth + -1 = depth
            omega
          · have hleft := hframes.leave
            rwa [hcallers, ← hlevel] at hleft

theorem mirrors_bindParams {params : List Text} {args : List Value}
    (hlength : args.length = params.length) (hreflects : Reflects nodes depth s w) :
    Mirrors (bindParams params args) s
      ((params.zip args).forM fun (param, arg) => writeVar param arg) w
      (fun ok s' _ w' => ok = true ∧ Reflects nodes depth s' w') (Halts (· = false)) := by
  induction params generalizing args s w with
  | nil =>
      obtain rfl := List.length_eq_zero_iff.mp hlength
      exact mirrors_of_ok rfl rfl ⟨rfl, hreflects⟩
  | cons param params ih =>
      obtain ⟨arg, args, rfl⟩ := List.exists_cons_of_length_eq_add_one hlength
      rw [bindParams]
      refine mirrors_then (g := fun _ => (params.zip args).forM fun (param, arg) =>
        writeVar param arg) (mirrors_writeVar hreflects param arg) ⟨_, rfl⟩ ?_ ?_
      · rintro _ s _ w ⟨rfl, hreflects⟩
        exact ih (Nat.succ.inj hlength) hreflects
      · rintro _ s' message w' - rfl hfailure
        exact ⟨false, s', rfl, rfl, hfailure⟩

/-- A call with its arguments: the note of a return is an exception that the call catches. -/
theorem mirrors_callWith (hsim : Simulates nodes evalNode run) {d : Definition} {f : FuncDef}
    (hdefinition : IsDefinition nodes d f) {args : List Value}
    (hlength : args.length = d.params.length) (hreflects : Reflects nodes depth s w) :
    Mirrors (callWith evalNode f args) s (callBody d.params args (run d.body)) w
      (Agrees nodes depth) (Halts fun _ => True) := by
  obtain ⟨n, hn, hbody⟩ := hdefinition.body
  refine .afterStep rfl (.beforeStep rfl ?_)
  rw [hdefinition.params]
  refine mirrors_then (mirrors_bindParams hlength hreflects.enter) ⟨_, rfl⟩ ?_ ?_
  · rintro _ s _ w ⟨rfl, hreflects⟩
    rw [hn]
    have hrun := hsim.stmt hbody hdefinition.valid hreflects
    -- The value is caught; the frame of the call is left behind it.
    refine Mirrors.thenStep (?_ : Mirrors _ s _ w (fun v s v' w => v = v' ∧ Reflects nodes depth s
      { w with locals := w.callers.headD ∅, callers := w.callers.tail }) (Halts fun _ => True)) ?_
    rotate_left
    · rintro v s _ w ⟨rfl, hleft⟩
      exact ⟨v, _, rfl, rfl, hleft⟩
    refine hrun.tryCatch ?_ ?_
    · rintro v s' _ w' hx ⟨rfl, hreflects⟩
      refine mirrors_of_ok ((bind_run hx).trans (leaveCall_run v s')) rfl ⟨?_, hreflects.leave⟩
      rw [hreflects.returning]
      rfl
    · intro exit w' hstops
      cases exit with
      | error message =>
          obtain ⟨v, s', hx, -, hfailure⟩ := hstops
          exact mirrors_of_error rfl ⟨_, _, (bind_run hx).trans (leaveCall_run v s'), trivial,
            ⟨hfailure.error, hfailure.ne, hfailure.output⟩⟩
      | outOfFuel =>
          obtain ⟨s', hx⟩ := hstops
          exact mirrors_of_error rfl ⟨s', bind_error hx⟩
      | return_ v =>
          obtain ⟨last, s', hx, hreturning, rfl, hreflects⟩ := hstops
          refine mirrors_of_ok ((bind_run hx).trans (leaveCall_run last s')) rfl
            ⟨?_, hreflects.leave⟩
          rw [hreturning]
          rfl
      | break_ | continue_ => exact absurd hstops.1 (by decide)
  · rintro _ s' message w' - rfl hfailure
    exact ⟨.none, _, rfl, trivial, ⟨hfailure.error, hfailure.ne, hfailure.output⟩⟩

theorem DenotesAll.length : ∀ {args : List Expr} {ids : List Nat},
    DenotesAll nodes lo args ids → ids.length = args.length
  | [], _, hids => congrArg List.length hids
  | _ :: _, _, ⟨_, _, hids, _, hargs⟩ => by
      rw [hids, List.length_cons, List.length_cons, hargs.length]

/-- A function is found where its definition is. -/
theorem find_definition {ds : List Definition} {fs : List FuncDef}
    (hall : List.Forall₂ (IsDefinition nodes) ds fs) (name : Text) :
    Option.Rel (IsDefinition nodes) (ds.find? fun d => d.name = name) (findFunc fs name) := by
  induction hall with
  | nil => exact .none
  | @cons d f ds fs hdefinition _ ih =>
      rw [findFunc, List.find?_cons, List.find?_cons, hdefinition.name]
      by_cases hname : d.name = name
      · simpa [hname] using Option.Rel.some hdefinition
      · simpa [hname, findFunc] using ih

section

variable (hsim : Simulates nodes evalNode run)

include hsim

theorem mirrors_evalCall (hargs : DenotesAll nodes lo args node.child) (hvalid : AllValid args)
    (hreflects : Reflects nodes depth s w) :
    Mirrors (evalCall evalNode node) s (runFunction run node.strVal args) w (Agrees nodes depth)
      (Halts fun _ => True) := by
  rw [evalCall_eq]
  refine .afterStep rfl (.beforeStep rfl ?_)
  have hfound := find_definition hreflects.definitions node.strVal
  rw [World.definition]
  revert hfound
  generalize findFunc s.funcs node.strVal = found
  generalize (w.definitions.find? fun d => d.name = node.strVal) = found'
  rintro (⟨hdefinition⟩ | _)
  · rename_i d f
    dsimp only
    rw [hargs.length, hdefinition.params]
    by_cases hcount : args.length ≠ d.params.length
    · rw [if_pos hcount, if_pos hcount]
      exact mirrors_failWith hreflects (by decide) (passes_halts trivial)
    rw [if_neg hcount, if_neg hcount]
    have hlevel : (maxCallDepth : Int) ≤ s.callDepth ↔ maxCallDepth ≤ w.callers.length := by
      rw [hreflects.level, hreflects.callers, Int.ofNat_le]
    by_cases hdeep : maxCallDepth ≤ w.callers.length
    · rw [if_pos (hlevel.mpr hdeep), if_pos hdeep]
      exact mirrors_failWith hreflects (by decide) (passes_halts trivial)
    rw [if_neg (mt hlevel.mp hdeep), if_neg hdeep]
    refine mirrors_then (mirrors_evalArgs hsim hargs hvalid hreflects) ⟨_, rfl⟩ ?_ ?_
    · rintro _ s values w ⟨rfl, hlength, hreflects⟩
      exact mirrors_callWith hsim hdefinition (hlength.trans (not_not.mp hcount)) hreflects
    · rintro _ s' message w' - rfl hfailure
      exact ⟨.none, s', rfl, trivial, hfailure⟩
  · refine mirrors_failWith hreflects ?_ (passes_halts trivial)
    exact List.append_ne_nil_of_left_ne_nil (by decide) _

theorem mirrors_evalInput (hargs : DenotesAll nodes lo args node.child) (hvalid : AllValid args)
    (hreflects : Reflects nodes depth s w) :
    Mirrors (evalInput evalNode node) s (runInput run args) w (Agrees nodes depth)
      (Halts fun _ => True) := by
  have hheard : ∀ s w, Reflects nodes depth s w → Mirrors (do
      let line ← readLine (maxStr - 2)
      gkPrint (ascii "\n")
      return .str line) s heardLine w (Agrees nodes depth) (Halts fun _ => True) :=
    fun s w hreflects => mirrors_hear hreflects fun text s w hreflects =>
      mirrors_say hreflects _ fun s w hreflects => mirrors_value hreflects
  cases args with
  | nil =>
      rw [evalInput, if_neg (not_not_intro (show node.child = [] from hargs))]
      exact hheard s w hreflects
  | cons e args =>
      obtain ⟨i, more, hchild, he, -⟩ := hargs
      rw [evalInput, if_pos (by rw [hchild]; exact List.cons_ne_nil _ _),
        childAt_of_child hchild rfl]
      refine mirrors_part (hsim.expr he hvalid.1 hreflects) (passes_halts trivial)
        fun v s w hreflects => ?_
      exact mirrors_say hreflects _ fun s w hreflects => hheard s w hreflects

theorem mirrors_evalIntCast (hargs : DenotesAll nodes lo args node.child) (hvalid : AllValid args)
    (hreflects : Reflects nodes depth s w) :
    Mirrors (evalIntCast evalNode node) s (runInt run args) w (Agrees nodes depth)
      (Halts fun _ => True) := by
  have hlength := hargs.length
  match args, hargs, hvalid with
  | [e], ⟨i, more, hchild, he, _⟩, hvalid =>
      rw [evalIntCast, if_neg (not_not_intro (show node.child.length = 1 from hlength)),
        childAt_of_child hchild rfl]
      refine mirrors_part (hsim.expr he hvalid.1 hreflects) (passes_halts trivial)
        fun v s w hreflects => ?_
      refine (mirrors_noted hreflects fun message => toInt_error).congr ?_
      cases v with
      | int | bool | none => rfl
      | str text =>
          dsimp only
          rw [toInt]
          cases intOfText text <;> rfl
  | [], _, _ =>
      rw [evalIntCast, if_pos (by rw [hlength]; decide)]
      exact mirrors_failWith hreflects (by decide) (passes_halts trivial)
  | _ :: _ :: _, _, _ =>
      rw [evalIntCast, if_pos (by rw [hlength]; simp)]
      exact mirrors_failWith hreflects (by decide) (passes_halts trivial)

/-- Behind an error the second operand is nothing, and the note stays. -/
theorem mirrors_evalLogic {stop : Bool} {l r : Expr} {i j : Nat} (hchild : node.child = [i, j])
    (hl : Denotes nodes lo l i) (hr : Denotes nodes lo r j) (hlvalid : l.Valid) (hrvalid : r.Valid)
    (hreflects : Reflects nodes depth s w) :
    Mirrors (evalLogic evalNode stop node) s (do
      let a ← run (.expr l)
      if isTruthy a = stop then return .bool stop
      else
        let b ← run (.expr r)
        return .bool (isTruthy b)) w (Agrees nodes depth) (Halts fun _ => True) := by
  rw [evalLogic, childAt_of_child hchild rfl, childAt_of_child hchild rfl]
  refine mirrors_then (hsim.expr hl hlvalid hreflects) ⟨_, rfl⟩ ?_ ?_
  · rintro a s _ w ⟨rfl, hreflects⟩
    by_cases hstop : isTruthy a = stop
    · rw [if_pos hstop, if_pos hstop]
      exact mirrors_value hreflects
    · rw [if_neg hstop, if_neg hstop]
      exact mirrors_lastPart (hsim.expr hr hrvalid hreflects) fun b => .bool (isTruthy b)
  · intro a s' message w' hx _ hfailure
    have hidle := hsim.idle hx (hfailure.error ▸ hfailure.ne) j
    by_cases hstop : isTruthy a = stop
    · rw [if_pos hstop]
      exact ⟨_, s', rfl, trivial, hfailure⟩
    · rw [if_neg hstop, bind_run hidle]
      exact ⟨_, s', rfl, trivial, hfailure⟩

/-- The node of an expression does what the expression means. -/
theorem mirrors_runExpr {e : Expr} (hnode : nodes[n]? = some node) (he : Denotes nodes lo e n)
    (hvalid : e.Valid) (hreflects : Reflects nodes depth s w) :
    Mirrors (evalCases evalNode fuel node) s (runExpr run e) w (Agrees nodes depth)
      (Halts fun _ => True) := by
  cases e with
  | int v =>
      obtain ⟨-, _, hnode', htype, rfl⟩ := he
      obtain rfl := Option.some.inj (hnode.symm.trans hnode')
      rw [evalCases, htype]
      exact mirrors_value hreflects
  | str text =>
      obtain ⟨-, _, hnode', htype, rfl⟩ := he
      obtain rfl := Option.some.inj (hnode.symm.trans hnode')
      rw [evalCases, htype]
      exact mirrors_value hreflects
  | bool b =>
      obtain ⟨-, _, hnode', htype, hval⟩ := he
      obtain rfl := Option.some.inj (hnode.symm.trans hnode')
      rw [evalCases, htype]
      dsimp only
      rw [hval]
      cases b <;> exact mirrors_value hreflects
  | var name =>
      obtain ⟨-, _, hnode', htype, rfl⟩ := he
      obtain rfl := Option.some.inj (hnode.symm.trans hnode')
      rw [evalCases, htype]
      exact mirrors_readVar hreflects _
  | unop op e =>
      obtain ⟨-, _, i, hnode', htype, hop, hchild, he⟩ := he
      obtain rfl := Option.some.inj (hnode.symm.trans hnode')
      rw [evalCases, htype]
      dsimp only
      rw [childAt_of_child hchild rfl, hop, runExpr]
      refine mirrors_part (hsim.expr he hvalid.2 hreflects) (passes_halts trivial)
        fun v s w hreflects => ?_
      rw [evalUnop_eq_noted hvalid.1]
      exact mirrors_noted hreflects fun message => applyUnop_error
  | binop op l r =>
      obtain ⟨-, _, i, j, hnode', htype, hop, hchild, hl, hr⟩ := he
      obtain rfl := Option.some.inj (hnode.symm.trans hnode')
      rw [evalCases, htype]
      dsimp only
      rw [hop]
      by_cases hand : op = .and
      · subst hand
        have hlogic : Mirrors (evalLogic evalNode false _) s _ w _ _ :=
          mirrors_evalLogic hsim hchild hl hr hvalid.2.1 hvalid.2.2 hreflects
        refine hlogic.congrRight (congrFun ?_ w)
        rw [runExpr]
        congr 1
        funext a
        cases isTruthy a <;> rfl
      by_cases hor : op = .or
      · subst hor
        exact mirrors_evalLogic hsim hchild hl hr hvalid.2.1 hvalid.2.2 hreflects
      rw [if_neg (mt Option.some.inj hand), if_neg (mt Option.some.inj hor),
        childAt_of_child hchild rfl, childAt_of_child hchild rfl, runExpr]
      rotate_left
      · exact hand
      · exact hor
      refine mirrors_part (hsim.expr hl hvalid.2.1 hreflects) (passes_halts trivial)
        fun a s w hreflects => ?_
      refine mirrors_part (hsim.expr hr hvalid.2.2 hreflects) (passes_halts trivial)
        fun b s w hreflects => ?_
      rw [evalBinop_eq_noted]
      exact mirrors_noted hreflects fun message => applyBinop_error
  | call name args =>
      obtain ⟨-, _, hnode', htype, rfl, hargs⟩ := he
      obtain rfl := Option.some.inj (hnode.symm.trans hnode')
      rw [callType] at htype
      rw [runExpr, runCall]
      split_ifs at htype with hprint hrange hinput hint
      · rw [evalCases, htype, if_pos hprint]
        refine (mirrors_evalPrint hsim hargs hvalid.2.2 hreflects).thenStep ?_
        rintro _ s _ w ⟨rfl, hreflects⟩
        exact ⟨.none, w, rfl, rfl, hreflects⟩
      · rw [evalCases, htype, if_neg hprint, if_pos hrange]
        exact mirrors_failWith hreflects (by decide) (passes_halts trivial)
      · rw [evalCases, htype, if_neg hprint, if_neg hrange, if_pos hinput]
        exact mirrors_evalInput hsim hargs hvalid.2.2 hreflects
      · rw [evalCases, htype, if_neg hprint, if_neg hrange, if_neg hinput, if_pos hint]
        exact mirrors_evalIntCast hsim hargs hvalid.2.2 hreflects
      · rw [evalCases, htype, if_neg hprint, if_neg hrange, if_neg hinput, if_neg hint]
        exact mirrors_evalCall hsim hargs hvalid.2.2 hreflects

end

/-! ## Loops and blocks -/

theorem oneRound_run (y : Run Value) (w : World) : oneRound y w =
    match y w with
    | .ok v w' => .ok (v, true) w'
    | .error .break_ w' => .ok (.none, false) w'
    | .error .continue_ w' => .ok (.none, true) w'
    | .error exit w' => .error exit w' := by
  cases hy : y w with
  | ok v w' => exact tryCatch_run (bind_run hy)
  | error exit w' =>
      refine (tryCatch_error (bind_error hy)).trans ?_
      cases exit <;> rfl

theorem afterRound_run (s : GkState) : afterRound s =
    if s.error ≠ [] ∨ s.returning = true then .ok false s
    else if s.breaking = true then .ok false { s with breaking := false }
    else .ok true { s with continuing := false } := by
  refine (bind_run rfl).trans ?_
  split_ifs <;> rfl

/-- A round of a loop: the note of a break or a continue is an exception that the round catches. -/
theorem mirrors_afterBody {x : Eval Value} {y : Run Value} {more : Value → Eval Value}
    {more' : Value → Run Value}
    (hbody : Mirrors x s y w (Agrees nodes depth) (Stops nodes depth true))
    (hmore : ∀ v s w, Reflects nodes depth s w → Mirrors (more v) s (more' v) w (Agrees nodes depth)
      (Stops nodes depth inLoop)) :
    Mirrors (do
      let result ← x
      if ← afterRound then more result else return result) s (do
      let (v, goesOn) ← oneRound y
      if goesOn then more' v else return v) w (Agrees nodes depth) (Stops nodes depth inLoop) := by
  have hround := oneRound_run y w
  unfold Mirrors at hbody
  cases hy : y w with
  | ok v w' =>
      rw [hy] at hbody hround
      obtain ⟨_, s', hx, rfl, hreflects⟩ := hbody
      have hgoes : ¬(s'.error ≠ [] ∨ s'.returning = true) :=
        not_or.mpr ⟨not_not_intro hreflects.error, ne_true_of_eq_false hreflects.returning⟩
      have hafter := afterRound_run s'
      rw [if_neg hgoes, if_neg (ne_true_of_eq_false hreflects.breaking)] at hafter
      exact .afterStep hx (.afterStep hafter (.beforeStep hround
        (hmore _ _ _ { hreflects with continuing := rfl })))
  | error exit w' =>
      rw [hy] at hbody hround
      cases exit with
      | error message =>
          obtain ⟨v, s', hx, -, hfailure⟩ := hbody
          have hafter := afterRound_run s'
          rw [if_pos (.inl (hfailure.error ▸ hfailure.ne))] at hafter
          exact mirrors_of_error (bind_error hround)
            ⟨v, s', (bind_run hx).trans (bind_run hafter), trivial, hfailure⟩
      | return_ v =>
          obtain ⟨last, s', hx, hreturning, hval, hreflects⟩ := hbody
          have hafter := afterRound_run s'
          rw [if_pos (.inr hreturning)] at hafter
          exact mirrors_of_error (bind_error hround)
            ⟨last, s', (bind_run hx).trans (bind_run hafter), hreturning, hval, hreflects⟩
      | break_ =>
          obtain ⟨-, s', hx, hbreaking, hreflects⟩ := hbody
          have hgoes : ¬(s'.error ≠ [] ∨ s'.returning = true) :=
            not_or.mpr ⟨not_not_intro hreflects.error, ne_true_of_eq_false hreflects.returning⟩
          have hafter := afterRound_run s'
          rw [if_neg hgoes, if_pos hbreaking] at hafter
          exact .afterStep hx (.afterStep hafter (.beforeStep hround (mirrors_value hreflects)))
      | continue_ =>
          obtain ⟨-, s', hx, hcontinuing, hreflects⟩ := hbody
          have hgoes : ¬(s'.error ≠ [] ∨ s'.returning = true) :=
            not_or.mpr ⟨not_not_intro hreflects.error, ne_true_of_eq_false hreflects.returning⟩
          have hafter := afterRound_run s'
          rw [if_neg hgoes, if_neg (ne_true_of_eq_false hreflects.breaking)] at hafter
          exact .afterStep hx (.afterStep hafter (.beforeStep hround (hmore _ _ _ hreflects)))
      | outOfFuel =>
          obtain ⟨s', hx⟩ := hbody
          exact mirrors_of_error (bind_error hround) ⟨s', bind_error hx⟩

section

variable (hsim : Simulates nodes evalNode run)

include hsim

theorem mirrors_evalBlock : ∀ (sts : List Stmt) {ids : List Nat} {s : GkState} {w : World}
    (last : Value), AreStmts nodes lo sts ids → StmtsValid inLoop sts → Reflects nodes depth s w →
      Mirrors (evalBlock evalNode ids last) s (sts.foldlM (fun _ st => run st) last) w
        (Agrees nodes depth) (Stops nodes depth inLoop)
  | [], _, _, _, last, hsts, _, hreflects => by
      obtain rfl := hsts
      exact mirrors_value hreflects
  | st :: sts, _, s, w, last, ⟨i, more, hids, hst, hsts⟩, ⟨hvalid, hvalids⟩, hreflects => by
      subst hids
      rw [List.foldlM_cons, evalBlock]
      refine (hsim.stmt hst hvalid hreflects).bind ?_ ?_
      · rintro v s _ w ⟨rfl, hreflects⟩
        refine .afterStep rfl ?_
        rw [if_neg (by simp [hreflects.error, hreflects.returning, hreflects.breaking,
          hreflects.continuing])]
        exact mirrors_evalBlock sts v hsts hvalids hreflects
      · have hlast : ∀ v s', evalNode i s = .ok v s' → (s'.error ≠ [] ∨ s'.returning = true ∨
            s'.breaking = true ∨ s'.continuing = true) → (do
              let last ← evalNode i
              let s ← get
              if s.error ≠ [] ∨ s.returning ∨ s.breaking ∨ s.continuing then return last
              evalBlock evalNode more last) s = .ok v s' := fun v s' hx hstopped =>
          (bind_run hx).trans ((bind_run rfl).trans (by rw [if_pos hstopped]; rfl))
        intro exit w' hstops
        cases exit with
        | error message =>
            obtain ⟨v, s', hx, -, hfailure⟩ := hstops
            exact ⟨v, s', hlast v s' hx (.inl (hfailure.error ▸ hfailure.ne)), trivial, hfailure⟩
        | return_ v =>
            obtain ⟨v, s', hx, hreturning, hrest⟩ := hstops
            exact ⟨v, s', hlast v s' hx (.inr (.inl hreturning)), hreturning, hrest⟩
        | break_ =>
            obtain ⟨hin, s', hx, hbreaking, hrest⟩ := hstops
            exact ⟨hin, s', hlast _ s' hx (.inr (.inr (.inl hbreaking))), hbreaking, hrest⟩
        | continue_ =>
            obtain ⟨hin, s', hx, hcontinuing, hrest⟩ := hstops
            exact ⟨hin, s', hlast _ s' hx (.inr (.inr (.inr hcontinuing))), hcontinuing, hrest⟩
        | outOfFuel =>
            obtain ⟨s', hx⟩ := hstops
            exact ⟨s', bind_error hx⟩

theorem mirrors_evalWhile {cond : Expr} {body : Stmt} {place : Place} {i j : Nat}
    (hchild : node.child = [i, j]) (hcond : Denotes nodes lo cond i)
    (hbody : IsStmt nodes lo body j) (hvalid : cond.Valid) (hbvalid : body.Valid true place)
    (bound : Nat) (last : Value) (hreflects : Reflects nodes depth s w) :
    Mirrors (evalWhile evalNode node bound last) s
      (whileLoop (run (.expr cond)) (run body) bound last) w (Agrees nodes depth)
      (Stops nodes depth inLoop) := by
  induction bound generalizing last s w with
  | zero => exact mirrors_of_error rfl ⟨s, rfl⟩
  | succ bound ih =>
      rw [evalWhile, whileLoop, childAt_of_child hchild rfl, childAt_of_child hchild rfl]
      refine mirrors_then (hsim.expr hcond hvalid hreflects) ⟨_, rfl⟩ ?_ ?_
      · rintro c s _ w ⟨rfl, hreflects⟩
        refine .afterStep (failed_of_eq hreflects.error) ?_
        cases isTruthy c with
        | false => exact mirrors_value hreflects
        | true =>
            exact mirrors_afterBody (hsim.stmt hbody hbvalid hreflects) fun v s w hreflects =>
              ih v hreflects
      · intro c s' message w' _ _ hfailure
        rw [bind_run (failed_of_ne (hfailure.error ▸ hfailure.ne))]
        exact ⟨last, s', rfl, trivial, hfailure⟩

theorem mirrors_evalRounds {body : Stmt} {place : Place} {i j : Nat} (hchild : node.child = [i, j])
    (hbody : IsStmt nodes lo body j) (hvalid : body.Valid true place) (left : Nat) (index : Int32)
    (last : Value) (hreflects : Reflects nodes depth s w) :
    Mirrors (evalRounds evalNode node left index last) s
      (forLoop node.strVal (run body) left index last) w (Agrees nodes depth)
      (Stops nodes depth inLoop) := by
  induction left generalizing index last s w with
  | zero => exact mirrors_value hreflects
  | succ left ih =>
      rw [evalRounds, forLoop, childAt_of_child hchild rfl]
      refine mirrors_then (mirrors_writeVar hreflects node.strVal (.int index)) ⟨_, rfl⟩ ?_ ?_
      · rintro _ s _ w ⟨rfl, hreflects⟩
        exact mirrors_afterBody (hsim.stmt hbody hvalid hreflects) fun v s w hreflects =>
          ih (index + 1) v hreflects
      · rintro _ s' message w' - rfl hfailure
        exact ⟨.none, s', rfl, trivial, hfailure⟩

end

/-- The node of a call of `range` is of a type of its own. -/
theorem Denotes.rangeArgs {iter : Expr} (hnode : nodes[n]? = some node)
    (hiter : Denotes nodes lo iter n) :
    if node.type = .range then
      ∃ args, rangeArgs iter = some args ∧ DenotesAll nodes (n + 1) args node.child
    else rangeArgs iter = none := by
  obtain ⟨node', hnode', htype⟩ := hiter.node
  obtain rfl := Option.some.inj (hnode.symm.trans hnode')
  rw [htype]
  cases iter with
  | int | str | bool | var | unop | binop => rfl
  | call name args =>
      obtain ⟨-, _, hnode', -, -, hargs⟩ := hiter
      obtain rfl := Option.some.inj (hnode.symm.trans hnode')
      rw [Expr.nodeType, callType, Gk.rangeArgs]
      by_cases hrange : name = ascii "range"
      · subst hrange
        exact ⟨args, rfl, hargs⟩
      · rw [if_neg hrange, if_neg hrange]
        refine (if_neg ?_).mpr rfl
        split_ifs <;> decide

theorem rangeArgs_valid {iter : Expr} (hargs : rangeArgs iter = some args) (hvalid : iter.Valid) :
    AllValid args := by
  cases iter with
  | int | str | bool | var | unop | binop => cases hargs
  | call name args' =>
      rw [rangeArgs] at hargs
      split_ifs at hargs
      cases hargs
      exact hvalid.2.2

theorem AreParams.strVals {params : List Text} {ids : List Nat}
    (hparams : AreParams nodes lo params ids) :
    ids.map (fun pn => (nodes.getD pn (blankNode .var 0)).strVal) = params := by
  induction hparams with
  | nil => rfl
  | cons hnode _ ih =>
      obtain ⟨-, node, hget, -, hname, -⟩ := hnode
      rw [List.map_cons, ih, List.getD_eq_getElem?_getD, hget, Option.getD_some, hname]

section

variable (hsim : Simulates nodes evalNode run)

include hsim

theorem mirrors_evalFor {iter : Expr} {body : Stmt} {place : Place} {i j : Nat}
    (hchild : node.child = [i, j]) (hiter : Denotes nodes lo iter i)
    (hbody : IsStmt nodes lo body j) (hvalid : iter.Valid) (hbvalid : body.Valid true place)
    (hreflects : Reflects nodes depth s w) :
    Mirrors (evalFor evalNode node) s (do
      let count ← runIter run iter
      forLoop node.strVal (run body) count.toInt.toNat 0 .none) w (Agrees nodes depth)
      (Stops nodes depth inLoop) := by
  obtain ⟨iterNode, hget, -⟩ := hiter.node
  have hlookup : s.nodes.getD (node.childAt 0).toNat (blankNode .int 0) = iterNode := by
    rw [hreflects.pool, childAt_of_child hchild rfl, Int.toNat_natCast, List.getD_eq_getElem?_getD,
      hget, Option.getD_some]
  have hrange := hiter.rangeArgs hget
  rw [evalFor]
  refine .afterStep rfl ?_
  dsimp only
  rw [hlookup, runIter]
  by_cases htype : iterNode.type = .range
  · rw [if_pos htype] at hrange
    obtain ⟨args, hargs, hdenotes⟩ := hrange
    rw [hargs, if_pos htype]
    cases args with
    | nil =>
        rw [if_pos ⟨htype, hdenotes⟩]
        exact mirrors_of_error rfl (passes_stops.error ⟨rfl, by decide, hreflects.output⟩)
    | cons e args =>
        obtain ⟨k, more, hiterChild, he, -⟩ := hdenotes
        rw [if_neg fun h => absurd (hiterChild.symm.trans h.2) (List.cons_ne_nil _ _),
          childAt_of_child hiterChild rfl]
        dsimp only
        rw [bind_assoc]
        refine mirrors_part (hsim.expr he (rangeArgs_valid hargs hvalid).1 hreflects) passes_stops
          fun v s w hreflects => ?_
        cases v with
        | int count => exact mirrors_evalRounds hsim hchild hbody hbvalid _ 0 .none hreflects
        | str | bool | none =>
            refine mirrors_of_error rfl ?_
            dsimp only
            rw [if_pos htype]
            exact passes_stops.error ⟨rfl, by decide, hreflects.output⟩
  · rw [if_neg htype] at hrange
    rw [hrange, if_neg (mt And.left htype), if_neg htype, childAt_of_child hchild rfl]
    dsimp only
    rw [bind_assoc]
    refine mirrors_part (hsim.expr hiter hvalid hreflects) passes_stops fun v s w hreflects => ?_
    cases v with
    | int count => exact mirrors_evalRounds hsim hchild hbody hbvalid _ 0 .none hreflects
    | str | bool | none =>
        refine mirrors_of_error rfl ?_
        dsimp only
        rw [if_neg htype]
        exact passes_stops.error ⟨rfl, by decide, hreflects.output⟩

end

theorem mirrors_evalDef {params : List Text} {body : Stmt} {j : Nat}
    (hchild : node.child = ids ++ [j]) (hparams : AreParams nodes lo params ids)
    (hlength : params.length ≤ maxParams) (hbody : IsStmt nodes lo body j)
    (hvalid : body.Valid false .body) (hreflects : Reflects nodes depth s w) :
    Mirrors (evalDef node) s (do
      define ⟨node.strVal, params, body⟩
      return .none) w (Agrees nodes depth) (Stops nodes depth inLoop) := by
  have hcount : w.definitions.length = s.funcs.length := hreflects.definitions.length_eq
  have hids : ids.length ≤ maxParams := hparams.length_eq ▸ hlength
  refine .afterStep rfl ?_
  rw [define, bind_assoc]
  refine .beforeStep rfl ?_
  by_cases hroom : w.definitions.length < maxFuncs
  · rw [if_neg (by omega), if_pos hroom]
    refine mirrors_of_ok rfl rfl ⟨rfl, { hreflects with definitions := ?_ }⟩
    refine List.rel_append hreflects.definitions (.cons ⟨rfl, ?_, ⟨j, ?_, ?_⟩, hvalid⟩ .nil)
    · dsimp only
      rw [hchild, List.dropLast_concat, List.take_of_length_le hids, hreflects.pool]
      exact hparams.strVals
    · refine childAt_of_child hchild ?_
      simp [hchild]
    · exact IsStmt.congr (Nat.zero_le _) (fun _ _ _ => rfl) body j hbody
  · rw [if_pos (by omega), if_neg hroom]
    exact mirrors_of_error rfl (passes_stops.error ⟨rfl, by decide, hreflects.output⟩)

/-! ## Programs -/

/-- The node of a statement does what the statement means. -/
theorem mirrors_runStmt (hsim : Simulates nodes evalNode run) {st : Stmt} {place : Place}
    (hnode : nodes[n]? = some node) (hst : IsStmt nodes lo st n) (hvalid : st.Valid inLoop place)
    (hreflects : Reflects nodes depth s w) :
    Mirrors (evalCases evalNode fuel node) s (runStmt run fuel st) w (Agrees nodes depth)
      (Stops nodes depth inLoop) := by
  have hsame : ∀ {type name child}, NodeAt nodes lo n type name child →
      node.type = type ∧ node.strVal = name ∧ node.child = child := by
    rintro type name child ⟨-, node', hget, hfields⟩
    obtain rfl := Option.some.inj (hnode.symm.trans hget)
    exact hfields
  cases st with
  | expr e =>
      exact (mirrors_runExpr hsim hnode hst hvalid.2 hreflects).mono (fun _ _ _ _ => id)
        fun _ _ _ => Halts.stops
  | assign name e =>
      obtain ⟨i, hat, he⟩ := hst
      obtain ⟨htype, rfl, hchild⟩ := hsame hat
      rw [evalCases, htype]
      dsimp only
      rw [childAt_of_child hchild rfl]
      refine mirrors_part (hsim.expr he hvalid.2.2 hreflects) passes_stops fun v s w hreflects => ?_
      refine mirrors_then (mirrors_writeVar hreflects node.strVal v) ⟨_, rfl⟩ ?_ ?_
      · rintro _ s _ w ⟨rfl, hreflects⟩
        exact mirrors_value hreflects
      · rintro _ s' message w' - rfl hfailure
        exact ⟨.none, s', rfl, trivial, hfailure⟩
  | return_ value =>
      cases value with
      | none =>
          obtain ⟨htype, -, hchild⟩ := hsame hst
          rw [evalCases, htype]
          dsimp only
          rw [if_pos hchild]
          exact mirrors_of_error rfl ⟨_, _, rfl, rfl, rfl, { hreflects with returning := rfl }⟩
      | some e =>
          obtain ⟨i, hat, he⟩ := hst
          obtain ⟨htype, -, hchild⟩ := hsame hat
          rw [evalCases, htype]
          dsimp only
          rw [if_neg (by rw [hchild]; exact List.cons_ne_nil _ _), childAt_of_child hchild rfl]
          refine mirrors_part (hsim.expr he (hvalid.2 e rfl) hreflects) passes_stops
            fun v s w hreflects => ?_
          exact mirrors_of_error rfl ⟨_, _, rfl, rfl, rfl, { hreflects with returning := rfl }⟩
  | break_ =>
      obtain ⟨htype, -⟩ := hsame hst
      rw [evalCases, htype]
      exact mirrors_of_error rfl ⟨hvalid.2, _, rfl, rfl, { hreflects with breaking := rfl }⟩
  | continue_ =>
      obtain ⟨htype, -⟩ := hsame hst
      rw [evalCases, htype]
      exact mirrors_of_error rfl ⟨hvalid.2, _, rfl, rfl, { hreflects with continuing := rfl }⟩
  | def_ name params body =>
      obtain ⟨ids, j, hat, hparams, hbody⟩ := hst
      obtain ⟨htype, rfl, hchild⟩ := hsame hat
      rw [evalCases, htype]
      exact mirrors_evalDef hchild hparams hvalid.2.2.2.1 hbody hvalid.2.2.2.2 hreflects
  | if_ cond body =>
      obtain ⟨i, j, hat, hcond, hbody⟩ := hst
      obtain ⟨htype, -, hchild⟩ := hsame hat
      rw [evalCases, htype]
      dsimp only
      rw [childAt_of_child hchild rfl, childAt_of_child hchild rfl]
      refine mirrors_part (hsim.expr hcond hvalid.2.1 hreflects) passes_stops
        fun c s w hreflects => ?_
      cases isTruthy c with
      | true => exact hsim.stmt hbody hvalid.2.2 hreflects
      | false =>
          rw [if_neg Bool.false_ne_true, if_neg (by simp [hchild]), if_neg Bool.false_ne_true]
          exact mirrors_value hreflects
  | ifElse cond body other =>
      obtain ⟨i, j, k, hat, hcond, hbody, hother⟩ := hst
      obtain ⟨htype, -, hchild⟩ := hsame hat
      rw [evalCases, htype]
      dsimp only
      rw [childAt_of_child hchild rfl, childAt_of_child hchild rfl, childAt_of_child hchild rfl]
      refine mirrors_part (hsim.expr hcond hvalid.2.1 hreflects) passes_stops
        fun c s w hreflects => ?_
      cases isTruthy c with
      | true => exact hsim.stmt hbody hvalid.2.2.1 hreflects
      | false =>
          rw [if_neg Bool.false_ne_true, if_pos (by simp [hchild]), if_neg Bool.false_ne_true]
          exact hsim.stmt hother hvalid.2.2.2 hreflects
  | while_ cond body =>
      obtain ⟨i, j, hat, hcond, hbody⟩ := hst
      obtain ⟨htype, -, hchild⟩ := hsame hat
      rw [evalCases, htype]
      exact mirrors_evalWhile hsim hchild hcond hbody hvalid.2.1 hvalid.2.2 fuel .none hreflects
  | for_ name iter body =>
      obtain ⟨i, j, hat, hiter, hbody⟩ := hst
      obtain ⟨htype, rfl, hchild⟩ := hsame hat
      rw [evalCases, htype]
      exact mirrors_evalFor hsim hchild hiter hbody hvalid.2.2.1 hvalid.2.2.2 hreflects
  | block sts =>
      obtain ⟨ids, hat, hsts⟩ := hst
      obtain ⟨htype, -, hchild⟩ := hsame hat
      rw [evalCases, htype, runStmt]
      dsimp only
      rw [hchild]
      exact mirrors_evalBlock hsim sts .none hsts hvalid.2.2.2 hreflects

theorem IsStmt.exists_node : ∀ {st : Stmt} {n : Nat}, IsStmt nodes lo st n →
    ∃ node, nodes[n]? = some node
  | .expr _, _, he => he.node.imp fun _ h => h.1
  | .assign _ _, _, ⟨_, hat, _⟩ | .return_ (some _), _, ⟨_, hat, _⟩ | .def_ _ _ _, _, ⟨_, _, hat, _⟩
  | .if_ _ _, _, ⟨_, _, hat, _⟩ | .ifElse _ _ _, _, ⟨_, _, _, hat, _⟩
  | .while_ _ _, _, ⟨_, _, hat, _⟩ | .for_ _ _ _, _, ⟨_, _, hat, _⟩ | .block _, _, ⟨_, hat, _⟩
  | .return_ none, _, hat | .break_, _, hat | .continue_, _, hat => hat.2.imp fun _ h => h.1

/-- A node that is there is evaluated by its cases. -/
theorem eval_node (hnode : nodes[n]? = some node) (hreflects : Reflects nodes depth s w) :
    eval (fuel + 1) n s = evalCases (eval fuel) fuel node s := by
  rw [eval]
  refine (bind_run rfl).trans ?_
  rw [if_neg (not_or.mpr ⟨Int.not_lt.mpr (Int.natCast_nonneg n), not_not_intro hreflects.error⟩),
    hreflects.pool, Int.toNat_natCast, List.getD_eq_getElem?_getD, hnode, Option.getD_some]

/-- `eval` does what programs mean, with the same bound. -/
theorem simulates_eval (fuel : Nat) : Simulates nodes (eval fuel) (Stmt.run fuel) := by
  induction fuel with
  | zero =>
      exact ⟨fun _ _ _ => mirrors_of_error rfl ⟨_, rfl⟩, fun _ _ _ => mirrors_of_error rfl ⟨_, rfl⟩,
        nofun⟩
  | succ fuel ih =>
      refine ⟨fun he hvalid hreflects => ?_, fun hst hvalid hreflects => ?_, fun _ hfailed m => ?_⟩
      · obtain ⟨node, hnode, -⟩ := he.node
        exact (mirrors_runExpr ih hnode he hvalid hreflects).congr (eval_node hnode hreflects)
      · obtain ⟨node, hnode⟩ := hst.exists_node
        exact (mirrors_runStmt ih hnode hst hvalid hreflects).congr (eval_node hnode hreflects)
      · rw [eval]
        refine (bind_run rfl).trans ?_
        rw [if_pos (.inr hfailed)]
        rfl

/-- Whether a program ends without an error, and all that is printed then; nothing, where the bound
is too small. -/
def Script.outcome (script : Script) (fuel : Nat) (typed : List Text) : Option (Bool × Text) :=
  match (Stmt.block script.stmts).run fuel (.start typed) with
  | .error .outOfFuel _ => none
  | .error (.error message) w =>
      some (false, w.output ++ ascii "gk runtime error: " ++ message ++ ascii "\n")
  | .ok _ w | .error _ w => some (true, w.output)

/-- What `gk_run` returns, and all that is printed then. -/
def observed : EStateM.Result OutOfFuel GkState Bool → Option (Bool × Text)
  | .ok ok s => some (ok, s.output)
  | .error _ _ => none

theorem reflects_start (nodes : List Node) (typed : List Text) :
    Reflects nodes 0 (.start nodes typed) (.start typed) where
  pool := rfl
  error := rfl
  returning := rfl
  breaking := rfl
  continuing := rfl
  level := rfl
  callers := rfl
  frames := FramesOf.nil.enter
  definitions := .nil
  output := rfl
  typed := rfl

theorem Script.mirrors_eval (script : Script) (fuel : Nat) {root : Nat}
    (hroot : IsStmt nodes 0 (.block script.stmts) root) (hreflects : Reflects nodes depth s w) :
    Mirrors (eval fuel root) s ((Stmt.block script.stmts).run fuel) w (Agrees nodes depth)
      (Stops nodes depth false) := by
  cases fuel with
  | zero => exact mirrors_of_error rfl ⟨s, rfl⟩
  | succ fuel =>
      obtain ⟨node, hnode⟩ := hroot.exists_node
      obtain ⟨ids, ⟨-, _, hget, htype, -, hchild⟩, hsts⟩ := hroot
      obtain rfl := Option.some.inj (hnode.symm.trans hget)
      refine Mirrors.congr ?_ (eval_node hnode hreflects)
      rw [evalCases, htype, Stmt.run, runStmt]
      dsimp only
      rw [hchild]
      exact mirrors_evalBlock (simulates_eval fuel) _ .none hsts script.valid hreflects

end GeckoOS.Gk
