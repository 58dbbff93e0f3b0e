/-
# The interpreter with a log

The interpreter once more, this time with a log of what it does on the way: what it prints,
reads and enters into the state, and every index that it uses.  A text is read and written
byte by byte up to the terminating zero, so these indices are part of the log.

What the log adds to `eval` is the order of things inside of an evaluation and the accesses,
which leave no trace in the state.
-/

import GeckoOS.Gk.Interp
import GeckoOS.Math.EventLog

namespace GeckoOS.Gk

open GeckoOS.Math

/-! ## Events -/

/-- The arrays of `GkState`, of its parts and of `eval` itself. -/
inductive Buffer
  | nodes | child | vars | funcs | params | args
  /-- The name in a `Var` or a `FuncDef` and an entry of `params`. -/
  | name
  /-- The text in a `Node` or a `Value` and the local buffers for one. -/
  | str
  | error
  /-- `tmp` of `int_to_str`. -/
  | digits
  deriving DecidableEq

/-- The number of entries. -/
def Buffer.size : Buffer → Nat
  | .nodes => maxNodes
  | .child => maxChildren
  | .vars => maxVars
  | .funcs => maxFuncs
  | .params => maxParams
  | .args => maxParams
  | .name => 64
  | .str => maxStr
  | .error => maxStr
  | .digits => 32

/-- What the interpreter does. -/
inductive Event
  | access (buffer : Buffer) (index : Int)
  | print (text : Text)
  | read
  /-- A variable of the current call gets another value. -/
  | update (name : Text) (val : Value)
  /-- A new variable. -/
  | bind (name : Text) (val : Value)
  /-- The newest variable goes. -/
  | pop
  | define (f : FuncDef)
  | fail (text : Text)
  | depth (levels : Int)
  | return_ (v : Value)
  | returned
  | breaking (flag : Bool)
  | continuing (flag : Bool)

/-- What an event does to the state. -/
def Event.apply (e : Event) (s : GkState) : GkState :=
  match e with
  | .access _ _ => s
  | .print text => { s with output := s.output ++ text }
  | .read => { s with typed := s.typed.tail }
  | .update name val => { s with vars := (updateVar s.callDepth name val s.vars).getD s.vars }
  | .bind name val => { s with vars := ⟨name, val, s.callDepth⟩ :: s.vars }
  | .pop => { s with vars := s.vars.tail }
  | .define f => { s with funcs := s.funcs ++ [f] }
  | .fail text => { s with error := text }
  | .depth levels => { s with callDepth := s.callDepth + levels }
  | .return_ v => { s with returning := true, returnVal := v }
  | .returned => { s with returning := false }
  | .breaking flag => { s with breaking := flag }
  | .continuing flag => { s with continuing := flag }

/-- A computation of the interpreter with its log. -/
abbrev Traced := EStateM OutOfFuel (Log GkState Event)

namespace Traced

/-- Let an event happen. -/
def event (e : Event) : Traced Unit := emit Event.apply e

/-- Use an index. -/
def touch (buffer : Buffer) (index : Int) : Traced Unit := event (.access buffer index)

/-- Use the indices up to this one. -/
def touchTo (buffer : Buffer) : Nat → Traced Unit
  | 0 => touch buffer 0
  | n + 1 => do
      touchTo buffer n
      touch buffer (n + 1)

/-! ## Texts -/

/-- `strcpy_s`, which stops behind the terminating zero. -/
def strcpy (dst src : Buffer) (text : Text) : Traced Unit := do
  touchTo src text.length
  touchTo dst text.length

/-- The length of what two texts have in common. -/
def common : Text → Text → Nat
  | c :: a, d :: b => if c = d then common a b + 1 else 0
  | _, _ => 0

/-- `streq`, which stops where the texts differ or end. -/
def streq (left right : Buffer) (a b : Text) : Traced Unit := do
  touchTo left (common a b)
  touchTo right (common a b)

/-- `strcat_s`: the end of `dst` is found, and what there is room for is copied behind it. -/
def strcat (dst src : Buffer) (start text : Text) : Traced Unit := do
  touchTo dst start.length
  touchTo src (text.take (maxStr - 1 - start.length)).length
  touchTo dst (Gk.strcat start text).length

/-- `val_to_str`.  The digits and the sign of a number go through `tmp`. -/
def valToStr (v : Value) : Traced Text := do
  match v with
  | .int v => if v ≠ 0 then touchTo .digits ((intToStr v).length - 1)
  | .str text => touchTo .str text.length
  | _ => pure ()
  touchTo .str (Gk.valToStr v).length
  return Gk.valToStr v

/-- Enter an error. -/
def setError (text : Text) : Traced Unit := do
  touchTo .error text.length
  event (.fail text)

/-- Enter an error and return nothing. -/
def failWith (text : Text) : Traced Value := do
  setError text
  return .none

/-- Enter an error that ends in a name. -/
def failWithName (text name : Text) : Traced Value := do
  touchTo .error text.length
  strcat .error .str text name
  event (.fail (Gk.strcat text name))
  return .none

/-- `error[0]` is set. -/
def failed : Traced Bool := do
  touch .error 0
  let s ← look
  return s.error ≠ []

/-- `gk_print`. -/
def gkPrint (text : Text) : Traced Unit := event (.print text)

/-- `input` into `line_buf`. -/
def readLine (size : Nat) : Traced Text := do
  touch .str 0
  let s ← look
  let line := (s.typed.headD []).take size
  event .read
  touchTo .str line.length
  return line

/-! ## Variables -/

/-- `find_var`. -/
def findVar (name : Text) : List Var → Traced (Option Var)
  | [] => return none
  | v :: older => do
      touch .vars older.length
      streq .name .str v.name name
      if v.name = name then return some v
      findVar name older

/-- The loop of `set_var` over the variables of the current call. -/
def findOwn (depth : Int) (src : Buffer) (name : Text) : List Var → Traced Bool
  | [] => return false
  | v :: older => do
      touch .vars older.length
      if v.scope < depth then return false
      streq .name src v.name name
      if v.name = name then return true
      findOwn depth src name older

/-- `set_var`, with the name at `src`. -/
def setVar (src : Buffer) (name : Text) (val : Value) : Traced Bool := do
  let s ← look
  if ← findOwn s.callDepth src name s.vars then
    event (.update name val)
    return true
  if maxVars ≤ s.vars.length then
    setError (ascii "too many variables")
    return false
  touch .vars s.vars.length
  strcpy .name src name
  event (.bind name val)
  return true

/-- The loop of `pop_scope`. -/
def popVars (depth : Int) : List Var → Traced Unit
  | [] => return
  | v :: older => do
      touch .vars older.length
      if depth ≤ v.scope then
        event .pop
        popVars depth older

/-- `pop_scope`. -/
def popScope : Traced Unit := do
  let s ← look
  popVars s.callDepth s.vars

/-- `find_func`, from the function number `i` on. -/
def findFunc (name : Text) : Nat → List FuncDef → Traced (Option FuncDef)
  | _, [] => return none
  | i, f :: newer => do
      touch .funcs i
      streq .name .str f.name name
      if f.name = name then return some f
      findFunc name (i + 1) newer

/-! ## Operators -/

/-- The texts that a binary operator goes through. -/
def binopTexts (op : Option TokenType) (l r : Value) : Traced Unit :=
  match op, l, r with
  | some .plus, .str l, r => do
      strcpy .str .str l
      let text ← valToStr r
      strcat .str .str l text
      strcpy .str .str (Gk.strcat l text)
  | some .eq, .str l, .str r => streq .str .str l r
  | some .neq, .str l, .str r => streq .str .str l r
  | _, _, _ => pure ()

/-- An operator on values.  All it can do to the state is to enter an error, and if there is
an error behind it, it counts as entered here. -/
def operate (operator : Eval Value) : Traced Value := do
  let s ← look
  match operator s with
  | .ok v s' =>
      if s'.error ≠ [] then setError s'.error
      return v
  | .error e _ => throw e

/-- How many bytes `int()` passes: the sign and the digits. -/
def scanned (text : Text) : Nat :=
  let sign := if text.head? = some 45 then 1 else 0
  sign + ((text.drop sign).takeWhile fun c => 48 ≤ c && c ≤ 57).length

/-! ## Nodes -/

/-- `nodes[i]`. -/
def nodeAt (i : Int) : Traced Node := do
  touch .nodes i
  let s ← look
  return s.nodes.getD i.toNat (blankNode .int 0)

/-- `child[i]`. -/
def childAt (node : Node) (i : Nat) : Traced Int := do
  touch .child i
  return node.childAt i

section

variable (evalNode : Int → Traced Value)

/-- `and`, when `stop` is false, and `or`, when it is true. -/
def evalLogic (stop : Bool) (node : Node) : Traced Value := do
  let l ← evalNode (← childAt node 0)
  if isTruthy l = stop then return .bool stop
  let r ← evalNode (← childAt node 1)
  return .bool (isTruthy r)

/-- The loop of `print` over its arguments, from number `i` on. -/
def evalPrint : Nat → List Nat → Traced Value
  | _, [] => do
      gkPrint (ascii "\n")
      return .none
  | i, child :: more => do
      touch .child i
      let v ← evalNode child
      if ← failed then return .none
      let text ← valToStr v
      gkPrint text
      if more ≠ [] then gkPrint (ascii " ")
      evalPrint (i + 1) more

/-- `input()`. -/
def evalInput (node : Node) : Traced Value := do
  if node.child ≠ [] then
    let prompt ← evalNode (← childAt node 0)
    if ← failed then return .none
    let text ← valToStr prompt
    gkPrint text
  let line ← readLine (maxStr - 2)
  gkPrint (ascii "\n")
  strcpy .str .str line
  return .str line

/-- `int()`. -/
def evalIntCast (node : Node) : Traced Value := do
  if node.child.length ≠ 1 then failWith (ascii "int() takes exactly one argument")
  else
    let v ← evalNode (← childAt node 0)
    if ← failed then return .none
    match v with
    | .int v => return .int v
    | .str text => do
        touchTo .str (scanned text)
        match intOfText text with
        | some v => return .int v
        | none => failWith (ascii "int() invalid literal")
    | _ => failWith (ascii "int() requires a string or integer argument")

/-- The loop over the statements of a block, from number `i` on. -/
def evalBlock : Nat → List Nat → Value → Traced Value
  | _, [], last => return last
  | i, child :: more, _ => do
      touch .child i
      let last ← evalNode child
      touch .error 0
      let s ← look
      if s.error ≠ [] ∨ s.returning ∨ s.breaking ∨ s.continuing then return last
      evalBlock (i + 1) more last

/-- What a loop does after a round of its body: whether it goes on. -/
def afterRound : Traced Bool := do
  touch .error 0
  let s ← look
  if s.error ≠ [] ∨ s.returning then return false
  else if s.breaking then
    event (.breaking false)
    return false
  else
    event (.continuing false)
    return true

/-- The while loop. -/
def evalWhile (node : Node) : Nat → Value → Traced Value
  | 0, _ => throw .outOfFuel
  | fuel + 1, result => do
      let cond ← evalNode (← childAt node 0)
      if (← failed) || !(isTruthy cond) then return result
      let result ← evalNode (← childAt node 1)
      if ← afterRound then evalWhile node fuel result else return result

/-- The rounds of the for loop that are left, the next one with the index `i`. -/
def evalRounds (node : Node) : Nat → Int32 → Value → Traced Value
  | 0, _, result => return result
  | left + 1, i, _ => do
      if !(← setVar .str node.strVal (.int i)) then return .none
      let result ← evalNode (← childAt node 1)
      if ← afterRound then evalRounds node left (i + 1) result else return result

/-- The for loop, over what `range` is given or what a number counts up to. -/
def evalFor (node : Node) : Traced Value := do
  let iterIdx ← childAt node 0
  let iter ← nodeAt iterIdx
  if iter.type = .range ∧ iter.child = [] then
    failWith (ascii "range() needs one argument")
  else
    let v ← evalNode (← if iter.type = .range then childAt iter 0 else childAt node 0)
    if ← failed then return .none
    match v with
    | .int limit => evalRounds evalNode node limit.toInt.toNat 0 .none
    | _ =>
        if iter.type = .range then failWith (ascii "range() argument must be integer")
        else failWith (ascii "for loop requires integer or range()")

/-- The loop over the parameters of a definition, from number `i` on. -/
def copyParams : Nat → List Nat → Traced (List Text)
  | _, [] => return []
  | i, pn :: more => do
      touch .child i
      let param ← nodeAt pn
      touch .params i
      strcpy .name .str param.strVal
      let params ← copyParams (i + 1) more
      return param.strVal :: params

/-- A function definition. -/
def evalDef (node : Node) : Traced Value := do
  let s ← look
  if maxFuncs ≤ s.funcs.length then failWith (ascii "too many function definitions")
  else
    touch .funcs s.funcs.length
    strcpy .name .str node.strVal
    let params ← copyParams 0 (node.child.dropLast.take maxParams)
    touch .child (node.child.length - 1)
    event (.define ⟨node.strVal, params, node.childAt (node.child.length - 1)⟩)
    return .none

/-- The loop over the arguments of a call, from number `i` on; nothing after an error. -/
def evalArgs : Nat → List Nat → Traced (Option (List Value))
  | _, [] => return some []
  | i, child :: more => do
      touch .child i
      let v ← evalNode child
      touch .args i
      if ← failed then return none
      let args ← evalArgs (i + 1) more
      return args.map (v :: ·)

/-- The loop that binds the parameters, from number `i` on: whether there was room for all. -/
def bindParams : Nat → List Text → List Value → Traced Bool
  | i, param :: params, arg :: args => do
      touch .params i
      touch .args i
      if ← setVar .name param arg then bindParams (i + 1) params args else return false
  | _, _, _ => return true

/-- A call of a function. -/
def evalCall (node : Node) : Traced Value := do
  let s ← look
  match ← findFunc node.strVal 0 s.funcs with
  | none => failWithName (ascii "undefined function: ") node.strVal
  | some f =>
      if node.child.length ≠ f.params.length then
        failWith (ascii "wrong number of arguments")
      else if maxCallDepth ≤ s.callDepth then failWith (ascii "max call depth exceeded")
      else
        match ← evalArgs evalNode 0 node.child with
        | none => return .none
        | some args =>
            event (.depth 1)
            if !(← bindParams 0 f.params args) then
              event (.depth (-1))
              return .none
            let result ← evalNode f.bodyNode
            let s ← look
            if s.returning then event .returned
            popScope
            event (.depth (-1))
            return if s.returning then s.returnVal else result

/-- The cases of `eval`. -/
def evalCases (fuel : Nat) (node : Node) : Traced Value :=
  match node.type with
  | .int => return .int node.intVal
  | .str => do
      strcpy .str .str node.strVal
      return .str node.strVal
  | .bool => return .bool (node.intVal ≠ 0)
  | .var => do
      let s ← look
      match ← findVar node.strVal s.vars with
      | some v => return v.val
      | none => failWithName (ascii "undefined variable: ") node.strVal
  | .assign => do
      let val ← evalNode (← childAt node 0)
      if ← failed then return .none
      if ← setVar .str node.strVal val then return val else return .none
  | .unop => do
      let operand ← evalNode (← childAt node 0)
      if ← failed then return .none
      operate (evalUnop node.op operand)
  | .binop =>
      if node.op = some .and then evalLogic evalNode false node
      else if node.op = some .or then evalLogic evalNode true node
      else do
        let l ← evalNode (← childAt node 0)
        if ← failed then return .none
        let r ← evalNode (← childAt node 1)
        if ← failed then return .none
        binopTexts node.op l r
        operate (evalBinop node.op l r)
  | .print => evalPrint evalNode 0 node.child
  | .input => evalInput evalNode node
  | .intCast => evalIntCast evalNode node
  | .block => evalBlock evalNode 0 node.child .none
  | .if_ => do
      let cond ← evalNode (← childAt node 0)
      if ← failed then return .none
      if isTruthy cond then evalNode (← childAt node 1)
      else if node.child.length = 3 then evalNode (← childAt node 2)
      else return .none
  | .while_ => evalWhile evalNode node fuel .none
  | .for_ => evalFor evalNode node
  | .def_ => evalDef node
  | .call => evalCall evalNode node
  | .return_ =>
      if node.child = [] then do
        event (.return_ .none)
        return .none
      else do
        let v ← evalNode (← childAt node 0)
        if ← failed then return .none
        event (.return_ v)
        return v
  | .break_ => do
      event (.breaking true)
      return .none
  | .continue_ => do
      event (.continuing true)
      return .none
  | .range => failWith (ascii "unknown node type")

end

/-- `eval`. -/
def eval : Nat → Int → Traced Value
  | 0, _ => throw .outOfFuel
  | fuel + 1, nodeIdx => do
      if nodeIdx < 0 then return .none
      if ← failed then return .none
      let node ← nodeAt nodeIdx
      evalCases (eval fuel) fuel node

end Traced

/-! ## What the accesses emit -/

section

variable {α : Type} {fits : GkState → Event → Prop} {s : GkState} {post : α → GkState → Prop}

/-- The indices up to this one may be used. -/
def Allows (fits : GkState → Event → Prop) (s : GkState) (buffer : Buffer) (n : Nat) : Prop :=
  ∀ i : Nat, i ≤ n → fits s (.access buffer i)

theorem emits_touch {buffer : Buffer} {index : Int} {f : Unit → Traced α}
    (hfits : fits s (.access buffer index)) (hf : Emits Event.apply fits (f ()) s post) :
    Emits Event.apply fits (Traced.touch buffer index >>= f) s post :=
  emits_emitBind hfits hf

theorem emits_touchTo {buffer : Buffer} {n : Nat} (hallows : Allows fits s buffer n) :
    Emits Event.apply fits (Traced.touchTo buffer n) s fun _ s' => s' = s := by
  induction n with
  | zero => exact emits_emit (hallows 0 le_rfl) rfl
  | succ n ih =>
      refine emits_bind (ih fun i hi => hallows i (Nat.le_succ_of_le hi)) fun _ s' hs => ?_
      subst hs
      exact emits_emit (hallows (n + 1) le_rfl) rfl

/-- Code that leaves the state alone, and then the rest. -/
theorem emits_keepBind {β : Type} {x : Traced β} {b : β} {f : β → Traced α}
    (hx : Emits Event.apply fits x s fun b' s' => b' = b ∧ s' = s)
    (hf : Emits Event.apply fits (f b) s post) : Emits Event.apply fits (x >>= f) s post := by
  refine emits_bind hx fun b' s' hkept => ?_
  obtain ⟨rfl, rfl⟩ := hkept
  exact hf

theorem emits_touchToBind {buffer : Buffer} {n : Nat} {f : Unit → Traced α}
    (hallows : Allows fits s buffer n) (hf : Emits Event.apply fits (f ()) s post) :
    Emits Event.apply fits (Traced.touchTo buffer n >>= f) s post :=
  emits_keepBind ((emits_touchTo hallows).mono fun _ _ hs => ⟨rfl, hs⟩) hf

theorem emits_strcpy {dst src : Buffer} {text : Text} {f : Unit → Traced α}
    (hsrc : Allows fits s src text.length) (hdst : Allows fits s dst text.length)
    (hf : Emits Event.apply fits (f ()) s post) :
    Emits Event.apply fits (Traced.strcpy dst src text >>= f) s post :=
  emits_keepBind (emits_touchToBind hsrc ((emits_touchTo hdst).mono fun _ _ hs => ⟨rfl, hs⟩)) hf

theorem emits_streq {left right : Buffer} {a b : Text} {f : Unit → Traced α}
    (hleft : Allows fits s left (Traced.common a b))
    (hright : Allows fits s right (Traced.common a b))
    (hf : Emits Event.apply fits (f ()) s post) :
    Emits Event.apply fits (Traced.streq left right a b >>= f) s post :=
  emits_keepBind (emits_touchToBind hleft ((emits_touchTo hright).mono fun _ _ hs => ⟨rfl, hs⟩)) hf

theorem emits_strcat {dst src : Buffer} {start text : Text} {f : Unit → Traced α}
    (hstart : Allows fits s dst start.length)
    (hsrc : Allows fits s src (text.take (maxStr - 1 - start.length)).length)
    (hdst : Allows fits s dst (strcat start text).length)
    (hf : Emits Event.apply fits (f ()) s post) :
    Emits Event.apply fits (Traced.strcat dst src start text >>= f) s post :=
  emits_keepBind (emits_touchToBind hstart (emits_touchToBind hsrc
    ((emits_touchTo hdst).mono fun _ _ hs => ⟨rfl, hs⟩))) hf

theorem emits_valToStr {v : Value} {f : Text → Traced α}
    (hdigits : ∀ n, v = .int n → Allows fits s .digits ((intToStr n).length - 1))
    (hstr : Allows fits s .str (valToStr v).length)
    (hf : Emits Event.apply fits (f (valToStr v)) s post) :
    Emits Event.apply fits (Traced.valToStr v >>= f) s post := by
  have hrest : Emits Event.apply fits (do
      Traced.touchTo .str (valToStr v).length
      return valToStr v) s fun b s' => b = valToStr v ∧ s' = s :=
    emits_touchToBind hstr (emits_pure ⟨rfl, rfl⟩)
  refine emits_keepBind ?_ hf
  cases v with
  | int v => exact emits_ite (fun _ => emits_touchToBind (hdigits v rfl) hrest) fun _ => hrest
  | str text => exact emits_touchToBind hstr hrest
  | bool v => exact hrest
  | none => exact hrest

theorem emits_setError {text : Text} {unit : Unit → GkState → Prop}
    (hallows : Allows fits s .error text.length) (hfail : fits s (.fail text))
    (hunit : unit () { s with error := text }) :
    Emits Event.apply fits (Traced.setError text) s unit :=
  emits_touchToBind hallows (emits_emit hfail hunit)

/-- Whether there is an error, and then the rest. -/
theorem emits_failed {f : Bool → Traced α} (hfits : fits s (.access .error 0))
    (hf : Emits Event.apply fits (f (decide (s.error ≠ []))) s post) :
    Emits Event.apply fits (Traced.failed >>= f) s post := by
  refine emits_keepBind ?_ hf
  exact emits_touch hfits (emits_look (emits_pure ⟨rfl, rfl⟩))

/-- The way of code that gives up after an error. -/
theorem emits_unlessFailed {early : α} {more : Traced α} (hfits : fits s (.access .error 0))
    (hearly : s.error ≠ [] → post early s)
    (hmore : s.error = [] → Emits Event.apply fits more s post) :
    Emits Event.apply fits (Traced.failed >>= fun stop => if stop then pure early else more) s
      post := by
  refine emits_failed hfits (emits_ite (fun hstop => ?_) fun hgo => ?_)
  · exact emits_pure (hearly (by simpa using hstop))
  · exact hmore (by simpa using hgo)

theorem emits_findVar {name : Text} {vars : List Var}
    (hvars : ∀ i < vars.length, fits s (.access .vars i))
    (hnames : ∀ v ∈ vars, Allows fits s .name (Traced.common v.name name) ∧
      Allows fits s .str (Traced.common v.name name)) :
    Emits Event.apply fits (Traced.findVar name vars) s fun b s' =>
      b = findVar vars name ∧ s' = s := by
  induction vars with
  | nil => exact emits_pure ⟨rfl, rfl⟩
  | cons v older ih =>
      obtain ⟨hleft, hright⟩ := hnames v List.mem_cons_self
      refine emits_touch (hvars _ (Nat.lt_succ_self _)) (emits_streq hleft hright ?_)
      refine emits_ite (fun hname => emits_pure ?_) fun hname => ?_
      · exact ⟨by simp [findVar, hname], rfl⟩
      · refine (ih (fun i hi => hvars i (Nat.lt_succ_of_lt hi)) fun v' hv' =>
          hnames v' (List.mem_cons_of_mem _ hv')).mono fun b s' hpost => ?_
        exact ⟨hpost.1.trans (by simp [findVar, hname]), hpost.2⟩

theorem emits_findOwn {depth : Int} {src : Buffer} {name : Text} (val : Value) {vars : List Var}
    (hvars : ∀ i < vars.length, fits s (.access .vars i))
    (hnames : ∀ v ∈ vars, Allows fits s .name (Traced.common v.name name) ∧
      Allows fits s src (Traced.common v.name name)) :
    Emits Event.apply fits (Traced.findOwn depth src name vars) s fun b s' =>
      b = (updateVar depth name val vars).isSome ∧ s' = s := by
  induction vars with
  | nil => exact emits_pure ⟨rfl, rfl⟩
  | cons v older ih =>
      obtain ⟨hleft, hright⟩ := hnames v List.mem_cons_self
      rw [updateVar]
      refine emits_touch (hvars _ (Nat.lt_succ_self _))
        (emits_ite (fun hbelow => ?_) fun hbelow => ?_)
      · rw [if_pos hbelow]
        exact emits_pure ⟨rfl, rfl⟩
      · rw [if_neg hbelow]
        refine emits_streq hleft hright (emits_ite (fun hname => ?_) fun hname => ?_)
        · rw [if_pos hname]
          exact emits_pure ⟨rfl, rfl⟩
        · rw [if_neg hname, Option.isSome_map]
          exact ih (fun i hi => hvars i (Nat.lt_succ_of_lt hi)) fun v' hv' =>
            hnames v' (List.mem_cons_of_mem _ hv')

theorem emits_findFunc {name : Text} {i : Nat} {funcs : List FuncDef}
    (hfuncs : ∀ j < i + funcs.length, fits s (.access .funcs j))
    (hnames : ∀ f ∈ funcs, Allows fits s .name (Traced.common f.name name) ∧
      Allows fits s .str (Traced.common f.name name)) :
    Emits Event.apply fits (Traced.findFunc name i funcs) s fun b s' =>
      b = findFunc funcs name ∧ s' = s := by
  induction funcs generalizing i with
  | nil => exact emits_pure ⟨rfl, rfl⟩
  | cons f newer ih =>
      obtain ⟨hleft, hright⟩ := hnames f List.mem_cons_self
      rw [List.length_cons] at hfuncs
      refine emits_touch (hfuncs i (by omega)) (emits_streq hleft hright ?_)
      refine emits_ite (fun hname => emits_pure ?_) fun hname => ?_
      · exact ⟨by simp [findFunc, hname], rfl⟩
      · refine (@ih (i + 1) (fun j hj => hfuncs j (by omega)) fun f' hf' =>
          hnames f' (List.mem_cons_of_mem _ hf')).mono fun b s' hpost => ?_
        exact ⟨hpost.1.trans (by simp [findFunc, hname]), hpost.2⟩

theorem emits_popVars {depth : Int} {vars : List Var} (hs : s.vars = vars)
    (hpop : ∀ vars', fits { s with vars := vars' } .pop)
    (hvars : ∀ vars', ∀ i < vars.length, fits { s with vars := vars' } (.access .vars i)) :
    Emits Event.apply fits (Traced.popVars depth vars) s fun _ s' =>
      s' = { s with vars := vars.dropWhile fun v => depth ≤ v.scope } := by
  induction vars generalizing s with
  | nil => exact emits_pure (by rw [List.dropWhile_nil, ← hs])
  | cons v older ih =>
      refine emits_touch (hvars s.vars older.length (Nat.lt_succ_self _)) ?_
      refine emits_ite (fun hdepth => ?_) fun hdepth => emits_pure ?_
      · refine emits_emitBind (hpop s.vars) ?_
        have hrest := @ih (Event.apply .pop s) (by rw [Event.apply, hs]; rfl)
          (fun vars' => hpop vars')
          fun vars' i hi => hvars vars' i (Nat.lt_succ_of_lt hi)
        refine hrest.mono fun _ s' hs' => ?_
        rw [hs', List.dropWhile_cons_of_pos (by simpa using hdepth)]
        rfl
      · rw [List.dropWhile_cons_of_neg (by simpa using hdepth), ← hs]

theorem emits_nodeAt {i : Int} {f : Node → Traced α} (hfits : fits s (.access .nodes i))
    (hf : Emits Event.apply fits (f (s.nodes.getD i.toNat (blankNode .int 0))) s post) :
    Emits Event.apply fits (Traced.nodeAt i >>= f) s post :=
  emits_keepBind (emits_touch hfits (emits_look (emits_pure ⟨rfl, rfl⟩))) hf

theorem emits_childAt {node : Node} {i : Nat} {f : Int → Traced α}
    (hfits : fits s (.access .child i)) (hf : Emits Event.apply fits (f (node.childAt i)) s post) :
    Emits Event.apply fits (Traced.childAt node i >>= f) s post :=
  emits_keepBind (emits_touch hfits (emits_pure ⟨rfl, rfl⟩)) hf

theorem emits_copyParams {i : Nat} {children : List Nat}
    (hchild : ∀ j < i + children.length, fits s (.access .child j) ∧ fits s (.access .params j))
    (hnodes : ∀ pn ∈ children, fits s (.access .nodes pn) ∧
      Allows fits s .str (s.nodes.getD pn (blankNode .int 0)).strVal.length ∧
      Allows fits s .name (s.nodes.getD pn (blankNode .int 0)).strVal.length) :
    Emits Event.apply fits (Traced.copyParams i children) s fun b s' =>
      b = children.map (fun pn => (s.nodes.getD pn (blankNode .int 0)).strVal) ∧ s' = s := by
  induction children generalizing i with
  | nil => exact emits_pure ⟨rfl, rfl⟩
  | cons pn more ih =>
      obtain ⟨hnode, hstr, hname⟩ := hnodes pn List.mem_cons_self
      rw [List.length_cons] at hchild
      refine emits_touch (hchild i (by omega)).1 (emits_nodeAt hnode ?_)
      refine emits_touch (hchild i (by omega)).2 (emits_strcpy hstr hname ?_)
      exact emits_keepBind (@ih (i + 1) (fun j hj => hchild j (by omega)) fun pn' hpn' =>
        hnodes pn' (List.mem_cons_of_mem _ hpn')) (emits_pure ⟨rfl, rfl⟩)

end

end GeckoOS.Gk
