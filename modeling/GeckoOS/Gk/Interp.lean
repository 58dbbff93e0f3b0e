/-
# The interpreter

`eval` walks the nodes and keeps the variables of all active calls on one stack, each
with the depth of the call that made it.  An error is entered into `error` and stops the
evaluation from the inside out; it is not an exception, so code between the error and the
statement it ends can still run.

A script need not end, so `eval` takes a bound for the depth of its calls and the number of
rounds of a while loop; what it returns within the bound is what the interpreter returns.
-/

import GeckoOS.Gk.Parser
import Mathlib.Data.Nat.Digits.Defs

namespace GeckoOS.Gk

/-! ## Values -/

/-- `Value`. -/
inductive Value
  | int (v : Int32)
  | str (v : Text)
  | bool (v : Bool)
  | none
  deriving DecidableEq

/-- `is_truthy`. -/
def isTruthy : Value → Bool
  | .bool v => v
  | .int v => v ≠ 0
  | .str v => v ≠ []
  | .none => false

/-- `int_to_str`.  The smallest integer has no digits, because its negation is negative. -/
def intToStr (v : Int32) : Text :=
  if v = 0 then ascii "0"
  else
    let magnitude := if v < 0 then -v else v
    let digits := (Nat.digits 10 magnitude.toInt.toNat).map fun d => UInt8.ofNat (48 + d)
    (digits ++ if v < 0 then ascii "-" else []).reverse

/-- `val_to_str`. -/
def valToStr : Value → Text
  | .int v => intToStr v
  | .bool v => if v then ascii "True" else ascii "False"
  | .str v => v
  | .none => ascii "None"

/-- `strcat_s`. -/
def strcat (dst src : Text) : Text := dst ++ src.take (maxStr - 1 - dst.length)

/-! ## State -/

/-- `Var`. -/
structure Var where
  name : Text
  val : Value
  scope : Int
  deriving DecidableEq

/-- `FuncDef`. -/
structure FuncDef where
  name : Text
  params : List Text
  bodyNode : Int
  deriving DecidableEq

/-- `GkState` after parsing, with the console. -/
structure GkState where
  nodes : List Node
  /-- The variables, from the newest to the oldest. -/
  vars : List Var
  /-- The functions, from the oldest to the newest. -/
  funcs : List FuncDef
  callDepth : Int
  returning : Bool
  breaking : Bool
  continuing : Bool
  returnVal : Value
  error : Text
  /-- What has been printed. -/
  output : Text
  /-- The lines that will be typed. -/
  typed : List Text

/-- The state left by `gk_init` and `gk_parse`. -/
def GkState.start (nodes : List Node) (typed : List Text) : GkState where
  nodes := nodes
  vars := []
  funcs := []
  callDepth := 0
  returning := false
  breaking := false
  continuing := false
  returnVal := .none
  error := []
  output := []
  typed := typed

/-- The bound was too small. -/
inductive OutOfFuel
  | outOfFuel

/-- A computation of the interpreter. -/
abbrev Eval := EStateM OutOfFuel GkState

/-- Enter an error. -/
def setError (text : Text) : Eval Unit := modify fun s => { s with error := text }

/-- Enter an error and return nothing. -/
def failWith (text : Text) : Eval Value := do
  setError text
  return .none

/-- `error[0]` is set. -/
def failed : Eval Bool := do
  let s ← get
  return s.error ≠ []

/-- `gk_print`. -/
def gkPrint (text : Text) : Eval Unit := modify fun s => { s with output := s.output ++ text }

/-- `input` of at most `size` bytes. -/
def readLine (size : Nat) : Eval Text := do
  let s ← get
  set { s with typed := s.typed.tail }
  return (s.typed.headD []).take size

/-! ## Variables -/

/-- `find_var`. -/
def findVar (vars : List Var) (name : Text) : Option Var := vars.find? fun v => v.name = name

/-- The loop of `set_var` over the variables of the current call. -/
def updateVar (depth : Int) (name : Text) (val : Value) : List Var → Option (List Var)
  | [] => none
  | v :: older =>
      if v.scope < depth then none
      else if v.name = name then some ({ v with val := val } :: older)
      else (updateVar depth name val older).map (v :: ·)

/-- `set_var`. -/
def setVar (name : Text) (val : Value) : Eval Bool := do
  let s ← get
  match updateVar s.callDepth name val s.vars with
  | some vars =>
      set { s with vars := vars }
      return true
  | none =>
      if maxVars ≤ s.vars.length then
        setError (ascii "too many variables")
        return false
      else
        set { s with vars := ⟨name, val, s.callDepth⟩ :: s.vars }
        return true

/-- `pop_scope`. -/
def popScope : Eval Unit :=
  modify fun s => { s with vars := s.vars.dropWhile fun v => s.callDepth ≤ v.scope }

/-- `find_func`. -/
def findFunc (funcs : List FuncDef) (name : Text) : Option FuncDef :=
  funcs.find? fun f => f.name = name

/-! ## Operators -/

/-- The binary operators on two evaluated operands. -/
def evalBinop (op : Option TokenType) (l r : Value) : Eval Value :=
  match op, l, r with
  | some .plus, .str l, r => return .str (strcat l (valToStr r))
  | some .eq, .int l, .int r => return .bool (l = r)
  | some .eq, .bool l, .bool r => return .bool (l = r)
  | some .eq, .str l, .str r => return .bool (l = r)
  | some .eq, _, _ => return .bool false
  | some .neq, .int l, .int r => return .bool (l ≠ r)
  | some .neq, .bool l, .bool r => return .bool (l ≠ r)
  | some .neq, .str l, .str r => return .bool (l ≠ r)
  | some .neq, _, _ => return .bool true
  | some .plus, .int a, .int b => return .int (a + b)
  | some .minus, .int a, .int b => return .int (a - b)
  | some .star, .int a, .int b => return .int (a * b)
  | some .slash, .int a, .int b =>
      if b = 0 then failWith (ascii "division by zero") else return .int (a / b)
  | some .percent, .int a, .int b =>
      if b = 0 then failWith (ascii "modulo by zero") else return .int (a % b)
  | some .lt, .int a, .int b => return .bool (a < b)
  | some .le, .int a, .int b => return .bool (a ≤ b)
  | some .gt, .int a, .int b => return .bool (b < a)
  | some .ge, .int a, .int b => return .bool (b ≤ a)
  | _, .int _, .int _ => failWith (ascii "unknown operator")
  | _, _, _ => failWith (ascii "operator requires integers")

/-- The unary operators on an evaluated operand. -/
def evalUnop (op : Option TokenType) (operand : Value) : Eval Value :=
  match op, operand with
  | some .minus, .int v => return .int (-v)
  | some .minus, _ => failWith (ascii "unary minus requires integer")
  | some .not, operand => return .bool !(isTruthy operand)
  | _, _ => return .none

/-- The loop of `int()` over the digits. -/
def parseDigits (text : Text) : Option Int32 :=
  if text.all fun c => 48 ≤ c && c ≤ 57 then
    some (text.foldl (fun result c => result * 10 + Int32.ofNat (c.toNat - 48)) 0)
  else none

/-- `int()` of a string. -/
def intOfText (text : Text) : Option Int32 :=
  let neg := text.head? = some 45
  let digits := if neg then text.tail else text
  if digits = [] then none
  else (parseDigits digits).map fun result => if neg then -result else result

/-! ## Nodes -/

/-- `child[i]`, which `new_node` sets to -1. -/
def Node.childAt (node : Node) (i : Nat) : Int := (node.child[i]?.map Int.ofNat).getD (-1)

section

variable (evalNode : Int → Eval Value)

/-- `and`, when `stop` is false, and `or`, when it is true. -/
def evalLogic (stop : Bool) (node : Node) : Eval Value := do
  let l ← evalNode (node.childAt 0)
  if isTruthy l = stop then return .bool stop
  let r ← evalNode (node.childAt 1)
  return .bool (isTruthy r)

/-- The loop of `print` over its arguments. -/
def evalPrint : List Nat → Eval Value
  | [] => do
      gkPrint (ascii "\n")
      return .none
  | child :: more => do
      let v ← evalNode child
      if ← failed then return .none
      gkPrint (valToStr v)
      if more ≠ [] then gkPrint (ascii " ")
      evalPrint more

/-- `input()`. -/
def evalInput (node : Node) : Eval Value := do
  if node.child ≠ [] then
    let prompt ← evalNode (node.childAt 0)
    if ← failed then return .none
    gkPrint (valToStr prompt)
  let line ← readLine (maxStr - 2)
  gkPrint (ascii "\n")
  return .str line

/-- `int()`. -/
def evalIntCast (node : Node) : Eval Value := do
  if node.child.length ≠ 1 then failWith (ascii "int() takes exactly one argument")
  else
    let v ← evalNode (node.childAt 0)
    if ← failed then return .none
    match v with
    | .int v => return .int v
    | .str text =>
        match intOfText text with
        | some v => return .int v
        | none => failWith (ascii "int() invalid literal")
    | _ => failWith (ascii "int() requires a string or integer argument")

/-- The loop over the statements of a block. -/
def evalBlock : List Nat → Value → Eval Value
  | [], last => return last
  | child :: more, _ => do
      let last ← evalNode child
      let s ← get
      if s.error ≠ [] ∨ s.returning ∨ s.breaking ∨ s.continuing then return last
      evalBlock more last

/-- What a loop does after a round of its body: whether it goes on. -/
def afterRound : Eval Bool := do
  let s ← get
  if s.error ≠ [] ∨ s.returning then return false
  else if s.breaking then
    set { s with breaking := false }
    return false
  else
    set { s with continuing := false }
    return true

/-- The while loop. -/
def evalWhile (node : Node) : Nat → Value → Eval Value
  | 0, _ => throw .outOfFuel
  | fuel + 1, result => do
      let cond ← evalNode (node.childAt 0)
      if (← failed) || !(isTruthy cond) then return result
      let result ← evalNode (node.childAt 1)
      if ← afterRound then evalWhile node fuel result else return result

/-- The rounds of the for loop that are left, the next one with the index `i`. -/
def evalRounds (node : Node) : Nat → Int32 → Value → Eval Value
  | 0, _, result => return result
  | left + 1, i, _ => do
      if !(← setVar node.strVal (.int i)) then return .none
      let result ← evalNode (node.childAt 1)
      if ← afterRound then evalRounds node left (i + 1) result else return result

/-- The for loop, over what `range` is given or what a number counts up to. -/
def evalFor (node : Node) : Eval Value := do
  let s ← get
  let iter := s.nodes.getD (node.childAt 0).toNat (blankNode .int 0)
  if iter.type = .range ∧ iter.child = [] then
    failWith (ascii "range() needs one argument")
  else
    let v ← evalNode (if iter.type = .range then iter.childAt 0 else node.childAt 0)
    if ← failed then return .none
    match v with
    | .int limit => evalRounds evalNode node limit.toInt.toNat 0 .none
    | _ =>
        if iter.type = .range then failWith (ascii "range() argument must be integer")
        else failWith (ascii "for loop requires integer or range()")

/-- A function definition. -/
def evalDef (node : Node) : Eval Value := do
  let s ← get
  if maxFuncs ≤ s.funcs.length then failWith (ascii "too many function definitions")
  else
    let params := (node.child.dropLast.take maxParams).map fun pn =>
      (s.nodes.getD pn (blankNode .var 0)).strVal
    let f : FuncDef := ⟨node.strVal, params, node.childAt (node.child.length - 1)⟩
    set { s with funcs := s.funcs ++ [f] }
    return .none

/-- The loop over the arguments of a call; nothing after an error. -/
def evalArgs : List Nat → Eval (Option (List Value))
  | [] => return some []
  | child :: more => do
      let v ← evalNode child
      if ← failed then return none
      let args ← evalArgs more
      return args.map (v :: ·)

/-- The loop that binds the parameters: whether there was room for all. -/
def bindParams : List Text → List Value → Eval Bool
  | param :: params, arg :: args => do
      if ← setVar param arg then bindParams params args else return false
  | _, _ => return true

/-- `call_depth++` and `call_depth--`. -/
def addDepth (levels : Int) : Eval Unit :=
  modify fun s => { s with callDepth := s.callDepth + levels }

/-- A call of a function. -/
def evalCall (node : Node) : Eval Value := do
  let s ← get
  match findFunc s.funcs node.strVal with
  | none => failWith (strcat (ascii "undefined function: ") node.strVal)
  | some f =>
      if node.child.length ≠ f.params.length then
        failWith (ascii "wrong number of arguments")
      else if maxCallDepth ≤ s.callDepth then failWith (ascii "max call depth exceeded")
      else
        match ← evalArgs evalNode node.child with
        | none => return .none
        | some args =>
            addDepth 1
            if !(← bindParams f.params args) then
              addDepth (-1)
              return .none
            let result ← evalNode f.bodyNode
            let s ← get
            if s.returning then set { s with returning := false }
            popScope
            addDepth (-1)
            return if s.returning then s.returnVal else result

/-- The cases of `eval`. -/
def evalCases (fuel : Nat) (node : Node) : Eval Value :=
  match node.type with
  | .int => return .int node.intVal
  | .str => return .str node.strVal
  | .bool => return .bool (node.intVal ≠ 0)
  | .var => do
      let s ← get
      match findVar s.vars node.strVal with
      | some v => return v.val
      | none => failWith (strcat (ascii "undefined variable: ") node.strVal)
  | .assign => do
      let val ← evalNode (node.childAt 0)
      if ← failed then return .none
      if ← setVar node.strVal val then return val else return .none
  | .unop => do
      let operand ← evalNode (node.childAt 0)
      if ← failed then return .none
      evalUnop node.op operand
  | .binop =>
      if node.op = some .and then evalLogic evalNode false node
      else if node.op = some .or then evalLogic evalNode true node
      else do
        let l ← evalNode (node.childAt 0)
        if ← failed then return .none
        let r ← evalNode (node.childAt 1)
        if ← failed then return .none
        evalBinop node.op l r
  | .print => evalPrint evalNode node.child
  | .input => evalInput evalNode node
  | .intCast => evalIntCast evalNode node
  | .block => evalBlock evalNode node.child .none
  | .if_ => do
      let cond ← evalNode (node.childAt 0)
      if ← failed then return .none
      if isTruthy cond then evalNode (node.childAt 1)
      else if node.child.length = 3 then evalNode (node.childAt 2)
      else return .none
  | .while_ => evalWhile evalNode node fuel .none
  | .for_ => evalFor evalNode node
  | .def_ => evalDef node
  | .call => evalCall evalNode node
  | .return_ =>
      if node.child = [] then do
        modify fun s => { s with returning := true, returnVal := .none }
        return .none
      else do
        let v ← evalNode (node.childAt 0)
        if ← failed then return .none
        modify fun s => { s with returning := true, returnVal := v }
        return v
  | .break_ => do
      modify fun s => { s with breaking := true }
      return .none
  | .continue_ => do
      modify fun s => { s with continuing := true }
      return .none
  | .range => failWith (ascii "unknown node type")

end

/-- `eval`. -/
def eval : Nat → Int → Eval Value
  | 0, _ => throw .outOfFuel
  | fuel + 1, nodeIdx => do
      let s ← get
      if nodeIdx < 0 ∨ s.error ≠ [] then return .none
      evalCases (eval fuel) fuel (s.nodes.getD nodeIdx.toNat (blankNode .int 0))

end GeckoOS.Gk
