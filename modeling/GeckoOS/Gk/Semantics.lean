/-
# What programs mean

The meaning of a program, in terms of its tree.  Errors and jumps are exceptions, and every call has
a frame of variables of its own; a name that the frame does not have is looked for in the frames of
the callers.  The operators are functions of values.

Programs need not end.  `Stmt.run` has a bound for how deep statements, expressions and calls are
nested and for the rounds of a while loop, and throws an exception of its own where it is too small.
-/

import GeckoOS.Gk.Interp
import GeckoOS.Gk.StmtTree
import Mathlib.Data.Finmap

namespace GeckoOS.Gk

/-! ## Worlds -/

/-- The variables of a call. -/
abbrev Frame := Finmap fun _ : Text => Value

/-- A function that was defined. -/
structure Definition where
  name : Text
  params : List Text
  body : Stmt

/-- What a program works on. -/
structure World where
  locals : Frame
  /-- The frames of the callers, the innermost first. -/
  callers : List Frame
  /-- From the oldest to the newest. -/
  definitions : List Definition
  output : Text
  typed : List Text

/-- How a computation stops early. -/
inductive Exit
  | error (message : Text)
  | return_ (v : Value)
  | break_
  | continue_
  | outOfFuel

/-- A computation of a program. -/
abbrev Run := EStateM Exit World

/-- The number of all variables. -/
def World.size (w : World) : Nat := ((w.locals :: w.callers).map fun frame => frame.keys.card).sum

/-- The value of a variable, of the innermost frame that has it. -/
def World.value (w : World) (name : Text) : Option Value :=
  (w.locals :: w.callers).findSome? (·.lookup name)

/-- The first function of this name. -/
def World.definition (w : World) (name : Text) : Option Definition :=
  w.definitions.find? fun d => d.name = name

/-- Before a program. -/
def World.start (typed : List Text) : World := ⟨∅, [], [], [], typed⟩

/-! ## What expressions and statements do -/

variable {α : Type}

/-- An error. -/
def raise (message : Text) : Run α := throw (.error message)

/-- A value, or an error. -/
def valueOf : Except Text Value → Run Value
  | .ok v => return v
  | .error message => raise message

/-- Print. -/
def say (text : Text) : Run Unit := modify fun w => { w with output := w.output ++ text }

/-- The next line that was typed, up to what a value holds. -/
def hear : Run Text := do
  let w ← get
  set { w with typed := w.typed.tail }
  return (w.typed.headD []).take (maxStr - 2)

/-- Read a variable. -/
def readVar (name : Text) : Run Value := do
  let w ← get
  match w.value name with
  | some v => return v
  | none => raise (strcat (ascii "undefined variable: ") name)

/-- Set a variable of the frame. -/
def writeVar (name : Text) (v : Value) : Run Unit := do
  let w ← get
  if name ∈ w.locals ∨ w.size < maxVars then set { w with locals := w.locals.insert name v }
  else raise (ascii "too many variables")

/-- Define a function. -/
def define (d : Definition) : Run Unit := do
  let w ← get
  if w.definitions.length < maxFuncs then set { w with definitions := w.definitions ++ [d] }
  else raise (ascii "too many function definitions")

/-- Go into a frame of its own. -/
def enterFrame : Run Unit :=
  modify fun w => { w with locals := ∅, callers := w.locals :: w.callers }

/-- Come back to the frame of the caller. -/
def leaveFrame : Run Unit :=
  modify fun w => { w with locals := w.callers.headD ∅, callers := w.callers.tail }

/-! ## Operators -/

/-- Two values of a kind, and the same; nothing is not even the same as nothing. -/
def sameValue (l r : Value) : Bool := l = r ∧ l ≠ .none

/-- The operators on integers. -/
def intBinop (op : TokenType) (a b : Int32) : Except Text Value :=
  match op with
  | .plus => .ok (.int (a + b))
  | .minus => .ok (.int (a - b))
  | .star => .ok (.int (a * b))
  | .slash => if b = 0 then .error (ascii "division by zero") else .ok (.int (a / b))
  | .percent => if b = 0 then .error (ascii "modulo by zero") else .ok (.int (a % b))
  | .lt => .ok (.bool (a < b))
  | .le => .ok (.bool (a ≤ b))
  | .gt => .ok (.bool (b < a))
  | .ge => .ok (.bool (b ≤ a))
  | _ => .error (ascii "unknown operator")

/-- The operators that evaluate both operands. -/
def applyBinop (op : TokenType) (l r : Value) : Except Text Value :=
  match op, l, r with
  | .eq, l, r => .ok (.bool (sameValue l r))
  | .neq, l, r => .ok (.bool !(sameValue l r))
  | .plus, .str l, r => .ok (.str (strcat l (valToStr r)))
  | op, .int a, .int b => intBinop op a b
  | _, _, _ => .error (ascii "operator requires integers")

/-- The operators with one operand. -/
def applyUnop : TokenType → Value → Except Text Value
  | .minus, .int v => .ok (.int (-v))
  | .minus, _ => .error (ascii "unary minus requires integer")
  | _, v => .ok (.bool !(isTruthy v))

/-- What `int` makes of a value. -/
def toInt : Value → Except Text Value
  | .int v => .ok (.int v)
  | .str text =>
      match intOfText text with
      | some v => .ok (.int v)
      | none => .error (ascii "int() invalid literal")
  | _ => .error (ascii "int() requires a string or integer argument")

/-! ## Calls -/

/-- Print values with spaces between them, each as soon as it is there. -/
def printAll : List (Run Value) → Run Unit
  | [] => say (ascii "\n")
  | x :: more => do
      let v ← x
      say (valToStr v)
      if more ≠ [] then say (ascii " ")
      printAll more

/-- A line that is typed. -/
def heardLine : Run Value := do
  let text ← hear
  say (ascii "\n")
  return .str text

/-- The parameters are the variables of a frame of its own, and a return ends the call. -/
def callBody (params : List Text) (args : List Value) (body : Run Value) : Run Value := do
  enterFrame
  (params.zip args).forM fun (param, arg) => writeVar param arg
  let v ← tryCatch body fun
    | .return_ v => return v
    | exit => throw exit
  leaveFrame
  return v

/-- A round of a loop: the value of the body, and whether the loop goes on. -/
def oneRound (body : Run Value) : Run (Value × Bool) :=
  tryCatch (do let v ← body; return (v, true)) fun
    | .break_ => return (.none, false)
    | .continue_ => return (.none, true)
    | exit => throw exit

/-- The rounds of a while loop. -/
def whileLoop (cond body : Run Value) : Nat → Value → Run Value
  | 0, _ => throw .outOfFuel
  | fuel + 1, last => do
      let c ← cond
      if isTruthy c then
        let (v, more) ← oneRound body
        if more then whileLoop cond body fuel v else return v
      else return last

/-- The rounds of a for loop that are left, the next one with the index `i`. -/
def forLoop (name : Text) (body : Run Value) : Nat → Int32 → Value → Run Value
  | 0, _, last => return last
  | left + 1, i, _ => do
      writeVar name (.int i)
      let (v, more) ← oneRound body
      if more then forLoop name body left (i + 1) v else return v

/-- The arguments of `range`. -/
def rangeArgs : Expr → Option (List Expr)
  | .call name args => if name = ascii "range" then some args else none
  | _ => none

/-- What a for loop counts up to, as a value that must be an integer. -/
def countOf (message : Text) : Value → Run Int32
  | .int v => return v
  | _ => raise message

/-! ## Programs -/

section

variable (run : Stmt → Run Value)

/-- `input`, which takes no notice of arguments behind the first. -/
def runInput : List Expr → Run Value
  | [] => heardLine
  | prompt :: _ => do
      let v ← run (.expr prompt)
      say (valToStr v)
      heardLine

/-- `int`. -/
def runInt : List Expr → Run Value
  | [e] => do
      let v ← run (.expr e)
      valueOf (toInt v)
  | _ => raise (ascii "int() takes exactly one argument")

/-- A call of a function that the program defines. -/
def runFunction (name : Text) (args : List Expr) : Run Value := do
  let w ← get
  match w.definition name with
  | none => raise (strcat (ascii "undefined function: ") name)
  | some d =>
      if args.length ≠ d.params.length then raise (ascii "wrong number of arguments")
      else if maxCallDepth ≤ w.callers.length then raise (ascii "max call depth exceeded")
      else
        let values ← args.mapM fun e => run (.expr e)
        callBody d.params values (run d.body)

/-- A call. -/
def runCall (name : Text) (args : List Expr) : Run Value :=
  if name = ascii "print" then do
    printAll (args.map fun e => run (.expr e))
    return .none
  else if name = ascii "range" then raise (ascii "unknown node type")
  else if name = ascii "input" then runInput run args
  else if name = ascii "int" then runInt run args
  else runFunction run name args

/-- An expression, with this meaning of its parts. -/
def runExpr : Expr → Run Value
  | .int v => return .int v
  | .str s => return .str s
  | .bool b => return .bool b
  | .var name => readVar name
  | .unop op e => do
      let v ← run (.expr e)
      valueOf (applyUnop op v)
  | .binop .and l r => do
      let a ← run (.expr l)
      if isTruthy a then
        let b ← run (.expr r)
        return .bool (isTruthy b)
      else return .bool false
  | .binop .or l r => do
      let a ← run (.expr l)
      if isTruthy a then return .bool true
      else
        let b ← run (.expr r)
        return .bool (isTruthy b)
  | .binop op l r => do
      let a ← run (.expr l)
      let b ← run (.expr r)
      valueOf (applyBinop op a b)
  | .call name args => runCall run name args

/-- What a for loop counts up to: the first argument of `range`, or an integer. -/
def runIter (iter : Expr) : Run Int32 :=
  match rangeArgs iter with
  | some [] => raise (ascii "range() needs one argument")
  | some (e :: _) => do
      let v ← run (.expr e)
      countOf (ascii "range() argument must be integer") v
  | none => do
      let v ← run (.expr iter)
      countOf (ascii "for loop requires integer or range()") v

/-- A statement, with this meaning of its parts, and this bound for the rounds of a while loop. -/
def runStmt (fuel : Nat) : Stmt → Run Value
  | .expr e => runExpr run e
  | .assign name e => do
      let v ← run (.expr e)
      writeVar name v
      return v
  | .return_ none => throw (.return_ .none)
  | .return_ (some e) => do
      let v ← run (.expr e)
      throw (.return_ v)
  | .break_ => throw .break_
  | .continue_ => throw .continue_
  | .def_ name params body => do
      define ⟨name, params, body⟩
      return .none
  | .if_ cond body => do
      let c ← run (.expr cond)
      if isTruthy c then run body else return .none
  | .ifElse cond body other => do
      let c ← run (.expr cond)
      if isTruthy c then run body else run other
  | .while_ cond body => whileLoop (run (.expr cond)) (run body) fuel .none
  | .for_ name iter body => do
      let count ← runIter run iter
      forLoop name (run body) count.toInt.toNat 0 .none
  | .block sts => sts.foldlM (fun _ st => run st) .none

end

/-- The meaning of a statement. -/
def Stmt.run : Nat → Stmt → Run Value
  | 0, _ => throw .outOfFuel
  | fuel + 1, st => runStmt (Stmt.run fuel) fuel st

end GeckoOS.Gk
