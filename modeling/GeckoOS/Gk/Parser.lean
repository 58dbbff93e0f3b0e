/-
# The parser

`gk_parse` turns the tokens into a pool of nodes by recursive descent.  The state is the
tokens from `tok_pos` on and the pool; a parse function that returns -1 leaves with the
error it has entered into `error`.

The mutual recursion of the source is taken apart: each function is given the functions
it calls, and only `parseExpr` and `parseStmt` recurse, on a bound for the depth of the
calls and the length of the loops.  With a bound of one more than there are tokens it is
never reached.
-/

import GeckoOS.Gk.Syntax

namespace GeckoOS.Gk

/-- The state of the parser: the tokens from `tok_pos` on, and the nodes. -/
structure Parser where
  rest : List Token
  nodes : List Node

/-- Why a parse function does not return a node. -/
inductive Failure
  /-- It has returned -1 and left this text in `error`. -/
  | error (text : Text)
  /-- The bound was too small. -/
  | outOfFuel

/-- A parse function. -/
abbrev Parse := EStateM Failure Parser

/-! ## Helpers -/

/-- Leave with an error. -/
def fail {α : Type} (text : String) : Parse α := throw (.error (ascii text))

/-- A node as `new_node` leaves it. -/
def blankNode (type : NodeType) (line : Nat) : Node := ⟨type, line, 0, [], none, []⟩

/-- `new_node`. -/
def newNode (type : NodeType) (line : Nat) : Parse Nat := do
  let s ← get
  if maxNodes ≤ s.nodes.length then fail "too many AST nodes"
  set { s with nodes := s.nodes ++ [blankNode type line] }
  return s.nodes.length

/-- Write into a node. -/
def setNode (n : Nat) (write : Node → Node) : Parse Unit :=
  modify fun s => { s with nodes := s.nodes.modify n write }

/-- A new node, written into at once. -/
def writtenNode (type : NodeType) (line : Nat) (write : Node → Node) : Parse Nat := do
  let n ← newNode type line
  setNode n write
  return n

/-- `n_children` of a node. -/
def childCount (n : Nat) : Parse Nat := do
  let s ← get
  return (s.nodes[n]?.map fun node => node.child.length).getD 0

/-- Append a child. -/
def addChild (n child : Nat) : Parse Unit :=
  setNode n fun node => { node with child := node.child ++ [child] }

/-- `peek`. -/
def peek : Parse Token := do
  let s ← get
  return s.rest.headD ⟨.eof, 0, [], 0⟩

/-- `advance`. -/
def advance : Parse Unit := do
  let t ← peek
  if t.type ≠ .eof then
    modify fun s => { s with rest := s.rest.tail }

/-- `check`. -/
def check (type : TokenType) : Parse Bool := do
  let t ← peek
  return t.type = type

/-- `match`. -/
def matchToken (type : TokenType) : Parse Bool := do
  if ← check type then
    advance
    return true
  else return false

/-- `expect`. -/
def expect (type : TokenType) (text : String) : Parse Unit := do
  if ← matchToken type then return
  fail text

/-- `skip_newlines`. -/
def skipNewlines : Parse Unit :=
  modify fun s => { s with rest := s.rest.dropWhile fun t => t.type = .newline }

/-! ## Expressions -/

/-- The node of a call of this name. -/
def callType (name : Text) : NodeType :=
  if name = ascii "print" then .print
  else if name = ascii "range" then .range
  else if name = ascii "input" then .input
  else if name = ascii "int" then .intCast
  else .call

/-- The loop over the arguments of the call `n`. -/
def parseArgs (expr : Parse Nat) (n : Nat) : Nat → Parse Unit
  | 0 => throw .outOfFuel
  | fuel + 1 => do
      if (← check .rparen) || (← check .eof) then return
      let arg ← expr
      if maxChildren ≤ (← childCount n) then fail "too many arguments"
      addChild n arg
      if ← matchToken .comma then parseArgs expr n fuel

/-- `parse_primary`. -/
def parsePrimary (expr : Parse Nat) (fuel : Nat) : Parse Nat := do
  let t ← peek
  match t.type with
  | .int =>
      advance
      writtenNode .int t.line fun node => { node with intVal := t.intVal }
  | .str =>
      advance
      writtenNode .str t.line fun node => { node with strVal := t.strVal }
  | .true =>
      advance
      writtenNode .bool t.line fun node => { node with intVal := 1 }
  | .false =>
      advance
      writtenNode .bool t.line fun node => { node with intVal := 0 }
  | .ident =>
      advance
      if ← check .lparen then
        advance
        let n ← writtenNode (callType t.strVal) t.line fun node =>
          { node with strVal := t.strVal }
        parseArgs expr n fuel
        expect .rparen "expected ')' after arguments"
        return n
      else
        writtenNode .var t.line fun node => { node with strVal := t.strVal }
  | .lparen =>
      advance
      let n ← expr
      expect .rparen "expected ')'"
      return n
  | _ => fail "unexpected token in expression"

/-- `parse_unary`. -/
def parseUnary (expr : Parse Nat) (fuel : Nat) : Nat → Parse Nat
  | 0 => throw .outOfFuel
  | depth + 1 => do
      let t ← peek
      if t.type = .minus ∨ t.type = .not then
        advance
        let operand ← parseUnary expr fuel depth
        writtenNode .unop t.line fun node => { node with op := some t.type, child := [operand] }
      else parsePrimary expr fuel

/-- The loop of a level of binary operators, with the tree read so far at `left`. -/
def parseOperators (operand : Parse Nat) (ops : List TokenType) : Nat → Nat → Parse Nat
  | 0, _ => throw .outOfFuel
  | fuel + 1, left => do
      let t ← peek
      if t.type ∈ ops then
        advance
        let right ← operand
        let n ← writtenNode .binop t.line fun node =>
          { node with op := some t.type, child := [left, right] }
        parseOperators operand ops fuel n
      else return left

/-- A level of binary operators. -/
def parseBinary (operand : Parse Nat) (ops : List TokenType) (fuel : Nat) : Parse Nat := do
  let left ← operand
  parseOperators operand ops fuel left

/-- `parse_mul`. -/
def parseMul (expr : Parse Nat) (fuel : Nat) : Parse Nat :=
  parseBinary (parseUnary expr fuel fuel) [.star, .slash, .percent] fuel

/-- `parse_add`. -/
def parseAdd (expr : Parse Nat) (fuel : Nat) : Parse Nat :=
  parseBinary (parseMul expr fuel) [.plus, .minus] fuel

/-- `parse_cmp`. -/
def parseCmp (expr : Parse Nat) (fuel : Nat) : Parse Nat :=
  parseBinary (parseAdd expr fuel) [.eq, .neq, .lt, .le, .gt, .ge] fuel

/-- `parse_and`. -/
def parseAnd (expr : Parse Nat) (fuel : Nat) : Parse Nat :=
  parseBinary (parseCmp expr fuel) [.and] fuel

/-- `parse_or`. -/
def parseOr (expr : Parse Nat) (fuel : Nat) : Parse Nat :=
  parseBinary (parseAnd expr fuel) [.or] fuel

/-- `parse_expr`. -/
def parseExpr : Nat → Parse Nat
  | 0 => throw .outOfFuel
  | fuel + 1 => parseOr (parseExpr fuel) (fuel + 1)

/-! ## Statements -/

/-- The loop over the statements of the block `block`, up to a token that ends it. -/
def parseStmts (stmt : Parse Nat) (ends : List TokenType) (full : String) (block : Nat) :
    Nat → Parse Unit
  | 0 => throw .outOfFuel
  | fuel + 1 => do
      let t ← peek
      if t.type ∈ ends then return
      let st ← stmt
      if maxChildren ≤ (← childCount block) then fail full
      addChild block st
      skipNewlines
      parseStmts stmt ends full block fuel

/-- `parse_block`. -/
def parseBlock (stmt : Parse Nat) (fuel : Nat) : Parse Nat := do
  let t ← peek
  expect .indent "expected indented block"
  let block ← newNode .block t.line
  skipNewlines
  parseStmts stmt [.dedent, .eof] "block too large" block fuel
  let _ ← matchToken .dedent
  return block

/-- The loop over the parameters of the definition `n`. -/
def parseParams (n : Nat) : Nat → Parse Unit
  | 0 => throw .outOfFuel
  | fuel + 1 => do
      if (← check .rparen) || (← check .eof) then return
      let param ← peek
      if param.type ≠ .ident then fail "expected parameter name"
      advance
      let pn ← writtenNode .var param.line fun node => { node with strVal := param.strVal }
      addChild n pn
      if ← matchToken .comma then parseParams n fuel

/-- The colon of a compound statement and its block. -/
def parseBody (stmt : Parse Nat) (fuel : Nat) (text : String) : Parse Nat := do
  expect .colon text
  let _ ← matchToken .newline
  parseBlock stmt fuel

/-- `parse_stmt` of a return statement. -/
def parseReturn (expr : Parse Nat) : Parse Nat := do
  let t ← peek
  advance
  let n ← newNode .return_ t.line
  if !(← check .newline) && !(← check .eof) then
    let value ← expr
    setNode n fun node => { node with child := [value] }
  let _ ← matchToken .newline
  return n

/-- `parse_stmt` of a break or continue statement. -/
def parseJump (type : NodeType) : Parse Nat := do
  let t ← peek
  advance
  let _ ← matchToken .newline
  newNode type t.line

/-- `parse_stmt` of a function definition. -/
def parseDef (stmt : Parse Nat) (fuel : Nat) : Parse Nat := do
  let t ← peek
  advance
  let name ← peek
  if name.type ≠ .ident then fail "expected function name after 'def'"
  advance
  let n ← writtenNode .def_ t.line fun node => { node with strVal := name.strVal }
  expect .lparen "expected '(' after function name"
  parseParams n fuel
  expect .rparen "expected ')' after parameters"
  let body ← parseBody stmt fuel "expected ':' after def"
  addChild n body
  return n

/-- `parse_stmt` of an if or elif statement. -/
def parseIf (expr stmt : Parse Nat) (fuel : Nat) : Parse Nat := do
  let t ← peek
  advance
  let n ← newNode .if_ t.line
  let cond ← expr
  let body ← parseBody stmt fuel "expected ':' after if condition"
  setNode n fun node => { node with child := [cond, body] }
  skipNewlines
  if ← check .elif then
    let elif ← stmt
    setNode n fun node => { node with child := [cond, body, elif] }
  else if ← check .else_ then
    advance
    let elseBody ← parseBody stmt fuel "expected ':' after else"
    setNode n fun node => { node with child := [cond, body, elseBody] }
  return n

/-- `parse_stmt` of a while loop. -/
def parseWhile (expr stmt : Parse Nat) (fuel : Nat) : Parse Nat := do
  let t ← peek
  advance
  let n ← newNode .while_ t.line
  let cond ← expr
  let body ← parseBody stmt fuel "expected ':' after while condition"
  setNode n fun node => { node with child := [cond, body] }
  return n

/-- `parse_stmt` of a for loop. -/
def parseFor (expr stmt : Parse Nat) (fuel : Nat) : Parse Nat := do
  let t ← peek
  advance
  let var ← peek
  if var.type ≠ .ident then fail "expected variable name after 'for'"
  advance
  expect .in_ "expected 'in' after for variable"
  let n ← writtenNode .for_ t.line fun node => { node with strVal := var.strVal }
  let iter ← expr
  let body ← parseBody stmt fuel "expected ':' after for iterable"
  setNode n fun node => { node with child := [iter, body] }
  return n

/-- `parse_stmt` of an assignment. -/
def parseAssign (expr : Parse Nat) : Parse Nat := do
  let t ← peek
  advance
  advance
  let n ← writtenNode .assign t.line fun node => { node with strVal := t.strVal }
  let value ← expr
  setNode n fun node => { node with child := [value] }
  let _ ← matchToken .newline
  return n

/-- `parse_stmt` of an expression. -/
def parseExprStmt (expr : Parse Nat) : Parse Nat := do
  let n ← expr
  let _ ← matchToken .newline
  return n

/-- An assignment is seen by its second token. -/
def atAssign : Parse Bool := do
  let s ← get
  match s.rest with
  | t :: next :: _ => return t.type = .ident && next.type = .assign
  | _ => return false

/-- `parse_stmt`. -/
def parseStmtWith (expr stmt : Parse Nat) (fuel : Nat) : Parse Nat := do
  let t ← peek
  match t.type with
  | .return_ => parseReturn expr
  | .break_ => parseJump .break_
  | .continue_ => parseJump .continue_
  | .def_ => parseDef stmt fuel
  | .if_ | .elif => parseIf expr stmt fuel
  | .while_ => parseWhile expr stmt fuel
  | .for_ => parseFor expr stmt fuel
  | _ => if ← atAssign then parseAssign expr else parseExprStmt expr

@[inherit_doc parseStmtWith]
def parseStmt : Nat → Parse Nat
  | 0 => throw .outOfFuel
  | fuel + 1 => parseStmtWith (parseExpr (fuel + 1)) (parseStmt fuel) (fuel + 1)

/-- The work of `gk_parse`. -/
def parseProgram (fuel : Nat) : Parse Nat := do
  let root ← newNode .block 0
  skipNewlines
  parseStmts (parseStmt fuel) [.eof] "too many top-level statements" root fuel
  return root

/-- `gk_parse` of the tokens. -/
def gkParse (tokens : List Token) : EStateM.Result Failure Parser Nat :=
  parseProgram (tokens.length + 1) ⟨tokens, []⟩

end GeckoOS.Gk
