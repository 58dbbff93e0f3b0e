/-
# Tokens and nodes of the scripting language

The data of `gk.h`: what the lexer hands to the parser and the parser to the
interpreter.  Text is the list of its bytes up to the terminating zero.

The tokens are kept as a list, and so is the pool of nodes, where the children of a node
are indices into the pool.
-/

import Mathlib.Data.List.Basic

namespace GeckoOS.Gk

/-- The bytes of a C string. -/
abbrev Text := List UInt8

/-- The bytes of a string literal of the source. -/
def ascii (literal : String) : Text := literal.toList.map fun c => UInt8.ofNat c.toNat

/-! ## Limits -/

/-- `GK_MAX_TOKENS`. -/
def maxTokens : Nat := 2048

/-- `GK_MAX_NODES`. -/
def maxNodes : Nat := 2048

/-- `GK_MAX_VARS`. -/
def maxVars : Nat := 128

/-- `GK_MAX_FUNCS`. -/
def maxFuncs : Nat := 64

/-- `GK_MAX_PARAMS`. -/
def maxParams : Nat := 8

/-- `GK_MAX_CALL_DEPTH`. -/
def maxCallDepth : Nat := 32

/-- `GK_MAX_STR`, the size of a string buffer with its terminating zero. -/
def maxStr : Nat := 256

/-- `GK_MAX_CHILDREN`. -/
def maxChildren : Nat := 64

/-! ## Tokens -/

/-- `TokenType`. -/
inductive TokenType
  | int | str | ident
  | plus | minus | star | slash | percent
  | eq | neq | lt | le | gt | ge
  | and | or | not
  | assign
  | lparen | rparen | comma | colon
  | if_ | elif | else_
  | while_ | for_ | in_
  | def_ | return_
  | break_ | continue_
  | true | false
  | newline | indent | dedent
  | eof
  deriving DecidableEq

/-- `Token`. -/
structure Token where
  type : TokenType
  intVal : Int32
  strVal : Text
  line : Nat
  deriving DecidableEq

/-! ## Nodes -/

/-- `NodeType`. -/
inductive NodeType
  | int | str | bool | var
  | assign
  | binop | unop
  | call
  | if_ | while_ | for_
  | def_ | return_
  | break_ | continue_
  | block
  | print | range | input | intCast
  deriving DecidableEq

/-- `Node`.  The operator is there once it has been set, and `child` holds the first
`n_children` entries of the array. -/
structure Node where
  type : NodeType
  line : Nat
  intVal : Int32
  strVal : Text
  op : Option TokenType
  child : List Nat
  deriving DecidableEq

end GeckoOS.Gk
