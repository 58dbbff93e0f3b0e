/-
# The lexer

`gk_lex` reads the source line by line: it measures the indentation of a line that is
not blank, emits the tokens for a change of it, then the tokens of the line and a
NEWLINE.  The text still to be read is the argument of every loop; each round of a loop
leaves less of it, which bounds the number of rounds.
-/

import GeckoOS.Gk.Syntax
import Mathlib.Tactic.Ring

namespace GeckoOS.Gk

/-! ## Characters -/

def isDigit (c : UInt8) : Bool := 48 ≤ c && c ≤ 57

def isAlpha (c : UInt8) : Bool := (97 ≤ c && c ≤ 122) || (65 ≤ c && c ≤ 90) || c == 95

def isAlnum (c : UInt8) : Bool := isAlpha c || isDigit c

/-- A space or a tab. -/
def isSpace (c : UInt8) : Bool := c == 32 || c == 9

/-- `KEYWORDS`. -/
def keywords : List (Text × TokenType) :=
  [(ascii "if", .if_), (ascii "elif", .elif), (ascii "else", .else_), (ascii "while", .while_),
    (ascii "for", .for_), (ascii "in", .in_), (ascii "def", .def_), (ascii "return", .return_),
    (ascii "break", .break_), (ascii "continue", .continue_), (ascii "and", .and),
    (ascii "or", .or), (ascii "not", .not), (ascii "True", .true), (ascii "False", .false)]

/-- The keyword a word is, and else an identifier. -/
def wordType (word : Text) : TokenType :=
  ((keywords.find? fun keyword => keyword.1 == word).map (·.2)).getD .ident

/-! ## Emitting -/

/-- The tokens emitted so far, and `error`. -/
structure Lexer where
  tokens : List Token
  error : Text
  deriving DecidableEq

/-- `emit`, with the value that `emit_int` and `emit_str` enter into the token. -/
def Lexer.emit (s : Lexer) (type : TokenType) (intVal : Int32) (strVal : Text) (line : Nat) :
    Bool × Lexer :=
  if maxTokens ≤ s.tokens.length then (false, { s with error := ascii "too many tokens" })
  else (true, { s with tokens := s.tokens ++ [⟨type, intVal, strVal, line⟩] })

/-! ## One line -/

/-- The value of a run of digits. -/
def intValue (digits : Text) : Int32 :=
  digits.foldl (fun val c => val * 10 + Int32.ofNat (c.toNat - 48)) 0

/-- What the character behind a backslash stands for. -/
def escaped (c : UInt8) : UInt8 :=
  if c = 110 then 10 else if c = 116 then 9 else c

/-- The loop over a string literal: the bytes stored, when `stored` are in the buffer
already, and the text it stops at. -/
def lexString (quote : UInt8) (stored : Nat) : Text → Text × Text
  | [] => ([], [])
  | c :: rest =>
      if c = quote then ([], c :: rest)
      else
        match c, rest with
        | 92, d :: rest =>
            if maxStr - 1 ≤ stored + 1 then ([escaped d], rest)
            else
              let (bytes, stop) := lexString quote (stored + 1) rest
              (escaped d :: bytes, stop)
        | c, rest =>
            if maxStr - 1 ≤ stored + 1 then ([c], rest)
            else
              let (bytes, stop) := lexString quote (stored + 1) rest
              (c :: bytes, stop)

/-- The operators of two characters. -/
def doubleOperator (c next : UInt8) : Option TokenType :=
  if next ≠ 61 then none
  else if c = 61 then some .eq
  else if c = 33 then some .neq
  else if c = 60 then some .le
  else if c = 62 then some .ge
  else none

/-- The operators and punctuation of one character. -/
def singleOperator (c : UInt8) : Option TokenType :=
  if c = 43 then some .plus
  else if c = 45 then some .minus
  else if c = 42 then some .star
  else if c = 47 then some .slash
  else if c = 37 then some .percent
  else if c = 60 then some .lt
  else if c = 62 then some .gt
  else if c = 61 then some .assign
  else if c = 40 then some .lparen
  else if c = 41 then some .rparen
  else if c = 44 then some .comma
  else if c = 58 then some .colon
  else none

/-- One round of the loop over a line, at the character `c`: the value of the failed
`gk_lex`, or the text to go on with. -/
def lexToken (s : Lexer) (line : Nat) (c : UInt8) (rest : Text) : Lexer ⊕ Lexer × Text :=
  if isSpace c then .inr (s, rest)
  else if c = 35 then .inr (s, rest.dropWhile (· ≠ 10))
  else if isDigit c then
    match s.emit .int (intValue ((c :: rest).takeWhile isDigit)) [] line with
    | (true, s) => .inr (s, rest.dropWhile isDigit)
    | (false, s) => .inl s
  else if c = 34 ∨ c = 39 then
    let (bytes, stop) := lexString c 0 rest
    match s.emit .str 0 bytes line with
    | (true, s) => .inr (s, stop.tail)
    | (false, s) => .inl s
  else if isAlpha c then
    let word := ((c :: rest).takeWhile isAlnum).take 63
    match s.emit (wordType word) 0 word line with
    | (true, s) => .inr (s, (c :: rest).drop word.length)
    | (false, s) => .inl s
  else
    match doubleOperator c (rest.headD 0) with
    -- A full token array is noticed by the next token that is checked.
    | some type => .inr ((s.emit type 0 [] line).2, rest.tail)
    | none =>
        match singleOperator c with
        | some type => .inr ((s.emit type 0 [] line).2, rest)
        | none => .inl { s with error := ascii "Unk" }

/-- The loop over a line, up to its end: the state of the failed `gk_lex`, or the state
and the text from the newline on. -/
def lexLine (line : Nat) : Nat → Lexer → Text → Lexer ⊕ Lexer × Text
  | 0, s, text => .inr (s, text)
  | fuel + 1, s, text =>
      match text with
      | [] => .inr (s, [])
      | c :: rest =>
          if c = 10 then .inr (s, c :: rest)
          else
            match lexToken s line c rest with
            | .inl s => .inl s
            | .inr (s, rest) => lexLine line fuel s rest

/-! ## All lines -/

/-- The width of the leading spaces and tabs, and the text behind them. -/
def indentation (text : Text) : Nat × Text :=
  let spaces := text.takeWhile (· == 32)
  let text := text.dropWhile (· == 32)
  let tabs := text.takeWhile (· == 9)
  (spaces.length + 4 * tabs.length, text.dropWhile (· == 9))

/-- `indent_stack`, the innermost width first. -/
abbrev Indents := List Nat

/-- Close blocks down to a width. -/
def closeBlocks (indent line : Nat) : Lexer → Indents → Bool × Lexer × Indents
  | s, [] => (true, s, [])
  | s, width :: widths =>
      if indent < width then
        match s.emit .dedent 0 [] line with
        | (true, s) => closeBlocks indent line s widths
        | (false, s) => (false, s, widths)
      else (true, s, width :: widths)

/-- The tokens for the indentation of a line. -/
def lexIndent (s : Lexer) (indents : Indents) (indent line : Nat) : Bool × Lexer × Indents :=
  if indents.headD 0 < indent then
    match s.emit .indent 0 [] line with
    | (true, s) => (true, s, indent :: indents)
    | (false, s) => (false, s, indent :: indents)
  else closeBlocks indent line s indents

/-- The end of the text: all blocks are closed. -/
def lexEnd (s : Lexer) (indents : Indents) (line : Nat) : Bool × Lexer :=
  match closeBlocks 0 line s indents with
  | (false, s, _) => (false, s)
  | (true, s, _) => s.emit .eof 0 [] line

/-- The loop over the lines. -/
def lexLines : Nat → Lexer → Indents → Nat → Text → Bool × Lexer
  | 0, s, indents, line, _ => lexEnd s indents line
  | fuel + 1, s, indents, line, text =>
      if text = [] then lexEnd s indents line
      else
        let (indent, rest) := indentation text
        if rest = [] ∨ rest.head? = some 10 ∨ rest.head? = some 35 then
          let rest := rest.dropWhile (· ≠ 10)
          lexLines fuel s indents (if rest = [] then line else line + 1) rest.tail
        else
          match lexIndent s indents indent line with
          | (false, s, _) => (false, s)
          | (true, s, indents) =>
              match lexLine line rest.length s rest with
              | .inl s => (false, s)
              | .inr (s, rest) =>
                  match s.emit .newline 0 [] line with
                  | (false, s) => (false, s)
                  | (true, s) =>
                      lexLines fuel s indents (if rest = [] then line else line + 1) rest.tail

/-- `gk_lex` of a text without a zero byte: the return value, the tokens and `error`. -/
def gkLex (error src : Text) : Bool × Lexer :=
  lexLines src.length ⟨[], error⟩ [] 1 src

end GeckoOS.Gk
