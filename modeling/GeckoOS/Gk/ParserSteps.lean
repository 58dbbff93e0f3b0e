/-
# The outcomes of the parser's helpers

What the small functions of the parser do, as the rules by which the outcomes of the parse
functions are computed: looking at the next token, passing it, making a node and writing
into one.
-/

import GeckoOS.Gk.Parser
import GeckoOS.Math.Outcome

namespace GeckoOS.Gk

open GeckoOS.Math

/-- The token `peek` sees. -/
def Parser.head (s : Parser) : Token := s.rest.headD ⟨.eof, 0, [], 0⟩

/-- The state behind that token; EOF is never passed. -/
def Parser.next (s : Parser) : Parser :=
  if s.head.type = .eof then s else { s with rest := s.rest.tail }

/-- The state behind the newlines that come next. -/
def Parser.skip (s : Parser) : Parser :=
  { s with rest := s.rest.dropWhile fun t => t.type = .newline }

/-- The state with a node more. -/
def Parser.push (s : Parser) (node : Node) : Parser := { s with nodes := s.nodes ++ [node] }

/-- The state with a node written into. -/
def Parser.write (s : Parser) (n : Nat) (write : Node → Node) : Parser :=
  { s with nodes := s.nodes.modify n write }

variable {s : Parser} {type : TokenType}

@[simp]
theorem Parser.next_nodes : s.next.nodes = s.nodes := by
  rw [Parser.next]
  split_ifs <;> rfl

@[simp]
theorem Parser.skip_nodes : s.skip.nodes = s.nodes := rfl

@[simp]
theorem Parser.push_rest (node : Node) : (s.push node).rest = s.rest := rfl

@[simp]
theorem Parser.write_rest (n : Nat) (write : Node → Node) : (s.write n write).rest = s.rest := rfl

@[simp]
theorem Parser.push_nodes (node : Node) : (s.push node).nodes = s.nodes ++ [node] := rfl

@[simp]
theorem Parser.write_nodes (n : Nat) (write : Node → Node) :
    (s.write n write).nodes = s.nodes.modify n write := rfl

/-! ## Runs -/

theorem peek_run : peek s = .ok s.head s := rfl

theorem advance_run : advance s = .ok () s.next := by
  rw [advance, Parser.next]
  change (if s.head.type ≠ .eof then _ else _ : Parse Unit) s = _
  by_cases hend : s.head.type = .eof
  · rw [if_pos hend, if_neg (not_not_intro hend)]
    rfl
  · rw [if_neg hend, if_pos hend]
    rfl

theorem check_run : check type s = .ok (s.head.type = type) s := rfl

theorem skipNewlines_run : skipNewlines s = .ok () s.skip := rfl

theorem setNode_run (n : Nat) (write : Node → Node) :
    setNode n write s = .ok () (s.write n write) :=
  rfl

theorem childCount_run (n : Nat) :
    childCount n s = .ok ((s.nodes[n]?.map fun node => node.child.length).getD 0) s := rfl

/-- Writing into a node just made is making it so. -/
theorem Parser.write_push (node : Node) (change : Node → Node) :
    (s.push node).write s.nodes.length change = s.push (change node) := by
  simp [Parser.write, Parser.push, List.modify_eq_take_drop]

section Outcomes

variable {α : Type} {token : Token → Parser → Prop} {unit : Unit → Parser → Prop}
  {bool : Bool → Parser → Prop} {index : Nat → Parser → Prop} {post : α → Parser → Prop}

@[simp]
theorem ensures_fail (text : String) : Ensures (fail text : Parse α) s post := ensures_throw _

@[simp]
theorem ensures_peek : Ensures peek s token ↔ token s.head s := ensures_of_run peek_run

@[simp]
theorem ensures_advance : Ensures advance s unit ↔ unit () s.next := ensures_of_run advance_run

@[simp]
theorem ensures_check : Ensures (check type) s bool ↔ bool (s.head.type = type) s :=
  ensures_of_run check_run

@[simp]
theorem ensures_matchToken : Ensures (matchToken type) s bool ↔
    (s.head.type = type → bool true s.next) ∧ (s.head.type ≠ type → bool false s) := by
  simp [matchToken]

@[simp]
theorem ensures_expect (text : String) :
    Ensures (expect type text) s unit ↔ (s.head.type = type → unit () s.next) := by
  simp [expect]

@[simp]
theorem ensures_skipNewlines : Ensures skipNewlines s unit ↔ unit () s.skip :=
  ensures_of_run skipNewlines_run

@[simp]
theorem ensures_setNode (n : Nat) (write : Node → Node) :
    Ensures (setNode n write) s unit ↔ unit () (s.write n write) :=
  ensures_of_run (setNode_run n write)

@[simp]
theorem ensures_addChild (n child : Nat) : Ensures (addChild n child) s unit ↔
    unit () (s.write n fun node => { node with child := node.child ++ [child] }) :=
  ensures_of_run rfl

@[simp]
theorem ensures_childCount (n : Nat) : Ensures (childCount n) s index ↔
    index ((s.nodes[n]?.map fun node => node.child.length).getD 0) s :=
  ensures_of_run (childCount_run n)

@[simp]
theorem ensures_newNode (kind : NodeType) (line : Nat) : Ensures (newNode kind line) s index ↔
    (s.nodes.length < maxNodes → index s.nodes.length (s.push (blankNode kind line))) := by
  simp [newNode, Parser.push]

@[simp]
theorem ensures_writtenNode (kind : NodeType) (line : Nat) (write : Node → Node) :
    Ensures (writtenNode kind line write) s index ↔
      (s.nodes.length < maxNodes →
        index s.nodes.length (s.push (write (blankNode kind line)))) := by
  simp [writtenNode, Parser.write_push]

/-! ## The same for `Returns` -/

@[simp]
theorem not_returns_fail (text : String) : ¬ Returns (fail text : Parse α) s post :=
  not_returns_throw _

@[simp]
theorem returns_peek : Returns peek s token ↔ token s.head s := returns_of_run peek_run

@[simp]
theorem returns_advance : Returns advance s unit ↔ unit () s.next := returns_of_run advance_run

@[simp]
theorem returns_check : Returns (check type) s bool ↔ bool (s.head.type = type) s :=
  returns_of_run check_run

@[simp]
theorem returns_matchToken : Returns (matchToken type) s bool ↔
    (s.head.type = type → bool true s.next) ∧ (s.head.type ≠ type → bool false s) := by
  simp [matchToken]

@[simp]
theorem returns_expect (text : String) :
    Returns (expect type text) s unit ↔ s.head.type = type ∧ unit () s.next := by
  by_cases htype : s.head.type = type
  · simp [expect, htype]
  · simp [expect, htype]

@[simp]
theorem returns_skipNewlines : Returns skipNewlines s unit ↔ unit () s.skip :=
  returns_of_run skipNewlines_run

@[simp]
theorem returns_setNode (n : Nat) (write : Node → Node) :
    Returns (setNode n write) s unit ↔ unit () (s.write n write) :=
  returns_of_run (setNode_run n write)

@[simp]
theorem returns_addChild (n child : Nat) : Returns (addChild n child) s unit ↔
    unit () (s.write n fun node => { node with child := node.child ++ [child] }) :=
  returns_of_run rfl

@[simp]
theorem returns_childCount (n : Nat) : Returns (childCount n) s index ↔
    index ((s.nodes[n]?.map fun node => node.child.length).getD 0) s :=
  returns_of_run (childCount_run n)

@[simp]
theorem returns_newNode (kind : NodeType) (line : Nat) : Returns (newNode kind line) s index ↔
    s.nodes.length < maxNodes ∧ index s.nodes.length (s.push (blankNode kind line)) := by
  by_cases hroom : s.nodes.length < maxNodes
  · simp [newNode, Parser.push, hroom]
  · simp [newNode, hroom]

@[simp]
theorem returns_writtenNode (kind : NodeType) (line : Nat) (write : Node → Node) :
    Returns (writtenNode kind line write) s index ↔
      s.nodes.length < maxNodes ∧ index s.nodes.length (s.push (write (blankNode kind line))) := by
  simp [writtenNode, Parser.write_push]

end Outcomes

end GeckoOS.Gk
