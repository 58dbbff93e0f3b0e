/-
# How many children a node gets

`child` has room for 64 children.  The loops over arguments and statements look at the number
before they append; a definition appends its parameters and its body without looking.  To
tell what this does, the parser is compared with one that looks there as well: both do the
same until that one refuses, and from then on there is a node with too many children, since
a child list that has grown too long is never replaced.
-/

import GeckoOS.Gk.NodeTree
import GeckoOS.Gk.TokenBounds

namespace GeckoOS.Gk

open GeckoOS.Math

/-! ## The parser that looks -/

/-- What it does instead of appending a child for which there is no room. -/
def refused : Failure := .error (ascii "too many children")

/-- Append a child, if there is room. -/
def addChecked (n child : Nat) : Parse Unit := do
  if maxChildren ≤ (← childCount n) then throw refused
  addChild n child

section

variable (add : Nat → Nat → Parse Unit)

/-- `parseParams`, with this way of appending a child. -/
def parseParamsBy (n : Nat) : Nat → Parse Unit
  | 0 => throw .outOfFuel
  | fuel + 1 => do
      if (← check .rparen) || (← check .eof) then return
      let param ← peek
      if param.type ≠ .ident then fail "expected parameter name"
      advance
      let pn ← writtenNode .var param.line fun node => { node with strVal := param.strVal }
      add n pn
      if ← matchToken .comma then parseParamsBy n fuel

@[inherit_doc parseParamsBy]
def parseDefBy (stmt : Parse Nat) (fuel : Nat) : Parse Nat := do
  let t ← peek
  advance
  let name ← peek
  if name.type ≠ .ident then fail "expected function name after 'def'"
  advance
  let n ← writtenNode .def_ t.line fun node => { node with strVal := name.strVal }
  expect .lparen "expected '(' after function name"
  parseParamsBy add n fuel
  expect .rparen "expected ')' after parameters"
  let body ← parseBody stmt fuel "expected ':' after def"
  add n body
  return n

@[inherit_doc parseParamsBy]
def parseStmtWithBy (expr stmt : Parse Nat) (fuel : Nat) : Parse Nat := do
  let t ← peek
  match t.type with
  | .return_ => parseReturn expr
  | .break_ => parseJump .break_
  | .continue_ => parseJump .continue_
  | .def_ => parseDefBy add stmt fuel
  | .if_ | .elif => parseIf expr stmt fuel
  | .while_ => parseWhile expr stmt fuel
  | .for_ => parseFor expr stmt fuel
  | _ => if ← atAssign then parseAssign expr else parseExprStmt expr

@[inherit_doc parseParamsBy]
def parseStmtBy : Nat → Parse Nat
  | 0 => throw .outOfFuel
  | fuel + 1 => parseStmtWithBy add (parseExpr (fuel + 1)) (parseStmtBy fuel) (fuel + 1)

@[inherit_doc parseParamsBy]
def parseProgramBy (fuel : Nat) : Parse Nat := do
  let root ← newNode .block 0
  skipNewlines
  parseStmts (parseStmtBy add fuel) [.eof] "too many top-level statements" root fuel
  return root

end

/-- `gk_parse`, if it looked. -/
def gkParseChecked (tokens : List Token) : EStateM.Result Failure Parser Nat :=
  parseProgramBy addChecked (tokens.length + 1) ⟨tokens, []⟩

/-- As it is, it does not look. -/
theorem parseProgramBy_addChild (fuel : Nat) :
    parseProgramBy addChild fuel = parseProgram fuel := by
  have hparams : ∀ n fuel, parseParamsBy addChild n fuel = parseParams n fuel := by
    intro n fuel
    induction fuel with
    | zero => rfl
    | succ fuel ih => rw [parseParamsBy, ih, parseParams]
  have hdef : ∀ stmt fuel, parseDefBy addChild stmt fuel = parseDef stmt fuel := by
    intro stmt fuel
    simp only [parseDefBy, hparams, parseDef]
  have hstmt : parseStmtBy addChild fuel = parseStmt fuel := by
    induction fuel with
    | zero => rfl
    | succ fuel ih =>
        rw [parseStmtBy, parseStmt, ih, parseStmtWithBy, hdef]
        rfl
  rw [parseProgramBy, hstmt, parseProgram]

/-! ## States that stay of a kind -/

/-- The number of children of a node. -/
def Parser.count (s : Parser) (n : Nat) : Nat :=
  (s.nodes[n]?.map fun node => node.child.length).getD 0

/-- There are too many children of the node `i`. -/
def Overfull (i : Nat) (s : Parser) : Prop := maxChildren < s.count i

/-- No node has too many children. -/
def AllFit (s : Parser) : Prop := ∀ node ∈ s.nodes, node.child.length ≤ maxChildren

/-- A kind of states that the steps of the parser keep: the nodes that are `mine` may be given
other children, and children may be appended where there is room or, if `free`, anywhere. -/
structure Robust (kind : Parser → Prop) (mine : Nat → Prop) (free : Prop) : Prop where
  rest : ∀ s rest, kind s → kind { s with rest := rest }
  push : ∀ s node, node.child = [] → kind s → kind (s.push node)
  fresh : ∀ s, kind s → mine s.nodes.length
  write : ∀ s n change, mine n →
    (∀ node : Node, (change node).child = node.child ∨ (change node).child.length ≤ 3) →
      kind s → kind (s.write n change)
  add : ∀ s n c, free ∨ s.count n < maxChildren → kind s →
    kind (s.write n fun node => { node with child := node.child ++ [c] })

variable {α β : Type} {kind : Parser → Prop} {mine : Nat → Prop} {free : Prop} {s s' : Parser}
  {n i fuel : Nat} {expr stmt stmt' : Parse Nat}

theorem count_run (n : Nat) (s : Parser) : childCount n s = .ok (s.count n) s := rfl

theorem count_write (change : Node → Node) (i : Nat) : (s.write n change).count i =
    if n = i then ((s.nodes[i]?.map fun node => (change node).child.length).getD 0)
    else s.count i := by
  rw [Parser.count, Parser.write_nodes, getElem?_modify_node, Option.map_map]
  by_cases hi : n = i
  · rw [if_pos hi]
    subst hi
    simp [Function.comp_def]
  · rw [if_neg hi, Parser.count]
    simp [Function.comp_def, hi]

theorem overfull_robust (i : Nat) : Robust (Overfull i) (· ≠ i) True where
  rest _ _ hover := hover
  push s node hchild hover := by
    have hi : i < s.nodes.length := by
      by_contra hge
      rw [Overfull, Parser.count, List.getElem?_eq_none (not_lt.mp hge)] at hover
      exact absurd hover (by decide)
    rwa [Overfull, Parser.count, Parser.push_nodes, List.getElem?_append_left hi]
  fresh s hover hi := by
    subst hi
    rw [Overfull, Parser.count, List.getElem?_eq_none le_rfl] at hover
    exact absurd hover (by decide)
  write s n change hn _ hover := by
    rwa [Overfull, count_write, if_neg hn]
  add s n c _ hover := by
    rw [Overfull, count_write]
    split_ifs with hi
    · rw [Overfull, Parser.count] at hover
      cases hnode : s.nodes[i]? with
      | none =>
          rw [hnode] at hover
          exact absurd hover (by decide)
      | some node =>
          rw [hnode] at hover
          simp only [Option.map_some, Option.getD_some, List.length_append] at hover ⊢
          omega
    · exact hover

/-- A write leaves all nodes with room for their children if it leaves its own node so. -/
theorem AllFit.write (hfit : AllFit s) {change : Node → Node}
    (hchange : ∀ old, s.nodes[n]? = some old → (change old).child.length ≤ maxChildren) :
    AllFit (s.write n change) := by
  intro node hmem
  obtain ⟨j, hj⟩ := List.mem_iff_getElem?.mp hmem
  rw [Parser.write_nodes, getElem?_modify_node, Option.map_eq_some_iff] at hj
  obtain ⟨old, hold, rfl⟩ := hj
  split_ifs with hn
  · subst hn
    exact hchange old hold
  · exact hfit old (List.mem_of_getElem? hold)

theorem allFit_robust : Robust AllFit (fun _ => True) False where
  rest _ _ hfit := hfit
  push s node hchild hfit := by
    intro node' hmem
    rcases List.mem_append.mp hmem with hold | hnew
    · exact hfit node' hold
    · obtain rfl := List.mem_singleton.mp hnew
      rw [hchild]
      decide
  fresh _ _ := trivial
  write s n change _ hchange hfit := by
    apply hfit.write
    intro old hold
    rcases hchange old with hsame | hfew
    · rw [hsame]
      exact hfit old (List.mem_of_getElem? hold)
    · exact hfew.trans (by decide)
  add s n c hroom hfit := by
    apply hfit.write
    intro old hold
    have hlt := hroom.resolve_left id
    rw [Parser.count, hold, Option.map_some, Option.getD_some] at hlt
    rw [List.length_append]
    exact hlt

theorem AllFit.count_le (hfit : AllFit s) (i : Nat) : s.count i ≤ maxChildren := by
  rw [Parser.count]
  cases hnode : s.nodes[i]? with
  | none => exact Nat.zero_le _
  | some node => exact hfit node (List.mem_of_getElem? hnode)

/-! ## What every outcome is -/

section

variable (hkind : Robust kind mine free)

include hkind

theorem Robust.next (hs : kind s) : kind s.next := by
  rw [Parser.next]
  split_ifs
  · exact hs
  · exact hkind.rest s _ hs

omit hkind in
theorem stays_peek : Stays kind peek := fun s hs => by rwa [peek_run]

omit hkind in
theorem stays_check (type : TokenType) : Stays kind (check type) := fun s hs => by rwa [check_run]

omit hkind in
theorem stays_childCount (n : Nat) : Stays kind (childCount n) := fun _ hs => hs

omit hkind in
theorem stays_fail (text : String) : Stays kind (fail text : Parse α) := stays_throw _

theorem stays_advance : Stays kind advance := fun s hs => by
  rw [advance_run]
  exact hkind.next hs

theorem stays_matchToken (type : TokenType) : Stays kind (matchToken type) :=
  stays_bind (stays_check type) fun _ =>
    stays_ite (stays_bind (stays_advance hkind) fun _ => stays_pure _) (stays_pure _)

theorem stays_expect (type : TokenType) (text : String) : Stays kind (expect type text) :=
  stays_bind (stays_matchToken hkind type) fun _ => stays_ite (stays_pure _) (stays_fail _)

theorem stays_skipNewlines : Stays kind skipNewlines := fun s hs => hkind.rest s _ hs

theorem stays_setNode {change : Node → Node} (hn : mine n)
    (hchange : ∀ node : Node, (change node).child = node.child ∨ (change node).child.length ≤ 3) :
    Stays kind (setNode n change) := fun s hs => hkind.write s n change hn hchange hs

omit hkind in
theorem newNode_cases (type : NodeType) (line : Nat) (s : Parser) :
    newNode type line s = .ok s.nodes.length (s.push (blankNode type line)) ∨
      newNode type line s = .error (.error (ascii "too many AST nodes")) s := by
  by_cases hfull : maxNodes ≤ s.nodes.length
  · refine .inr ?_
    rw [newNode, bind_run (rfl : (get : Parse Parser) s = .ok s s), if_pos hfull]
    rfl
  · refine .inl ?_
    rw [newNode, bind_run (rfl : (get : Parse Parser) s = .ok s s), if_neg hfull]
    rfl

/-- A new node, and then the rest. -/
theorem stays_newNode {type : NodeType} {line : Nat} {f : Nat → Parse α}
    (hf : ∀ n, mine n → Stays kind (f n)) : Stays kind (newNode type line >>= f) := by
  intro s hs
  rcases newNode_cases type line s with hrun | hrun
  · rw [bind_run hrun]
    exact hf _ (hkind.fresh s hs) _ (hkind.push s _ rfl hs)
  · rw [bind_error hrun]
    exact hs

theorem stays_writtenNode {type : NodeType} {line : Nat} {change : Node → Node}
    {f : Nat → Parse α}
    (hchange : ∀ node : Node, (change node).child = node.child ∨ (change node).child.length ≤ 3)
    (hf : ∀ n, mine n → Stays kind (f n)) :
    Stays kind (writtenNode type line change >>= f) := by
  have hbind : writtenNode type line change >>= f =
      newNode type line >>= fun n => setNode n change >>= fun _ => f n := by
    simp only [writtenNode, bind_assoc, pure_bind]
  rw [hbind]
  exact stays_newNode hkind fun n hn => stays_bind (stays_setNode hkind hn hchange) fun _ => hf n hn

/-- The same at the end of a text. -/
theorem stays_lastNode {type : NodeType} {line : Nat} {change : Node → Node}
    (hchange : ∀ node : Node, (change node).child = node.child ∨ (change node).child.length ≤ 3) :
    Stays kind (writtenNode type line change) :=
  stays_newNode hkind fun _ hn => stays_bind (stays_setNode hkind hn hchange) fun _ => stays_pure _

/-- A child is appended after a look at the number. -/
theorem stays_checkedChild {c : Nat} {e : Parse Unit} {f : Unit → Parse α}
    (he : Stays kind (e >>= f)) (hf : Stays kind (f ())) :
    Stays kind (childCount n >>= fun count =>
      if maxChildren ≤ count then e >>= f else addChild n c >>= f) := by
  intro s hs
  rw [bind_run (childCount_run n)]
  split_ifs with hfull
  · exact he s hs
  · exact hf _ (hkind.add s n c (.inr (not_le.mp hfull)) hs)

/-! ## Expressions -/

theorem stays_parseArgs (hexpr : Stays kind expr) (n fuel : Nat) :
    Stays kind (parseArgs expr n fuel) := by
  induction fuel with
  | zero => exact stays_throw _
  | succ fuel ih =>
      refine stays_bind (stays_check _) fun _ => stays_bind (stays_check _) fun _ =>
        stays_ite (stays_pure _) (stays_bind hexpr fun arg => ?_)
      refine stays_checkedChild hkind (stays_bind (stays_fail _) fun _ => ?_) ?_
      all_goals
        exact stays_bind (stays_matchToken hkind _) fun _ => stays_ite ih (stays_pure _)

theorem stays_parsePrimary (hexpr : Stays kind expr) (fuel : Nat) :
    Stays kind (parsePrimary expr fuel) := by
  have hsame : ∀ node : Node, (node.child = node.child ∨ node.child.length ≤ 3) :=
    fun _ => .inl rfl
  refine stays_bind stays_peek fun t => ?_
  split
  case h_5 =>
    refine stays_bind (stays_advance hkind) fun _ => stays_bind (stays_check _) fun _ =>
      stays_ite (stays_bind (stays_advance hkind) fun _ => ?_) (stays_lastNode hkind hsame)
    exact stays_writtenNode hkind hsame fun n _ =>
      stays_bind (stays_parseArgs hkind hexpr n fuel) fun _ =>
        stays_bind (stays_expect hkind _ _) fun _ => stays_pure _
  case h_6 =>
    exact stays_bind (stays_advance hkind) fun _ => stays_bind hexpr fun _ =>
      stays_bind (stays_expect hkind _ _) fun _ => stays_pure _
  case h_7 => exact stays_fail _
  all_goals
    exact stays_bind (stays_advance hkind) fun _ => stays_lastNode hkind hsame

theorem stays_parseUnary (hexpr : Stays kind expr) (fuel depth : Nat) :
    Stays kind (parseUnary expr fuel depth) := by
  induction depth with
  | zero => exact stays_throw _
  | succ depth ih =>
      refine stays_bind stays_peek fun t => stays_ite ?_ (stays_parsePrimary hkind hexpr fuel)
      exact stays_bind (stays_advance hkind) fun _ => stays_bind ih fun operand =>
        stays_lastNode hkind fun _ => .inr (by simp)

theorem stays_parseOperators {operand : Parse Nat} (hoperand : Stays kind operand)
    (ops : List TokenType) (fuel left : Nat) :
    Stays kind (parseOperators operand ops fuel left) := by
  induction fuel generalizing left with
  | zero => exact stays_throw _
  | succ fuel ih =>
      refine stays_bind stays_peek fun t => stays_ite ?_ (stays_pure _)
      exact stays_bind (stays_advance hkind) fun _ => stays_bind hoperand fun right =>
        stays_writtenNode hkind (fun _ => .inr (by simp)) fun n _ => ih n

theorem stays_parseBinary {operand : Parse Nat} (hoperand : Stays kind operand)
    (ops : List TokenType) (fuel : Nat) : Stays kind (parseBinary operand ops fuel) :=
  stays_bind hoperand fun left => stays_parseOperators hkind hoperand ops fuel left

theorem stays_parseExpr (fuel : Nat) : Stays kind (parseExpr fuel) := by
  induction fuel with
  | zero => exact stays_throw _
  | succ fuel ih =>
      have hunary := stays_parseUnary hkind ih (fuel + 1) (fuel + 1)
      have hmul := stays_parseBinary hkind hunary [.star, .slash, .percent] (fuel + 1)
      have hadd := stays_parseBinary hkind hmul [.plus, .minus] (fuel + 1)
      have hcmp := stays_parseBinary hkind hadd [.eq, .neq, .lt, .le, .gt, .ge] (fuel + 1)
      have hand := stays_parseBinary hkind hcmp [.and] (fuel + 1)
      exact stays_parseBinary hkind hand [.or] (fuel + 1)

/-! ## Statements -/

/-- A statement has been read for the block. -/
theorem stays_addStmt {rest : Parse Unit} (hrest : Stays kind rest) (full : String)
    (block st : Nat) :
    Stays kind (do
      if maxChildren ≤ (← childCount block) then fail full
      addChild block st
      skipNewlines
      rest : Parse Unit) := by
  refine stays_checkedChild hkind (stays_bind (stays_fail _) fun _ => ?_) ?_
  all_goals
    exact stays_bind (stays_skipNewlines hkind) fun _ => hrest

theorem stays_parseStmts (hstmt : Stays kind stmt) (ends : List TokenType) (full : String)
    (block fuel : Nat) : Stays kind (parseStmts stmt ends full block fuel) := by
  induction fuel with
  | zero => exact stays_throw _
  | succ fuel ih =>
      exact stays_bind stays_peek fun t => stays_ite (stays_pure _)
        (stays_bind hstmt fun st => stays_addStmt hkind ih full block st)

theorem stays_parseBlock (hstmt : Stays kind stmt) (fuel : Nat) :
    Stays kind (parseBlock stmt fuel) := by
  refine stays_bind stays_peek fun t => stays_bind (stays_expect hkind _ _) fun _ => ?_
  refine stays_newNode hkind fun n _ => stays_bind (stays_skipNewlines hkind) fun _ => ?_
  exact stays_bind (stays_parseStmts hkind hstmt _ _ n fuel) fun _ =>
    stays_bind (stays_matchToken hkind _) fun _ => stays_pure _

theorem stays_parseBody (hstmt : Stays kind stmt) (fuel : Nat) (text : String) :
    Stays kind (parseBody stmt fuel text) :=
  stays_bind (stays_expect hkind _ _) fun _ => stays_bind (stays_matchToken hkind _) fun _ =>
    stays_parseBlock hkind hstmt fuel

theorem stays_parseReturn (hexpr : Stays kind expr) : Stays kind (parseReturn expr) := by
  refine stays_bind stays_peek fun t => stays_bind (stays_advance hkind) fun _ => ?_
  refine stays_newNode hkind fun n hn => ?_
  have hend : Stays kind (matchToken .newline >>= fun _ => pure n : Parse Nat) :=
    stays_bind (stays_matchToken hkind _) fun _ => stays_pure _
  refine stays_bind (stays_check _) fun _ => stays_bind (stays_check _) fun _ => stays_ite ?_ hend
  exact stays_bind hexpr fun value =>
    stays_bind (stays_setNode hkind hn fun _ => .inr (by simp)) fun _ => hend

theorem stays_parseJump (type : NodeType) : Stays kind (parseJump type) :=
  stays_bind stays_peek fun _ => stays_bind (stays_advance hkind) fun _ =>
    stays_bind (stays_matchToken hkind _) fun _ => by
      rw [← bind_pure (newNode _ _)]
      exact stays_newNode hkind fun _ _ => stays_pure _

theorem stays_parseIf (hexpr : Stays kind expr) (hstmt : Stays kind stmt) (fuel : Nat) :
    Stays kind (parseIf expr stmt fuel) := by
  refine stays_bind stays_peek fun t => stays_bind (stays_advance hkind) fun _ => ?_
  refine stays_newNode hkind fun n hn => stays_bind hexpr fun cond => ?_
  refine stays_bind (stays_parseBody hkind hstmt fuel _) fun body => ?_
  refine stays_bind (stays_setNode hkind hn fun _ => .inr (by simp)) fun _ => ?_
  refine stays_bind (stays_skipNewlines hkind) fun _ => stays_bind (stays_check _) fun _ => ?_
  refine stays_ite (stays_bind hstmt fun elif => ?_) (stays_bind (stays_check _) fun _ => ?_)
  · exact stays_bind (stays_setNode hkind hn fun _ => .inr (by simp)) fun _ => stays_pure _
  · refine stays_ite (stays_bind (stays_advance hkind) fun _ => ?_) (stays_pure _)
    exact stays_bind (stays_parseBody hkind hstmt fuel _) fun elseBody =>
      stays_bind (stays_setNode hkind hn fun _ => .inr (by simp)) fun _ => stays_pure _

theorem stays_parseWhile (hexpr : Stays kind expr) (hstmt : Stays kind stmt) (fuel : Nat) :
    Stays kind (parseWhile expr stmt fuel) := by
  refine stays_bind stays_peek fun t => stays_bind (stays_advance hkind) fun _ => ?_
  refine stays_newNode hkind fun n hn => stays_bind hexpr fun cond => ?_
  refine stays_bind (stays_parseBody hkind hstmt fuel _) fun body => ?_
  exact stays_bind (stays_setNode hkind hn fun _ => .inr (by simp)) fun _ => stays_pure _

theorem stays_parseFor (hexpr : Stays kind expr) (hstmt : Stays kind stmt) (fuel : Nat) :
    Stays kind (parseFor expr stmt fuel) := by
  refine stays_bind stays_peek fun t => stays_bind (stays_advance hkind) fun _ => ?_
  refine stays_bind stays_peek fun var => ?_
  have hrest : Stays kind (do
      advance
      expect .in_ "expected 'in' after for variable"
      let n ← writtenNode .for_ t.line fun node => { node with strVal := var.strVal }
      let iter ← expr
      let body ← parseBody stmt fuel "expected ':' after for iterable"
      setNode n fun node => { node with child := [iter, body] }
      return n : Parse Nat) := by
    refine stays_bind (stays_advance hkind) fun _ => stays_bind (stays_expect hkind _ _) fun _ => ?_
    refine stays_writtenNode hkind (fun _ => .inl rfl) fun n hn => stays_bind hexpr fun iter => ?_
    refine stays_bind (stays_parseBody hkind hstmt fuel _) fun body => ?_
    exact stays_bind (stays_setNode hkind hn fun _ => .inr (by simp)) fun _ => stays_pure _
  exact stays_ite (stays_bind (stays_fail _) fun _ => hrest) hrest

theorem stays_parseAssign (hexpr : Stays kind expr) : Stays kind (parseAssign expr) := by
  refine stays_bind stays_peek fun t => stays_bind (stays_advance hkind) fun _ => ?_
  refine stays_bind (stays_advance hkind) fun _ => ?_
  refine stays_writtenNode hkind (fun _ => .inl rfl) fun n hn => stays_bind hexpr fun value => ?_
  exact stays_bind (stays_setNode hkind hn fun _ => .inr (by simp)) fun _ =>
    stays_bind (stays_matchToken hkind _) fun _ => stays_pure _

theorem stays_parseExprStmt (hexpr : Stays kind expr) : Stays kind (parseExprStmt expr) :=
  stays_bind hexpr fun _ => stays_bind (stays_matchToken hkind _) fun _ => stays_pure _

theorem stays_addChild (hfree : free) (n c : Nat) : Stays kind (addChild n c) :=
  fun s hs => hkind.add s n c (.inl hfree) hs

theorem stays_addChecked (n c : Nat) : Stays kind (addChecked n c) := by
  intro s hs
  rw [addChecked, bind_run (count_run n s)]
  split_ifs with hfull
  · exact hs
  · exact hkind.add s n c (.inr (not_le.mp hfull)) hs

variable {add : Nat → Nat → Parse Unit} (hadd : ∀ n c, Stays kind (add n c))

include hadd

theorem stays_parseParams (n fuel : Nat) : Stays kind (parseParamsBy add n fuel) := by
  induction fuel with
  | zero => exact stays_throw _
  | succ fuel ih =>
      refine stays_bind (stays_check _) fun _ => stays_bind (stays_check _) fun _ => ?_
      refine stays_ite (stays_pure _) (stays_bind stays_peek fun param => ?_)
      refine stays_ite (stays_bind (stays_fail _) fun _ => ?_) ?_
      all_goals
        refine stays_bind (stays_advance hkind) fun _ => ?_
        refine stays_writtenNode hkind (fun _ => .inl rfl) fun pn _ => ?_
        exact stays_bind (hadd n pn) fun _ => stays_bind (stays_matchToken hkind _) fun _ =>
          stays_ite ih (stays_pure _)

theorem stays_parseDef (hstmt : Stays kind stmt) (fuel : Nat) :
    Stays kind (parseDefBy add stmt fuel) := by
  refine stays_bind stays_peek fun t => stays_bind (stays_advance hkind) fun _ => ?_
  refine stays_bind stays_peek fun name => stays_ite (stays_bind (stays_fail _) fun _ => ?_) ?_
  all_goals
    refine stays_bind (stays_advance hkind) fun _ => ?_
    refine stays_writtenNode hkind (fun _ => .inl rfl) fun n _ => ?_
    refine stays_bind (stays_expect hkind _ _) fun _ => ?_
    refine stays_bind (stays_parseParams hkind hadd n fuel) fun _ => ?_
    refine stays_bind (stays_expect hkind _ _) fun _ => ?_
    exact stays_bind (stays_parseBody hkind hstmt fuel _) fun body =>
      stays_bind (hadd n body) fun _ => stays_pure _

theorem stays_parseStmtWith (hexpr : Stays kind expr) (hstmt : Stays kind stmt) (fuel : Nat) :
    Stays kind (parseStmtWithBy add expr stmt fuel) := by
  refine stays_bind stays_peek fun t => ?_
  split
  · exact stays_parseReturn hkind hexpr
  · exact stays_parseJump hkind _
  · exact stays_parseJump hkind _
  · exact stays_parseDef hkind hadd hstmt fuel
  · exact stays_parseIf hkind hexpr hstmt fuel
  · exact stays_parseIf hkind hexpr hstmt fuel
  · exact stays_parseWhile hkind hexpr hstmt fuel
  · exact stays_parseFor hkind hexpr hstmt fuel
  · refine stays_bind (fun s hs => ?_) fun _ =>
      stays_ite (stays_parseAssign hkind hexpr) (stays_parseExprStmt hkind hexpr)
    obtain ⟨seen, hseen⟩ := atAssign_run s
    rw [hseen]
    exact hs

theorem stays_parseStmt (fuel : Nat) : Stays kind (parseStmtBy add fuel) := by
  induction fuel with
  | zero => exact stays_throw _
  | succ fuel ih => exact stays_parseStmtWith hkind hadd (stays_parseExpr hkind _) ih _

theorem stays_parseProgram (fuel : Nat) : Stays kind (parseProgramBy add fuel) :=
  stays_newNode hkind fun n _ => stays_bind (stays_skipNewlines hkind) fun _ =>
    stays_bind (stays_parseStmts hkind (stays_parseStmt hkind hadd fuel) _ _ n fuel) fun _ =>
      stays_pure _

end

/-! ## The two parsers side by side -/

/-- There are at least so many nodes. -/
def AtLeast (lo : Nat) (s : Parser) : Prop := lo ≤ s.nodes.length

theorem atLeast_robust (lo : Nat) : Robust (AtLeast lo) (fun _ => True) True where
  rest _ _ hle := hle
  push s node _ hle := by
    rw [AtLeast, Parser.push_nodes, List.length_append]
    exact le_trans hle (Nat.le_add_right _ _)
  fresh _ _ := trivial
  write s n change _ _ hle := by
    rwa [AtLeast, Parser.write_nodes, List.length_modify]
  add s n c _ hle := by
    rwa [AtLeast, Parser.write_nodes, List.length_modify]

/-- From a state with `lo` nodes on, both texts do the same unless the first one refuses, and
then the second one ends with too many children of a node behind those. -/
def Follows (lo : Nat) (x x' : Parse α) : Prop :=
  ∀ s, AtLeast lo s → x s = x' s ∨
    (∃ s', x s = .error refused s') ∧ ∃ i, lo ≤ i ∧ Overfull i (lastState (x' s))

section

variable {lo : Nat} {x x' : Parse α} {f f' : α → Parse β}

theorem follows_refl (x : Parse α) : Follows lo x x := fun _ _ => .inl rfl

/-- Parts of the texts, and then the rest of them. -/
theorem follows_bind (hx : Follows lo x x') (hgrows : Stays (AtLeast lo) x')
    (hf : ∀ a, Follows lo (f a) (f' a)) (hstays : ∀ a i, lo ≤ i → Stays (Overfull i) (f' a)) :
    Follows lo (x >>= f) (x' >>= f') := by
  intro s hlo
  have hgrown := hgrows s hlo
  rcases hx s hlo with hsame | ⟨⟨s', hrefuses⟩, i, hi, hover⟩
  · cases hrun : x' s with
    | ok a s' =>
        rw [hrun] at hsame hgrown
        rw [bind_run hsame, bind_run hrun]
        exact hf a s' hgrown
    | error e s' =>
        rw [hrun] at hsame
        rw [bind_error hsame, bind_error hrun]
        exact .inl rfl
  · refine .inr ⟨⟨s', bind_error hrefuses⟩, i, hi, ?_⟩
    cases hrun : x' s with
    | ok a s'' =>
        rw [hrun] at hover
        rw [bind_run hrun]
        exact hstays a i hi s'' hover
    | error e s'' =>
        rw [hrun] at hover
        rw [bind_error hrun]
        exact hover

/-- A common part, and then the rest. -/
theorem follows_after (hgrows : Stays (AtLeast lo) x) (hf : ∀ a, Follows lo (f a) (f' a)) :
    Follows lo (x >>= f) (x >>= f') := by
  intro s hlo
  have hgrown := hgrows s hlo
  cases hrun : x s with
  | ok a s' =>
      rw [hrun] at hgrown
      rw [bind_run hrun, bind_run hrun]
      exact hf a s' hgrown
  | error e s' =>
      rw [bind_error hrun, bind_error hrun]
      exact .inl rfl

theorem follows_ite {c : Prop} [Decidable c] {y y' : Parse α} (hx : Follows lo x x')
    (hy : Follows lo y y') : Follows lo (if c then x else y) (if c then x' else y') := by
  split_ifs
  · exact hx
  · exact hy

/-- A new node, and then the rest: what is appended to behind it is behind it. -/
theorem follows_newNode {type : NodeType} {line : Nat} {f f' : Nat → Parse β} {start : Nat → Nat}
    (hstart : ∀ n, n ≤ start n ∧ start n ≤ n + 1)
    (hf : ∀ n, lo ≤ n → Follows (start n) (f n) (f' n)) :
    Follows lo (newNode type line >>= f) (newNode type line >>= f') := by
  intro s hlo
  have hle : lo ≤ s.nodes.length := hlo
  obtain ⟨hge, hnext⟩ := hstart s.nodes.length
  rcases newNode_cases type line s with hrun | hrun
  · rw [bind_run hrun, bind_run hrun]
    refine (hf _ hlo _ (by simpa [AtLeast] using hnext)).imp_right ?_
    rintro ⟨hrefuses, i, hi, hover⟩
    exact ⟨hrefuses, i, by omega, hover⟩
  · rw [bind_error hrun, bind_error hrun]
    exact .inl rfl

theorem follows_writtenNode {type : NodeType} {line : Nat} {change : Node → Node}
    {f f' : Nat → Parse β} {start : Nat → Nat} (hstart : ∀ n, n ≤ start n ∧ start n ≤ n + 1)
    (hchange : ∀ node : Node, (change node).child = node.child)
    (hf : ∀ n, lo ≤ n → Follows (start n) (f n) (f' n)) :
    Follows lo (writtenNode type line change >>= f) (writtenNode type line change >>= f') := by
  simp only [writtenNode, bind_assoc, pure_bind]
  refine follows_newNode hstart fun n hn => follows_after ?_ fun _ => hf n hn
  exact stays_setNode (atLeast_robust _) trivial fun node => .inl (hchange node)

/-- Appending a child, with and without a look. -/
theorem follows_add {n c : Nat} (hn : lo ≤ n) : Follows lo (addChecked n c) (addChild n c) := by
  intro s _
  by_cases hfull : maxChildren ≤ s.count n
  · have hrefuses : addChecked n c s = .error refused s := by
      rw [addChecked, bind_run (count_run n s), if_pos hfull]
      rfl
    refine .inr ⟨⟨s, hrefuses⟩, n, hn, ?_⟩
    change Overfull n (s.write n fun node => { node with child := node.child ++ [c] })
    cases hnode : s.nodes[n]? with
    | none =>
        rw [Parser.count, hnode] at hfull
        exact absurd hfull (by decide)
    | some node =>
        rw [Parser.count, hnode] at hfull
        rw [Overfull, count_write, if_pos rfl, hnode]
        simpa [Nat.lt_succ_iff] using hfull
  · refine .inl ?_
    rw [addChecked, bind_run (count_run n s), if_neg hfull]

end

/-- The two versions of the parser of a statement. -/
structure Versions (x x' : Parse Nat) : Prop where
  follows : ∀ lo, Follows lo x x'
  grows : ∀ lo, Stays (AtLeast lo) x'
  stays : ∀ i, Stays (Overfull i) x'

section

variable {lo : Nat}

theorem follows_parseParams (hn : lo ≤ n) (fuel : Nat) :
    Follows lo (parseParamsBy addChecked n fuel) (parseParamsBy addChild n fuel) := by
  have hgrows := atLeast_robust lo
  induction fuel with
  | zero => exact follows_refl _
  | succ fuel ih =>
      refine follows_after (stays_check _) fun _ => follows_after (stays_check _) fun _ => ?_
      refine follows_ite (follows_refl _) (follows_after stays_peek fun param => ?_)
      refine follows_ite (follows_after (stays_fail _) fun _ => ?_) ?_
      all_goals
        refine follows_after (stays_advance hgrows) fun _ => ?_
        refine follows_after (stays_lastNode hgrows fun _ => .inl rfl) fun pn => ?_
        refine follows_bind (follows_add hn) (stays_addChild hgrows trivial n pn) (fun _ => ?_)
          fun _ i _ => ?_
        · exact follows_after (stays_matchToken hgrows _) fun _ => follows_ite ih (follows_refl _)
        · have hover := overfull_robust i
          exact stays_bind (stays_matchToken hover _) fun _ =>
            stays_ite (stays_parseParams hover (stays_addChild hover trivial) n fuel) (stays_pure _)

theorem follows_parseStmts (hstmt : Versions stmt stmt') (ends : List TokenType) (full : String)
    (block fuel : Nat) :
    Follows lo (parseStmts stmt ends full block fuel) (parseStmts stmt' ends full block fuel) := by
  have hgrows := atLeast_robust lo
  induction fuel with
  | zero => exact follows_refl _
  | succ fuel ih =>
      refine follows_after stays_peek fun t => follows_ite (follows_refl _) ?_
      refine follows_bind (hstmt.follows lo) (hstmt.grows lo) (fun st => ?_) fun st i _ => ?_
      · have hadd := stays_addChild hgrows trivial block st
        have hrest := follows_after hadd fun _ =>
          follows_after (stays_skipNewlines hgrows) fun _ => ih
        exact follows_after (stays_childCount _) fun _ =>
          follows_ite (follows_after (stays_fail _) fun _ => hrest) hrest
      · have hover := overfull_robust i
        exact stays_addStmt hover (stays_parseStmts hover (hstmt.stays i) ends full block fuel)
          full block st

theorem follows_parseBlock (hstmt : Versions stmt stmt') (fuel : Nat) :
    Follows lo (parseBlock stmt fuel) (parseBlock stmt' fuel) := by
  have hgrows := atLeast_robust lo
  refine follows_after stays_peek fun t => follows_after (stays_expect hgrows _ _) fun _ => ?_
  refine follows_newNode (fun n => ⟨Nat.le_succ n, le_rfl⟩) fun n _ => ?_
  have hgrows' := atLeast_robust (n + 1)
  refine follows_after (stays_skipNewlines hgrows') fun _ => ?_
  refine follows_bind (follows_parseStmts hstmt _ _ n fuel)
    (stays_parseStmts hgrows' (hstmt.grows _) _ _ n fuel) (fun _ => follows_refl _) fun _ i _ => ?_
  exact stays_bind (stays_matchToken (overfull_robust i) _) fun _ => stays_pure _

theorem follows_parseBody (hstmt : Versions stmt stmt') (fuel : Nat) (text : String) :
    Follows lo (parseBody stmt fuel text) (parseBody stmt' fuel text) :=
  follows_after (stays_expect (atLeast_robust lo) _ _) fun _ =>
    follows_after (stays_matchToken (atLeast_robust lo) _) fun _ => follows_parseBlock hstmt fuel

theorem follows_parseDef (hstmt : Versions stmt stmt') (fuel : Nat) :
    Follows lo (parseDefBy addChecked stmt fuel) (parseDefBy addChild stmt' fuel) := by
  have hgrows := atLeast_robust lo
  refine follows_after stays_peek fun t => follows_after (stays_advance hgrows) fun _ => ?_
  refine follows_after stays_peek fun name => follows_ite (follows_after (stays_fail _) fun _ => ?_)
    ?_
  all_goals
    refine follows_after (stays_advance hgrows) fun _ => ?_
    refine follows_writtenNode (fun n => ⟨le_rfl, Nat.le_succ n⟩) (fun _ => rfl) fun n hn => ?_
    have hgrows' := atLeast_robust n
    refine follows_after (stays_expect hgrows' _ _) fun _ => ?_
    refine follows_bind (follows_parseParams le_rfl fuel)
      (stays_parseParams hgrows' (stays_addChild hgrows' trivial) n fuel) (fun _ => ?_)
      fun _ i _ => ?_
    · refine follows_after (stays_expect hgrows' _ _) fun _ => ?_
      refine follows_bind (follows_parseBody hstmt fuel _)
        (stays_parseBody hgrows' (hstmt.grows n) fuel _) (fun body => ?_) fun body i _ => ?_
      · exact follows_bind (follows_add le_rfl) (stays_addChild hgrows' trivial n body)
          (fun _ => follows_refl _) fun _ _ _ => stays_pure _
      · exact stays_bind (stays_addChild (overfull_robust i) trivial n body) fun _ => stays_pure _
    · have hover := overfull_robust i
      exact stays_bind (stays_expect hover _ _) fun _ =>
        stays_bind (stays_parseBody hover (hstmt.stays i) fuel _) fun body =>
          stays_bind (stays_addChild hover trivial n body) fun _ => stays_pure _

/-- Writing into a node at the end. -/
theorem stays_close {change : Node → Node} (hi : n < i) (hchange : ∀ node : Node,
    (change node).child.length ≤ 3) :
    Stays (Overfull i) (setNode n change >>= fun _ => pure n : Parse Nat) :=
  stays_bind (stays_setNode (overfull_robust i) (ne_of_lt hi) fun node => .inr (hchange node))
    fun _ => stays_pure _

theorem follows_parseIf (hexpr : ∀ lo, Stays (AtLeast lo) expr) (hstmt : Versions stmt stmt')
    (fuel : Nat) : Follows lo (parseIf expr stmt fuel) (parseIf expr stmt' fuel) := by
  have hgrows := atLeast_robust lo
  refine follows_after stays_peek fun t => follows_after (stays_advance hgrows) fun _ => ?_
  refine follows_newNode (fun n => ⟨Nat.le_succ n, le_rfl⟩) fun n _ => ?_
  have hgrows' := atLeast_robust (n + 1)
  refine follows_after (hexpr _) fun cond => ?_
  refine follows_bind (follows_parseBody hstmt fuel _)
    (stays_parseBody hgrows' (hstmt.grows _) fuel _) (fun body => ?_) fun body i hi => ?_
  · refine follows_after (stays_setNode hgrows' trivial fun _ => .inr (by simp)) fun _ => ?_
    refine follows_after (stays_skipNewlines hgrows') fun _ => ?_
    refine follows_after (stays_check _) fun _ => follows_ite ?_ ?_
    · exact follows_bind (hstmt.follows _) (hstmt.grows _) (fun _ => follows_refl _)
        fun _ i hi => stays_close hi (by simp)
    · refine follows_after (stays_check _) fun _ => follows_ite ?_ (follows_refl _)
      refine follows_after (stays_advance hgrows') fun _ => ?_
      exact follows_bind (follows_parseBody hstmt fuel _)
        (stays_parseBody hgrows' (hstmt.grows _) fuel _) (fun _ => follows_refl _)
        fun _ i hi => stays_close hi (by simp)
  · have hover := overfull_robust i
    refine stays_bind (stays_setNode hover (ne_of_lt hi) fun _ => .inr (by simp)) fun _ => ?_
    refine stays_bind (stays_skipNewlines hover) fun _ => stays_bind (stays_check _) fun _ => ?_
    refine stays_ite (stays_bind (hstmt.stays i) fun elif => stays_close hi (by simp)) ?_
    refine stays_bind (stays_check _) fun _ => stays_ite ?_ (stays_pure _)
    exact stays_bind (stays_advance hover) fun _ =>
      stays_bind (stays_parseBody hover (hstmt.stays i) fuel _) fun _ => stays_close hi (by simp)

theorem follows_parseWhile (hexpr : ∀ lo, Stays (AtLeast lo) expr) (hstmt : Versions stmt stmt')
    (fuel : Nat) : Follows lo (parseWhile expr stmt fuel) (parseWhile expr stmt' fuel) := by
  have hgrows := atLeast_robust lo
  refine follows_after stays_peek fun t => follows_after (stays_advance hgrows) fun _ => ?_
  refine follows_newNode (fun n => ⟨Nat.le_succ n, le_rfl⟩) fun n _ => ?_
  refine follows_after (hexpr _) fun cond => ?_
  exact follows_bind (follows_parseBody hstmt fuel _)
    (stays_parseBody (atLeast_robust (n + 1)) (hstmt.grows _) fuel _) (fun _ => follows_refl _)
    fun _ i hi => stays_close hi (by simp)

theorem follows_parseFor (hexpr : ∀ lo, Stays (AtLeast lo) expr) (hstmt : Versions stmt stmt')
    (fuel : Nat) : Follows lo (parseFor expr stmt fuel) (parseFor expr stmt' fuel) := by
  have hgrows := atLeast_robust lo
  refine follows_after stays_peek fun t => follows_after (stays_advance hgrows) fun _ => ?_
  refine follows_after stays_peek fun var => follows_ite (follows_after (stays_fail _) fun _ => ?_)
    ?_
  all_goals
    refine follows_after (stays_advance hgrows) fun _ => ?_
    refine follows_after (stays_expect hgrows _ _) fun _ => ?_
    refine follows_writtenNode (fun n => ⟨Nat.le_succ n, le_rfl⟩) (fun _ => rfl) fun n _ => ?_
    refine follows_after (hexpr _) fun iter => ?_
    exact follows_bind (follows_parseBody hstmt fuel _)
      (stays_parseBody (atLeast_robust (n + 1)) (hstmt.grows _) fuel _) (fun _ => follows_refl _)
      fun _ i hi => stays_close hi (by simp)

theorem follows_parseStmtWith (hexpr : ∀ lo, Stays (AtLeast lo) expr)
    (hstmt : Versions stmt stmt') (fuel : Nat) :
    Follows lo (parseStmtWithBy addChecked expr stmt fuel)
      (parseStmtWithBy addChild expr stmt' fuel) := by
  refine follows_after stays_peek fun t => ?_
  split
  · exact follows_refl _
  · exact follows_refl _
  · exact follows_refl _
  · exact follows_parseDef hstmt fuel
  · exact follows_parseIf hexpr hstmt fuel
  · exact follows_parseIf hexpr hstmt fuel
  · exact follows_parseWhile hexpr hstmt fuel
  · exact follows_parseFor hexpr hstmt fuel
  · exact follows_refl _

theorem versions_parseStmt (fuel : Nat) :
    Versions (parseStmtBy addChecked fuel) (parseStmtBy addChild fuel) := by
  have hgrows : ∀ fuel lo, Stays (AtLeast lo) (parseStmtBy addChild fuel) := fun _ lo =>
    stays_parseStmt (atLeast_robust lo) (stays_addChild (atLeast_robust lo) trivial) _
  have hstays : ∀ fuel i, Stays (Overfull i) (parseStmtBy addChild fuel) := fun _ i =>
    stays_parseStmt (overfull_robust i) (stays_addChild (overfull_robust i) trivial) _
  induction fuel with
  | zero => exact ⟨fun _ => follows_refl _, hgrows _, hstays _⟩
  | succ fuel ih =>
      have hexpr : ∀ lo, Stays (AtLeast lo) (parseExpr (fuel + 1)) :=
        fun lo => stays_parseExpr (atLeast_robust lo) _
      exact ⟨fun lo => follows_parseStmtWith hexpr ih _, hgrows _, hstays _⟩

theorem follows_parseProgram (fuel : Nat) :
    Follows lo (parseProgramBy addChecked fuel) (parseProgram fuel) := by
  rw [← parseProgramBy_addChild]
  refine follows_newNode (fun n => ⟨Nat.le_succ n, le_rfl⟩) fun n _ => ?_
  have hgrows := atLeast_robust (n + 1)
  refine follows_after (stays_skipNewlines hgrows) fun _ => ?_
  have hstmt := versions_parseStmt fuel
  exact follows_bind (follows_parseStmts hstmt _ _ n fuel)
    (stays_parseStmts hgrows (hstmt.grows _) _ _ n fuel) (fun _ => follows_refl _)
    fun _ _ _ => stays_pure _

end

/-! ## The tree of a program -/

/-- The node `n` is the root or below it. -/
def InTree (nodes : List Node) (root n : Nat) : Prop :=
  Relation.ReflTransGen (Edge Node.child nodes) root n

/-- What is in the pool at the root is a tree, with few children at every node and the ones
that its type asks for. -/
structure WellFormed (nodes : List Node) (root : Nat) : Prop where
  found : ∀ n, InTree nodes root n → n < nodes.length
  few : ∀ n node, InTree nodes root n → nodes[n]? = some node →
    node.child.length ≤ maxChildren ∧ node.child.Nodup
  shape : ∀ n node, InTree nodes root n → nodes[n]? = some node →
    ∃ types, node.child.map (typeAt nodes) = types.map some ∧ Shape node.type types
  parent : ∀ p q c, InTree nodes root p → InTree nodes root q → Edge Node.child nodes p c →
    Edge Node.child nodes q c → p = q
  acyclic : ∀ n, InTree nodes root n → ¬ Relation.TransGen (Edge Node.child nodes) n n

/-- A parse that returns a root has made a tree, and no parse has written behind the children
of a node.  (The number of children of a node only shrinks when it is given at most three.) -/
structure ParsesWell (tokens : List Token) : Prop where
  tree : ∀ root p, gkParse tokens = .ok root p → WellFormed p.nodes root
  bounds : AllFit (lastState (gkParse tokens))

theorem Trees.wellFormed {root : Nat} {types : List NodeType} {nodes : List Node}
    (htrees : Trees 0 nodes [root] types) (hfit : ∀ node ∈ nodes, node.child.length ≤ maxChildren) :
    WellFormed nodes root := by
  obtain ⟨members, hforest, hperm⟩ := htrees.forest
  have hnodup : members.Nodup := hperm.nodup_iff.mpr (List.nodup_range' 1 Nat.one_pos)
  have hmem : ∀ n, InTree nodes root n → n ∈ members :=
    fun n hn => hforest.closed_trans (hforest.root_mem (List.mem_singleton_self root)) hn
  constructor
  case found => exact fun n hn => (mem_of_perm_range hperm (hmem n hn)).2
  case few =>
    intro n node hn hnode
    have hchildren := hforest.child_nodup hnodup (hmem n hn)
    rw [childrenAt, hnode] at hchildren
    exact ⟨hfit node (List.mem_of_getElem? hnode), hchildren⟩
  case shape => exact fun n node _ hnode => htrees.shape hnode
  case parent =>
    exact fun p q c hp hq hpc hqc => hforest.parent_unique hnodup (hmem p hp) (hmem q hq) hpc hqc
  case acyclic => exact fun n hn => hforest.acyclic hnodup (hmem n hn)

/-- **The parser makes trees unless a definition is too long.**  It does exactly if the parser
that looks before it appends a parameter or the body of a definition does not refuse to. -/
theorem gkParse_wellFormed (tokens : List Token) :
    ParsesWell tokens ↔ ∀ p, gkParseChecked tokens ≠ .error refused p := by
  have hcompare : gkParseChecked tokens = gkParse tokens ∨
      (∃ p, gkParseChecked tokens = .error refused p) ∧
        ∃ i, 0 ≤ i ∧ Overfull i (lastState (gkParse tokens)) :=
    follows_parseProgram (tokens.length + 1) ⟨tokens, []⟩ (Nat.zero_le _)
  constructor
  · intro hwell p hrefuses
    rcases hcompare with hsame | ⟨-, i, -, hover⟩
    · obtain ⟨text, htext, hrefused⟩ := ((@parseProgram_confined ⟨tokens, []⟩ _
        (Nat.lt_succ_self _)).error _ p (hsame.symm.trans hrefuses)).2
      have hnot : ∀ text ∈ parserErrors, ascii text ≠ ascii "too many children" := by decide +kernel
      exact hnot text htext (Failure.error.inj hrefused).symm
    · exact absurd (hwell.bounds.count_le i) (not_le.mpr hover)
  · intro hchecks
    have hsame : gkParseChecked tokens = gkParse tokens :=
      hcompare.resolve_right fun hrefuses => hrefuses.1.elim hchecks
    have hfit : AllFit (lastState (gkParse tokens)) := by
      rw [← hsame, gkParseChecked]
      have hstays := stays_parseProgram allFit_robust (stays_addChecked allFit_robust)
        (tokens.length + 1)
      exact hstays ⟨tokens, []⟩ fun _ hnode => absurd hnode List.not_mem_nil
    refine ⟨fun root p hparse => ?_, hfit⟩
    rw [hparse] at hfit
    exact (gkParse_tree hparse).wellFormed hfit

/-- A definition with 64 parameters. -/
def manyParams : Text :=
  ascii "def f(" ++ (List.replicate 63 (ascii "a,")).flatten ++ ascii "a):\n    return 1\n"

/-- Its body is the 65th child. -/
theorem gkParse_manyParams : ¬ ParsesWell (gkLex [] manyParams).2.tokens := by
  intro hwell
  have hfit := hwell.bounds
  revert hfit
  unfold AllFit
  decide +kernel

end GeckoOS.Gk
