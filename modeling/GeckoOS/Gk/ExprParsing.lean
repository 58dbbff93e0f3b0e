/-
# Parsing expressions

`parse_expr` and the functions below it read what the grammar of expressions derives: from
a derivation within the limits they return its tree, and what they return has been derived,
if the liberty of a last comma is granted.

The expression that is read goes on as far as it can, so no operator of its level or of a
tighter one stands behind it.
-/

import GeckoOS.Gk.ExprGrammar
import GeckoOS.Gk.ParserSteps

namespace GeckoOS.Gk

open GeckoOS.Math

/-! ## What a parse function has done when it returns -/

/-- The nodes that were there are still there, and there are no more new ones than tokens have
been read. -/
structure Built (s s' : Parser) : Prop where
  nodes : ∀ i < s.nodes.length, s'.nodes[i]? = s.nodes[i]?
  length : s.nodes.length ≤ s'.nodes.length
  room : s'.nodes.length + s'.rest.length ≤ s.nodes.length + s.rest.length

variable {s s' s'' : Parser} {ts us rest : List Token} {t : Token} {d : Dialect} {e : Expr}
  {level fuel depth : Nat}

theorem Built.refl (s : Parser) : Built s s := ⟨fun _ _ => rfl, le_rfl, le_rfl⟩

theorem Built.trans (hfirst : Built s s') (hsecond : Built s' s'') : Built s s'' where
  nodes i hi := (hsecond.nodes i (Nat.lt_of_lt_of_le hi hfirst.length)).trans (hfirst.nodes i hi)
  length := hfirst.length.trans hsecond.length
  room := hsecond.room.trans hfirst.room

/-- The next token, when the rest begins with it. -/
theorem Parser.head_of_rest (hrest : s.rest = t :: ts) : s.head = t := by
  rw [Parser.head, hrest, List.headD_cons]

/-- What is left when it has been passed. -/
theorem Parser.next_of_rest (hrest : s.rest = t :: ts) (ht : t.type ≠ .eof) :
    s.next = ⟨ts, s.nodes⟩ := by
  rw [Parser.next, Parser.head_of_rest hrest, if_neg ht, hrest, List.tail_cons]

theorem Parser.head_type (s : Parser) : s.head.type = nextType s.rest := rfl

/-- A token that is not EOF begins the rest. -/
theorem Parser.rest_of_head (ht : s.head.type ≠ .eof) : s.rest = s.head :: s.next.rest := by
  cases hrest : s.rest with
  | nil =>
      refine absurd ?_ ht
      rw [Parser.head, hrest]
      rfl
  | cons t ts =>
      rw [Parser.head_of_rest hrest] at ht ⊢
      rw [Parser.next_of_rest hrest ht]

/-! ## What is derived is parsed -/

/-- The parse function of a level.  The depth bounds the chain of unary operators. -/
def parseAt (fuel depth : Nat) : Nat → Parse Nat
  | 0 => parseOr (parseExpr fuel) (fuel + 1)
  | 1 => parseAnd (parseExpr fuel) (fuel + 1)
  | 2 => parseCmp (parseExpr fuel) (fuel + 1)
  | 3 => parseAdd (parseExpr fuel) (fuel + 1)
  | 4 => parseMul (parseExpr fuel) (fuel + 1)
  | _ => parseUnary (parseExpr fuel) (fuel + 1) depth

theorem parseAt_of_lt (hlevel : level < 5) : parseAt fuel depth level =
    parseBinary (parseAt fuel (fuel + 1) (level + 1)) (opsAt level) (fuel + 1) := by
  interval_cases level <;> rfl

/-- A parse function has read the tree `e` and left `rest`. -/
structure Read (s : Parser) (rest : List Token) (e : Expr) (n : Nat) (s' : Parser) : Prop where
  rest : s'.rest = rest
  built : Built s s'
  denotes : Denotes s'.nodes s.nodes.length e n

/-- What a derivation of `sym` says about the parse functions. -/
def Accepts (ts rest : List Token) : ExprSym → Prop
  | .expr level e => ∀ fuel depth s, s.rest = ts → ts.length ≤ fuel + 1 → ts.length ≤ depth →
      s.nodes.length + ts.length ≤ maxNodes + rest.length → StopsAt (level + 1) rest →
      (level < 5 → ∃ left n s', rest.length < left ∧ Read s rest e n s' ∧
        parseAt fuel depth level s =
          parseOperators (parseAt fuel (fuel + 1) (level + 1)) (opsAt level) left n s') ∧
      (5 ≤ level → Returns (parseAt fuel depth level) s (Read s rest e))
  | .args es => ∀ fuel left n s, s.rest = ts → ts.length ≤ fuel → ts.length ≤ left →
      s.nodes.length + ts.length ≤ maxNodes + rest.length →
      (∃ node, s.nodes[n]? = some node ∧ node.child.length + es.length ≤ maxChildren) →
      Returns (parseArgs (parseExpr fuel) n left) s fun _ s' =>
        s'.rest = rest ∧ (∀ i < s.nodes.length, i ≠ n → s'.nodes[i]? = s.nodes[i]?) ∧
        s.nodes.length ≤ s'.nodes.length ∧
        s'.nodes.length + rest.length ≤ s.nodes.length + ts.length ∧
        ∃ ids, DenotesAll s'.nodes (n + 1) es ids ∧ s'.nodes[n]? = s.nodes[n]?.map fun node =>
          { node with child := node.child ++ ids }

/-- The loop of a level stops where its operators end. -/
theorem parseOperators_stop {operand : Parse Nat} {left n : Nat} (hleft : 0 < left)
    (hstops : s.head.type ∉ opsAt level) :
    parseOperators operand (opsAt level) left n s = .ok n s := by
  obtain ⟨left, rfl⟩ := Nat.exists_eq_add_of_lt hleft
  rw [Nat.zero_add, parseOperators, bind_eq_ok]
  refine ⟨s.head, s, peek_run, ?_⟩
  rw [if_neg hstops]
  rfl

/-- So the parse function of the level returns. -/
theorem Accepts.returns (haccepts : Accepts ts rest (.expr level e)) (hrest : s.rest = ts)
    (hfuel : ts.length ≤ fuel + 1) (hdepth : ts.length ≤ depth)
    (hroom : s.nodes.length + ts.length ≤ maxNodes + rest.length) (hstops : StopsAt level rest) :
    Returns (parseAt fuel depth level) s (Read s rest e) := by
  obtain ⟨hbelow, htop⟩ := haccepts fuel depth s hrest hfuel hdepth hroom
    (hstops.mono (Nat.le_succ level))
  rcases Nat.lt_or_ge level 5 with hlevel | hlevel
  · obtain ⟨left, n, s', hleft, hread, hrun⟩ := hbelow hlevel
    refine ⟨n, s', hrun.trans (parseOperators_stop (Nat.zero_lt_of_lt hleft) ?_), hread⟩
    rw [Parser.head_type, hread.rest]
    exact hstops level le_rfl
  · exact htop hlevel

/-- In particular `parse_expr` does. -/
theorem Accepts.returns_parseExpr (haccepts : Accepts ts rest (.expr 0 e)) (hrest : s.rest = ts)
    (hfuel : ts.length ≤ fuel) (hpos : 0 < ts.length)
    (hroom : s.nodes.length + ts.length ≤ maxNodes + rest.length) (hstops : StopsAt 0 rest) :
    Returns (parseExpr fuel) s (Read s rest e) := by
  obtain ⟨fuel, rfl⟩ := Nat.exists_eq_add_of_lt (hpos.trans_le hfuel)
  rw [Nat.zero_add] at hfuel ⊢
  exact haccepts.returns hrest hfuel (Nat.le_succ_of_le hfuel) hroom hstops

/-- The loop of a level reads an operator and its right operand. -/
theorem parseOperators_step {operand : Parse Nat} {ops : List TokenType} {left n right : Nat}
    (hop : s.head.type ∈ ops) (hright : operand s.next = .ok right s')
    (hroom : s'.nodes.length < maxNodes) :
    parseOperators operand ops (left + 1) n s =
      parseOperators operand ops left s'.nodes.length (s'.push
        { blankNode .binop s.head.line with op := some s.head.type, child := [n, right] }) := by
  obtain ⟨m, s'', hmade, rfl, rfl⟩ := (@returns_writtenNode s' (fun m s'' =>
    m = s'.nodes.length ∧ s'' = s'.push
      { blankNode .binop s.head.line with op := some s.head.type, child := [n, right] })
    .binop s.head.line
    fun node => { node with op := some s.head.type, child := [n, right] }).mpr ⟨hroom, rfl, rfl⟩
  rw [parseOperators, bind_run peek_run, if_pos hop, bind_run advance_run, bind_run hright,
    bind_run hmade]

theorem Denotes.push {nodes : List Node} {lo n : Nat} (hdenotes : Denotes nodes lo e n)
    (node : Node) : Denotes (nodes ++ [node]) lo e n :=
  Denotes.congr le_rfl (fun _ _ hi => List.getElem?_append_left hi) e n hdenotes

theorem Built.push (hbuilt : Built s s') (node : Node)
    (hroom : s'.nodes.length + s'.rest.length < s.nodes.length + s.rest.length) :
    Built s (s'.push node) where
  nodes i hi := (List.getElem?_append_left (Nat.lt_of_lt_of_le hi hbuilt.length)).trans
    (hbuilt.nodes i hi)
  length := hbuilt.length.trans (by simp)
  room := by
    rw [Parser.push_nodes, List.length_append, List.length_singleton, Parser.push_rest]
    omega

theorem Built.next (s : Parser) : Built s s.next where
  nodes i _ := by rw [Parser.next_nodes]
  length := by rw [Parser.next_nodes]
  room := by
    rw [Parser.next_nodes, Parser.next]
    split_ifs
    · exact le_rfl
    · simp

/-- At the top level a token that is no unary operator is left to `parse_primary`. -/
theorem returns_parseAt_top {post : Nat → Parser → Prop} (hrest : s.rest = t :: us)
    (hdepth : s.rest.length ≤ depth) (hlevel : 5 ≤ level) (hminus : t.type ≠ .minus)
    (hnot : t.type ≠ .not) : Returns (parseAt fuel depth level) s post ↔
      Returns (parsePrimary (parseExpr fuel) (fuel + 1)) s post := by
  obtain ⟨k, rfl⟩ := Nat.exists_eq_add_of_le' hlevel
  rw [hrest, List.length_cons] at hdepth
  obtain ⟨depth, rfl⟩ := Nat.exists_eq_add_of_le' (Nat.one_le_of_lt hdepth)
  change Returns (parseUnary (parseExpr fuel) (fuel + 1) (depth + 1)) s post ↔ _
  rw [parseUnary, returns_bind, returns_peek, Parser.head_of_rest hrest,
    if_neg (not_or.mpr ⟨hminus, hnot⟩)]

/-- A node for a token that stands for itself. -/
theorem Read.leaf (hrest : s.rest = t :: us) (ht : t.type ≠ .eof) (node : Node)
    (hdenotes : Denotes (s.nodes ++ [node]) s.nodes.length e s.nodes.length) :
    Read s us e s.nodes.length (s.next.push node) where
  rest := by rw [Parser.push_rest, Parser.next_of_rest hrest ht]
  built := by
    refine (Built.next s).push node ?_
    rw [Parser.next_nodes, Parser.next_of_rest hrest ht, hrest, List.length_cons]
    exact Nat.add_lt_add_left (Nat.lt_succ_self _) _
  denotes := by rwa [Parser.push_nodes, Parser.next_nodes]

/-- The node that was made last. -/
theorem getElem?_push (nodes : List Node) (node : Node) :
    (nodes ++ [node])[nodes.length]? = some node := by simp

/-- A token for which `parse_primary` makes a node and no more. -/
theorem Accepts.leaf (node : Node) (hminus : t.type ≠ .minus) (hnot : t.type ≠ .not)
    (hend : t.type ≠ .eof) (hprimary : ∀ fuel s (post : Nat → Parser → Prop), s.rest = t :: rest →
      (Returns (parsePrimary (parseExpr fuel) (fuel + 1)) s post ↔
        s.nodes.length < maxNodes ∧ post s.nodes.length (s.next.push node)))
    (hdenotes : ∀ nodes : List Node, Denotes (nodes ++ [node]) nodes.length e nodes.length) :
    Accepts (t :: rest) rest (.expr 5 e) := by
  intro fuel depth s hrest hfuel hdepth hroom _
  refine ⟨fun hlevel => absurd hlevel (by decide), fun hlevel => ?_⟩
  rw [returns_parseAt_top hrest (by rwa [hrest]) hlevel hminus hnot, hprimary fuel s _ hrest]
  refine ⟨?_, .leaf hrest hend node (hdenotes s.nodes)⟩
  rw [List.length_cons] at hroom
  omega

/-- The call whose name and opening parenthesis have been read, and its arguments. -/
theorem Accepts.call {opening closing : Token} {args : List Expr} (ht : t.type = .ident)
    (hopening : opening.type = .lparen) (haccepts : Accepts ts (closing :: rest) (.args args))
    (hclosing : closing.type = .rparen) (hlimit : args.length ≤ maxChildren)
    (hlength : rest.length < ts.length) :
    Accepts (t :: opening :: ts) rest (.expr 5 (.call t.strVal args)) := by
  intro fuel depth s hrest hfuel hdepth hroom _
  refine ⟨fun hlevel => absurd hlevel (by decide), fun hlevel => ?_⟩
  have hnext := Parser.next_of_rest hrest (by simp [ht])
  have hnext₂ := @Parser.next_of_rest s.next _ _ (by rw [hnext]) (by simp [hopening])
  simp only [List.length_cons] at hroom hfuel hdepth
  rw [returns_parseAt_top hrest (by rw [hrest]; exact hdepth) hlevel (by simp [ht]) (by simp [ht])]
  simp only [parsePrimary, returns_bind, returns_peek, Parser.head_of_rest hrest, ht,
    returns_advance, returns_check, returns_ite, returns_writtenNode, Parser.next_nodes]
  have hhead : s.next.head.type = .lparen := by
    rw [Parser.head_of_rest (congrArg Parser.rest hnext), hopening]
  refine ⟨fun _ => ⟨by omega, ?_⟩, fun hother => absurd hhead (by simpa using hother)⟩
  set node : Node := { blankNode (callType t.strVal) t.line with strVal := t.strVal }
  have hargs := haccepts fuel (fuel + 1) s.nodes.length (s.next.next.push node)
    (by rw [Parser.push_rest, hnext₂]) (by omega) (by omega)
    (by rw [Parser.push_nodes, Parser.next_nodes, Parser.next_nodes, List.length_append,
      List.length_singleton, List.length_cons]; omega)
    ⟨node, by rw [Parser.push_nodes, Parser.next_nodes, Parser.next_nodes, getElem?_push],
      by rwa [show node.child.length = 0 from rfl, Nat.zero_add]⟩
  refine hargs.mono fun _ s' hread => ?_
  obtain ⟨hrest', hkept, hlength', hroom', ids, hall, hn⟩ := hread
  rw [Parser.push_nodes, Parser.next_nodes, Parser.next_nodes, getElem?_push] at hn
  simp only [Parser.push_nodes, Parser.next_nodes, List.length_append, List.length_cons,
    List.length_nil] at hkept hlength' hroom'
  simp only [returns_expect, returns_pure, Parser.head_of_rest hrest', hclosing, true_and]
  have hend := Parser.next_of_rest hrest' (by simp [hclosing])
  refine ⟨by rw [hend], ⟨fun i hi => ?_, ?_, ?_⟩, le_rfl,
    { node with child := node.child ++ ids }, ?_, rfl, rfl, ?_⟩
  · rw [Parser.next_nodes, hkept i (by omega) (by omega), List.getElem?_append_left hi]
  · rw [Parser.next_nodes]
    omega
  · rw [hend, hrest]
    simp only [List.length_cons]
    omega
  · rw [Parser.next_nodes]
    exact hn
  · rw [Parser.next_nodes]
    exact hall

/-- An expression in parentheses. -/
theorem Accepts.paren {opening closing : Token} (hopening : opening.type = .lparen)
    (haccepts : Accepts ts (closing :: rest) (.expr 0 e)) (hclosing : closing.type = .rparen)
    (hlength : rest.length < ts.length) : Accepts (opening :: ts) rest (.expr 5 e) := by
  intro fuel depth s hrest hfuel hdepth hroom _
  refine ⟨fun hlevel => absurd hlevel (by decide), fun hlevel => ?_⟩
  have hnext := Parser.next_of_rest hrest (by simp [hopening])
  simp only [List.length_cons] at hroom hfuel hdepth
  rw [returns_parseAt_top hrest (by rw [hrest]; exact hdepth) hlevel (by simp [hopening])
    (by simp [hopening])]
  simp only [parsePrimary, returns_bind, returns_peek, Parser.head_of_rest hrest, hopening,
    returns_advance, returns_expect, returns_pure]
  have hstops : StopsAt 0 (closing :: rest) := stopsAt_of_notMem (by
    rw [nextType, List.headD_cons, hclosing]
    decide)
  refine (haccepts.returns_parseExpr (by rw [hnext]) (by omega) (by omega)
    (by rw [Parser.next_nodes, List.length_cons]; omega) hstops).mono fun n s' hread => ?_
  have hend := Parser.next_of_rest hread.rest (by simp [hclosing])
  refine ⟨by rw [Parser.head_of_rest hread.rest, hclosing], by rw [hend], ?_, ?_⟩
  · exact ((Built.next s).trans hread.built).trans (.next s')
  · rw [Parser.next_nodes, ← @Parser.next_nodes s]
    exact hread.denotes

/-- An operand behind a unary operator. -/
theorem Accepts.unop (ht : t.type = .minus ∨ t.type = .not)
    (haccepts : Accepts ts rest (.expr 5 e)) :
    Accepts (t :: ts) rest (.expr 5 (.unop t.type e)) := by
  intro fuel depth s hrest hfuel hdepth hroom hstops
  refine ⟨fun hlevel => absurd hlevel (by decide), fun hlevel => ?_⟩
  simp only [List.length_cons] at hroom hfuel hdepth
  obtain ⟨depth, rfl⟩ := Nat.exists_eq_add_of_le' (Nat.one_le_of_lt hdepth)
  have hend : t.type ≠ .eof := by rcases ht with ht | ht <;> simp [ht]
  have hnext := Parser.next_of_rest hrest hend
  have hoperand := (haccepts fuel depth s.next (by rw [hnext]) (by omega) (by omega)
    (by rw [Parser.next_nodes]; omega) hstops).2 le_rfl
  change Returns (parseUnary (parseExpr fuel) (fuel + 1) (depth + 1)) s _
  rw [parseUnary, returns_bind, returns_peek, Parser.head_of_rest hrest, if_pos ht, returns_bind,
    returns_advance, returns_bind]
  refine hoperand.mono fun operand s' hread => (returns_writtenNode ..).mpr ⟨?_, ?_⟩
  · have hroom' := hread.built.room
    rw [hread.rest, hnext] at hroom'
    dsimp only at hroom'
    omega
  · have hbuilt := (Built.next s).trans hread.built
    have hroom' := hread.built.room
    rw [hread.rest, hnext] at hroom'
    dsimp only at hroom'
    refine ⟨by rw [Parser.push_rest, hread.rest], hbuilt.push _ ?_, ?_⟩
    · rw [hread.rest, hrest, List.length_cons]
      omega
    · have hlo := hbuilt.length
      refine ⟨hlo, _, operand, getElem?_push _ _, rfl, rfl, rfl, ?_⟩
      have hdenotes := hread.denotes.push
        { blankNode .unop t.line with op := some t.type, child := [operand] }
      rwa [Parser.next_nodes] at hdenotes

/-- The operand that a level begins with. -/
theorem Accepts.lift (hlevel : level < 5) (haccepts : Accepts ts rest (.expr (level + 1) e))
    (hlength : rest.length < ts.length) : Accepts ts rest (.expr level e) := by
  intro fuel depth s hrest hfuel hdepth hroom hstops
  refine ⟨fun _ => ?_, fun hle => absurd hlevel (Nat.not_lt.mpr hle)⟩
  obtain ⟨n, s', hrun, hread⟩ :=
    haccepts.returns hrest hfuel (hfuel : ts.length ≤ fuel + 1) hroom hstops
  refine ⟨fuel + 1, n, s', by omega, hread, ?_⟩
  rw [parseAt_of_lt hlevel, parseBinary, bind_run hrun]

/-- A binary operator and its right operand. -/
theorem Accepts.binop {l r : Expr} {op : Token} (hlevel : level < 5)
    (hl : Accepts ts (op :: us) (.expr level l)) (hop : op.type ∈ opsAt level)
    (hr : Accepts us rest (.expr (level + 1) r)) (hlength : us.length < ts.length)
    (hlength' : rest.length < us.length) :
    Accepts ts rest (.expr level (.binop op.type l r)) := by
  intro fuel depth s hrest hfuel hdepth hroom hstops
  refine ⟨fun _ => ?_, fun hle => absurd hlevel (Nat.not_lt.mpr hle)⟩
  have hstopsOp : StopsAt (level + 1) (op :: us) := fun j hj hmem => by
    rw [opsAt_disjoint hop hmem] at hj
    exact Nat.not_succ_le_self j hj
  obtain ⟨left, n, s₁, hleft, hread, hrun⟩ := (hl fuel depth s hrest hfuel hdepth
    (by rw [List.length_cons]; omega) hstopsOp).1 hlevel
  obtain ⟨left, rfl⟩ := Nat.exists_eq_add_of_le' (Nat.one_le_of_lt hleft)
  have hnext := Parser.next_of_rest hread.rest (opsAt_ne_eof hop)
  have hbuilt := hread.built.room
  rw [hread.rest, hrest, List.length_cons] at hbuilt
  rw [List.length_cons] at hleft
  have hoperand : Returns (parseAt fuel (fuel + 1) (level + 1)) s₁.next (Read s₁.next rest r) :=
    hr.returns (by rw [hnext]) (by omega) (by omega) (by rw [Parser.next_nodes]; omega) hstops
  obtain ⟨right, s₂, hright, hread₂⟩ := hoperand
  have hbuilt₂ := hread₂.built.room
  rw [hread₂.rest, hnext] at hbuilt₂
  dsimp only at hbuilt₂
  have hall := (hread.built.trans (.next s₁)).trans hread₂.built
  refine ⟨left, _, _, by omega, ⟨?_, hall.push _ ?_, ?_⟩, hrun.trans (parseOperators_step
    (by rwa [Parser.head_of_rest hread.rest]) hright (by omega))⟩
  · rw [Parser.push_rest, hread₂.rest]
  · rw [hread₂.rest, hrest]
    omega
  · refine ⟨hall.length, _, n, right, getElem?_push _ _, rfl, ?_, rfl, ?_, ?_⟩
    · rw [Parser.head_of_rest hread.rest]
    · refine Denotes.push (Denotes.congr le_rfl (fun i _ hi => ?_) l n hread.denotes) _
      exact ((Built.next s₁).trans hread₂.built).nodes i hi
    · refine Denotes.push (Denotes.congr ?_ (fun _ _ _ => rfl) r right hread₂.denotes) _
      exact (hread.built.trans (.next s₁)).length

/-- What the loop over the arguments does with the next one. -/
theorem returns_parseArgs_succ {left n : Nat} {post : Unit → Parser → Prop}
    (hparen : s.head.type ≠ .rparen) (hend : s.head.type ≠ .eof) :
    Returns (parseArgs (parseExpr fuel) n (left + 1)) s post ↔
      Returns (parseExpr fuel) s fun arg s' =>
        ((s'.nodes[n]?.map fun node => node.child.length).getD 0 < maxChildren) ∧
        let s'' := s'.write n fun node => { node with child := node.child ++ [arg] }
        (s''.head.type = .comma → Returns (parseArgs (parseExpr fuel) n left) s''.next post) ∧
        (s''.head.type ≠ .comma → post () s'') := by
  rw [parseArgs]
  simp only [returns_bind, returns_check, hparen, hend, decide_false, Bool.or_false, returns_ite,
    Bool.false_eq_true, false_implies, not_false_eq_true, true_implies, true_and,
    returns_childCount, returns_addChild, returns_matchToken, not_returns_fail, returns_pure,
    imp_false, Nat.not_le, not_true_eq_false, and_true]
  exact ⟨fun hreturns => hreturns.mono fun _ _ hread => ⟨hread.1, hread.2 hread.1⟩,
    fun hreturns => hreturns.mono fun _ _ hread => ⟨hread.1, fun _ => hread.2⟩⟩

/-- No arguments. -/
theorem Accepts.nil (hnext : nextType ts = .rparen) : Accepts ts ts (.args []) := by
  intro fuel left n s hrest hfuel hleft hroom ⟨node, hnode, _⟩
  have hpos : 0 < ts.length := by
    cases ts with
    | nil => simp [nextType] at hnext
    | cons => simp
  obtain ⟨left, rfl⟩ := Nat.exists_eq_add_of_le' (Nat.one_le_of_lt (hpos.trans_le hleft))
  have hhead : s.head.type = .rparen := by rw [Parser.head_type, hrest, hnext]
  simp only [parseArgs, returns_bind, returns_check, hhead, decide_true, Bool.true_or, returns_ite,
    returns_pure, not_true_eq_false, false_implies, and_true, true_implies]
  refine ⟨hrest, fun _ _ _ => trivial, le_rfl, le_rfl, [], rfl, ?_⟩
  rw [hnode]
  simp

/-- An argument, and then the end of the arguments or a comma and what stands behind it. -/
theorem Accepts.arg {es : List Expr} (he : Accepts ts us (.expr 0 e))
    (hhead : nextType ts ≠ .rparen ∧ nextType ts ≠ .eof) (hlength : us.length < ts.length)
    (hrest : nextType us = .rparen ∧ es = [] ∧ rest = us ∨
      ∃ comma vs, us = comma :: vs ∧ comma.type = .comma ∧ rest.length ≤ vs.length ∧
        Accepts vs rest (.args es)) :
    Accepts ts rest (.args (e :: es)) := by
  intro fuel left n s hs hfuel hleft hroom ⟨node, hnode, hlimit⟩
  obtain ⟨left, rfl⟩ := Nat.exists_eq_add_of_le'
    (Nat.one_le_of_lt ((Nat.zero_lt_of_lt hlength).trans_le hleft))
  rw [← hs, ← Parser.head_type] at hhead
  rw [returns_parseArgs_succ hhead.1 hhead.2]
  have hn := (List.getElem?_eq_some_iff.mp hnode).1
  have hstops : StopsAt 0 us := stopsAt_of_notMem (by
    rcases hrest with ⟨hus, -⟩ | ⟨comma, vs, rfl, hcomma, -⟩
    · rw [hus]
      decide
    · rw [nextType, List.headD_cons, hcomma]
      decide)
  have hless : rest.length ≤ us.length := by
    rcases hrest with ⟨-, -, rfl⟩ | ⟨comma, vs, rfl, -, hvs, -⟩
    · exact le_rfl
    · exact hvs.trans (by simp)
  rw [List.length_cons] at hlimit
  refine (he.returns_parseExpr hs hfuel (Nat.zero_lt_of_lt hlength) (by omega) hstops).mono
    fun arg s₁ hread => ?_
  have hkept := hread.built.nodes n hn
  rw [hkept, hnode]
  refine ⟨by simp only [Option.map_some, Option.getD_some]; omega, fun hcomma => ?_,
    fun hcomma => ?_⟩
  all_goals
    set s₂ := s₁.write n fun node => { node with child := node.child ++ [arg] } with hs₂
    have hsame : ∀ i, i ≠ n → s₂.nodes[i]? = s₁.nodes[i]? := fun i hi => by
      rw [hs₂, Parser.write_nodes, List.getElem?_modify_ne _ _ (Ne.symm hi)]
    have hlen : s₂.nodes.length = s₁.nodes.length := List.length_modify ..
    have hset : s₂.nodes[n]? = some { node with child := node.child ++ [arg] } := by
      rw [hs₂, Parser.write_nodes, List.getElem?_modify_eq, hkept, hnode]
      rfl
    have hroom' := hread.built.room
    have hlo := hread.built.length
    rw [hread.rest, hs] at hroom'
    rw [Parser.head_type, hs₂, Parser.write_rest, hread.rest] at hcomma
  · obtain ⟨comma, vs, rfl, -, -, hes⟩ := hrest.resolve_left
      fun hend => by rw [hend.1] at hcomma; cases hcomma
    have hnext := @Parser.next_of_rest s₂ vs comma hread.rest (by
      rw [nextType, List.headD_cons] at hcomma
      simp [hcomma])
    simp only [List.length_cons] at hlength hroom'
    refine (hes fuel left n s₂.next (by rw [hnext]) (by omega) (by omega)
      (by rw [Parser.next_nodes, hlen]; omega)
      ⟨_, by rw [Parser.next_nodes, hset], by simp; omega⟩).mono fun _ s₃ hread₃ => ?_
    obtain ⟨hrest₃, hkept₃, hlength₃, hroom₃, ids, hall, hn₃⟩ := hread₃
    rw [Parser.next_nodes, hlen] at hlength₃ hroom₃
    rw [Parser.next_nodes, hset] at hn₃
    refine ⟨hrest₃, fun i hi hne => ?_, hlo.trans hlength₃, by omega, arg :: ids,
      ⟨arg, ids, rfl, ?_, hall⟩, ?_⟩
    · rw [hkept₃ i (by rw [Parser.next_nodes, hlen]; omega) hne, Parser.next_nodes, hsame i hne,
        hread.built.nodes i hi]
    · refine Denotes.congr hn (fun i hi hi' => ?_) e arg hread.denotes
      rw [hkept₃ i (by rw [Parser.next_nodes, hlen]; exact hi') (by omega), Parser.next_nodes,
        hsame i (by omega)]
    · rw [hn₃]
      simp
  · obtain ⟨-, rfl, rfl⟩ := hrest.resolve_right fun hmore => by
      obtain ⟨comma, vs, hus, htype, -⟩ := hmore
      exact hcomma (by rw [hus, nextType, List.headD_cons, htype])
    refine ⟨hread.rest, fun i hi hne => (hsame i hne).trans (hread.built.nodes i hi),
      by rw [hlen]; exact hlo, by rw [hlen]; omega, [arg], ⟨arg, [], rfl, ?_, rfl⟩, ?_⟩
    · exact Denotes.congr hn (fun i hi _ => hsame i (by omega)) e arg hread.denotes
    · rw [hset]
      rfl

/-- What the grammar derives within the limits, the parse functions read. -/
theorem Derives.accepts {sym : ExprSym} (hbounded : d.bounded)
    (hderives : Derives d sym ts rest) : Accepts ts rest sym := by
  induction hderives with
  | @int t rest ht =>
      refine .leaf { blankNode .int t.line with intVal := t.intVal } (by simp [ht]) (by simp [ht])
        (by simp [ht]) (fun fuel s post hs => ?_)
        fun nodes => ⟨le_rfl, _, getElem?_push _ _, rfl, rfl⟩
      simp [parsePrimary, Parser.head_of_rest hs, ht]
  | @str t rest ht =>
      refine .leaf { blankNode .str t.line with strVal := t.strVal } (by simp [ht]) (by simp [ht])
        (by simp [ht]) (fun fuel s post hs => ?_)
        fun nodes => ⟨le_rfl, _, getElem?_push _ _, rfl, rfl⟩
      simp [parsePrimary, Parser.head_of_rest hs, ht]
  | @true_ t rest ht =>
      refine .leaf { blankNode .bool t.line with intVal := 1 } (by simp [ht]) (by simp [ht])
        (by simp [ht]) (fun fuel s post hs => ?_)
        fun nodes => ⟨le_rfl, _, getElem?_push _ _, rfl, rfl⟩
      simp [parsePrimary, Parser.head_of_rest hs, ht]
  | @false_ t rest ht =>
      refine .leaf { blankNode .bool t.line with intVal := 0 } (by simp [ht]) (by simp [ht])
        (by simp [ht]) (fun fuel s post hs => ?_)
        fun nodes => ⟨le_rfl, _, getElem?_push _ _, rfl, rfl⟩
      simp [parsePrimary, Parser.head_of_rest hs, ht]
  | @var t rest ht hnext =>
      refine .leaf { blankNode .var t.line with strVal := t.strVal } (by simp [ht]) (by simp [ht])
        (by simp [ht]) (fun fuel s post hs => ?_)
        fun nodes => ⟨le_rfl, _, getElem?_push _ _, rfl, rfl⟩
      have hother : s.next.head.type ≠ .lparen := by
        rwa [Parser.head_type, Parser.next_of_rest hs (by simp [ht])]
      simp [parsePrimary, Parser.head_of_rest hs, ht, hother]
  | call ht hopening hargs hclosing hlimit ih =>
      exact .call ht hopening ih hclosing (hlimit hbounded) (hargs.length.1)
  | paren hopening he hclosing ih =>
      exact .paren hopening ih hclosing (Nat.lt_of_succ_lt (he.length.2 _ _ rfl))
  | unop ht _ ih => exact .unop ht ih
  | lift hlevel he ih => exact .lift hlevel ih (he.length.2 _ _ rfl)
  | binop hlevel hl hop hr ihl ihr =>
      exact .binop hlevel ihl hop ihr (Nat.lt_of_succ_lt (hl.length.2 _ _ rfl))
        (hr.length.2 _ _ rfl)
  | nil hnext => exact .nil hnext
  | last he hnext ih =>
      exact .arg ih (he.head _ _ rfl) (he.length.2 _ _ rfl) (.inl ⟨hnext, rfl, rfl⟩)
  | cons he hcomma _ hrest ihe ihes =>
      exact .arg ihe (he.head _ _ rfl) (he.length.2 _ _ rfl)
        (.inr ⟨_, _, rfl, hcomma, hrest.length.1, ihes⟩)

/-! ## What is parsed has been derived -/

/-- A parse function returns behind an expression of its level only. -/
def Reads (level : Nat) (x : Parse Nat) : Prop :=
  ∀ s, Ensures x s fun _ s' =>
    ∃ e, Derives .accepted (.expr level e) s.rest s'.rest ∧ StopsAt level s'.rest

variable {expr : Parse Nat}

theorem Parser.rest_next {type : TokenType} (htype : s.head.type = type) (hend : type ≠ .eof) :
    s.rest = s.head :: s.next.rest :=
  Parser.rest_of_head (htype.trans_ne hend)

theorem parseArgs_reads (hexpr : Reads 0 expr) (n left : Nat) (s : Parser) :
    Ensures (parseArgs expr n left) s fun _ s' =>
      s'.head.type = .rparen → ∃ es, Derives .accepted (.args es) s.rest s'.rest := by
  induction left generalizing s with
  | zero => exact ensures_throw _
  | succ left ih =>
      simp only [parseArgs, ensures_bind, ensures_check, ensures_ite, ensures_pure,
        ensures_childCount, ensures_fail, ensures_addChild, ensures_matchToken]
      refine ⟨fun _ hclosing => ⟨[], .nil hclosing⟩, fun _ => (hexpr s).mono fun arg s' hread => ?_⟩
      obtain ⟨e, he, -⟩ := hread
      refine ⟨fun _ => trivial, fun _ => ⟨fun hcomma => ?_, fun _ => ⟨fun h => absurd h
        Bool.false_ne_true, fun _ hclosing => ⟨[e], .last he hclosing⟩⟩⟩⟩
      have hrest := Parser.rest_next hcomma (by decide)
      rw [Parser.write_rest] at hrest
      refine ⟨fun _ => (ih _).mono fun _ s'' hmore hclosing => ?_, fun hne => absurd trivial hne⟩
      obtain ⟨es, hes⟩ := hmore hclosing
      exact ⟨e :: es, .cons (hrest ▸ he) hcomma (fun _ => rfl) hes⟩

theorem parsePrimary_reads (hexpr : Reads 0 expr) (fuel : Nat) :
    Reads 5 (parsePrimary expr fuel) := by
  intro s
  rw [parsePrimary, ensures_bind, ensures_peek]
  split
  · rename_i ht
    simp only [ensures_bind, ensures_advance, ensures_writtenNode, Parser.push_rest]
    rw [Parser.rest_next ht (by decide)]
    exact fun _ => ⟨_, .int ht, stopsAt_five⟩
  · rename_i ht
    simp only [ensures_bind, ensures_advance, ensures_writtenNode, Parser.push_rest]
    rw [Parser.rest_next ht (by decide)]
    exact fun _ => ⟨_, .str ht, stopsAt_five⟩
  · rename_i ht
    simp only [ensures_bind, ensures_advance, ensures_writtenNode, Parser.push_rest]
    rw [Parser.rest_next ht (by decide)]
    exact fun _ => ⟨_, .true_ ht, stopsAt_five⟩
  · rename_i ht
    simp only [ensures_bind, ensures_advance, ensures_writtenNode, Parser.push_rest]
    rw [Parser.rest_next ht (by decide)]
    exact fun _ => ⟨_, .false_ ht, stopsAt_five⟩
  · rename_i ht
    simp only [ensures_bind, ensures_advance, ensures_check, ensures_ite, ensures_writtenNode,
      ensures_expect, ensures_pure, Parser.push_rest, decide_eq_true_eq]
    rw [Parser.rest_next ht (by decide)]
    refine ⟨fun hopening _ => ?_, fun hother _ => ⟨_, .var ht hother, stopsAt_five⟩⟩
    rw [Parser.rest_next hopening (by decide)]
    refine (parseArgs_reads hexpr _ fuel _).mono fun _ s' hargs hclosing => ?_
    obtain ⟨args, hargs⟩ := hargs hclosing
    rw [Parser.rest_next hclosing (by decide), Parser.push_rest] at hargs
    exact ⟨_, .call ht hopening hargs hclosing fun hlimited => absurd hlimited (by decide),
      stopsAt_five⟩
  · rename_i ht
    simp only [ensures_bind, ensures_advance, ensures_expect, ensures_pure]
    rw [Parser.rest_next ht (by decide)]
    refine (hexpr _).mono fun n s' hread hclosing => ?_
    obtain ⟨e, he, -⟩ := hread
    rw [Parser.rest_next hclosing (by decide)] at he
    exact ⟨e, .paren ht he hclosing, stopsAt_five⟩
  · exact ensures_fail _

theorem parseUnary_reads (hexpr : Reads 0 expr) (fuel depth : Nat) :
    Reads 5 (parseUnary expr fuel depth) := by
  induction depth with
  | zero => exact fun _ => ensures_throw _
  | succ depth ih =>
      intro s
      simp only [parseUnary, ensures_bind, ensures_peek, ensures_ite, ensures_advance,
        ensures_writtenNode, Parser.push_rest]
      refine ⟨fun ht => (ih _).mono fun operand s' hread _ => ?_,
        fun _ => parsePrimary_reads hexpr fuel s⟩
      obtain ⟨e, he, hstops⟩ := hread
      rw [Parser.rest_of_head (by rcases ht with ht | ht <;> simp [ht])]
      exact ⟨_, .unop ht he, hstops⟩

/-- The operators of a level, behind its first operand. -/
theorem parseOperators_reads {operand : Parse Nat} (hlevel : level < 5)
    (hoperand : Reads (level + 1) operand) (left n : Nat) (s : Parser)
    (he : Derives .accepted (.expr level e) ts s.rest) (hstops : StopsAt (level + 1) s.rest) :
    Ensures (parseOperators operand (opsAt level) left n) s fun _ s' =>
      ∃ e', Derives .accepted (.expr level e') ts s'.rest ∧ StopsAt level s'.rest := by
  induction left generalizing e n s with
  | zero => exact ensures_throw _
  | succ left ih =>
      simp only [parseOperators, ensures_bind, ensures_peek, ensures_ite, ensures_advance,
        ensures_writtenNode, ensures_pure]
      refine ⟨fun hop => (hoperand _).mono fun right s' hread _ => ?_, fun hop => ?_⟩
      · obtain ⟨r, hr, hstops'⟩ := hread
        rw [Parser.rest_of_head (opsAt_ne_eof hop)] at he
        exact ih _ _ (.binop hlevel he hop hr) hstops'
      · refine ⟨e, he, fun j hj => ?_⟩
        rcases Nat.eq_or_lt_of_le hj with rfl | hlt
        · exact hop
        · exact hstops j hlt

theorem parseBinary_reads {operand : Parse Nat} (hlevel : level < 5)
    (hoperand : Reads (level + 1) operand) (fuel : Nat) :
    Reads level (parseBinary operand (opsAt level) fuel) := by
  intro s
  rw [parseBinary, ensures_bind]
  refine (hoperand s).mono fun n s' hread => ?_
  obtain ⟨e, he, hstops⟩ := hread
  exact parseOperators_reads hlevel hoperand fuel n s' (.lift hlevel he) hstops

/-- `parse_expr` returns behind an expression only. -/
theorem parseExpr_reads (fuel : Nat) : Reads 0 (parseExpr fuel) := by
  induction fuel with
  | zero => exact fun _ => ensures_throw _
  | succ fuel ih =>
      have hunary := parseUnary_reads ih (fuel + 1) (fuel + 1)
      have hmul := @parseBinary_reads 4 _ (by decide) hunary (fuel + 1)
      have hadd := @parseBinary_reads 3 _ (by decide) hmul (fuel + 1)
      have hcmp := @parseBinary_reads 2 _ (by decide) hadd (fuel + 1)
      have hand := @parseBinary_reads 1 _ (by decide) hcmp (fuel + 1)
      exact @parseBinary_reads 0 _ (by decide) hand (fuel + 1)

end GeckoOS.Gk
