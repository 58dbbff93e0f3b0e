/-
# The expressions in the node pool

Assignments, definitions and jumps are statements: the parser never puts one below an
expression.  So in a pool that `gk_parse` has built, the children of an expression's node
are nodes of expressions again.

The pool is only ever extended, and a node keeps the type it was made with.
-/

import GeckoOS.Gk.ParserSteps

namespace GeckoOS.Gk

open GeckoOS.Math

/-- The types of the nodes that `parse_expr` makes. -/
def NodeType.isExpr : NodeType → Bool
  | .int | .str | .bool | .var | .binop | .unop | .call | .print | .range | .input
  | .intCast => true
  | _ => false

/-- The type of a node of the pool. -/
def typeAt (nodes : List Node) (c : Nat) : Option NodeType := nodes[c]?.map (·.type)

/-- There is an expression's node at `c`. -/
def ExprAt (nodes : List Node) (c : Nat) : Prop :=
  ∃ type, typeAt nodes c = some type ∧ type.isExpr

/-- The children of expressions are expressions. -/
def ExprsClosed (nodes : List Node) : Prop :=
  ∀ node ∈ nodes, node.type.isExpr → ∀ c ∈ node.child, ExprAt nodes c

/-- What every parse function does to the pool. -/
structure Grown (s s' : Parser) : Prop where
  types : ∀ c type, typeAt s.nodes c = some type → typeAt s'.nodes c = some type
  closed : ExprsClosed s.nodes → ExprsClosed s'.nodes

instance : IsPreorder Parser Grown where
  refl _ := ⟨fun _ _ htype => htype, fun hclosed => hclosed⟩
  trans _ _ _ hfirst hsecond :=
    ⟨fun c type htype => hsecond.types c type (hfirst.types c type htype),
      fun hclosed => hsecond.closed (hfirst.closed hclosed)⟩

/-- A parse function that returns the node of an expression. -/
def ParsesExpr (x : Parse Nat) : Prop :=
  ∀ s, Ensures x s fun n s' => Grown s s' ∧ ExprAt s'.nodes n

variable {s s' s'' : Parser} {n c : Nat} {node : Node} {change : Node → Node}
  {expr stmt : Parse Nat}

theorem Grown.trans (hfirst : Grown s s') (hsecond : Grown s' s'') : Grown s s'' :=
  trans_of Grown hfirst hsecond

theorem Grown.exprAt (hgrown : Grown s s') (hexpr : ExprAt s.nodes c) : ExprAt s'.nodes c := by
  obtain ⟨type, htype, his⟩ := hexpr
  exact ⟨type, hgrown.types c type htype, his⟩

/-- The pool stays. -/
theorem Grown.of_nodes (hnodes : s'.nodes = s.nodes) : Grown s s' :=
  ⟨fun _ _ htype => hnodes ▸ htype, fun hclosed => hnodes ▸ hclosed⟩

theorem Grown.next (s : Parser) : Grown s s.next := .of_nodes s.next_nodes

theorem Grown.skip (s : Parser) : Grown s s.skip := .of_nodes rfl

theorem typeAt_append_length (nodes : List Node) (node : Node) :
    typeAt (nodes ++ [node]) nodes.length = some node.type := by
  simp [typeAt]

theorem typeAt_append (node : Node) {type : NodeType} {nodes : List Node}
    (htype : typeAt nodes c = some type) : typeAt (nodes ++ [node]) c = some type := by
  rw [typeAt, Option.map_eq_some_iff] at htype ⊢
  obtain ⟨old, hold, rfl⟩ := htype
  exact ⟨old, (List.getElem?_append_left (List.getElem?_eq_some_iff.mp hold).1).trans hold, rfl⟩

/-- A node is added, whose children are expressions already if it is one. -/
theorem Grown.push (hchild : node.type.isExpr → ∀ c ∈ node.child, ExprAt s.nodes c) :
    Grown s (s.push node) := by
  have htypes : ∀ c type, typeAt s.nodes c = some type →
      typeAt (s.push node).nodes c = some type := fun c type => typeAt_append node
  have hexpr : ∀ c, ExprAt s.nodes c → ExprAt (s.push node).nodes c := by
    rintro c ⟨type, htype, his⟩
    exact ⟨type, htypes c type htype, his⟩
  refine ⟨htypes, fun hclosed other hmem hother c hc => ?_⟩
  rcases List.mem_append.mp hmem with hold | hnew
  · exact hexpr c (hclosed other hold hother c hc)
  · obtain rfl := List.mem_singleton.mp hnew
    exact hexpr c (hchild hother c hc)

/-- Statements and blocks are not expressions: their children need nothing. -/
theorem Grown.pushStmt (hstmt : node.type.isExpr = false) : Grown s (s.push node) :=
  .push fun hexpr => absurd (hstmt.symm.trans hexpr) Bool.false_ne_true

theorem getElem?_modify_node (nodes : List Node) :
    (nodes.modify n change)[c]? =
      nodes[c]?.map fun node => if n = c then change node else node := by
  rw [List.getElem?_modify]
  rfl

theorem typeAt_modify (nodes : List Node) (htype : ∀ node, (change node).type = node.type) :
    typeAt (nodes.modify n change) c = typeAt nodes c := by
  rw [typeAt, typeAt, getElem?_modify_node, Option.map_map]
  refine congrArg (fun f => Option.map f nodes[c]?) (funext fun node => ?_)
  rw [Function.comp_apply]
  split_ifs
  · exact htype node
  · rfl

/-- A node is written into: its type stays, and if it is an expression, then the children it
gets are expressions. -/
theorem Grown.write (htype : ∀ node, (change node).type = node.type)
    (hchild : ∀ node, s.nodes[n]? = some node → node.type.isExpr →
      ∀ c ∈ (change node).child, c ∈ node.child ∨ ExprAt s.nodes c) :
    Grown s (s.write n change) := by
  have hsame : ∀ c, typeAt (s.write n change).nodes c = typeAt s.nodes c :=
    fun c => typeAt_modify s.nodes htype
  have hexpr : ∀ c, ExprAt s.nodes c → ExprAt (s.write n change).nodes c := by
    rintro c ⟨type, hc, his⟩
    exact ⟨type, (hsame c).trans hc, his⟩
  refine ⟨fun c type hc => (hsame c).trans hc, fun hclosed other hmem hother c hc => ?_⟩
  obtain ⟨i, hi⟩ := List.mem_iff_getElem?.mp hmem
  rw [Parser.write_nodes, getElem?_modify_node] at hi
  obtain ⟨old, hold, rfl⟩ := Option.map_eq_some_iff.mp hi
  have hchildren := hclosed old (List.mem_of_getElem? hold)
  split_ifs at hother hc with heq
  · subst heq
    rw [htype] at hother
    rcases hchild old hold hother c hc with hkept | hnew
    · exact hexpr c (hchildren hother c hkept)
    · exact hexpr c hnew
  · exact hexpr c (hchildren hother c hc)

/-- A child is added that is an expression. -/
theorem Grown.addChild (hexpr : ExprAt s.nodes c) :
    Grown s (s.write n fun node => { node with child := node.child ++ [c] }) := by
  refine .write (fun _ => rfl) fun node _ _ c' hc' => ?_
  rcases List.mem_append.mp hc' with hold | hnew
  · exact .inl hold
  · obtain rfl := List.mem_singleton.mp hnew
    exact .inr hexpr

/-- The children of a node that is not an expression do not matter. -/
theorem Grown.writeOther {type : NodeType} (hn : typeAt s.nodes n = some type)
    (hother : type.isExpr = false) (htype : ∀ node, (change node).type = node.type) :
    Grown s (s.write n change) := by
  refine .write htype fun node hnode his => ?_
  rw [typeAt, hnode, Option.map_some, Option.some.injEq] at hn
  rw [hn, hother] at his
  cases his

/-! ## Expressions -/

theorem parseArgs_grown (hexpr : ParsesExpr expr) (n fuel : Nat) (s : Parser) :
    Ensures (parseArgs expr n fuel) s fun _ s' => Grown s s' := by
  induction fuel generalizing s with
  | zero => exact ensures_throw _
  | succ fuel ih =>
      simp only [parseArgs, ensures_bind, ensures_check, ensures_ite, ensures_pure,
        ensures_childCount, ensures_fail, ensures_addChild, ensures_matchToken]
      refine ⟨fun _ => refl_of Grown s, fun _ => (hexpr s).mono fun arg s' hparsed => ?_⟩
      obtain ⟨hgrown, harg⟩ := hparsed
      have hadded := hgrown.trans (@Grown.addChild s' n arg harg)
      refine ⟨fun _ => trivial, fun _ => ⟨fun _ => ⟨fun _ => ?_, ?_⟩,
        fun _ => ⟨fun h => absurd h Bool.false_ne_true, fun _ => hadded⟩⟩⟩
      · exact (ih _).mono fun _ _ hrest => (hadded.trans (.next _)).trans hrest
      · exact fun h => absurd trivial h

/-- A new node without children is an expression of its type. -/
theorem push_leaf (node : Node) (hchild : node.child = []) (hexpr : node.type.isExpr) :
    Grown s (s.push node) ∧ ExprAt (s.push node).nodes s.nodes.length :=
  ⟨.push fun _ _ hc => absurd (hchild ▸ hc) List.not_mem_nil,
    _, typeAt_append_length s.nodes node, hexpr⟩

theorem callType_isExpr (name : Text) : (callType name).isExpr := by
  rw [callType]
  split_ifs <;> rfl

theorem parsePrimary_parses (hexpr : ParsesExpr expr) (fuel : Nat) :
    ParsesExpr (parsePrimary expr fuel) := by
  intro s
  have hnext := Grown.next s
  have hleaf : ∀ node : Node, node.child = [] → node.type.isExpr →
      Grown s (s.next.push node) ∧ ExprAt (s.next.push node).nodes s.next.nodes.length := by
    intro node hchild his
    obtain ⟨hgrown, hat⟩ := @push_leaf s.next node hchild his
    exact ⟨hnext.trans hgrown, hat⟩
  rw [parsePrimary, ensures_bind, ensures_peek]
  split
  case h_5 =>
    simp only [ensures_bind, ensures_advance, ensures_check, ensures_ite, ensures_writtenNode,
      ensures_expect, ensures_pure]
    refine ⟨fun _ _ => ?_, fun _ _ => hleaf _ rfl rfl⟩
    obtain ⟨hgrown, hat⟩ := @push_leaf s.next.next
      { blankNode (callType s.head.strVal) s.head.line with strVal := s.head.strVal } rfl
      (callType_isExpr _)
    refine (parseArgs_grown hexpr _ fuel _).mono fun _ s' hargs _ => ?_
    have hall := (hnext.trans (.next _)).trans (hgrown.trans (hargs.trans (.next s')))
    exact ⟨hall, (hargs.trans (.next s')).exprAt hat⟩
  case h_6 =>
    simp only [ensures_bind, ensures_advance, ensures_expect, ensures_pure]
    exact (hexpr _).mono fun n s' hparsed _ =>
      ⟨(hnext.trans hparsed.1).trans (.next s'), (Grown.next s').exprAt hparsed.2⟩
  case h_7 => exact ensures_fail _
  all_goals
    simp only [ensures_bind, ensures_advance, ensures_writtenNode]
    exact fun _ => hleaf _ rfl rfl

theorem parseUnary_parses (hexpr : ParsesExpr expr) (fuel depth : Nat) :
    ParsesExpr (parseUnary expr fuel depth) := by
  induction depth with
  | zero => exact fun _ => ensures_throw _
  | succ depth ih =>
      intro s
      rw [parseUnary, ensures_bind, ensures_peek, ensures_ite]
      refine ⟨fun _ => ?_, fun _ => parsePrimary_parses hexpr fuel s⟩
      simp only [ensures_bind, ensures_advance, ensures_writtenNode]
      refine (ih s.next).mono fun operand s' hparsed _ => ⟨?_, ?_⟩
      · obtain ⟨hgrown, hat⟩ := hparsed
        refine ((Grown.next s).trans hgrown).trans (.push fun _ c hc => ?_)
        obtain rfl := List.mem_singleton.mp hc
        exact hat
      · exact ⟨_, typeAt_append_length _ _, rfl⟩

theorem parseOperators_parses {operand : Parse Nat} (hoperand : ParsesExpr operand)
    (ops : List TokenType) (fuel left : Nat) (s : Parser) (hleft : ExprAt s.nodes left) :
    Ensures (parseOperators operand ops fuel left) s fun n s' =>
      Grown s s' ∧ ExprAt s'.nodes n := by
  induction fuel generalizing left s with
  | zero => exact ensures_throw _
  | succ fuel ih =>
      rw [parseOperators, ensures_bind, ensures_peek, ensures_ite, ensures_pure]
      refine ⟨fun _ => ?_, fun _ => ⟨refl_of Grown s, hleft⟩⟩
      simp only [ensures_bind, ensures_advance, ensures_writtenNode]
      refine (hoperand s.next).mono fun right s' hparsed _ => ?_
      obtain ⟨hgrown, hright⟩ := hparsed
      have hsofar := (Grown.next s).trans hgrown
      refine (ih _ _ ⟨_, typeAt_append_length _ _, rfl⟩).mono fun n s'' hparsed => ?_
      obtain ⟨hrest, hat⟩ := hparsed
      refine ⟨?_, hat⟩
      refine hsofar.trans ((Grown.push fun _ c hc => ?_).trans hrest)
      rcases List.mem_cons.mp hc with rfl | hc
      · exact hsofar.exprAt hleft
      · obtain rfl := List.mem_singleton.mp hc
        exact hright

theorem parseBinary_parses {operand : Parse Nat} (hoperand : ParsesExpr operand)
    (ops : List TokenType) (fuel : Nat) : ParsesExpr (parseBinary operand ops fuel) := by
  intro s
  rw [parseBinary, ensures_bind]
  refine (hoperand s).mono fun left s' hparsed => ?_
  obtain ⟨hgrown, hleft⟩ := hparsed
  exact (parseOperators_parses hoperand ops fuel left s' hleft).mono fun n s'' hrest =>
    ⟨hgrown.trans hrest.1, hrest.2⟩

theorem parseExpr_parses (fuel : Nat) : ParsesExpr (parseExpr fuel) := by
  induction fuel with
  | zero => exact fun _ => ensures_throw _
  | succ fuel ih =>
      have hunary := parseUnary_parses ih (fuel + 1) (fuel + 1)
      have hmul := parseBinary_parses hunary [.star, .slash, .percent] (fuel + 1)
      have hadd := parseBinary_parses hmul [.plus, .minus] (fuel + 1)
      have hcmp := parseBinary_parses hadd [.eq, .neq, .lt, .le, .gt, .ge] (fuel + 1)
      have hand := parseBinary_parses hcmp [.and] (fuel + 1)
      exact parseBinary_parses hand [.or] (fuel + 1)

/-! ## Statements -/

theorem parseStmts_grown (hstmt : Keeps Grown stmt) (ends : List TokenType) (full : String)
    (block fuel : Nat) (hblock : typeAt s.nodes block = some .block) :
    Ensures (parseStmts stmt ends full block fuel) s fun _ s' => Grown s s' := by
  induction fuel generalizing s with
  | zero => exact ensures_throw _
  | succ fuel ih =>
      simp only [parseStmts, ensures_bind, ensures_peek, ensures_ite, ensures_pure,
        ensures_childCount, ensures_fail, ensures_addChild, ensures_skipNewlines]
      refine ⟨fun _ => refl_of Grown s, fun _ => (hstmt s).mono fun st s' hgrown => ?_⟩
      refine ⟨fun _ => trivial, fun _ => ?_⟩
      have hblock' := hgrown.types _ _ hblock
      have hadded := hgrown.trans (@Grown.writeOther s' block
        (fun node => { node with child := node.child ++ [st] }) _ hblock' rfl fun _ => rfl)
      have hskipped := hadded.trans (.skip _)
      exact (ih (hskipped.types _ _ hblock)).mono fun _ _ hrest => hskipped.trans hrest

theorem parseBlock_grown (hstmt : Keeps Grown stmt) (fuel : Nat) :
    Keeps Grown (parseBlock stmt fuel) := by
  intro s
  simp only [parseBlock, ensures_bind, ensures_peek, ensures_expect, ensures_newNode,
    ensures_skipNewlines, ensures_matchToken, ensures_pure]
  intro _ _
  have hpushed := (Grown.next s).trans (@Grown.pushStmt s.next (blankNode .block s.head.line) rfl)
  have hskipped := hpushed.trans (.skip _)
  refine (parseStmts_grown hstmt _ _ _ fuel (typeAt_append_length _ _)).mono fun _ s' hgrown => ?_
  exact ⟨fun _ => (hskipped.trans hgrown).trans (.next s'), fun _ => hskipped.trans hgrown⟩

theorem parseParams_grown (n fuel : Nat) (s : Parser) :
    Ensures (parseParams n fuel) s fun _ s' => Grown s s' := by
  induction fuel generalizing s with
  | zero => exact ensures_throw _
  | succ fuel ih =>
      simp only [parseParams, ensures_bind, ensures_check, ensures_ite, ensures_pure, ensures_peek,
        ensures_fail, ensures_advance, ensures_writtenNode, ensures_addChild, ensures_matchToken]
      refine ⟨fun _ => refl_of Grown s, fun _ => ⟨fun _ => trivial, fun _ _ => ?_⟩⟩
      obtain ⟨hgrown, hat⟩ := @push_leaf s.next
        { blankNode .var s.head.line with strVal := s.head.strVal } rfl rfl
      have hadded := (Grown.next s).trans (hgrown.trans (@Grown.addChild _ n _ hat))
      refine ⟨fun _ => ⟨fun _ => ?_, fun h => absurd trivial h⟩,
        fun _ => ⟨fun h => absurd h Bool.false_ne_true, fun _ => hadded⟩⟩
      exact (ih _).mono fun _ _ hrest => (hadded.trans (.next _)).trans hrest

theorem parseBody_grown (hstmt : Keeps Grown stmt) (fuel : Nat) (text : String) :
    Keeps Grown (parseBody stmt fuel text) := by
  intro s
  simp only [parseBody, ensures_bind, ensures_expect, ensures_matchToken]
  refine fun _ => ⟨fun _ => ?_, fun _ => ?_⟩
  · exact (parseBlock_grown hstmt fuel _).mono fun _ _ hgrown =>
      ((Grown.next s).trans (.next _)).trans hgrown
  · exact (parseBlock_grown hstmt fuel _).mono fun _ _ hgrown => (Grown.next s).trans hgrown

theorem parseReturn_grown (hexpr : ParsesExpr expr) : Keeps Grown (parseReturn expr) := by
  intro s
  have hpushed := (Grown.next s).trans (@Grown.pushStmt s.next (blankNode .return_ s.head.line) rfl)
  simp only [parseReturn, ensures_bind, ensures_peek, ensures_advance, ensures_newNode,
    ensures_check, ensures_ite, ensures_setNode, ensures_matchToken, ensures_pure]
  refine fun _ => ⟨fun _ => (hexpr _).mono fun value s' hparsed => ?_, fun _ => ?_⟩
  · obtain ⟨hgrown, hat⟩ := hparsed
    have hwritten := (hpushed.trans hgrown).trans (@Grown.writeOther s' _
      (fun node => { node with child := [value] }) _
      (hgrown.types _ _ (typeAt_append_length _ _)) rfl fun _ => rfl)
    exact ⟨fun _ => hwritten.trans (.next _), fun _ => hwritten⟩
  · exact ⟨fun _ => hpushed.trans (.next _), fun _ => hpushed⟩

theorem parseJump_grown (type : NodeType) : Keeps Grown (parseJump type) := by
  intro s
  simp only [parseJump, ensures_bind, ensures_peek, ensures_advance, ensures_matchToken,
    ensures_newNode]
  have hpush (s₁ : Parser) : Grown s₁ (s₁.push (blankNode type s.head.line)) :=
    .push fun _ _ hc => absurd hc List.not_mem_nil
  refine ⟨fun _ _ => ?_, fun _ _ => ?_⟩
  · exact ((Grown.next s).trans (.next _)).trans (hpush _)
  · exact (Grown.next s).trans (hpush _)

theorem parseDef_grown (hstmt : Keeps Grown stmt) (fuel : Nat) :
    Keeps Grown (parseDef stmt fuel) := by
  intro s
  simp only [parseDef, ensures_bind, ensures_peek, ensures_advance, ensures_ite, ensures_fail,
    ensures_writtenNode, ensures_expect, ensures_addChild, ensures_pure]
  refine ⟨fun _ => trivial, fun _ _ _ => ?_⟩
  have hpushed := ((Grown.next s).trans (.next _)).trans (@Grown.pushStmt s.next.next
    { blankNode .def_ s.head.line with strVal := s.next.head.strVal } rfl)
  have htype := typeAt_append_length s.next.next.nodes
    { blankNode .def_ s.head.line with strVal := s.next.head.strVal }
  refine (parseParams_grown _ fuel _).mono fun _ s' hparams _ => ?_
  refine (parseBody_grown hstmt fuel _ _).mono fun body s'' hbody => ?_
  have hrest := ((Grown.next _).trans (hparams.trans (.next s'))).trans hbody
  exact (hpushed.trans hrest).trans (.writeOther (hrest.types _ _ htype) rfl fun _ => rfl)

/-- The header's node of a compound statement gets its children at the end. -/
theorem Grown.setChildren {type : NodeType} (children : List Nat) (hgrown : Grown s s')
    (htype : typeAt s'.nodes n = some type) (hother : type.isExpr = false) :
    Grown s (s'.write n fun node => { node with child := children }) :=
  hgrown.trans (.writeOther htype hother fun _ => rfl)

theorem parseIf_grown (hexpr : ParsesExpr expr) (hstmt : Keeps Grown stmt) (fuel : Nat) :
    Keeps Grown (parseIf expr stmt fuel) := by
  intro s
  have hpushed := (Grown.next s).trans (@Grown.pushStmt s.next (blankNode .if_ s.head.line) rfl)
  have htype := typeAt_append_length s.next.nodes (blankNode .if_ s.head.line)
  simp only [parseIf, ensures_bind, ensures_peek, ensures_advance, ensures_newNode,
    ensures_setNode, ensures_skipNewlines, ensures_check, ensures_ite, ensures_pure]
  refine fun _ => (hexpr _).mono fun cond s₁ hparsed => ?_
  have hcond := hparsed.1
  refine (parseBody_grown hstmt fuel _ _).mono fun body s₂ hbody => ?_
  have hthen := hcond.trans hbody
  have hset := (hpushed.trans hthen).setChildren [cond, body] (hthen.types _ _ htype) rfl
  have hskipped := hset.trans (.skip _)
  have hkept : typeAt (s₂.write s.next.nodes.length fun node =>
      { node with child := [cond, body] }).skip.nodes s.next.nodes.length = some .if_ :=
    (@typeAt_modify _ _ (fun node => { node with child := [cond, body] }) s₂.nodes
      fun _ => rfl).trans (hthen.types _ _ htype)
  refine ⟨fun _ => (hstmt _).mono fun elif s₃ helif => ?_, fun _ =>
    ⟨fun _ => ?_, fun _ => hskipped⟩⟩
  · exact (hskipped.trans helif).setChildren _ (helif.types _ _ hkept) rfl
  · refine (parseBody_grown hstmt fuel _ _).mono fun elseBody s₃ helse => ?_
    have hbranch := (Grown.next _).trans helse
    exact (hskipped.trans hbranch).setChildren _ (hbranch.types _ _ hkept) rfl

theorem parseWhile_grown (hexpr : ParsesExpr expr) (hstmt : Keeps Grown stmt) (fuel : Nat) :
    Keeps Grown (parseWhile expr stmt fuel) := by
  intro s
  have hpushed := (Grown.next s).trans (@Grown.pushStmt s.next (blankNode .while_ s.head.line) rfl)
  have htype := typeAt_append_length s.next.nodes (blankNode .while_ s.head.line)
  simp only [parseWhile, ensures_bind, ensures_peek, ensures_advance, ensures_newNode,
    ensures_setNode, ensures_pure]
  refine fun _ => (hexpr _).mono fun cond s₁ hparsed => ?_
  have hcond := hparsed.1
  refine (parseBody_grown hstmt fuel _ _).mono fun body s₂ hbody => ?_
  have hrest := hcond.trans hbody
  exact (hpushed.trans hrest).setChildren _ (hrest.types _ _ htype) rfl

theorem parseFor_grown (hexpr : ParsesExpr expr) (hstmt : Keeps Grown stmt) (fuel : Nat) :
    Keeps Grown (parseFor expr stmt fuel) := by
  intro s
  simp only [parseFor, ensures_bind, ensures_peek, ensures_advance, ensures_ite, ensures_fail,
    ensures_expect, ensures_writtenNode, ensures_setNode, ensures_pure]
  refine ⟨fun _ => trivial, fun _ _ _ => (hexpr _).mono fun iter s₁ hparsed => ?_⟩
  refine (parseBody_grown hstmt fuel _ _).mono fun body s₂ hbody => ?_
  have hpushed := ((Grown.next s).trans ((Grown.next _).trans (.next _))).trans
    (@Grown.pushStmt s.next.next.next
      { blankNode .for_ s.head.line with strVal := s.next.head.strVal } rfl)
  have hrest := hparsed.1.trans hbody
  exact (hpushed.trans hrest).setChildren _ (hrest.types _ _ (typeAt_append_length _ _)) rfl

theorem parseAssign_grown (hexpr : ParsesExpr expr) : Keeps Grown (parseAssign expr) := by
  intro s
  have hpushed := ((Grown.next s).trans (.next _)).trans (@Grown.pushStmt s.next.next
    { blankNode .assign s.head.line with strVal := s.head.strVal } rfl)
  simp only [parseAssign, ensures_bind, ensures_peek, ensures_advance, ensures_writtenNode,
    ensures_setNode, ensures_matchToken, ensures_pure]
  refine fun _ => (hexpr _).mono fun value s' hparsed => ?_
  have hvalue := hparsed.1
  have hset := (hpushed.trans hvalue).setChildren [value]
    (hvalue.types _ _ (typeAt_append_length _ _)) rfl
  exact ⟨fun _ => hset.trans (.next _), fun _ => hset⟩

theorem parseExprStmt_grown (hexpr : ParsesExpr expr) : Keeps Grown (parseExprStmt expr) := by
  intro s
  simp only [parseExprStmt, ensures_bind, ensures_matchToken, ensures_pure]
  exact (hexpr s).mono fun n s' hparsed => ⟨fun _ => hparsed.1.trans (.next s'), fun _ => hparsed.1⟩

theorem atAssign_run (s : Parser) : ∃ seen, atAssign s = .ok seen s := by
  rcases hrest : s.rest with _ | ⟨t, _ | ⟨next, more⟩⟩
  · exact ⟨_, by rw [atAssign, bind_eq_ok]; exact ⟨s, s, rfl, by rw [hrest]; rfl⟩⟩
  · exact ⟨_, by rw [atAssign, bind_eq_ok]; exact ⟨s, s, rfl, by rw [hrest]; rfl⟩⟩
  · exact ⟨_, by rw [atAssign, bind_eq_ok]; exact ⟨s, s, rfl, by rw [hrest]; rfl⟩⟩

theorem parseStmtWith_grown (hexpr : ParsesExpr expr) (hstmt : Keeps Grown stmt) (fuel : Nat) :
    Keeps Grown (parseStmtWith expr stmt fuel) := by
  intro s
  rw [parseStmtWith, ensures_bind, ensures_peek]
  split
  · exact parseReturn_grown hexpr s
  · exact parseJump_grown .break_ s
  · exact parseJump_grown .continue_ s
  · exact parseDef_grown hstmt fuel s
  · exact parseIf_grown hexpr hstmt fuel s
  · exact parseIf_grown hexpr hstmt fuel s
  · exact parseWhile_grown hexpr hstmt fuel s
  · exact parseFor_grown hexpr hstmt fuel s
  · obtain ⟨seen, hseen⟩ := atAssign_run s
    rw [ensures_bind, ensures_of_run hseen, ensures_ite]
    exact ⟨fun _ => parseAssign_grown hexpr s, fun _ => parseExprStmt_grown hexpr s⟩

theorem parseStmt_grown (fuel : Nat) : Keeps Grown (parseStmt fuel) := by
  induction fuel with
  | zero => exact fun _ => ensures_throw _
  | succ fuel ih => exact parseStmtWith_grown (parseExpr_parses (fuel + 1)) ih (fuel + 1)

theorem parseProgram_grown (fuel : Nat) : Keeps Grown (parseProgram fuel) := by
  intro s
  have hpushed := @Grown.pushStmt s (blankNode .block 0) rfl
  simp only [parseProgram, ensures_bind, ensures_newNode, ensures_skipNewlines, ensures_pure]
  refine fun _ => (parseStmts_grown (parseStmt_grown fuel) _ _ _ fuel
    (typeAt_append_length _ _)).mono fun _ s' hgrown => ?_
  exact (hpushed.trans (.skip _)).trans hgrown

/-- In the pool that `gk_parse` builds, expressions have expressions below them. -/
theorem gkParse_exprsClosed {tokens : List Token} {root : Nat}
    (hparse : gkParse tokens = .ok root s) : ExprsClosed s.nodes :=
  (parseProgram_grown (tokens.length + 1) ⟨tokens, []⟩ root s hparse).closed nofun

end GeckoOS.Gk
