/-
# Parsing into trees

What the parse functions leave in the pool for tokens of the grammar is the tree of what was
derived.  A node that is made before what stands below it gets its children at the end, and in
between nothing else is written into.
-/

import GeckoOS.Gk.StmtTree

namespace GeckoOS.Gk

open GeckoOS.Math

variable {s s' s₁ s₂ : Parser} {ts us vs rest : List Token} {t nl : Token} {e : Expr}
  {fuel lo n i : Nat} {st inner other : Stmt} {sts : List Stmt} {ids : List Nat}

/-! ## Writing into a node -/

/-- What lies behind a node stays when the node is written into. -/
theorem Parser.write_behind (s : Parser) (change : Node → Node) (hn : n < lo) :
    ∀ i, lo ≤ i → i < s.nodes.length → (s.write n change).nodes[i]? = s.nodes[i]? :=
  fun i hi _ => by rw [Parser.write_nodes, List.getElem?_modify_ne _ _ (by omega)]

theorem Denotes.write (change : Node → Node) (he : Denotes s.nodes (n + 1) e i) :
    Denotes (s.write n change).nodes (n + 1) e i :=
  Denotes.congr le_rfl (s.write_behind change (Nat.lt_succ_self n)) e i he

theorem IsStmt.write (change : Node → Node) (hst : IsStmt s.nodes (n + 1) st i) :
    IsStmt (s.write n change).nodes (n + 1) st i :=
  IsStmt.congr le_rfl (s.write_behind change (Nat.lt_succ_self n)) st i hst

/-- What is in the pool stays when the pool grows. -/
theorem Built.denotes (hbuilt : Built s s') (he : Denotes s.nodes lo e i) :
    Denotes s'.nodes lo e i :=
  Denotes.congr le_rfl (fun i _ hi => hbuilt.nodes i hi) e i he

theorem Built.isStmt (hbuilt : Built s s') (hst : IsStmt s.nodes lo st i) :
    IsStmt s'.nodes lo st i :=
  IsStmt.congr le_rfl (fun i _ hi => hbuilt.nodes i hi) st i hst

/-- A node that was made before and has its children now. -/
theorem nodeAt_write {node : Node} {change : Node → Node} (hnode : s.nodes[n]? = some node) :
    NodeAt (s.write n change).nodes n n (change node).type (change node).strVal
      (change node).child := by
  refine ⟨le_rfl, change node, ?_, rfl, rfl, rfl⟩
  rw [Parser.write_nodes, List.getElem?_modify_eq, hnode]
  rfl

theorem nodeAt_push (s : Parser) (node : Node) :
    NodeAt (s.push node).nodes s.nodes.length s.nodes.length node.type node.strVal node.child :=
  ⟨le_rfl, node, getElem?_push s.nodes node, rfl, rfl, rfl⟩

/-- The node that was pushed is still there. -/
theorem Built.pushed {node : Node} (hbuilt : Built (s.push node) s') :
    s'.nodes[s.nodes.length]? = some node := by
  rw [hbuilt.nodes _ (by simp), Parser.push_nodes, getElem?_push]

/-! ## Expressions and lines -/

/-- An expression is read, and behind it the end of its line. -/
theorem Derives.returns_read (he : Derives .strict (.expr 0 e) ts us)
    (hus : nextType us ∉ binaryOps)
    (hrest : s.rest = ts) (hfuel : ts.length ≤ fuel)
    (hroom : s.nodes.length + ts.length ≤ maxNodes + us.length) :
    Returns (parseExpr fuel) s (Read s us e) :=
  (he.accepts rfl).returns_parseExpr hrest hfuel (Nat.zero_lt_of_lt (he.length.2 _ _ rfl)) hroom
    (stopsAt_of_notMem hus)

theorem returns_newline (hrest : s.rest = nl :: rest) (hnl : nl.type = .newline) :
    Returns (matchToken .newline) s fun _ s' => s' = s.next ∧ s'.rest = rest := by
  rw [returns_matchToken, Parser.head_of_rest hrest, hnl,
    Parser.next_of_rest hrest (by simp [hnl])]
  exact ⟨fun _ => ⟨rfl, rfl⟩, fun hother => absurd rfl hother⟩

theorem newline_notMem (hnl : nl.type = .newline) : nextType (nl :: rest) ∉ binaryOps := by
  rw [nextType_cons, hnl]
  decide

theorem colon_notMem (hcolon : nextType us = .colon) : nextType us ∉ binaryOps := by
  rw [hcolon]
  decide

/-- What a derivation with a tree says about the parse functions. -/
def Builds (ts rest : List Token) : TreeSym → Prop
  | .stmt st => ∀ fuel s, s.rest = ts → ts.length ≤ fuel →
      s.nodes.length + ts.length ≤ maxNodes + rest.length →
      Returns (parseStmt fuel) s fun n s' => Moved s rest s' ∧ IsStmt s'.nodes s.nodes.length st n
  | .branches st => ∀ fuel t s, s.rest = t :: ts → t.type ≠ .eof → ts.length ≤ fuel →
      s.nodes.length + (ts.length + 1) ≤ maxNodes + rest.length →
      Returns (parseIf (parseExpr (fuel + 1)) (parseStmt fuel) (fuel + 1)) s fun n s' =>
        Moved s rest s' ∧ IsStmt s'.nodes s.nodes.length st n
  | .body st => ∀ fuel text s, s.rest = ts → ts.length ≤ fuel + 1 →
      s.nodes.length + ts.length ≤ maxNodes + rest.length →
      Returns (parseBody (parseStmt fuel) (fuel + 1) text) s fun n s' =>
        Moved s rest s' ∧ IsStmt s'.nodes s.nodes.length st n
  | .stmts sts => ∀ fuel left full top block s, s.rest = ts → ts.length ≤ fuel →
      ts.length < left → s.nodes.length + ts.length ≤ maxNodes + rest.length →
      nextType rest ∈ endsOf top →
      (∃ node, s.nodes[block]? = some node ∧ node.child.length + sts.length ≤ maxChildren) →
      Returns (parseStmts (parseStmt fuel) (endsOf top) full block left) s fun _ s' =>
        s'.rest = rest ∧ (∀ i < s.nodes.length, i ≠ block → s'.nodes[i]? = s.nodes[i]?) ∧
        s.nodes.length ≤ s'.nodes.length ∧
        s'.nodes.length + rest.length ≤ s.nodes.length + ts.length ∧
        ∃ ids, AreStmts s'.nodes (block + 1) sts ids ∧ s'.nodes[block]? = s.nodes[block]?.map
          fun node => { node with child := node.child ++ ids }

/-! ## Simple statements -/

theorem Builds.expr (he : Derives .strict (.expr 0 e) ts (nl :: rest))
    (hnl : nl.type = .newline) : Builds ts rest (.stmt (.expr e)) := by
  intro fuel s hrest hfuel hroom
  have hpos := he.length.2 _ _ rfl
  rw [List.length_cons] at hpos
  obtain ⟨fuel, rfl⟩ := Nat.exists_eq_add_of_le' (Nat.one_le_of_lt (hpos.trans_le hfuel))
  have hstarts := he.starts _ _ rfl
  rw [← hrest, ← Parser.head_type] at hstarts
  have hassigns : assigns s.rest = false := by
    rw [hrest, Bool.eq_false_iff]
    intro hassigns
    have hassign := he.assigns _ _ rfl hassigns
    rw [nextType_cons, hnl] at hassign
    cases hassign
  have hrun := @parseStmt_plain s fuel hstarts
  rw [hassigns, if_neg Bool.false_ne_true] at hrun
  suffices hreturns : Returns (parseExprStmt (parseExpr (fuel + 1))) s fun n s' =>
      Moved s rest s' ∧ IsStmt s'.nodes s.nodes.length (.expr e) n by
    obtain ⟨n, s', hrun', hread⟩ := hreturns
    exact ⟨n, s', hrun.trans hrun', hread⟩
  simp only [parseExprStmt, returns_bind, returns_pure]
  refine (he.returns_read (newline_notMem hnl) hrest hfuel (by rw [List.length_cons]; omega)).mono
    fun n s₁ hread => (returns_newline hread.rest hnl).mono fun _ s₂ hline => ?_
  obtain ⟨rfl, hrest₂⟩ := hline
  exact ⟨⟨hrest₂, hread.built.trans (.next s₁)⟩, (Built.next s₁).denotes hread.denotes⟩

theorem Builds.assign {op : Token} (ht : t.type = .ident) (hop : op.type = .assign)
    (he : Derives .strict (.expr 0 e) ts (nl :: rest)) (hnl : nl.type = .newline) :
    Builds (t :: op :: ts) rest (.stmt (.assign t.strVal e)) := by
  intro fuel s hrest hfuel hroom
  have hpos := he.length.2 _ _ rfl
  simp only [List.length_cons] at hfuel hroom hpos
  obtain ⟨fuel, rfl⟩ := Nat.exists_eq_add_of_le' (Nat.one_le_of_lt hfuel)
  have hhead := Parser.head_of_rest hrest
  have hnext := Parser.next_of_rest hrest (by simp [ht])
  have hnext₂ := @Parser.next_of_rest s.next _ _ (by rw [hnext]) (by simp [hop])
  have hrun := @parseStmt_plain s fuel (by rw [hhead, ht]; decide)
  have hassigns : assigns (t :: op :: ts) = true := by simp [assigns, ht, hop]
  rw [hrest, hassigns, if_pos rfl] at hrun
  suffices hreturns : Returns (parseAssign (parseExpr (fuel + 1))) s fun n s' =>
      Moved s rest s' ∧ IsStmt s'.nodes s.nodes.length (.assign t.strVal e) n by
    obtain ⟨n, s', hrun', hread⟩ := hreturns
    exact ⟨n, s', hrun.trans hrun', hread⟩
  simp only [parseAssign, returns_bind, returns_peek, returns_advance, returns_writtenNode,
    returns_setNode, returns_pure, Parser.next_nodes, hhead]
  refine ⟨by omega, ?_⟩
  set s₁ := s.next.next.push { blankNode .assign t.line with strVal := t.strVal } with hs₁
  have hlength : s₁.nodes.length = s.nodes.length + 1 := by
    rw [hs₁, Parser.push_nodes, List.length_append, Parser.next_nodes, Parser.next_nodes,
      List.length_singleton]
  have hbuilt : Built s s₁ :=
    ((Built.next s).trans (.next _)).push _ (by
      rw [hnext₂, hnext, hrest]
      simp only [List.length_cons]
      omega)
  refine (he.returns_read (newline_notMem hnl) (by rw [hs₁, Parser.push_rest, hnext₂]) (by omega)
    (by rw [hlength, List.length_cons]; omega)).mono fun value s₂ hread => ?_
  refine (returns_newline (by rw [Parser.write_rest, hread.rest]) hnl).mono fun _ s₃ hline => ?_
  obtain ⟨rfl, hrest₃⟩ := hline
  have hnode := @Built.pushed s.next.next s₂ _ hread.built
  rw [Parser.next_nodes, Parser.next_nodes] at hnode
  have hvalue := hread.denotes
  rw [hlength] at hvalue
  refine ⟨⟨hrest₃, ((hbuilt.trans hread.built).write le_rfl _).trans (.next _)⟩,
    (Built.next _).isStmt ⟨value, nodeAt_write hnode, hvalue.write _⟩⟩

theorem Builds.bareReturn (ht : t.type = .return_) (hnl : nl.type = .newline) :
    Builds (t :: nl :: rest) rest (.stmt (.return_ none)) := by
  intro fuel s hrest hfuel hroom
  simp only [List.length_cons] at hfuel hroom
  obtain ⟨fuel, rfl⟩ := Nat.exists_eq_add_of_le' (Nat.one_le_of_lt hfuel)
  have hend : t.type ≠ .eof := by simp [ht]
  have hnext := Parser.next_of_rest hrest hend
  rw [returns_parseStmt, parseStmtWith, returns_bind, returns_peek, Parser.head_of_rest hrest]
  simp only [ht, parseReturn, returns_bind, returns_peek, returns_advance, returns_newNode,
    returns_check, returns_ite, returns_pure, Parser.next_nodes, Parser.head_of_rest hrest]
  set s₁ := s.next.push (blankNode .return_ t.line) with hs₁
  have hrest₁ : s₁.rest = nl :: rest := by rw [hs₁, Parser.push_rest, hnext]
  have hbuilt : Built s s₁ := (Built.next s).push _ (Built.next_room hrest hend)
  have hnode := nodeAt_push s.next (blankNode .return_ t.line)
  rw [Parser.next_nodes] at hnode
  refine ⟨by omega, fun hother => ?_, fun _ => ?_⟩
  · simp [Parser.head_of_rest hrest₁, hnl] at hother
  · refine (returns_newline hrest₁ hnl).mono fun _ s₂ hline => ?_
    obtain ⟨rfl, hrest₂⟩ := hline
    exact ⟨⟨hrest₂, hbuilt.trans (.next s₁)⟩,
      @Built.isStmt _ _ _ _ (.return_ none) (.next s₁) hnode⟩

theorem Builds.return_ (ht : t.type = .return_) (he : Derives .strict (.expr 0 e) ts (nl :: rest))
    (hnl : nl.type = .newline) : Builds (t :: ts) rest (.stmt (.return_ (some e))) := by
  intro fuel s hrest hfuel hroom
  have hpos := he.length.2 _ _ rfl
  simp only [List.length_cons] at hfuel hroom hpos
  obtain ⟨fuel, rfl⟩ := Nat.exists_eq_add_of_le' (Nat.one_le_of_lt hfuel)
  have hend : t.type ≠ .eof := by simp [ht]
  have hnext := Parser.next_of_rest hrest hend
  have hstarts := he.starts _ _ rfl
  rw [returns_parseStmt, parseStmtWith, returns_bind, returns_peek, Parser.head_of_rest hrest]
  simp only [ht, parseReturn, returns_bind, returns_peek, returns_advance, returns_newNode,
    returns_check, returns_ite, returns_pure, Parser.next_nodes, Parser.head_of_rest hrest,
    returns_setNode]
  set s₁ := s.next.push (blankNode .return_ t.line) with hs₁
  have hrest₁ : s₁.rest = ts := by rw [hs₁, Parser.push_rest, hnext]
  have hlength : s₁.nodes.length = s.nodes.length + 1 := by
    rw [hs₁, Parser.push_nodes, List.length_append, Parser.next_nodes, List.length_singleton]
  have hbuilt : Built s s₁ := (Built.next s).push _ (Built.next_room hrest hend)
  have hhead : s₁.head.type ∈ exprStarts := by
    rw [Parser.head_type, hrest₁]
    exact hstarts
  refine ⟨by omega, fun _ => ?_, fun hother => ?_⟩
  · refine (he.returns_read (newline_notMem hnl) hrest₁ (by omega)
      (by rw [hlength, List.length_cons]; omega)).mono fun value s₂ hread => ?_
    refine (returns_newline (by rw [Parser.write_rest, hread.rest]) hnl).mono fun _ s₃ hline => ?_
    obtain ⟨rfl, hrest₃⟩ := hline
    have hnode := @Built.pushed s.next s₂ _ hread.built
    rw [Parser.next_nodes] at hnode
    have hvalue := hread.denotes
    rw [hlength] at hvalue
    exact ⟨⟨hrest₃, ((hbuilt.trans hread.built).write le_rfl _).trans (.next _)⟩,
      (Built.next _).isStmt ⟨value, nodeAt_write hnode, hvalue.write _⟩⟩
  · have hnewline : s₁.head.type ≠ .newline := fun h => absurd (h ▸ hhead) (by decide)
    have heof : s₁.head.type ≠ .eof := fun h => absurd (h ▸ hhead) (by decide)
    simp [hnewline, heof] at hother

/-- A statement of one word. -/
theorem returns_parseJump (hrest : s.rest = t :: nl :: rest) (ht : t.type ≠ .eof)
    (hnl : nl.type = .newline) (hroom : s.nodes.length < maxNodes) (type : NodeType) :
    Returns (parseJump type) s fun n s' =>
      Moved s rest s' ∧ NodeAt s'.nodes s.nodes.length n type [] [] := by
  have hnext := Parser.next_of_rest hrest ht
  simp only [parseJump, returns_bind, returns_peek, returns_advance, returns_newNode]
  refine (returns_newline (by rw [hnext]) hnl).mono fun _ s₁ hline => ?_
  obtain ⟨rfl, hrest₁⟩ := hline
  have hnodes : s.next.next.nodes = s.nodes := by rw [Parser.next_nodes, Parser.next_nodes]
  refine ⟨by rwa [hnodes], ⟨by rw [Parser.push_rest, hrest₁], ?_⟩, ?_⟩
  · refine ((Built.next s).trans (.next _)).push _ ?_
    rw [hnodes, hrest₁, hrest, List.length_cons, List.length_cons]
    omega
  · have hnode := nodeAt_push s.next.next (blankNode type s.head.line)
    rw [hnodes] at hnode
    rwa [hnodes]

theorem Builds.break_ (ht : t.type = .break_) (hnl : nl.type = .newline) :
    Builds (t :: nl :: rest) rest (.stmt .break_) := by
  intro fuel s hrest hfuel hroom
  simp only [List.length_cons] at hfuel hroom
  obtain ⟨fuel, rfl⟩ := Nat.exists_eq_add_of_le' (Nat.one_le_of_lt hfuel)
  rw [returns_parseStmt, parseStmtWith, returns_bind, returns_peek, Parser.head_of_rest hrest]
  simp only [ht]
  exact returns_parseJump hrest (by simp [ht]) hnl (by omega) .break_

theorem Builds.continue_ (ht : t.type = .continue_) (hnl : nl.type = .newline) :
    Builds (t :: nl :: rest) rest (.stmt .continue_) := by
  intro fuel s hrest hfuel hroom
  simp only [List.length_cons] at hfuel hroom
  obtain ⟨fuel, rfl⟩ := Nat.exists_eq_add_of_le' (Nat.one_le_of_lt hfuel)
  rw [returns_parseStmt, parseStmtWith, returns_bind, returns_peek, Parser.head_of_rest hrest]
  simp only [ht]
  exact returns_parseJump hrest (by simp [ht]) hnl (by omega) .continue_

/-! ## Statements one after the other -/

theorem Builds.nil : Builds ts ts (.stmts []) := by
  intro fuel left full top block s hrest _ hleft _ hends _
  obtain ⟨left, rfl⟩ := Nat.exists_eq_add_of_le' (Nat.one_le_of_lt hleft)
  have hhead : s.head.type ∈ endsOf top := by rwa [Parser.head_type, hrest]
  simp only [parseStmts, returns_bind, returns_peek, returns_ite, hhead, returns_pure,
    not_true_eq_false, false_implies, and_true, true_implies]
  refine ⟨hrest, fun _ _ _ => trivial, le_rfl, le_rfl, [], rfl, ?_⟩
  cases s.nodes[block]? with
  | none => rfl
  | some node => simp

theorem skipLines_of_spells (hspells : Spells (.stmts sts) us rest) : skipLines us = us := by
  refine skipLines_of_next fun hnewline => ?_
  have hnext := hspells.next
  rw [hnewline] at hnext
  exact absurd hnext (by decide)

theorem Builds.cons (hstmt : Spells (.stmt st) ts us) (hspells : Spells (.stmts sts) us rest)
    (hbuilds : Builds ts us (.stmt st)) (hmore : Builds us rest (.stmts sts)) :
    Builds ts rest (.stmts (st :: sts)) := by
  intro fuel left full top block s hrest hfuel hleft hroom hends ⟨node, hnode, hlimit⟩
  obtain ⟨left, rfl⟩ := Nat.exists_eq_add_of_le' (Nat.one_le_of_lt hleft)
  have hlength := hstmt.length.2 st rfl
  have hless := hspells.length.1
  have hhead : s.head.type ∉ endsOf top := by
    rw [Parser.head_type, hrest]
    intro hmem
    have hstarts := hstmt.starts
    revert hstarts hmem
    cases top <;> cases nextType ts <;> decide
  have hblock := (List.getElem?_eq_some_iff.mp hnode).1
  rw [List.length_cons] at hlimit
  simp only [parseStmts, returns_bind, returns_peek, returns_ite, hhead, returns_childCount,
    returns_addChild, returns_skipNewlines, not_returns_fail, false_implies, not_false_eq_true,
    true_implies, true_and, imp_false]
  refine (hbuilds fuel s hrest hfuel (by omega)).mono fun i s₁ hst => ?_
  obtain ⟨hmoved, hst⟩ := hst
  have hkept := hmoved.built.nodes block hblock
  have hlo := hmoved.built.length
  have hroom₁ := hmoved.built.room
  rw [hmoved.rest, hrest] at hroom₁
  rw [hkept, hnode]
  simp only [Option.map_some, Option.getD_some]
  refine ⟨by omega, fun _ => ?_⟩
  set s₂ := (s₁.write block fun node => { node with child := node.child ++ [i] }).skip with hs₂
  have hlen : s₂.nodes.length = s₁.nodes.length := List.length_modify ..
  have hsame : ∀ j, j ≠ block → s₂.nodes[j]? = s₁.nodes[j]? := fun j hj => by
    rw [hs₂, Parser.skip_nodes, Parser.write_nodes, List.getElem?_modify_ne _ _ (Ne.symm hj)]
  have hset : s₂.nodes[block]? = some { node with child := node.child ++ [i] } := by
    rw [hs₂, Parser.skip_nodes, Parser.write_nodes, List.getElem?_modify_eq, hkept, hnode]
    rfl
  have hrest₂ : s₂.rest = us := by
    rw [hs₂, Parser.skip_rest, Parser.write_rest, hmoved.rest, skipLines_of_spells hspells]
  refine (hmore fuel left full top block s₂ hrest₂ (by omega) (by omega) (by rw [hlen]; omega)
    hends ⟨_, hset, by simp only [List.length_append, List.length_singleton]; omega⟩).mono
    fun _ s₃ hfilled => ?_
  obtain ⟨hrest₃, hkept₃, hlength₃, hroom₃, ids, hids, hset₃⟩ := hfilled
  rw [hlen] at hlength₃ hroom₃
  refine ⟨hrest₃, fun j hj hne => ?_, hlo.trans hlength₃, by omega, i :: ids,
    ⟨i, ids, rfl, ?_, hids⟩, ?_⟩
  · rw [hkept₃ j (by rw [hlen]; omega) hne, hsame j hne, hmoved.built.nodes j hj]
  · refine IsStmt.congr (Nat.succ_le_of_lt hblock) (fun j hj hlt => ?_) st i hst
    rw [hkept₃ j (by rwa [hlen]) (by omega), hsame j (by omega)]
  · rw [hset₃, hset, Option.map_some]
    simp only [List.append_assoc, List.singleton_append]

/-! ## Compound statements -/

/-- The block of a compound statement. -/
theorem returns_parseBlock_tree {indent dedent : Token} (hindent : indent.type = .indent)
    (hspells : Spells (.stmts sts) us (dedent :: rest))
    (hbuilds : Builds us (dedent :: rest) (.stmts sts)) (hdedent : dedent.type = .dedent)
    (hlimit : sts.length ≤ maxChildren) (hrest : s.rest = indent :: us) (hfuel : us.length ≤ fuel)
    (hroom : s.nodes.length + (us.length + 1) ≤ maxNodes + rest.length) :
    Returns (parseBlock (parseStmt fuel) (fuel + 1)) s fun n s' =>
      Moved s rest s' ∧ IsStmt s'.nodes s.nodes.length (.block sts) n := by
  have hnext := Parser.next_of_rest hrest (by simp [hindent])
  have hless := hspells.length.1
  rw [List.length_cons] at hless
  simp only [parseBlock, returns_bind, returns_peek, returns_expect, returns_newNode,
    returns_skipNewlines, returns_matchToken, returns_pure, Parser.head_of_rest hrest,
    Parser.next_nodes, hindent, true_and]
  refine ⟨by omega, ?_⟩
  set s₁ := (s.next.push (blankNode .block indent.line)).skip with hs₁
  have hrest₁ : s₁.rest = us := by
    rw [hs₁, Parser.skip_rest, Parser.push_rest, hnext, skipLines_of_spells hspells]
  have hnodes₁ : s₁.nodes = s.nodes ++ [blankNode .block indent.line] := by
    rw [hs₁, Parser.skip_nodes, Parser.push_nodes, Parser.next_nodes]
  have hlength₁ : s₁.nodes.length = s.nodes.length + 1 := by
    rw [hnodes₁, List.length_append, List.length_singleton]
  have hblock : s₁.nodes[s.nodes.length]? = some (blankNode .block indent.line) := by
    rw [hnodes₁, getElem?_push]
  have hbuilt₁ : Built s s₁ :=
    ((Built.next s).push _ (Built.next_room hrest (by simp [hindent]))).trans (.skip _)
  refine (hbuilds fuel (fuel + 1) "block too large" false s.nodes.length s₁ hrest₁ (by omega)
    (by omega) (by rw [List.length_cons]; omega) (by rw [nextType_cons, hdedent]; decide)
    ⟨_, hblock, by simpa [blankNode] using hlimit⟩).mono fun _ s₂ hfilled => ?_
  obtain ⟨hrest₂, hkept₂, hlength₂, hroom₂, ids, hids, hset⟩ := hfilled
  rw [hblock, Option.map_some] at hset
  rw [List.length_cons] at hroom₂
  have hbuilt₂ : Built s s₂ := by
    refine ⟨fun i hi => ?_, hbuilt₁.length.trans hlength₂, ?_⟩
    · rw [hkept₂ i (by omega) (by omega), hbuilt₁.nodes i hi]
    · rw [hrest₂, hrest, List.length_cons, List.length_cons]
      omega
  have hhead : s₂.head.type = .dedent := by rw [Parser.head_of_rest hrest₂, hdedent]
  refine ⟨fun _ => ⟨⟨?_, hbuilt₂.trans (.next s₂)⟩, ids, ⟨le_rfl, _, hset, rfl, rfl, rfl⟩, hids⟩,
    fun hother => absurd hhead hother⟩
  rw [Parser.next_of_rest hrest₂ (by simp [hdedent])]

theorem Builds.body {colon indent dedent : Token} (hcolon : colon.type = .colon)
    (hnl : nl.type = .newline) (hindent : indent.type = .indent)
    (hspells : Spells (.stmts sts) ts (dedent :: rest))
    (hbuilds : Builds ts (dedent :: rest) (.stmts sts)) (hdedent : dedent.type = .dedent)
    (hlimit : sts.length ≤ maxChildren) :
    Builds (colon :: nl :: indent :: ts) rest (.body (.block sts)) := by
  intro fuel text s hrest hfuel hroom
  simp only [List.length_cons] at hfuel hroom
  have hnext := Parser.next_of_rest hrest (by simp [hcolon])
  have hrest₁ : s.next.rest = nl :: indent :: ts := by rw [hnext]
  have hnext₁ := Parser.next_of_rest hrest₁ (by simp [hnl])
  simp only [parseBody, returns_bind, returns_expect, Parser.head_of_rest hrest, hcolon, true_and]
  refine (returns_newline hrest₁ hnl).mono fun _ s₁ hline => ?_
  obtain ⟨rfl, hrest₂⟩ := hline
  have hnodes : s.next.next.nodes = s.nodes := by rw [Parser.next_nodes, Parser.next_nodes]
  have hblock := returns_parseBlock_tree hindent hspells hbuilds hdedent hlimit hrest₂
    (show ts.length ≤ fuel by omega) (by rw [hnodes]; omega)
  rw [hnodes] at hblock
  exact hblock.mono fun n s' hread =>
    ⟨⟨hread.1.rest, ((Built.next s).trans (.next _)).trans hread.1.built⟩, hread.2⟩

/-- A condition or an iterable, and the body behind it. -/
theorem returns_headed_tree {text : String} {post : Nat → Nat → Parser → Prop}
    (he : Derives .strict (.expr 0 e) ts us) (hspells : Spells (.body inner) us rest)
    (hbuilds : Builds us rest (.body inner)) (hrest : s.rest = ts) (hfuel : ts.length ≤ fuel + 1)
    (hroom : s.nodes.length + ts.length ≤ maxNodes + rest.length)
    (hpost : ∀ i j s', Moved s rest s' → Denotes s'.nodes s.nodes.length e i →
      IsStmt s'.nodes s.nodes.length inner j → post i j s') :
    Returns (parseExpr (fuel + 1)) s fun cond s' =>
      Returns (parseBody (parseStmt fuel) (fuel + 1) text) s' (post cond) := by
  have hpos := he.length.2 _ _ rfl
  have hless := hspells.length.1
  refine (he.returns_read (colon_notMem hspells.colon) hrest hfuel (by omega)).mono
    fun i s₁ hread => ?_
  have hroom₁ := hread.built.room
  have hlength₁ := hread.built.length
  rw [hread.rest, hrest] at hroom₁
  refine (hbuilds fuel text s₁ hread.rest (by omega) (by omega)).mono fun j s₂ hbody => ?_
  obtain ⟨hmoved, hbody⟩ := hbody
  exact hpost i j s₂ ⟨hmoved.rest, hread.built.trans hmoved.built⟩
    (hmoved.built.denotes hread.denotes) (IsStmt.congr hlength₁ (fun _ _ _ => rfl) inner j hbody)

theorem Builds.while_ (ht : t.type = .while_) (he : Derives .strict (.expr 0 e) ts us)
    (hspells : Spells (.body inner) us rest) (hbuilds : Builds us rest (.body inner)) :
    Builds (t :: ts) rest (.stmt (.while_ e inner)) := by
  intro fuel s hrest hfuel hroom
  have hpos := he.length.2 _ _ rfl
  have hless := hspells.length.1
  simp only [List.length_cons] at hfuel hroom
  obtain ⟨fuel, rfl⟩ := Nat.exists_eq_add_of_le' (Nat.one_le_of_lt hfuel)
  have hend : t.type ≠ .eof := by simp [ht]
  have hnext := Parser.next_of_rest hrest hend
  rw [returns_parseStmt, parseStmtWith, returns_bind, returns_peek, Parser.head_of_rest hrest]
  simp only [ht, parseWhile, returns_bind, returns_peek, returns_advance, returns_newNode,
    returns_setNode, returns_pure, Parser.next_nodes, Parser.head_of_rest hrest]
  set s₁ := s.next.push (blankNode .while_ t.line) with hs₁
  have hlength : s₁.nodes.length = s.nodes.length + 1 := by
    rw [hs₁, Parser.push_nodes, List.length_append, Parser.next_nodes, List.length_singleton]
  have hbuilt : Built s s₁ := (Built.next s).push _ (Built.next_room hrest hend)
  refine ⟨by omega, returns_headed_tree he hspells hbuilds (by rw [hs₁, Parser.push_rest, hnext])
    (by omega) (by omega) fun i j s₂ hmoved hcond hbody => ?_⟩
  have hnode := @Built.pushed s.next s₂ _ hmoved.built
  rw [Parser.next_nodes] at hnode
  rw [hlength] at hcond hbody
  exact ⟨⟨hmoved.rest, (hbuilt.trans hmoved.built).write le_rfl _⟩, i, j, nodeAt_write hnode,
    hcond.write _, hbody.write _⟩

theorem Builds.for_ {var in_ : Token} (ht : t.type = .for_) (hvar : var.type = .ident)
    (hin : in_.type = .in_) (he : Derives .strict (.expr 0 e) ts us)
    (hspells : Spells (.body inner) us rest) (hbuilds : Builds us rest (.body inner)) :
    Builds (t :: var :: in_ :: ts) rest (.stmt (.for_ var.strVal e inner)) := by
  intro fuel s hrest hfuel hroom
  have hpos := he.length.2 _ _ rfl
  have hless := hspells.length.1
  simp only [List.length_cons] at hfuel hroom
  obtain ⟨fuel, rfl⟩ := Nat.exists_eq_add_of_le' (Nat.one_le_of_lt hfuel)
  have hend : t.type ≠ .eof := by simp [ht]
  have hnext := Parser.next_of_rest hrest hend
  have hrest₁ : s.next.rest = var :: in_ :: ts := by rw [hnext]
  have hnext₁ := Parser.next_of_rest hrest₁ (by simp [hvar])
  have hrest₂ : s.next.next.rest = in_ :: ts := by rw [hnext₁]
  have hnext₂ := Parser.next_of_rest hrest₂ (by simp [hin])
  rw [returns_parseStmt, parseStmtWith, returns_bind, returns_peek, Parser.head_of_rest hrest]
  simp only [ht, parseFor, returns_bind, returns_peek, returns_advance, returns_ite, returns_expect,
    returns_writtenNode, returns_setNode, returns_pure, Parser.next_nodes,
    Parser.head_of_rest hrest, Parser.head_of_rest hrest₁, Parser.head_of_rest hrest₂, hvar, hin,
    ne_eq, not_true_eq_false, false_implies, not_false_eq_true, true_implies, true_and]
  have hnodes : s.next.next.next.nodes = s.nodes := by simp only [Parser.next_nodes]
  set s₁ := s.next.next.next.push { blankNode .for_ t.line with strVal := var.strVal } with hs₁
  have hlength : s₁.nodes.length = s.nodes.length + 1 := by
    rw [hs₁, Parser.push_nodes, List.length_append, hnodes, List.length_singleton]
  have hbuilt : Built s s₁ := by
    refine (((Built.next s).trans (.next _)).trans (.next _)).push _ ?_
    rw [hnodes, hnext₂, hrest]
    simp only [List.length_cons]
    omega
  refine ⟨by omega, returns_headed_tree he hspells hbuilds (by rw [hs₁, Parser.push_rest, hnext₂])
    (by omega) (by omega) fun i j s₂ hmoved hcond hbody => ?_⟩
  have hnode := @Built.pushed s.next.next.next s₂ _ hmoved.built
  rw [hnodes] at hnode
  rw [hlength] at hcond hbody
  exact ⟨⟨hmoved.rest, (hbuilt.trans hmoved.built).write le_rfl _⟩, i, j, nodeAt_write hnode,
    hcond.write _, hbody.write _⟩

/-! ## Definitions -/

/-- A parameter has been entered into the definition `n`. -/
theorem Parser.withParam_spec {node : Node} (hnode : s.nodes[n]? = some node) (t : Token) :
    NodeAt (s.withParam n t).nodes (n + 1) s.nodes.length .var t.strVal [] ∧
      (s.withParam n t).nodes[n]? =
        some { node with child := node.child ++ [s.nodes.length] } := by
  have hlt := (List.getElem?_eq_some_iff.mp hnode).1
  rw [Parser.withParam, Parser.write_nodes, Parser.push_nodes, Parser.next_nodes]
  refine ⟨⟨hlt, { blankNode .var t.line with strVal := t.strVal }, ?_, rfl, rfl, rfl⟩, ?_⟩
  · rw [List.getElem?_modify_ne _ _ hlt.ne, getElem?_push]
  · rw [List.getElem?_modify_eq, List.getElem?_append_left hlt, hnode]
    rfl

/-- The parameters of the definition `n`. -/
theorem SpellsParams.returns {params : List Text} (hparams : SpellsParams params ts rest) :
    ∀ left n s node, s.rest = ts → ts.length ≤ left →
      s.nodes.length + ts.length ≤ maxNodes + rest.length → s.nodes[n]? = some node →
      Returns (parseParams n left) s fun _ s' =>
        s'.rest = rest ∧ (∀ i < s.nodes.length, i ≠ n → s'.nodes[i]? = s.nodes[i]?) ∧
        s.nodes.length ≤ s'.nodes.length ∧
        s'.nodes.length + rest.length ≤ s.nodes.length + ts.length ∧
        ∃ ids, AreParams s'.nodes (n + 1) params ids ∧
          s'.nodes[n]? = some { node with child := node.child ++ ids } := by
  induction hparams with
  | @nil ts hnext =>
      intro left n s node hrest hleft _ hnode
      have hpos : 0 < ts.length := by
        cases ts with
        | nil => simp [nextType] at hnext
        | cons => simp
      obtain ⟨left, rfl⟩ := Nat.exists_eq_add_of_le' (Nat.one_le_of_lt (hpos.trans_le hleft))
      have hhead : s.head.type = .rparen := by rw [Parser.head_type, hrest, hnext]
      simp only [parseParams, returns_bind, returns_check, hhead, decide_true, Bool.true_or,
        returns_ite, returns_pure, not_true_eq_false, false_implies, and_true, true_implies]
      refine ⟨hrest, fun _ _ _ => trivial, le_rfl, le_rfl, [], .nil, ?_⟩
      rw [List.append_nil, hnode]
  | @last t rest ht hnext =>
      intro left n s node hrest hleft hroom hnode
      simp only [List.length_cons] at hleft hroom ⊢
      obtain ⟨left, rfl⟩ := Nat.exists_eq_add_of_le' (Nat.one_le_of_lt hleft)
      obtain ⟨hparam, hset⟩ := Parser.withParam_spec hnode t
      rw [returns_parseParams_succ hrest ht (by omega), Parser.head_type,
        Parser.withParam_rest hrest ht, hnext]
      refine ⟨fun hcomma => absurd hcomma (by decide), fun _ => ⟨rfl, fun i hi hne => ?_, ?_, ?_,
        [s.nodes.length], .cons hparam .nil, hset⟩⟩
      · exact Parser.withParam_nodes hi hne t
      · rw [Parser.withParam_length]
        exact Nat.le_succ _
      · rw [Parser.withParam_length]
        omega
  | @cons t comma params ts rest ht hcomma hmore ih =>
      intro left n s node hrest hleft hroom hnode
      have hless := hmore.length
      have hlt := (List.getElem?_eq_some_iff.mp hnode).1
      simp only [List.length_cons] at hleft hroom ⊢
      obtain ⟨left, rfl⟩ := Nat.exists_eq_add_of_le' (Nat.one_le_of_lt hleft)
      have hrest₁ : (s.withParam n t).rest = comma :: ts := Parser.withParam_rest hrest ht
      have hnext := Parser.next_of_rest hrest₁ (by simp [hcomma])
      obtain ⟨hparam, hset⟩ := Parser.withParam_spec hnode t
      rw [returns_parseParams_succ hrest ht (by omega), Parser.head_of_rest hrest₁]
      refine ⟨fun _ => ?_, fun hother => absurd hcomma hother⟩
      refine (ih left n _ _ (by rw [hnext]) (by omega) (by
        rw [Parser.next_nodes, Parser.withParam_length]; omega)
        (by rw [Parser.next_nodes, hset])).mono fun _ s₂ hread => ?_
      obtain ⟨hrest₂, hkept, hlength, hroom₂, ids, hids, hset₂⟩ := hread
      simp only [Parser.next_nodes, Parser.withParam_length] at hkept hlength hroom₂
      refine ⟨hrest₂, fun i hi hne => ?_, by omega, by omega, s.nodes.length :: ids,
        .cons (hparam.congr le_rfl fun i hi hlt' => ?_) hids, ?_⟩
      · rw [hkept i (by omega) hne, Parser.withParam_nodes hi hne]
      · rw [Parser.withParam_length] at hlt'
        exact hkept i hlt' (by omega)
      · rw [hset₂, List.append_assoc, List.singleton_append]

theorem Builds.def_ {name opening closing : Token} {params : List Text} (ht : t.type = .def_)
    (hname : name.type = .ident) (hopening : opening.type = .lparen)
    (hparams : SpellsParams params ts (closing :: us)) (hclosing : closing.type = .rparen)
    (hspells : Spells (.body inner) us rest) (hbuilds : Builds us rest (.body inner)) :
    Builds (t :: name :: opening :: ts) rest (.stmt (.def_ name.strVal params inner)) := by
  intro fuel s hrest hfuel hroom
  have hlength := hparams.length
  have hless := hspells.length.1
  simp only [List.length_cons] at hfuel hroom hlength
  obtain ⟨fuel, rfl⟩ := Nat.exists_eq_add_of_le' (Nat.one_le_of_lt hfuel)
  have hend : t.type ≠ .eof := by simp [ht]
  have hnext := Parser.next_of_rest hrest hend
  have hrest₁ : s.next.rest = name :: opening :: ts := by rw [hnext]
  have hnext₁ := Parser.next_of_rest hrest₁ (by simp [hname])
  have hnodes : s.next.next.nodes = s.nodes := by simp only [Parser.next_nodes]
  set node : Node := { blankNode .def_ t.line with strVal := name.strVal } with hnode
  set s₁ := s.next.next.push node with hs₁
  have hrest₂ : s₁.rest = opening :: ts := by rw [hs₁, Parser.push_rest, hnext₁]
  have hnext₂ := Parser.next_of_rest hrest₂ (by simp [hopening])
  have hlength₁ : s₁.nodes.length = s.nodes.length + 1 := by
    rw [hs₁, Parser.push_nodes, hnodes, List.length_append, List.length_singleton]
  have hbuilt₁ : Built s s₁ := by
    refine ((Built.next s).trans (.next _)).push _ ?_
    rw [hnext₁, Parser.next_nodes, hrest]
    simp only [List.length_cons]
    omega
  have hget : s₁.next.nodes[s.nodes.length]? = some node := by
    rw [Parser.next_nodes, hs₁, Parser.push_nodes, hnodes, getElem?_push]
  rw [returns_parseStmt, parseStmtWith, returns_bind, returns_peek, Parser.head_of_rest hrest]
  simp only [ht, parseDef, returns_bind, returns_peek, returns_advance, returns_ite, returns_expect,
    returns_writtenNode, returns_addChild, returns_pure, Parser.next_nodes,
    Parser.head_of_rest hrest, Parser.head_of_rest hrest₁, hname, ne_eq, not_true_eq_false,
    false_implies, not_false_eq_true, true_implies, true_and]
  refine ⟨by omega, by rw [Parser.head_of_rest hrest₂, hopening], ?_⟩
  refine (hparams.returns (fuel + 1) s.nodes.length s₁.next node (by rw [hnext₂]) (by omega) (by
    rw [Parser.next_nodes, hlength₁, List.length_cons]
    omega) hget).mono fun _ s₂ hread => ?_
  obtain ⟨hrest₃, hkept, hlength₂, hroom₂, ids, hids, hset⟩ := hread
  have hnext₃ := Parser.next_of_rest hrest₃ (by simp [hclosing])
  rw [Parser.next_nodes, hlength₁] at hlength₂ hroom₂
  rw [List.length_cons] at hroom₂
  have hbuilt₂ : Built s s₂.next := by
    refine ⟨fun i hi => ?_, ?_, ?_⟩
    · rw [Parser.next_nodes, hkept i (by rw [Parser.next_nodes, hlength₁]; omega) (by omega),
        Parser.next_nodes, hbuilt₁.nodes i hi]
    · rw [Parser.next_nodes]
      omega
    · rw [hnext₃, hrest]
      simp only [List.length_cons]
      omega
  refine ⟨by rw [Parser.head_of_rest hrest₃, hclosing], (hbuilds fuel _ s₂.next (by rw [hnext₃])
    (by omega) (by rw [Parser.next_nodes]; omega)).mono fun j s₃ hbody => ?_⟩
  obtain ⟨hmoved, hbody⟩ := hbody
  have hset₃ : s₃.nodes[s.nodes.length]? = some { node with child := node.child ++ ids } := by
    rw [hmoved.built.nodes _ (by rw [Parser.next_nodes]; omega), Parser.next_nodes, hset]
  refine ⟨⟨hmoved.rest, (hbuilt₂.trans hmoved.built).write le_rfl _⟩, ids, j,
    nodeAt_write hset₃, ?_, ?_⟩
  · refine hids.congr le_rfl fun i hi hlt => ?_
    rw [Parser.write_nodes, List.getElem?_modify_ne _ _ (by omega),
      hmoved.built.nodes i (by rwa [Parser.next_nodes]), Parser.next_nodes]
  · rw [Parser.next_nodes] at hbody
    exact (IsStmt.congr (by omega) (fun _ _ _ => rfl) inner j hbody).write _

/-! ## Branches -/

/-- An if or elif, by what is done behind its block. -/
theorem returns_parseIf_tree (ht : t.type ≠ .eof) (he : Derives .strict (.expr 0 e) ts us)
    (hspells : Spells (.body inner) us vs) (hbuilds : Builds us vs (.body inner))
    (hvs : nextType vs ≠ .newline) (hless : rest.length ≤ vs.length) (hrest : s.rest = t :: ts)
    (hfuel : ts.length ≤ fuel) (hroom : s.nodes.length + (ts.length + 1) ≤ maxNodes + rest.length)
    (hafter : ∀ s₃ : Parser, s₃.rest = vs →
      s₃.nodes.length + s₃.rest.length ≤ maxNodes + rest.length →
      (s₃.head.type = .elif → Returns (parseStmt fuel) s₃ fun k s' =>
        Moved s₃ rest s' ∧ IsStmt s'.nodes s₃.nodes.length other k ∧ st = .ifElse e inner other) ∧
      (s₃.head.type ≠ .elif → (s₃.head.type = .else_ →
        Returns (parseBody (parseStmt fuel) (fuel + 1) "expected ':' after else") s₃.next
          fun k s' => Moved s₃ rest s' ∧ IsStmt s'.nodes s₃.nodes.length other k ∧
            st = .ifElse e inner other) ∧
        (s₃.head.type ≠ .else_ → vs = rest ∧ st = .if_ e inner))) :
    Returns (parseIf (parseExpr (fuel + 1)) (parseStmt fuel) (fuel + 1)) s fun n s' =>
      Moved s rest s' ∧ IsStmt s'.nodes s.nodes.length st n := by
  have hpos := he.length.2 _ _ rfl
  have hbodyless := hspells.length.1
  have hnext := Parser.next_of_rest hrest ht
  simp only [parseIf, returns_bind, returns_peek, returns_advance, returns_newNode,
    returns_setNode, returns_skipNewlines, returns_check, returns_ite, returns_pure,
    decide_eq_true_eq, Parser.next_nodes]
  set s₁ := s.next.push (blankNode .if_ s.head.line) with hs₁
  have hlength : s₁.nodes.length = s.nodes.length + 1 := by
    rw [hs₁, Parser.push_nodes, List.length_append, Parser.next_nodes, List.length_singleton]
  have hbuilt₁ : Built s s₁ := (Built.next s).push _ (Built.next_room hrest ht)
  refine ⟨by omega, returns_headed_tree he hspells hbuilds (by rw [hs₁, Parser.push_rest, hnext])
    (by omega) (by omega) fun i j s₂ hmoved hcond hbody => ?_⟩
  have hget := @Built.pushed s.next s₂ _ hmoved.built
  rw [Parser.next_nodes] at hget
  rw [hlength] at hcond hbody
  set s₃ := (s₂.write s.nodes.length fun node => { node with child := [i, j] }).skip with hs₃
  have hbuilt₃ : Built s s₃ := ((hbuilt₁.trans hmoved.built).write le_rfl _).trans (.skip _)
  have hrest₃ : s₃.rest = vs := by
    rw [hs₃, Parser.skip_rest, Parser.write_rest, hmoved.rest, skipLines_of_next hvs]
  have hget₃ : s₃.nodes[s.nodes.length]? =
      some { blankNode .if_ s.head.line with child := [i, j] } := by
    rw [hs₃, Parser.skip_nodes, Parser.write_nodes, List.getElem?_modify_eq, hget]
    rfl
  have hcond₃ : Denotes s₃.nodes (s.nodes.length + 1) e i := hcond.write _
  have hbody₃ : IsStmt s₃.nodes (s.nodes.length + 1) inner j := hbody.write _
  have hlong₃ : s.nodes.length < s₃.nodes.length := (List.getElem?_eq_some_iff.mp hget₃).1
  have hroom₃ := hbuilt₃.room
  rw [hrest, List.length_cons] at hroom₃
  obtain ⟨helif, hother⟩ := hafter s₃ hrest₃ (by omega)
  have hdone : ∀ k (s₄ : Parser), Moved s₃ rest s₄ ∧
      IsStmt s₄.nodes s₃.nodes.length other k ∧ st = .ifElse e inner other →
      Moved s rest (s₄.write s.nodes.length fun node => { node with child := [i, j, k] }) ∧
        IsStmt (s₄.write s.nodes.length fun node => { node with child := [i, j, k] }).nodes
          s.nodes.length st s.nodes.length := by
    rintro k s₄ ⟨hmoved₄, hst, rfl⟩
    have hget₄ : s₄.nodes[s.nodes.length]? = _ := (hmoved₄.built.nodes _ hlong₃).trans hget₃
    exact ⟨⟨hmoved₄.rest, (hbuilt₃.trans hmoved₄.built).write le_rfl _⟩, i, j, k,
      nodeAt_write hget₄, (hmoved₄.built.denotes hcond₃).write _,
      (hmoved₄.built.isStmt hbody₃).write _,
      (IsStmt.congr hlong₃ (fun _ _ _ => rfl) other k hst).write _⟩
  refine ⟨fun h => (helif h).mono hdone, fun h => ⟨fun h' => ((hother h).1 h').mono hdone,
    fun h' => ?_⟩⟩
  obtain ⟨rfl, rfl⟩ := (hother h).2 h'
  exact ⟨⟨hrest₃, hbuilt₃⟩, i, j, ⟨le_rfl, _, hget₃, rfl, rfl, rfl⟩, hcond₃, hbody₃⟩

theorem Builds.ifOnly (he : Derives .strict (.expr 0 e) ts us)
    (hspells : Spells (.body inner) us rest) (hbuilds : Builds us rest (.body inner))
    (hrest : nextType rest ∉ [.newline, .elif, .else_]) :
    Builds ts rest (.branches (.if_ e inner)) := by
  intro fuel t s hs ht hfuel hroom
  simp only [List.mem_cons, List.not_mem_nil, or_false, not_or] at hrest
  obtain ⟨hnewline, helif, helse⟩ := hrest
  refine @returns_parseIf_tree s ts us rest rest t e fuel _ inner (.block []) ht he hspells hbuilds
    hnewline le_rfl hs hfuel hroom fun s₃ hrest₃ _ => ?_
  rw [Parser.head_type, hrest₃]
  exact ⟨fun h => absurd h helif, fun _ => ⟨fun h => absurd h helse, fun _ => ⟨rfl, rfl⟩⟩⟩

theorem Builds.ifElse (he : Derives .strict (.expr 0 e) ts us)
    (hspells : Spells (.body inner) us (t :: vs)) (hbuilds : Builds us (t :: vs) (.body inner))
    (ht : t.type = .else_) (hspells' : Spells (.body other) vs rest)
    (hbuilds' : Builds vs rest (.body other)) :
    Builds ts rest (.branches (.ifElse e inner other)) := by
  intro fuel t' s hs ht' hfuel hroom
  have hpos := he.length.2 _ _ rfl
  have hless := hspells.length.1
  have hless' := hspells'.length.1
  rw [List.length_cons] at hless
  refine @returns_parseIf_tree s ts us (t :: vs) rest t' e fuel _ inner other ht' he hspells hbuilds
    (by rw [nextType_cons, ht]; decide) (by rw [List.length_cons]; omega) hs hfuel hroom
    fun s₃ hrest₃ hroom₃ => ?_
  have hnext := Parser.next_of_rest hrest₃ (by simp [ht])
  rw [hrest₃, List.length_cons] at hroom₃
  rw [Parser.head_of_rest hrest₃, ht]
  refine ⟨nofun, fun _ => ⟨fun _ => ?_, fun h => absurd rfl h⟩⟩
  refine (hbuilds' fuel _ s₃.next (by rw [hnext]) (by omega)
    (by rw [Parser.next_nodes]; omega)).mono fun k s₄ hbody => ?_
  rw [Parser.next_nodes] at hbody
  exact ⟨⟨hbody.1.rest, (Built.next s₃).trans hbody.1.built⟩, hbody.2, rfl⟩

theorem Builds.ifElif (he : Derives .strict (.expr 0 e) ts us)
    (hspells : Spells (.body inner) us (t :: vs)) (hbuilds : Builds us (t :: vs) (.body inner))
    (ht : t.type = .elif) (hspells' : Spells (.branches other) vs rest)
    (hbuilds' : Builds vs rest (.branches other)) :
    Builds ts rest (.branches (.ifElse e inner other)) := by
  intro fuel t' s hs ht' hfuel hroom
  have hpos := he.length.2 _ _ rfl
  have hless := hspells.length.1
  have hless' := hspells'.length.1
  rw [List.length_cons] at hless
  refine @returns_parseIf_tree s ts us (t :: vs) rest t' e fuel _ inner other ht' he hspells hbuilds
    (by rw [nextType_cons, ht]; decide) (by rw [List.length_cons]; omega) hs hfuel hroom
    fun s₃ hrest₃ hroom₃ => ?_
  rw [hrest₃, List.length_cons] at hroom₃
  rw [Parser.head_of_rest hrest₃, ht]
  refine ⟨fun _ => ?_, fun h => absurd rfl h⟩
  obtain ⟨fuel, rfl⟩ := Nat.exists_eq_add_of_le' (show 1 ≤ fuel by omega)
  rw [returns_parseStmt, parseStmtWith, returns_bind, returns_peek, Parser.head_of_rest hrest₃]
  simp only [ht]
  exact (hbuilds' fuel t s₃ hrest₃ (by simp [ht]) (by omega) (by omega)).mono
    fun k s₄ hread => ⟨hread.1, hread.2, trivial⟩

theorem Builds.if_ (ht : t.type = .if_) (hbuilds : Builds ts rest (.branches st)) :
    Builds (t :: ts) rest (.stmt st) := by
  intro fuel s hrest hfuel hroom
  simp only [List.length_cons] at hfuel hroom
  obtain ⟨fuel, rfl⟩ := Nat.exists_eq_add_of_le' (Nat.one_le_of_lt hfuel)
  rw [returns_parseStmt, parseStmtWith, returns_bind, returns_peek, Parser.head_of_rest hrest]
  simp only [ht]
  exact hbuilds fuel t s hrest (by simp [ht]) (by omega) hroom

/-! ## Programs -/

/-- Where the grammar derives a tree, the parse functions build it. -/
theorem Spells.builds {sym : TreeSym} (hspells : Spells sym ts rest) : Builds ts rest sym := by
  induction hspells with
  | expr he hnl => exact .expr he hnl
  | assign ht hop he hnl => exact .assign ht hop he hnl
  | bareReturn ht hnl => exact .bareReturn ht hnl
  | return_ ht he hnl => exact .return_ ht he hnl
  | break_ ht hnl => exact .break_ ht hnl
  | continue_ ht hnl => exact .continue_ ht hnl
  | def_ ht hname hopening hparams hclosing hbody ih =>
      exact .def_ ht hname hopening hparams hclosing hbody ih
  | while_ ht he hbody ih => exact .while_ ht he hbody ih
  | for_ ht hvar hin he hbody ih => exact .for_ ht hvar hin he hbody ih
  | if_ ht _ ih => exact .if_ ht ih
  | ifOnly he hbody hrest ih => exact .ifOnly he hbody ih hrest
  | ifElse he hbody ht helse ih ih' => exact .ifElse he hbody ih ht helse ih'
  | ifElif he hbody ht helif ih ih' => exact .ifElif he hbody ih ht helif ih'
  | body hcolon hnl hindent hstmts hdedent hlimit ih =>
      exact .body hcolon hnl hindent hstmts ih hdedent hlimit
  | nil => exact .nil
  | cons hstmt hmore ih ih' => exact .cons hstmt hmore ih ih'

/-- The tokens of a program are parsed into its tree. -/
theorem gkParse_of_spells {tokens : List Token} {eof : Token}
    (hspells : Spells (.stmts sts) tokens [eof]) (heof : eof.type = .eof)
    (hlength : tokens.length ≤ maxTokens) (hlimit : sts.length ≤ maxChildren) :
    ∃ root s, gkParse tokens = .ok root s ∧ IsStmt s.nodes 0 (.block sts) root := by
  have hsizes : maxNodes = maxTokens := rfl
  have hreturns : Returns (parseProgram (tokens.length + 1)) ⟨tokens, []⟩ fun root s =>
      IsStmt s.nodes 0 (.block sts) root := by
    simp only [parseProgram, returns_bind, returns_newNode, returns_skipNewlines, returns_pure]
    refine ⟨by decide, (hspells.builds _ _ _ true 0 _ (skipLines_of_spells hspells)
      (Nat.le_succ _) (Nat.lt_succ_self _) ?_ (by rw [nextType_cons, heof]; decide)
      ⟨blankNode .block 0, rfl, ?_⟩).mono fun _ s' hfilled => ?_⟩
    · change 1 + tokens.length ≤ maxNodes + 1
      omega
    · exact (Nat.zero_add sts.length).symm ▸ hlimit
    · obtain ⟨-, -, -, -, ids, hids, hset⟩ := hfilled
      exact ⟨ids, ⟨le_rfl, _, hset, rfl, rfl, List.nil_append ids⟩, hids⟩
  exact hreturns

end GeckoOS.Gk
