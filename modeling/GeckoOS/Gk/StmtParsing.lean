/-
# Parsing statements

`gk_parse` succeeds on the programs of the grammar with its liberties and on no others, as
long as the limits are kept: what a parse function returns behind has been derived, and
what is derived within the limits is read to its end.

A statement makes no more nodes than it has tokens, so the pool is large enough for every
program that the lexer has room for.
-/

import GeckoOS.Gk.ExprParsing
import GeckoOS.Gk.LexerSteps
import GeckoOS.Gk.StmtGrammar

namespace GeckoOS.Gk

open GeckoOS.Math

variable {s s' s'' : Parser} {ts us rest : List Token} {t : Token} {d : Dialect} {e : Expr}
  {expr stmt : Parse Nat} {fuel : Nat}

theorem Parser.skip_rest (s : Parser) : s.skip.rest = skipLines s.rest := rfl

theorem atAssign_eq (s : Parser) : atAssign s = .ok (assigns s.rest) s := by
  rw [atAssign, bind_run (rfl : (get : Parse Parser) s = .ok s s)]
  rcases s.rest with _ | ⟨t, _ | ⟨next, more⟩⟩ <;> rfl

/-- An assignment begins with a name. -/
theorem head_of_assigns (hassigns : assigns s.rest) : s.head.type = .ident := by
  rw [Parser.head]
  rcases hrest : s.rest with _ | ⟨t, _ | ⟨op, more⟩⟩
  · rw [hrest] at hassigns
    cases hassigns
  · rw [hrest] at hassigns
    cases hassigns
  · rw [hrest, assigns, Bool.and_eq_true, decide_eq_true_eq] at hassigns
    exact hassigns.1

/-! ## What is parsed has been derived -/

/-- A parse function returns only behind what the grammar has here. -/
def Finds (sym : StmtSym) (x : Parse Nat) : Prop :=
  ∀ s, Ensures x s fun _ s' => Parses .accepted sym s.rest s'.rest

/-- The optional end of a line. -/
theorem ensures_lineEnd {post : List Token → Prop}
    (hpost : ∀ rest, LineEnd .accepted s.rest rest → post rest) :
    Ensures (matchToken .newline) s fun _ s' => post s'.rest := by
  rw [ensures_matchToken]
  refine ⟨fun hnewline => hpost _ (.inl ⟨s.head, ?_, hnewline⟩),
    fun hother => hpost _ (.inr ⟨rfl, .inr ⟨rfl, hother⟩⟩)⟩
  exact Parser.rest_next hnewline (by decide)

theorem parseReturn_finds (hexpr : Reads 0 expr) (hreturn : s.head.type = .return_) :
    Ensures (parseReturn expr) s fun _ s' => Parses .accepted .stmt s.rest s'.rest := by
  rw [Parser.rest_next hreturn (by decide)]
  simp only [parseReturn, ensures_bind, ensures_peek, ensures_advance, ensures_newNode,
    ensures_check, ensures_ite, ensures_setNode, ensures_pure]
  intro _
  refine ⟨fun _ => (hexpr _).mono fun value s' hread => ?_, fun hends => ?_⟩
  · obtain ⟨e, he, hstops⟩ := hread
    exact ensures_lineEnd fun rest hend => .return_ hreturn he (fun _ => hstops) hend
  · refine ensures_lineEnd fun rest hend => .bareReturn hreturn ?_ hend
    simp only [Bool.and_eq_true, Bool.not_eq_true', decide_eq_false_iff_not, not_and_or,
      not_not] at hends
    exact hends

theorem parseJump_finds (type : NodeType)
    (hjump : s.head.type = .break_ ∨ s.head.type = .continue_) :
    Ensures (parseJump type) s fun _ s' => Parses .accepted .stmt s.rest s'.rest := by
  rw [Parser.rest_of_head (by rcases hjump with hjump | hjump <;> simp [hjump])]
  simp only [parseJump, ensures_bind, ensures_peek, ensures_advance, ensures_newNode]
  have hline : Ensures (matchToken .newline) s.next fun _ s' =>
      Parses .accepted .stmt (s.head :: s.next.rest) s'.rest :=
    ensures_lineEnd fun rest hend => .jump hjump hend
  exact hline.mono fun _ _ hparses _ => hparses

theorem parseAssign_finds (hexpr : Reads 0 expr) (hassigns : assigns s.rest) :
    Ensures (parseAssign expr) s fun _ s' => Parses .accepted .stmt s.rest s'.rest := by
  rcases hrest : s.rest with _ | ⟨t, _ | ⟨op, more⟩⟩
  · rw [hrest] at hassigns
    cases hassigns
  · rw [hrest] at hassigns
    cases hassigns
  · rw [hrest, assigns, Bool.and_eq_true, decide_eq_true_eq, decide_eq_true_eq] at hassigns
    obtain ⟨ht, hop⟩ := hassigns
    have hnext := Parser.next_of_rest hrest (by simp [ht])
    have hnext₂ := @Parser.next_of_rest s.next _ _ (by rw [hnext]) (by simp [hop])
    simp only [parseAssign, ensures_bind, ensures_peek, ensures_advance, ensures_writtenNode,
      ensures_setNode, ensures_pure]
    refine fun _ => (hexpr _).mono fun value s' hread => ?_
    obtain ⟨e, he, hstops⟩ := hread
    rw [Parser.push_rest, hnext₂] at he
    exact ensures_lineEnd fun rest hend => .assign ht hop he (fun _ => hstops) hend

theorem parseExprStmt_finds (hexpr : Reads 0 expr) (hassigns : assigns s.rest = false) :
    Ensures (parseExprStmt expr) s fun _ s' => Parses .accepted .stmt s.rest s'.rest := by
  simp only [parseExprStmt, ensures_bind, ensures_pure]
  refine (hexpr s).mono fun n s' hread => ?_
  obtain ⟨e, he, hstops⟩ := hread
  exact ensures_lineEnd fun rest hend => .expr he (fun _ => ⟨hstops, hassigns⟩) hend

theorem parseParams_finds (n left : Nat) (s : Parser) :
    Ensures (parseParams n left) s fun _ s' =>
      s'.head.type = .rparen → ∃ m, Params .accepted m s.rest s'.rest := by
  induction left generalizing s with
  | zero => exact ensures_throw _
  | succ left ih =>
      simp only [parseParams, ensures_bind, ensures_check, ensures_ite, ensures_pure, ensures_peek,
        ensures_fail, ensures_advance, ensures_writtenNode, ensures_addChild, ensures_matchToken,
        ne_eq, not_not]
      refine ⟨fun _ hclosing => ⟨0, .nil hclosing⟩, fun _ => ⟨fun _ => trivial,
        fun ht _ => ⟨fun hcomma => ?_, fun _ => ⟨fun h => absurd h Bool.false_ne_true,
          fun _ hclosing => ?_⟩⟩⟩⟩
      · have hrest := Parser.rest_next hcomma (by decide)
        rw [Parser.write_rest, Parser.push_rest] at hrest
        refine ⟨fun _ => (ih _).mono fun _ s'' hmore hclosing => ?_, fun hne => absurd trivial hne⟩
        obtain ⟨m, hm⟩ := hmore hclosing
        rw [Parser.rest_next ht (by decide), hrest]
        exact ⟨m + 1, .cons ht hcomma (fun _ => rfl) hm⟩
      · rw [Parser.rest_next ht (by decide)]
        exact ⟨1, .last ht hclosing⟩

/-- The tokens that end statements. -/
def endsOf (top : Bool) : List TokenType := if top then [.eof] else [.dedent, .eof]

theorem parseStmts_finds (hstmt : Finds .stmt stmt) (top : Bool) (full : String) (block left : Nat)
    (s : Parser) : Ensures (parseStmts stmt (endsOf top) full block left) s fun _ s' =>
      ∃ n, Parses .accepted (.stmts top n) s.rest s'.rest := by
  induction left generalizing s with
  | zero => exact ensures_throw _
  | succ left ih =>
      simp only [parseStmts, ensures_bind, ensures_peek, ensures_ite, ensures_pure,
        ensures_childCount, ensures_fail, ensures_addChild, ensures_skipNewlines]
      refine ⟨fun hends => ⟨0, .nil ?_⟩, fun _ => (hstmt s).mono fun st s' hst =>
        ⟨fun _ => trivial, fun _ => (ih _).mono fun _ s'' hmore => ?_⟩⟩
      · cases top with
        | true => exact .inl (List.mem_singleton.mp hends)
        | false =>
            rcases List.mem_cons.mp hends with hdedent | heof
            · exact .inr ⟨rfl, hdedent⟩
            · exact .inl (List.mem_singleton.mp heof)
      · obtain ⟨n, hn⟩ := hmore
        exact ⟨n + 1, .cons hst hn⟩

theorem parseBody_finds (hstmt : Finds .stmt stmt) (fuel : Nat) (text : String) :
    Finds .body (parseBody stmt fuel text) := by
  intro s
  simp only [parseBody, ensures_bind, ensures_expect]
  intro hcolon
  rw [Parser.rest_next hcolon (by decide)]
  have hblock : ∀ s₁ : Parser, ((∃ t, s.next.rest = t :: s₁.rest ∧ t.type = .newline) ∨
      s.next.rest = s₁.rest) → Ensures (parseBlock stmt fuel) s₁ fun _ s' =>
        Parses .accepted .body (s.head :: s.next.rest) s'.rest := by
    intro s₁ hline
    simp only [parseBlock, ensures_bind, ensures_peek, ensures_expect, ensures_newNode,
      ensures_skipNewlines, ensures_matchToken, ensures_pure]
    intro hindent _
    have hrest := Parser.rest_next hindent (by decide)
    refine (parseStmts_finds hstmt false _ _ fuel _).mono fun _ s₂ hfound => ?_
    obtain ⟨n, hn⟩ := hfound
    have hunlimited : Dialect.accepted.bounded → n ≤ maxChildren := fun h => absurd h (by decide)
    have hline' : (∃ t, s.next.rest = t :: s₁.head :: s₁.next.rest ∧ t.type = .newline) ∨
        Dialect.accepted.lenient ∧ s.next.rest = s₁.head :: s₁.next.rest := by
      rw [← hrest]
      exact hline.imp_right fun hsame => ⟨rfl, hsame⟩
    refine ⟨fun hdedent => ?_, fun hother => ?_⟩
    · exact .body hcolon hline' hindent hn (fun _ => rfl) hunlimited
        (.inl ⟨s₂.head, Parser.rest_next hdedent (by decide), hdedent⟩)
    · refine .body hcolon hline' hindent hn (fun _ => rfl) hunlimited (.inr ⟨rfl, ?_⟩)
      exact hn.ends.resolve_right fun hends => hother hends.2
  rw [ensures_matchToken]
  refine ⟨fun hnewline => hblock _ (.inl ⟨_, Parser.rest_next hnewline (by decide), hnewline⟩),
    fun _ => hblock _ (.inr rfl)⟩

/-- A statement that begins with elif is the rest of an if. -/
theorem Parses.branches_of_elif (hparses : Parses d .stmt (t :: ts) rest) (ht : t.type = .elif) :
    Parses d .branches ts rest := by
  generalize hcons : t :: ts = us at hparses
  cases hparses with
  | expr he =>
      have hstarts := he.starts _ _ rfl
      rw [← hcons, nextType_cons, ht] at hstarts
      exact absurd hstarts (by decide)
  | if_ _ hbranches =>
      cases hcons
      exact hbranches
  | jump ht' =>
      cases hcons
      rw [ht] at ht'
      exact absurd ht' (by decide)
  | assign ht' | bareReturn ht' | return_ ht' | def_ ht' | while_ ht' | for_ ht' =>
      cases hcons
      cases ht.symm.trans ht'

theorem parseIf_finds (hexpr : Reads 0 expr) (hstmt : Finds .stmt stmt) (fuel : Nat)
    (hif : s.head.type = .if_ ∨ s.head.type = .elif) :
    Ensures (parseIf expr stmt fuel) s fun _ s' => Parses .accepted .stmt s.rest s'.rest := by
  rw [Parser.rest_of_head (by rcases hif with hif | hif <;> simp [hif])]
  have hif' : s.head.type = .if_ ∨ Dialect.accepted.lenient ∧ s.head.type = .elif :=
    hif.imp_right fun helif => ⟨rfl, helif⟩
  simp only [parseIf, ensures_bind, ensures_peek, ensures_advance, ensures_newNode,
    ensures_setNode, ensures_skipNewlines, ensures_check, ensures_ite, ensures_pure,
    decide_eq_true_eq]
  refine fun _ => (hexpr _).mono fun cond s₁ hread => ?_
  obtain ⟨e, he, -⟩ := hread
  refine (parseBody_finds hstmt fuel _ _).mono fun body s₂ hbody => ?_
  refine ⟨fun helif => (hstmt _).mono fun elif s₃ hbranch => ?_, fun helif => ⟨fun helse => ?_, ?_⟩⟩
  · have hrest := Parser.rest_next helif (by decide)
    rw [hrest] at hbranch
    exact .if_ hif' (.ifElif he hbody hrest helif (hbranch.branches_of_elif helif))
  · refine (parseBody_finds hstmt fuel _ _).mono fun elseBody s₃ hbranch => ?_
    exact .if_ hif' (.ifElse he hbody (Parser.rest_next helse (by decide)) helse hbranch)
  · exact fun helse => .if_ hif' (.ifOnly he hbody helif helse)

theorem parseDef_finds (hstmt : Finds .stmt stmt) (fuel : Nat) (hdef : s.head.type = .def_) :
    Ensures (parseDef stmt fuel) s fun _ s' => Parses .accepted .stmt s.rest s'.rest := by
  rw [Parser.rest_next hdef (by decide)]
  simp only [parseDef, ensures_bind, ensures_peek, ensures_advance, ensures_ite, ensures_fail,
    ensures_writtenNode, ensures_expect, ensures_addChild, ensures_pure, ne_eq, not_not]
  refine ⟨fun _ => trivial, fun hname _ hopening => ?_⟩
  rw [Parser.rest_next hname (by decide)]
  have hrest := Parser.rest_next hopening (by decide)
  rw [Parser.push_rest] at hrest
  rw [hrest]
  refine (parseParams_finds _ fuel _).mono fun _ s₁ hparams hclosing => ?_
  obtain ⟨m, hm⟩ := hparams hclosing
  rw [Parser.rest_next hclosing (by decide)] at hm
  exact (parseBody_finds hstmt fuel _ _).mono fun body s₂ hbody =>
    .def_ hdef hname hopening hm hclosing (fun hlimited => absurd hlimited (by decide)) hbody

theorem parseWhile_finds (hexpr : Reads 0 expr) (hstmt : Finds .stmt stmt) (fuel : Nat)
    (hwhile : s.head.type = .while_) :
    Ensures (parseWhile expr stmt fuel) s fun _ s' => Parses .accepted .stmt s.rest s'.rest := by
  rw [Parser.rest_next hwhile (by decide)]
  simp only [parseWhile, ensures_bind, ensures_peek, ensures_advance, ensures_newNode,
    ensures_setNode, ensures_pure]
  refine fun _ => (hexpr _).mono fun cond s₁ hread => ?_
  obtain ⟨e, he, -⟩ := hread
  exact (parseBody_finds hstmt fuel _ _).mono fun body s₂ hbody => .while_ hwhile he hbody

theorem parseFor_finds (hexpr : Reads 0 expr) (hstmt : Finds .stmt stmt) (fuel : Nat)
    (hfor : s.head.type = .for_) :
    Ensures (parseFor expr stmt fuel) s fun _ s' => Parses .accepted .stmt s.rest s'.rest := by
  rw [Parser.rest_next hfor (by decide)]
  simp only [parseFor, ensures_bind, ensures_peek, ensures_advance, ensures_ite, ensures_fail,
    ensures_expect, ensures_writtenNode, ensures_setNode, ensures_pure, ne_eq, not_not]
  refine ⟨fun _ => trivial, fun hvar hin _ => (hexpr _).mono fun iter s₁ hread => ?_⟩
  obtain ⟨e, he, -⟩ := hread
  rw [Parser.rest_next hvar (by decide), Parser.rest_next hin (by decide)]
  exact (parseBody_finds hstmt fuel _ _).mono fun body s₂ hbody =>
    .for_ hfor hvar hin he hbody

theorem parseStmtWith_finds (hexpr : Reads 0 expr) (hstmt : Finds .stmt stmt) (fuel : Nat) :
    Finds .stmt (parseStmtWith expr stmt fuel) := by
  intro s
  rw [parseStmtWith, ensures_bind, ensures_peek]
  split
  · exact parseReturn_finds hexpr (by assumption)
  · exact parseJump_finds .break_ (.inl (by assumption))
  · exact parseJump_finds .continue_ (.inr (by assumption))
  · exact parseDef_finds hstmt fuel (by assumption)
  · exact parseIf_finds hexpr hstmt fuel (.inl (by assumption))
  · exact parseIf_finds hexpr hstmt fuel (.inr (by assumption))
  · exact parseWhile_finds hexpr hstmt fuel (by assumption)
  · exact parseFor_finds hexpr hstmt fuel (by assumption)
  · rw [ensures_bind, ensures_of_run (atAssign_eq s), ensures_ite]
    exact ⟨parseAssign_finds hexpr, fun hplain =>
      parseExprStmt_finds hexpr (Bool.eq_false_iff.mpr hplain)⟩

theorem parseStmt_finds (fuel : Nat) : Finds .stmt (parseStmt fuel) := by
  induction fuel with
  | zero => exact fun _ => ensures_throw _
  | succ fuel ih => exact parseStmtWith_finds (parseExpr_reads (fuel + 1)) ih (fuel + 1)

/-- Only programs of the grammar with its liberties are parsed. -/
theorem gkParse_accepted {tokens : List Token} {root : Nat}
    (hparse : gkParse tokens = .ok root s) : Accepted tokens := by
  have hfinds : Ensures (parseProgram (tokens.length + 1)) ⟨tokens, []⟩ fun _ s' =>
      ∃ n, Parses .accepted (.stmts true n) (skipLines tokens) s'.rest := by
    simp only [parseProgram, ensures_bind, ensures_newNode, ensures_skipNewlines, ensures_pure]
    exact fun _ => parseStmts_finds (parseStmt_finds _) true _ _ _ _
  obtain ⟨n, hn⟩ := hfinds root s hparse
  exact ⟨n, s.rest, hn, fun hstrict => absurd hstrict (by decide)⟩

/-! ## What is derived is parsed -/

/-- The parser has read up to `rest`, and the nodes that were there are still there. -/
structure Moved (s : Parser) (rest : List Token) (s' : Parser) : Prop where
  rest : s'.rest = rest
  built : Built s s'

/-- Writing into a node made since is no change of the ones that were there. -/
theorem Built.write {n : Nat} (hbuilt : Built s s') (hn : s.nodes.length ≤ n)
    (write : Node → Node) : Built s (s'.write n write) where
  nodes i hi := by
    rw [Parser.write_nodes, List.getElem?_modify_ne _ _ (by omega)]
    exact hbuilt.nodes i hi
  length := by
    rw [Parser.write_nodes, List.length_modify]
    exact hbuilt.length
  room := by
    rw [Parser.write_nodes, List.length_modify, Parser.write_rest]
    exact hbuilt.room

theorem Built.skip (s : Parser) : Built s s.skip where
  nodes _ _ := rfl
  length := le_rfl
  room := Nat.add_le_add_left (skipLines_length s.rest) _

/-- Passing a token makes room for a node. -/
theorem Built.next_room (hrest : s.rest = t :: ts) (ht : t.type ≠ .eof) :
    s.next.nodes.length + s.next.rest.length < s.nodes.length + s.rest.length := by
  rw [Parser.next_of_rest hrest ht, hrest, List.length_cons]
  exact Nat.add_lt_add_left (Nat.lt_succ_self _) _

/-- The optional end of a line, where a line ends. -/
theorem returns_lineEnd (hend : LineEnd d s.rest rest) :
    Returns (matchToken .newline) s fun _ s' => Moved s rest s' := by
  rw [returns_matchToken]
  rcases hend with ⟨t, hrest, ht⟩ | ⟨rfl, hend⟩
  · have hhead : s.head.type = .newline := by rw [Parser.head_of_rest hrest, ht]
    refine ⟨fun _ => ⟨?_, .next s⟩, fun hother => absurd hhead hother⟩
    rw [Parser.next_of_rest hrest (by simp [ht])]
  · have hhead : s.head.type ≠ .newline := by
      rcases hend with hend | ⟨-, hend⟩
      · rw [Parser.head_type, hend]
        decide
      · exact hend
    exact ⟨fun hnewline => absurd hnewline hhead, fun _ => ⟨rfl, .refl s⟩⟩

/-- An expression within the limits. -/
theorem Derives.returns (he : Derives .limited (.expr 0 e) ts us) (hrest : s.rest = ts)
    (hfuel : ts.length ≤ fuel) (hroom : s.nodes.length + ts.length ≤ maxNodes + us.length)
    (hstops : StopsAt 0 us) : Returns (parseExpr fuel) s fun _ s' => Moved s us s' :=
  ((he.accepts rfl).returns_parseExpr hrest hfuel (Nat.zero_lt_of_lt (he.length.2 _ _ rfl)) hroom
    hstops).mono fun _ _ hread => ⟨hread.rest, hread.built⟩

/-- What a derivation says about the parse functions. -/
def Runs (ts rest : List Token) : StmtSym → Prop
  | .stmt => ∀ fuel s, s.rest = ts → ts.length ≤ fuel →
      s.nodes.length + ts.length ≤ maxNodes + rest.length →
      Returns (parseStmt fuel) s fun _ s' => Moved s rest s'
  | .branches => ∀ fuel t s, s.rest = t :: ts → t.type ≠ .eof → ts.length ≤ fuel →
      s.nodes.length + (ts.length + 1) ≤ maxNodes + rest.length →
      Returns (parseIf (parseExpr (fuel + 1)) (parseStmt fuel) (fuel + 1)) s
        fun _ s' => Moved s rest s'
  | .body => ∀ fuel text s, s.rest = ts → ts.length ≤ fuel + 1 →
      s.nodes.length + ts.length ≤ maxNodes + rest.length →
      Returns (parseBody (parseStmt fuel) (fuel + 1) text) s fun _ s' => Moved s rest s'
  | .stmts top n => ∀ fuel left full block s, s.rest = ts → ts.length ≤ fuel →
      ts.length < left → s.nodes.length + ts.length ≤ maxNodes + rest.length →
      (∃ node, s.nodes[block]? = some node ∧ node.child.length + n ≤ maxChildren) →
      Returns (parseStmts (parseStmt fuel) (endsOf top) full block left) s fun _ s' =>
        s'.rest = rest ∧ (∀ i < s.nodes.length, i ≠ block → s'.nodes[i]? = s.nodes[i]?) ∧
        s.nodes.length ≤ s'.nodes.length ∧
        s'.nodes.length + rest.length ≤ s.nodes.length + ts.length

/-- A statement that begins like an expression. -/
theorem parseStmt_plain (hstarts : s.head.type ∈ exprStarts) : parseStmt (fuel + 1) s =
    (if assigns s.rest then parseAssign (parseExpr (fuel + 1))
      else parseExprStmt (parseExpr (fuel + 1))) s := by
  change parseStmtWith (parseExpr (fuel + 1)) (parseStmt fuel) (fuel + 1) s = _
  rw [parseStmtWith, bind_run peek_run]
  simp only [exprStarts, List.mem_cons, List.not_mem_nil, or_false] at hstarts
  rcases hstarts with ht | ht | ht | ht | ht | ht | ht | ht <;>
    simp only [ht, bind_run (atAssign_eq s)]

theorem Runs.exprStmt (he : Derives .limited (.expr 0 e) ts us) (hstops : StopsAt 0 us)
    (hassigns : assigns ts = false) (hend : LineEnd .limited us rest) : Runs ts rest .stmt := by
  intro fuel s hrest hfuel hroom
  have hpos := he.length.2 _ _ rfl
  have hless := hend.length
  obtain ⟨fuel, rfl⟩ := Nat.exists_eq_add_of_le' (Nat.one_le_of_lt (hpos.trans_le hfuel))
  have hstarts := he.starts _ _ rfl
  rw [← hrest, ← Parser.head_type] at hstarts
  have hrun := @parseStmt_plain s fuel hstarts
  rw [hrest, hassigns, if_neg Bool.false_ne_true] at hrun
  suffices hreturns : Returns (parseExprStmt (parseExpr (fuel + 1))) s
      fun _ s' => Moved s rest s' by
    obtain ⟨n, s', hrun', hmoved⟩ := hreturns
    exact ⟨n, s', hrun.trans hrun', hmoved⟩
  simp only [parseExprStmt, returns_bind, returns_pure]
  refine (he.returns hrest hfuel (by omega) hstops).mono fun n s₁ hmoved => ?_
  exact (returns_lineEnd (hmoved.rest ▸ hend)).mono fun _ s₂ hline =>
    ⟨hline.rest, hmoved.built.trans hline.built⟩

theorem Runs.assign {op : Token} (ht : t.type = .ident) (hop : op.type = .assign)
    (he : Derives .limited (.expr 0 e) ts us) (hstops : StopsAt 0 us)
    (hend : LineEnd .limited us rest) : Runs (t :: op :: ts) rest .stmt := by
  intro fuel s hrest hfuel hroom
  have hpos := he.length.2 _ _ rfl
  have hless := hend.length
  simp only [List.length_cons] at hfuel hroom
  obtain ⟨fuel, rfl⟩ := Nat.exists_eq_add_of_le' (Nat.one_le_of_lt hfuel)
  have hhead := Parser.head_of_rest hrest
  have hnext := Parser.next_of_rest hrest (by simp [ht])
  have hnext₂ := @Parser.next_of_rest s.next _ _ (by rw [hnext]) (by simp [hop])
  have hrun := @parseStmt_plain s fuel (by rw [hhead, ht]; decide)
  have hassigns : assigns (t :: op :: ts) = true := by simp [assigns, ht, hop]
  rw [hrest, hassigns, if_pos rfl] at hrun
  suffices hreturns : Returns (parseAssign (parseExpr (fuel + 1))) s fun _ s' => Moved s rest s' by
    obtain ⟨n, s', hrun', hmoved⟩ := hreturns
    exact ⟨n, s', hrun.trans hrun', hmoved⟩
  simp only [parseAssign, returns_bind, returns_peek, returns_advance, returns_writtenNode,
    returns_setNode, returns_pure, Parser.next_nodes]
  refine ⟨by omega, ?_⟩
  have hpushed : Built s
      (s.next.next.push { blankNode .assign s.head.line with strVal := s.head.strVal }) :=
    ((Built.next s).trans (.next _)).push _ (by
      rw [hnext₂, hnext, hrest]
      simp only [List.length_cons]
      omega)
  refine (he.returns (by rw [Parser.push_rest, hnext₂]) (by omega) (by
    rw [Parser.push_nodes, Parser.next_nodes, Parser.next_nodes, List.length_append,
      List.length_singleton]
    omega) hstops).mono fun value s₁ hmoved => ?_
  refine (returns_lineEnd (by rw [Parser.write_rest, hmoved.rest]; exact hend)).mono
    fun _ s₂ hline => ⟨hline.rest, ?_⟩
  exact ((hpushed.trans hmoved.built).write le_rfl _).trans hline.built

/-- A statement that its first token tells apart. -/
theorem returns_parseStmt {post : Nat → Parser → Prop} : Returns (parseStmt (fuel + 1)) s post ↔
    Returns (parseStmtWith (parseExpr (fuel + 1)) (parseStmt fuel) (fuel + 1)) s post := Iff.rfl

theorem Runs.bareReturn (ht : t.type = .return_)
    (hnext : nextType ts = .newline ∨ nextType ts = .eof) (hend : LineEnd .limited ts rest) :
    Runs (t :: ts) rest .stmt := by
  intro fuel s hrest hfuel hroom
  have hless := hend.length
  simp only [List.length_cons] at hfuel hroom
  obtain ⟨fuel, rfl⟩ := Nat.exists_eq_add_of_le' (Nat.one_le_of_lt hfuel)
  have hend' : t.type ≠ .eof := by simp [ht]
  have hnext' := Parser.next_of_rest hrest hend'
  rw [returns_parseStmt, parseStmtWith, returns_bind, returns_peek, Parser.head_of_rest hrest]
  simp only [ht, parseReturn, returns_bind, returns_peek, returns_advance, returns_newNode,
    returns_check, returns_ite, returns_pure, Parser.next_nodes, Parser.head_of_rest hrest]
  set s₁ := s.next.push (blankNode .return_ t.line) with hs₁
  have hhead : s₁.head.type = .newline ∨ s₁.head.type = .eof := by
    rw [Parser.head_type, hs₁, Parser.push_rest, hnext']
    exact hnext
  have hpushed : Built s s₁ := (Built.next s).push _ (Built.next_room hrest hend')
  refine ⟨by omega, fun hother => ?_, fun _ => ?_⟩
  · rcases hhead with hhead | hhead <;> simp [hhead] at hother
  · refine (returns_lineEnd (by rw [hs₁, Parser.push_rest, hnext']; exact hend)).mono
      fun _ s₂ hline => ⟨hline.rest, hpushed.trans hline.built⟩

theorem Runs.return_ (ht : t.type = .return_) (he : Derives .limited (.expr 0 e) ts us)
    (hstops : StopsAt 0 us) (hend : LineEnd .limited us rest) : Runs (t :: ts) rest .stmt := by
  intro fuel s hrest hfuel hroom
  have hpos := he.length.2 _ _ rfl
  have hless := hend.length
  simp only [List.length_cons] at hfuel hroom
  obtain ⟨fuel, rfl⟩ := Nat.exists_eq_add_of_le' (Nat.one_le_of_lt hfuel)
  have hend' : t.type ≠ .eof := by simp [ht]
  have hnext' := Parser.next_of_rest hrest hend'
  have hstarts := he.starts _ _ rfl
  rw [returns_parseStmt, parseStmtWith, returns_bind, returns_peek, Parser.head_of_rest hrest]
  simp only [ht, parseReturn, returns_bind, returns_peek, returns_advance, returns_newNode,
    returns_check, returns_ite, returns_pure, Parser.next_nodes, Parser.head_of_rest hrest,
    returns_setNode]
  set s₁ := s.next.push (blankNode .return_ t.line) with hs₁
  have hhead : s₁.head.type ∈ exprStarts := by
    rw [Parser.head_type, hs₁, Parser.push_rest, hnext']
    exact hstarts
  have hpushed : Built s s₁ := (Built.next s).push _ (Built.next_room hrest hend')
  refine ⟨by omega, fun _ => ?_, fun hother => ?_⟩
  · refine (he.returns (by rw [hs₁, Parser.push_rest, hnext']) (by omega) (by
      rw [hs₁, Parser.push_nodes, Parser.next_nodes, List.length_append, List.length_singleton]
      omega) hstops).mono fun value s₂ hmoved => ?_
    refine (returns_lineEnd (by rw [Parser.write_rest, hmoved.rest]; exact hend)).mono
      fun _ s₃ hline => ⟨hline.rest, ?_⟩
    exact ((hpushed.trans hmoved.built).write le_rfl _).trans hline.built
  · have hnewline : s₁.head.type ≠ .newline := fun h => absurd (h ▸ hhead) (by decide)
    have heof : s₁.head.type ≠ .eof := fun h => absurd (h ▸ hhead) (by decide)
    simp [hnewline, heof] at hother

theorem Runs.jump (ht : t.type = .break_ ∨ t.type = .continue_)
    (hend : LineEnd .limited ts rest) : Runs (t :: ts) rest .stmt := by
  intro fuel s hrest hfuel hroom
  have hless := hend.length
  simp only [List.length_cons] at hfuel hroom
  obtain ⟨fuel, rfl⟩ := Nat.exists_eq_add_of_le' (Nat.one_le_of_lt hfuel)
  have hend' : t.type ≠ .eof := by rcases ht with ht | ht <;> simp [ht]
  have hnext' := Parser.next_of_rest hrest hend'
  have hjump : ∀ type, Returns (parseJump type) s fun _ s' => Moved s rest s' := by
    intro type
    simp only [parseJump, returns_bind, returns_peek, returns_advance, returns_newNode]
    refine (returns_lineEnd (by rw [hnext']; exact hend)).mono fun _ s₁ hline => ?_
    have hroom' := hline.built.room
    rw [Parser.next_nodes, hnext', hline.rest] at hroom'
    dsimp only at hroom'
    refine ⟨by omega, by rw [Parser.push_rest, hline.rest],
      ((Built.next s).trans hline.built).push _ ?_⟩
    rw [hline.rest, hrest, List.length_cons]
    omega
  rw [returns_parseStmt, parseStmtWith, returns_bind, returns_peek, Parser.head_of_rest hrest]
  rcases ht with ht | ht
  · simp only [ht]
    exact hjump .break_
  · simp only [ht]
    exact hjump .continue_

/-- Statements up to their end, and one more before others. -/
theorem Runs.nil {top : Bool} (hends : nextType ts = .eof ∨ top = false ∧ nextType ts = .dedent) :
    Runs ts ts (.stmts top 0) := by
  intro fuel left full block s hrest _ hleft _ _
  obtain ⟨left, rfl⟩ := Nat.exists_eq_add_of_le' (Nat.one_le_of_lt hleft)
  have hhead : s.head.type ∈ endsOf top := by
    rw [Parser.head_type, hrest]
    rcases hends with hends | ⟨rfl, hends⟩ <;> rw [hends]
    · cases top <;> decide
    · decide
  simp only [parseStmts, returns_bind, returns_peek, returns_ite, hhead, returns_pure,
    not_true_eq_false, false_implies, and_true, true_implies]
  exact ⟨hrest, fun _ _ _ => trivial, le_rfl, le_rfl⟩

theorem Runs.cons {top : Bool} {n : Nat} (hstarts : nextType ts ∈ stmtStarts)
    (hlength : us.length < ts.length) (hless : rest.length ≤ (skipLines us).length)
    (hstmt : Runs ts us .stmt) (hmore : Runs (skipLines us) rest (.stmts top n)) :
    Runs ts rest (.stmts top (n + 1)) := by
  intro fuel left full block s hrest hfuel hleft hroom ⟨node, hnode, hlimit⟩
  obtain ⟨left, rfl⟩ := Nat.exists_eq_add_of_le' (Nat.one_le_of_lt hleft)
  have hskip := skipLines_length us
  have hhead : s.head.type ∉ endsOf top := by
    rw [Parser.head_type, hrest]
    intro hends
    revert hstarts hends
    cases top <;> cases nextType ts <;> decide
  have hblock := (List.getElem?_eq_some_iff.mp hnode).1
  simp only [parseStmts, returns_bind, returns_peek, returns_ite, hhead, returns_childCount,
    returns_addChild, returns_skipNewlines, not_returns_fail, false_implies, not_false_eq_true,
    true_implies, true_and, imp_false]
  refine (hstmt fuel s hrest hfuel (by omega)).mono fun st s₁ hmoved => ?_
  have hkept := hmoved.built.nodes block hblock
  have hlo := hmoved.built.length
  have hroom₁ := hmoved.built.room
  rw [hmoved.rest, hrest] at hroom₁
  rw [hkept, hnode]
  simp only [Option.map_some, Option.getD_some]
  refine ⟨by omega, fun _ => ?_⟩
  set s₂ := (s₁.write block fun node => { node with child := node.child ++ [st] }).skip with hs₂
  have hlen : s₂.nodes.length = s₁.nodes.length := List.length_modify ..
  have hsame : ∀ i, i ≠ block → s₂.nodes[i]? = s₁.nodes[i]? := fun i hi => by
    rw [hs₂, Parser.skip_nodes, Parser.write_nodes, List.getElem?_modify_ne _ _ (Ne.symm hi)]
  have hset : s₂.nodes[block]? = some { node with child := node.child ++ [st] } := by
    rw [hs₂, Parser.skip_nodes, Parser.write_nodes, List.getElem?_modify_eq, hkept, hnode]
    rfl
  refine (hmore fuel left full block s₂ (by rw [hs₂, Parser.skip_rest, Parser.write_rest,
    hmoved.rest]) (by omega) (by omega) (by rw [hlen]; omega) ⟨_, hset, by simp; omega⟩).mono
    fun _ s₃ hfilled => ?_
  obtain ⟨hrest₃, hkept₃, hlength₃, hroom₃⟩ := hfilled
  rw [hlen] at hlength₃ hroom₃
  refine ⟨hrest₃, fun i hi hne => ?_, hlo.trans hlength₃, by omega⟩
  rw [hkept₃ i (by rw [hlen]; omega) hne, hsame i hne, hmoved.built.nodes i hi]

/-- The block of a compound statement. -/
theorem returns_parseBlock {indent : Token} {n : Nat} {vs : List Token}
    (hindent : indent.type = .indent) (hstmts : Runs (skipLines us) vs (.stmts false n))
    (hless : vs.length ≤ us.length) (hlimit : n ≤ maxChildren) (hend : BlockEnd vs rest)
    (hrest : s.rest = indent :: us) (hfuel : us.length ≤ fuel)
    (hroom : s.nodes.length + (us.length + 1) ≤ maxNodes + vs.length) :
    Returns (parseBlock (parseStmt fuel) (fuel + 1)) s fun _ s' => Moved s rest s' := by
  have hnext := Parser.next_of_rest hrest (by simp [hindent])
  have hskip := skipLines_length us
  simp only [parseBlock, returns_bind, returns_peek, returns_expect, returns_newNode,
    returns_skipNewlines, returns_matchToken, returns_pure, Parser.head_of_rest hrest,
    Parser.next_nodes, hindent, true_and]
  refine ⟨by omega, ?_⟩
  set s₁ := (s.next.push (blankNode .block indent.line)).skip with hs₁
  have hs₁rest : s₁.rest = skipLines us := by
    rw [hs₁, Parser.skip_rest, Parser.push_rest, hnext]
  have hs₁nodes : s₁.nodes = s.nodes ++ [blankNode .block indent.line] := by
    rw [hs₁, Parser.skip_nodes, Parser.push_nodes, Parser.next_nodes]
  have hs₁length : s₁.nodes.length = s.nodes.length + 1 := by
    rw [hs₁nodes, List.length_append, List.length_singleton]
  have hbuilt₁ : Built s s₁ :=
    ((Built.next s).push _ (Built.next_room hrest (by simp [hindent]))).trans (.skip _)
  refine (hstmts fuel (fuel + 1) "block too large" s.nodes.length s₁ hs₁rest (by omega) (by omega)
    (by omega) ⟨blankNode .block indent.line, by rw [hs₁nodes, getElem?_push],
      by rwa [show (blankNode .block indent.line).child.length = 0 from rfl, Nat.zero_add]⟩).mono
    fun _ s₂ hfilled => ?_
  obtain ⟨hrest₂, hkept₂, hlength₂, hroom₂⟩ := hfilled
  have hbuilt₂ : Built s s₂ := by
    refine ⟨fun i hi => ?_, hbuilt₁.length.trans hlength₂, ?_⟩
    · rw [hkept₂ i (by omega) (by omega), hbuilt₁.nodes i hi]
    · rw [hrest₂, hrest, List.length_cons]
      omega
  rcases hend with ⟨t, hvs, ht⟩ | ⟨rfl, heof⟩
  · have hhead : s₂.head.type = .dedent := by rw [Parser.head_of_rest (hrest₂.trans hvs), ht]
    refine ⟨fun _ => ⟨?_, hbuilt₂.trans (.next s₂)⟩, fun hother => absurd hhead hother⟩
    rw [Parser.next_of_rest (hrest₂.trans hvs) (by simp [ht])]
  · have hhead : s₂.head.type ≠ .dedent := by
      rw [Parser.head_type, hrest₂, heof]
      decide
    exact ⟨fun hdedent => absurd hdedent hhead, fun _ => ⟨hrest₂, hbuilt₂⟩⟩

theorem Runs.body {colon indent : Token} {n : Nat} {vs : List Token} (hcolon : colon.type = .colon)
    (hline : (∃ t, ts = t :: indent :: us ∧ t.type = .newline) ∨ ts = indent :: us)
    (hindent : indent.type = .indent) (hstmts : Runs (skipLines us) vs (.stmts false n))
    (hless : vs.length ≤ us.length) (hlimit : n ≤ maxChildren) (hend : BlockEnd vs rest) :
    Runs (colon :: ts) rest .body := by
  intro fuel text s hrest hfuel hroom
  have hnext := Parser.next_of_rest hrest (by simp [hcolon])
  have hless' := hend.length
  simp only [List.length_cons] at hfuel hroom
  simp only [parseBody, returns_bind, returns_expect, Parser.head_of_rest hrest, hcolon, true_and,
    returns_matchToken]
  have hhead : s.next.head.type = nextType ts := by rw [Parser.head_type, hnext]
  rcases hline with ⟨t, rfl, ht⟩ | rfl
  · have hnext₂ := @Parser.next_of_rest s.next _ _ (by rw [hnext]) (by simp [ht])
    rw [hhead, nextType_cons]
    refine ⟨fun _ => ?_, fun hother => absurd ht hother⟩
    simp only [List.length_cons] at hfuel hroom
    exact (returns_parseBlock hindent hstmts hless hlimit hend (by rw [hnext₂]) (by omega)
      (by rw [Parser.next_nodes, Parser.next_nodes]; omega)).mono fun _ s' hmoved =>
        ⟨hmoved.rest, ((Built.next s).trans (.next _)).trans hmoved.built⟩
  · rw [hhead, nextType_cons, hindent]
    simp only [List.length_cons] at hfuel hroom
    refine ⟨fun hline => absurd hline (by decide), fun _ => ?_⟩
    exact (returns_parseBlock hindent hstmts hless hlimit hend (by rw [hnext]) (by omega)
      (by rw [Parser.next_nodes]; omega)).mono fun _ s' hmoved =>
        ⟨hmoved.rest, (Built.next s).trans hmoved.built⟩

/-- A condition or an iterable, and the body behind it. -/
theorem returns_headed {text : String} {post : Nat → Nat → Parser → Prop}
    (he : Derives .limited (.expr 0 e) ts us) (hcolon : nextType us = .colon)
    (hbody : Runs us rest .body) (hless : rest.length ≤ us.length) (hrest : s.rest = ts)
    (hfuel : ts.length ≤ fuel + 1)
    (hroom : s.nodes.length + ts.length ≤ maxNodes + rest.length)
    (hpost : ∀ cond body s', Moved s rest s' → post cond body s') :
    Returns (parseExpr (fuel + 1)) s fun cond s' =>
      Returns (parseBody (parseStmt fuel) (fuel + 1) text) s' (post cond) := by
  have hpos := he.length.2 _ _ rfl
  have hstops : StopsAt 0 us := stopsAt_of_notMem (by rw [hcolon]; decide)
  refine (he.returns hrest hfuel (by omega) hstops).mono fun cond s₁ hmoved => ?_
  have hroom₁ := hmoved.built.room
  rw [hmoved.rest, hrest] at hroom₁
  exact (hbody fuel text s₁ hmoved.rest (by omega) (by omega)).mono fun body s₂ hmoved₂ =>
    hpost cond body s₂ ⟨hmoved₂.rest, hmoved.built.trans hmoved₂.built⟩

theorem Runs.while_ (ht : t.type = .while_) (he : Derives .limited (.expr 0 e) ts us)
    (hcolon : nextType us = .colon) (hbody : Runs us rest .body) (hless : rest.length ≤ us.length) :
    Runs (t :: ts) rest .stmt := by
  intro fuel s hrest hfuel hroom
  have hpos := he.length.2 _ _ rfl
  simp only [List.length_cons] at hfuel hroom
  obtain ⟨fuel, rfl⟩ := Nat.exists_eq_add_of_le' (Nat.one_le_of_lt hfuel)
  have hend : t.type ≠ .eof := by simp [ht]
  have hnext := Parser.next_of_rest hrest hend
  have hpushed : Built s (s.next.push (blankNode .while_ t.line)) :=
    (Built.next s).push _ (Built.next_room hrest hend)
  rw [returns_parseStmt, parseStmtWith, returns_bind, returns_peek, Parser.head_of_rest hrest]
  simp only [ht, parseWhile, returns_bind, returns_peek, returns_advance, returns_newNode,
    returns_setNode, returns_pure, Parser.next_nodes, Parser.head_of_rest hrest]
  refine ⟨by omega, returns_headed he hcolon hbody hless (by rw [Parser.push_rest, hnext])
    (by omega)
    ?_ fun cond body s' hmoved => ⟨hmoved.rest, (hpushed.trans hmoved.built).write le_rfl _⟩⟩
  rw [Parser.push_nodes, Parser.next_nodes, List.length_append, List.length_singleton]
  omega

theorem Runs.for_ {var in_ : Token} (ht : t.type = .for_) (hvar : var.type = .ident)
    (hin : in_.type = .in_) (he : Derives .limited (.expr 0 e) ts us)
    (hcolon : nextType us = .colon) (hbody : Runs us rest .body) (hless : rest.length ≤ us.length) :
    Runs (t :: var :: in_ :: ts) rest .stmt := by
  intro fuel s hrest hfuel hroom
  have hpos := he.length.2 _ _ rfl
  simp only [List.length_cons] at hfuel hroom
  obtain ⟨fuel, rfl⟩ := Nat.exists_eq_add_of_le' (Nat.one_le_of_lt hfuel)
  have hend : t.type ≠ .eof := by simp [ht]
  have hnext := Parser.next_of_rest hrest hend
  have hrest₁ : s.next.rest = var :: in_ :: ts := by rw [hnext]
  have hnext₁ := Parser.next_of_rest hrest₁ (by simp [hvar])
  have hrest₂ : s.next.next.rest = in_ :: ts := by rw [hnext₁]
  have hnext₂ := Parser.next_of_rest hrest₂ (by simp [hin])
  have hpushed : Built s (s.next.next.next.push
      { blankNode .for_ t.line with strVal := var.strVal }) := by
    refine (((Built.next s).trans (.next _)).trans (.next _)).push _ ?_
    rw [hnext₂, Parser.next_nodes, Parser.next_nodes, hrest]
    simp only [List.length_cons]
    omega
  rw [returns_parseStmt, parseStmtWith, returns_bind, returns_peek, Parser.head_of_rest hrest]
  simp only [ht, parseFor, returns_bind, returns_peek, returns_advance, returns_ite, returns_expect,
    returns_writtenNode, returns_setNode, returns_pure, Parser.next_nodes,
    Parser.head_of_rest hrest, Parser.head_of_rest hrest₁, Parser.head_of_rest hrest₂, hvar, hin,
    ne_eq, not_true_eq_false, false_implies, not_false_eq_true, true_implies, true_and]
  refine ⟨by omega, returns_headed he hcolon hbody hless (by rw [Parser.push_rest, hnext₂])
    (by omega) ?_ fun cond body s' hmoved =>
      ⟨hmoved.rest, (hpushed.trans hmoved.built).write le_rfl _⟩⟩
  rw [Parser.push_nodes, Parser.next_nodes, Parser.next_nodes, Parser.next_nodes,
    List.length_append, List.length_singleton]
  omega

/-- The state in which the parameter `t` has been read and entered into the definition `n`. -/
def Parser.withParam (s : Parser) (n : Nat) (t : Token) : Parser :=
  (s.next.push { blankNode .var t.line with strVal := t.strVal }).write n fun node =>
    { node with child := node.child ++ [s.nodes.length] }

/-- The loop over the parameters reads one. -/
theorem returns_parseParams_succ {left n : Nat} {post : Unit → Parser → Prop}
    (hrest : s.rest = t :: us) (ht : t.type = .ident) (hroom : s.nodes.length < maxNodes) :
    Returns (parseParams n (left + 1)) s post ↔
      ((s.withParam n t).head.type = .comma →
        Returns (parseParams n left) (s.withParam n t).next post) ∧
      ((s.withParam n t).head.type ≠ .comma → post () (s.withParam n t)) := by
  simp [parseParams, Parser.head_of_rest hrest, ht, hroom, Parser.withParam]

theorem Parser.withParam_rest {n : Nat} (hrest : s.rest = t :: us) (ht : t.type = .ident) :
    (s.withParam n t).rest = us := by
  rw [Parser.withParam, Parser.write_rest, Parser.push_rest,
    Parser.next_of_rest hrest (by simp [ht])]

theorem Parser.withParam_length (n : Nat) (t : Token) :
    (s.withParam n t).nodes.length = s.nodes.length + 1 := by
  simp [Parser.withParam]

theorem Parser.withParam_nodes {n i : Nat} (hi : i < s.nodes.length) (hne : i ≠ n) (t : Token) :
    (s.withParam n t).nodes[i]? = s.nodes[i]? := by
  rw [Parser.withParam, Parser.write_nodes, List.getElem?_modify_ne _ _ (Ne.symm hne),
    Parser.push_nodes, Parser.next_nodes, List.getElem?_append_left hi]

/-- The parameters of the definition `n`. -/
theorem Params.returns {m : Nat} (hparams : Params d m ts rest) : ∀ left n s, s.rest = ts →
    ts.length ≤ left → s.nodes.length + ts.length ≤ maxNodes + rest.length →
    Returns (parseParams n left) s fun _ s' =>
      s'.rest = rest ∧ (∀ i < s.nodes.length, i ≠ n → s'.nodes[i]? = s.nodes[i]?) ∧
      s.nodes.length ≤ s'.nodes.length ∧
      s'.nodes.length + rest.length ≤ s.nodes.length + ts.length := by
  induction hparams with
  | @nil ts hnext =>
      intro left n s hrest hleft _
      have hpos : 0 < ts.length := by
        cases ts with
        | nil => simp [nextType] at hnext
        | cons => simp
      obtain ⟨left, rfl⟩ := Nat.exists_eq_add_of_le' (Nat.one_le_of_lt (hpos.trans_le hleft))
      have hhead : s.head.type = .rparen := by rw [Parser.head_type, hrest, hnext]
      simp only [parseParams, returns_bind, returns_check, hhead, decide_true, Bool.true_or,
        returns_ite, returns_pure, not_true_eq_false, false_implies, and_true, true_implies]
      exact ⟨hrest, fun _ _ _ => trivial, le_rfl, le_rfl⟩
  | @last t rest ht hnext =>
      intro left n s hrest hleft hroom
      simp only [List.length_cons] at hleft hroom ⊢
      obtain ⟨left, rfl⟩ := Nat.exists_eq_add_of_le' (Nat.one_le_of_lt hleft)
      rw [returns_parseParams_succ hrest ht (by omega), Parser.head_type,
        Parser.withParam_rest hrest ht, hnext]
      refine ⟨fun hcomma => absurd hcomma (by decide), fun _ => ⟨rfl, fun i hi hne => ?_, ?_, ?_⟩⟩
      · exact Parser.withParam_nodes hi hne t
      · rw [Parser.withParam_length]
        exact Nat.le_succ _
      · rw [Parser.withParam_length]
        omega
  | @cons t comma m ts rest ht hcomma _ hmore ih =>
      intro left n s hrest hleft hroom
      have hless := hmore.length
      simp only [List.length_cons] at hleft hroom ⊢
      obtain ⟨left, rfl⟩ := Nat.exists_eq_add_of_le' (Nat.one_le_of_lt hleft)
      have hrest₁ : (s.withParam n t).rest = comma :: ts := Parser.withParam_rest hrest ht
      have hnext := Parser.next_of_rest hrest₁ (by simp [hcomma])
      rw [returns_parseParams_succ hrest ht (by omega), Parser.head_of_rest hrest₁]
      refine ⟨fun _ => ?_, fun hother => absurd hcomma hother⟩
      refine (ih left n _ (by rw [hnext]) (by omega) (by
        rw [Parser.next_nodes, Parser.withParam_length]; omega)).mono
          fun _ s₂ hread => ?_
      obtain ⟨hrest₂, hkept, hlength, hroom₂⟩ := hread
      rw [Parser.next_nodes, Parser.withParam_length] at hlength hroom₂
      refine ⟨hrest₂, fun i hi hne => ?_, by omega, by omega⟩
      rw [hkept i (by rw [Parser.next_nodes, Parser.withParam_length]; omega) hne,
        Parser.next_nodes, Parser.withParam_nodes hi hne]

theorem Runs.def_ {name opening closing : Token} {m : Nat} (ht : t.type = .def_)
    (hname : name.type = .ident) (hopening : opening.type = .lparen)
    (hparams : Params d m ts (closing :: us)) (hclosing : closing.type = .rparen)
    (hbody : Runs us rest .body) (hless : rest.length ≤ us.length) :
    Runs (t :: name :: opening :: ts) rest .stmt := by
  intro fuel s hrest hfuel hroom
  have hlength := hparams.length
  simp only [List.length_cons] at hfuel hroom hlength
  obtain ⟨fuel, rfl⟩ := Nat.exists_eq_add_of_le' (Nat.one_le_of_lt hfuel)
  have hend : t.type ≠ .eof := by simp [ht]
  have hnext := Parser.next_of_rest hrest hend
  have hrest₁ : s.next.rest = name :: opening :: ts := by rw [hnext]
  have hnext₁ := Parser.next_of_rest hrest₁ (by simp [hname])
  set s₁ := s.next.next.push { blankNode .def_ t.line with strVal := name.strVal } with hs₁
  have hrest₂ : s₁.rest = opening :: ts := by rw [hs₁, Parser.push_rest, hnext₁]
  have hnext₂ := Parser.next_of_rest hrest₂ (by simp [hopening])
  have hlength₁ : s₁.nodes.length = s.nodes.length + 1 := by
    rw [hs₁, Parser.push_nodes, Parser.next_nodes, Parser.next_nodes, List.length_append,
      List.length_singleton]
  have hpushed : Built s s₁ := by
    refine ((Built.next s).trans (.next _)).push _ ?_
    rw [hnext₁, Parser.next_nodes, hrest]
    simp only [List.length_cons]
    omega
  rw [returns_parseStmt, parseStmtWith, returns_bind, returns_peek, Parser.head_of_rest hrest]
  simp only [ht, parseDef, returns_bind, returns_peek, returns_advance, returns_ite, returns_expect,
    returns_writtenNode, returns_addChild, returns_pure, Parser.next_nodes,
    Parser.head_of_rest hrest, Parser.head_of_rest hrest₁, hname, ne_eq, not_true_eq_false,
    false_implies, not_false_eq_true, true_implies, true_and]
  refine ⟨by omega, by rw [Parser.head_of_rest hrest₂, hopening], ?_⟩
  refine (hparams.returns (fuel + 1) s.nodes.length s₁.next (by rw [hnext₂]) (by omega) (by
    rw [Parser.next_nodes, hlength₁, List.length_cons]
    omega)).mono fun _ s₂ hread => ?_
  obtain ⟨hrest₃, hkept, hlength₂, hroom₂⟩ := hread
  have hnext₃ := Parser.next_of_rest hrest₃ (by simp [hclosing])
  rw [Parser.next_nodes, hlength₁] at hlength₂ hroom₂
  rw [List.length_cons] at hroom₂
  have hbuilt : Built s s₂.next := by
    refine ⟨fun i hi => ?_, ?_, ?_⟩
    · rw [Parser.next_nodes, hkept i (by rw [Parser.next_nodes, hlength₁]; omega) (by omega),
        Parser.next_nodes, hpushed.nodes i hi]
    · rw [Parser.next_nodes]
      omega
    · rw [hnext₃, hrest]
      simp only [List.length_cons]
      omega
  refine ⟨by rw [Parser.head_of_rest hrest₃, hclosing], (hbody fuel _ s₂.next (by rw [hnext₃])
    (by omega) (by rw [Parser.next_nodes]; omega)).mono fun body s₃ hmoved =>
      ⟨hmoved.rest, (hbuilt.trans hmoved.built).write le_rfl _⟩⟩

/-- An if or elif, by what is done behind its block. -/
theorem returns_parseIf {vs : List Token} (ht : t.type ≠ .eof)
    (he : Derives .limited (.expr 0 e) ts us) (hcolon : nextType us = .colon)
    (hbody : Runs us vs .body) (hless : vs.length ≤ us.length) (hless' : rest.length ≤ vs.length)
    (hrest : s.rest = t :: ts) (hfuel : ts.length ≤ fuel)
    (hroom : s.nodes.length + (ts.length + 1) ≤ maxNodes + rest.length)
    (hafter : ∀ s₃ : Parser, s₃.rest = skipLines vs →
      s₃.nodes.length + s₃.rest.length ≤ maxNodes + rest.length →
      (s₃.head.type = .elif → Returns (parseStmt fuel) s₃ fun _ s' => Moved s₃ rest s') ∧
      (s₃.head.type ≠ .elif → (s₃.head.type = .else_ →
        Returns (parseBody (parseStmt fuel) (fuel + 1) "expected ':' after else") s₃.next
          fun _ s' => Moved s₃ rest s') ∧ (s₃.head.type ≠ .else_ → Moved s₃ rest s₃))) :
    Returns (parseIf (parseExpr (fuel + 1)) (parseStmt fuel) (fuel + 1)) s
      fun _ s' => Moved s rest s' := by
  have hpos := he.length.2 _ _ rfl
  have hnext := Parser.next_of_rest hrest ht
  have hpushed : Built s (s.next.push (blankNode .if_ s.head.line)) :=
    (Built.next s).push _ (Built.next_room hrest ht)
  simp only [parseIf, returns_bind, returns_peek, returns_advance, returns_newNode,
    returns_setNode, returns_skipNewlines, returns_check, returns_ite, returns_pure,
    decide_eq_true_eq, Parser.next_nodes]
  refine ⟨by omega, returns_headed he hcolon hbody hless (by rw [Parser.push_rest, hnext])
    (by omega)
    ?_ fun cond body s₂ hmoved => ?_⟩
  · rw [Parser.push_nodes, Parser.next_nodes, List.length_append, List.length_singleton]
    omega
  · set s₃ := (s₂.write s.nodes.length fun node =>
      { node with child := [cond, body] }).skip with hs₃
    have hbuilt : Built s s₃ := ((hpushed.trans hmoved.built).write le_rfl _).trans (.skip _)
    have hrest₃ : s₃.rest = skipLines vs := by
      rw [hs₃, Parser.skip_rest, Parser.write_rest, hmoved.rest]
    have hroom₃ := hbuilt.room
    rw [hrest, List.length_cons] at hroom₃
    obtain ⟨helif, hother⟩ := hafter s₃ hrest₃ (by omega)
    have hdone : ∀ {s₄ : Parser} (write : Node → Node), Moved s₃ rest s₄ →
        Moved s rest (s₄.write s.nodes.length write) := fun write hmoved₄ =>
      ⟨hmoved₄.rest, (hbuilt.trans hmoved₄.built).write le_rfl write⟩
    refine ⟨fun h => (helif h).mono fun _ s₄ hmoved₄ => hdone _ hmoved₄, fun h => ⟨fun h' =>
      ((hother h).1 h').mono fun _ s₄ hmoved₄ => hdone _ hmoved₄, fun h' => ?_⟩⟩
    have hmoved₄ := (hother h).2 h'
    exact ⟨hmoved₄.rest, hbuilt.trans hmoved₄.built⟩

theorem Runs.ifOnly {vs : List Token} (he : Derives .limited (.expr 0 e) ts us)
    (hcolon : nextType us = .colon) (hbody : Runs us vs .body) (hless : vs.length ≤ us.length)
    (helif : nextType (skipLines vs) ≠ .elif) (helse : nextType (skipLines vs) ≠ .else_) :
    Runs ts (skipLines vs) .branches := by
  intro fuel t s hrest ht hfuel hroom
  refine returns_parseIf ht he hcolon hbody hless (skipLines_length vs) hrest hfuel hroom
    fun s₃ hrest₃ _ => ?_
  rw [Parser.head_type, hrest₃]
  exact ⟨fun h => absurd h helif, fun _ => ⟨fun h => absurd h helse, fun _ => ⟨hrest₃, .refl s₃⟩⟩⟩

theorem Runs.ifElse {vs ws : List Token} (he : Derives .limited (.expr 0 e) ts us)
    (hcolon : nextType us = .colon) (hbody : Runs us vs .body) (hless : vs.length ≤ us.length)
    (hvs : skipLines vs = t :: ws) (ht : t.type = .else_) (helse : Runs ws rest .body)
    (hless' : rest.length ≤ ws.length) :
    Runs ts rest .branches := by
  intro fuel t' s hrest ht' hfuel hroom
  have hskip := skipLines_length vs
  have hshort := he.length.2 _ _ rfl
  rw [hvs, List.length_cons] at hskip
  refine returns_parseIf ht' he hcolon hbody hless (by omega) hrest hfuel hroom
    fun s₃ hrest₃ hroom₃ => ?_
  rw [hvs] at hrest₃
  have hnext := Parser.next_of_rest hrest₃ (by simp [ht])
  rw [hrest₃, List.length_cons] at hroom₃
  rw [Parser.head_of_rest hrest₃, ht]
  refine ⟨nofun, fun _ => ⟨fun _ => ?_, fun h => absurd rfl h⟩⟩
  exact (helse fuel _ s₃.next (by rw [hnext]) (by omega)
    (by rw [Parser.next_nodes]; omega)).mono fun _ s₄ hmoved =>
      ⟨hmoved.rest, (Built.next s₃).trans hmoved.built⟩

theorem Runs.ifElif {vs ws : List Token} (he : Derives .limited (.expr 0 e) ts us)
    (hcolon : nextType us = .colon) (hbody : Runs us vs .body) (hless : vs.length ≤ us.length)
    (hvs : skipLines vs = t :: ws) (ht : t.type = .elif) (helif : Runs ws rest .branches)
    (hless' : rest.length ≤ ws.length) : Runs ts rest .branches := by
  intro fuel t' s hrest ht' hfuel hroom
  have hskip := skipLines_length vs
  have hshort := he.length.2 _ _ rfl
  rw [hvs, List.length_cons] at hskip
  refine returns_parseIf ht' he hcolon hbody hless (by omega) hrest hfuel hroom
    fun s₃ hrest₃ hroom₃ => ?_
  rw [hvs] at hrest₃
  rw [hrest₃, List.length_cons] at hroom₃
  rw [Parser.head_of_rest hrest₃, ht]
  refine ⟨fun _ => ?_, fun h => absurd rfl h⟩
  obtain ⟨fuel, rfl⟩ := Nat.exists_eq_add_of_le' (show 1 ≤ fuel by omega)
  rw [returns_parseStmt, parseStmtWith, returns_bind, returns_peek, Parser.head_of_rest hrest₃]
  simp only [ht]
  exact helif fuel t s₃ hrest₃ (by simp [ht]) (by omega) (by omega)

theorem Runs.if_ (ht : t.type = .if_ ∨ t.type = .elif) (hbranches : Runs ts rest .branches) :
    Runs (t :: ts) rest .stmt := by
  intro fuel s hrest hfuel hroom
  simp only [List.length_cons] at hfuel hroom
  obtain ⟨fuel, rfl⟩ := Nat.exists_eq_add_of_le' (Nat.one_le_of_lt hfuel)
  have hend : t.type ≠ .eof := by rcases ht with ht | ht <;> simp [ht]
  rw [returns_parseStmt, parseStmtWith, returns_bind, returns_peek, Parser.head_of_rest hrest]
  rcases ht with ht | ht
  · simp only [ht]
    exact hbranches fuel t s hrest hend (by omega) hroom
  · simp only [ht]
    exact hbranches fuel t s hrest hend (by omega) hroom

/-- What the grammar derives within the limits, the parse functions read. -/
theorem Parses.runs {sym : StmtSym} (hparses : Parses .limited sym ts rest) : Runs ts rest sym := by
  induction hparses with
  | expr he hgreedy hend => exact .exprStmt he (hgreedy rfl).1 (hgreedy rfl).2 hend
  | assign ht hop he hgreedy hend => exact .assign ht hop he (hgreedy rfl) hend
  | bareReturn ht hnext hend => exact .bareReturn ht hnext hend
  | return_ ht he hgreedy hend => exact .return_ ht he (hgreedy rfl) hend
  | jump ht hend => exact .jump ht hend
  | def_ ht hname hopening hparams hclosing _ hbody ih =>
      exact .def_ ht hname hopening hparams hclosing ih hbody.length.1
  | while_ ht he hbody ih => exact .while_ ht he hbody.colon ih hbody.length.1
  | for_ ht hvar hin he hbody ih => exact .for_ ht hvar hin he hbody.colon ih hbody.length.1
  | if_ ht _ ih => exact .if_ (ht.imp_right And.right) ih
  | ifOnly he hbody helif helse ih =>
      exact .ifOnly he hbody.colon ih hbody.length.1 helif helse
  | ifElse he hbody hvs ht helse ihbody ihelse =>
      exact .ifElse he hbody.colon ihbody hbody.length.1 hvs ht ihelse helse.length.1
  | ifElif he hbody hvs ht helif ihbody ihelif =>
      exact .ifElif he hbody.colon ihbody hbody.length.1 hvs ht ihelif helif.length.1
  | @body _ _ _ _ us _ _ hcolon hline hindent hstmts _ hlimit hend ih =>
      exact .body hcolon (hline.imp_right And.right) hindent ih
        (hstmts.length.1.trans (skipLines_length us)) (hlimit rfl) hend
  | nil hends => exact .nil hends
  | cons hstmt hmore ihstmt ihmore =>
      exact .cons hstmt.starts (hstmt.length.2 rfl) hmore.length.1 ihstmt ihmore

/-- A program within the limits is parsed. -/
theorem gkParse_of_program {tokens : List Token} (hclosed : Closed tokens)
    (hprogram : Program .limited tokens) : ∃ root s, gkParse tokens = .ok root s := by
  obtain ⟨n, rest, hparses, hlimit⟩ := hprogram
  have hrest := ((consumes_skipLines tokens).trans hparses.consumes).rest_pos hclosed.eof
  have hskip := skipLines_length tokens
  have hlength := hclosed.length
  have hsizes : maxNodes = maxTokens := rfl
  have hreturns : Returns (parseProgram (tokens.length + 1)) ⟨tokens, []⟩ fun _ _ => True := by
    simp only [parseProgram, returns_bind, returns_newNode, returns_skipNewlines, returns_pure]
    refine ⟨by decide, (hparses.runs _ _ _ _ _ rfl (by omega) (by omega) ?_
      ⟨blankNode .block 0, rfl, ?_⟩).mono fun _ _ _ => trivial⟩
    · change 1 + (skipLines tokens).length ≤ maxNodes + rest.length
      omega
    · exact (Nat.zero_add n).symm ▸ hlimit rfl
  obtain ⟨root, s, hrun, -⟩ := hreturns
  exact ⟨root, s, hrun⟩

end GeckoOS.Gk
