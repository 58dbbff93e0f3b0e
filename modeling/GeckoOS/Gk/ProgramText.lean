/-
# Programs as they are written

A program is written with a statement a line and every block a step deeper than the line that it
belongs to.  How deep a step is and which spaces stand around operators and behind commas is free.
What `gk_lex` and `gk_parse` make of such a text is the tree of the program again.

A block ends where a line is less deep, so the DEDENT tokens that end it come with a later line
or with the end of the text.  Behind the lines of a statement some blocks are therefore still
open, and the statement is spelled as soon as they are closed.
-/

import GeckoOS.Gk.Rendering
import GeckoOS.Gk.TreeParsing

namespace GeckoOS.Gk

open GeckoOS.Math

/-! ## Writing -/

/-- How a program is written. -/
structure Layout where
  /-- What stands around operators and behind commas. -/
  gap : Text
  spaces : ∀ c ∈ gap, isSpace c
  /-- The spaces of one level of indentation. -/
  step : Nat
  pos : 0 < step

/-- Where a statement stands: on lines of its own, behind a colon, or behind the body of an if. -/
inductive Place
  | line
  | body
  | branch
  deriving DecidableEq

/-- The line `text`, at this depth. -/
def lineOf (width : Nat) (text : Text) : Text := List.replicate width 32 ++ text ++ [10]

/-- The keyword of an if. -/
def ifWord (place : Place) : Text := if place = .branch then ascii "elif" else ascii "if"

/-- The parameters of a definition. -/
def renderParams (gap : Text) : List Text → Text
  | [] => []
  | [param] => param
  | param :: params => param ++ 44 :: gap ++ renderParams gap params

section

variable (layout : Layout)

mutual

/-- The lines of a statement. -/
def Stmt.render (width : Nat) : Place → Stmt → Text
  | _, .expr e => lineOf width (e.render layout.gap)
  | _, .assign name e =>
      lineOf width (name ++ layout.gap ++ 61 :: layout.gap ++ e.render layout.gap)
  | _, .return_ none => lineOf width (ascii "return")
  | _, .return_ (some e) => lineOf width (ascii "return" ++ 32 :: e.render layout.gap)
  | _, .break_ => lineOf width (ascii "break")
  | _, .continue_ => lineOf width (ascii "continue")
  | _, .def_ name params body =>
      lineOf width (ascii "def" ++ 32 :: name ++ 40 :: renderParams layout.gap params ++
        [41, 58]) ++ body.render (width + layout.step) .body
  | place, .if_ cond body =>
      lineOf width (ifWord place ++ 32 :: cond.render layout.gap ++ [58]) ++
        body.render (width + layout.step) .body
  | place, .ifElse cond body other =>
      lineOf width (ifWord place ++ 32 :: cond.render layout.gap ++ [58]) ++
        body.render (width + layout.step) .body ++ other.render width .branch
  | _, .while_ cond body =>
      lineOf width (ascii "while" ++ 32 :: cond.render layout.gap ++ [58]) ++
        body.render (width + layout.step) .body
  | _, .for_ name iter body =>
      lineOf width (ascii "for" ++ 32 :: name ++ 32 :: ascii "in" ++
        32 :: iter.render layout.gap ++ [58]) ++ body.render (width + layout.step) .body
  | .branch, .block sts =>
      lineOf width (ascii "else" ++ [58]) ++ renderStmts (width + layout.step) sts
  | _, .block sts => renderStmts width sts

/-- The lines of statements one after the other. -/
def renderStmts (width : Nat) : List Stmt → Text
  | [] => []
  | st :: sts => st.render width .line ++ renderStmts width sts

end

end

/-! ## Which programs can be written -/

mutual

/-- How many blocks are nested in a statement. -/
def Stmt.depth : Stmt → Nat
  | .def_ _ _ body | .if_ _ body | .while_ _ body | .for_ _ _ body => body.depth
  | .ifElse _ body other => max body.depth other.depth
  | .block sts => stmtsDepth sts + 1
  | _ => 0

@[inherit_doc Stmt.depth]
def stmtsDepth : List Stmt → Nat
  | [] => 0
  | st :: sts => max st.depth (stmtsDepth sts)

end

mutual

/-- A statement may stand here: its expressions can be written, break and continue stand in loops,
and the limits for parameters and for the statements of a block are kept. -/
def Stmt.Valid (inLoop : Bool) : Place → Stmt → Prop
  | place, .expr e => place = .line ∧ e.Valid
  | place, .assign name e => place = .line ∧ IsName name ∧ e.Valid
  | place, .return_ value => place = .line ∧ ∀ e ∈ value, e.Valid
  | place, .break_ => place = .line ∧ inLoop
  | place, .continue_ => place = .line ∧ inLoop
  | place, .def_ name params body => place = .line ∧ IsName name ∧
      (∀ param ∈ params, IsName param) ∧ params.length ≤ maxParams ∧ body.Valid false .body
  | place, .if_ cond body => place ≠ .body ∧ cond.Valid ∧ body.Valid inLoop .body
  | place, .ifElse cond body other => place ≠ .body ∧ cond.Valid ∧ body.Valid inLoop .body ∧
      other.Valid inLoop .branch
  | place, .while_ cond body => place = .line ∧ cond.Valid ∧ body.Valid true .body
  | place, .for_ name iter body => place = .line ∧ IsName name ∧ iter.Valid ∧ body.Valid true .body
  | place, .block sts => place ≠ .line ∧ sts ≠ [] ∧ sts.length ≤ maxChildren ∧ StmtsValid inLoop sts

/-- The same for statements one after the other. -/
def StmtsValid (inLoop : Bool) : List Stmt → Prop
  | [] => True
  | st :: sts => st.Valid inLoop .line ∧ StmtsValid inLoop sts

end

/-! ## How many tokens there are -/

/-- The tokens of parameters. -/
def paramTokens (line : Nat) : List Text → List Token
  | [] => []
  | [param] => [⟨.ident, 0, param, line⟩]
  | param :: params => ⟨.ident, 0, param, line⟩ :: commaToken line :: paramTokens line params

/-- The number of the tokens of an expression. -/
def Expr.size (e : Expr) : Nat := (e.tokens 1).length

mutual

/-- The number of the tokens of a statement. -/
def Stmt.size : Place → Stmt → Nat
  | _, .expr e => e.size + 1
  | _, .assign _ e => e.size + 3
  | _, .return_ value => (value.elim 0 Expr.size) + 2
  | _, .break_ | _, .continue_ => 2
  | _, .def_ _ params body => (paramTokens 1 params).length + 6 + body.size .body
  | _, .if_ cond body | _, .while_ cond body => cond.size + 3 + body.size .body
  | _, .ifElse cond body other => cond.size + 3 + body.size .body + other.size .branch
  | _, .for_ _ iter body => iter.size + 5 + body.size .body
  | .branch, .block sts => stmtsSize sts + 5
  | _, .block sts => stmtsSize sts + 2

@[inherit_doc Stmt.size]
def stmtsSize : List Stmt → Nat
  | [] => 0
  | st :: sts => st.size .line + stmtsSize sts

end

mutual

/-- On every line an expression has as many tokens. -/
theorem Expr.length_tokens (line : Nat) : ∀ e : Expr, (e.tokens line).length = e.size
  | .int _ => rfl
  | .str _ => rfl
  | .bool b => by cases b <;> rfl
  | .var _ => rfl
  | .unop op e => by
      have he := Expr.length_tokens line e
      rw [Expr.size] at he ⊢
      simp only [Expr.tokens, parenTokens]
      split_ifs <;> simp [he]
  | .binop op l r => by
      have hl := Expr.length_tokens line l
      have hr := Expr.length_tokens line r
      rw [Expr.size] at hl hr ⊢
      simp only [Expr.tokens, parenTokens]
      split_ifs <;> simp [hl, hr]
  | .call name args => by
      have hargs := length_argTokens line args
      rw [Expr.size]
      simp [Expr.tokens, hargs]

@[inherit_doc Expr.length_tokens]
theorem length_argTokens (line : Nat) : ∀ es : List Expr,
    (argTokens line es).length = (argTokens 1 es).length
  | [] => rfl
  | e :: es => by
      have he := Expr.length_tokens line e
      have hes := length_argTokens line es
      rw [Expr.size] at he
      simp only [argTokens, List.length_append, he, hes]
      split_ifs <;> rfl

end

theorem length_paramTokens (line : Nat) : ∀ params : List Text,
    (paramTokens line params).length = (paramTokens 1 params).length
  | [] => rfl
  | [_] => rfl
  | _ :: param :: params => by
      simp only [paramTokens, List.length_cons, length_paramTokens line (param :: params)]

/-! ## Programs -/

/-- The places of `indent_stack`; the first is that of the lines outside all blocks. -/
def maxIndent : Nat := 64

/-- A program that can be written and that keeps the limits of the lexer and the parser. -/
structure Script where
  stmts : List Stmt
  valid : StmtsValid false stmts
  short : stmts.length ≤ maxChildren
  shallow : stmtsDepth stmts < maxIndent
  small : stmtsSize stmts < maxTokens

/-- The text of a program. -/
def Script.text (script : Script) (layout : Layout) : Text := renderStmts layout 0 script.stmts

/-! ## Lines -/

/-- Wherever it stands, this text is lexed into so many tokens of this kind. -/
structure ReadsAs (text : Text) (count : Nat) (post : List Token → Prop) : Prop where
  opens : Opens text
  lexes : ∀ line rest, ∃ ts, ts.length = count ∧ post ts ∧
    Lexes line (text ++ 10 :: rest) ts (10 :: rest)

/-- What a line emits for its indentation, and which blocks are open then. -/
def Starts (stack stack' : Indents) (width count : Nat) (opening : List Token → Prop) : Prop :=
  ∀ s line, s.tokens.length + count ≤ maxTokens → ∃ ts, ts.length = count ∧ opening ts ∧
    lexIndent s stack width line = (true, { s with tokens := s.tokens ++ ts }, stack')

/-- With these blocks open, the lexer emits so many tokens of this kind for the lines of `text`,
and goes on at `rest` with those blocks open. -/
def LinesTo (stack stack' : Indents) (text rest : Text) (count : Nat) (post : List Token → Prop) :
    Prop :=
  ∀ fuel s line, text.length ≤ fuel → s.tokens.length + count ≤ maxTokens →
    ∃ fuel' line' ts, rest.length ≤ fuel' ∧ ts.length = count ∧ post ts ∧
      lexLines fuel s stack line text =
        lexLines fuel' { s with tokens := s.tokens ++ ts } stack' line' rest

variable {stack stack' stack'' pend : Indents} {text rest rest' : Text} {width k m : Nat}
  {post post' opening : List Token → Prop}

theorem LinesTo.trans (hfirst : LinesTo stack stack' text rest k post)
    (hsecond : LinesTo stack' stack'' rest rest' m post') :
    LinesTo stack stack'' text rest' (k + m) fun ts =>
      ∃ us vs, ts = us ++ vs ∧ post us ∧ post' vs := by
  intro fuel s line hfuel hroom
  obtain ⟨fuel₁, line₁, us, hfuel₁, hus, hpost, hrun₁⟩ := hfirst fuel s line hfuel (by omega)
  obtain ⟨fuel₂, line₂, vs, hfuel₂, hvs, hpost', hrun₂⟩ :=
    hsecond fuel₁ { s with tokens := s.tokens ++ us } line₁ hfuel₁
      (by rw [List.length_append]; omega)
  refine ⟨fuel₂, line₂, us ++ vs, hfuel₂, by rw [List.length_append, hus, hvs],
    ⟨us, vs, rfl, hpost, hpost'⟩, ?_⟩
  rw [hrun₁, hrun₂, List.append_assoc]

theorem LinesTo.mono (hlines : LinesTo stack stack' text rest k post)
    (hpost : ∀ ts, ts.length = k → post ts → post' ts) :
    LinesTo stack stack' text rest k post' := by
  intro fuel s line hfuel hroom
  obtain ⟨fuel', line', ts, hfuel', hts, hemitted, hrun⟩ := hlines fuel s line hfuel hroom
  exact ⟨fuel', line', ts, hfuel', hts, hpost ts hts hemitted, hrun⟩

theorem indentation_replicate (width : Nat) (hopens : Opens text) :
    indentation (List.replicate width 32 ++ text) = (width, text) := by
  obtain ⟨c, more, rfl, -, -, -, hspace⟩ := hopens
  rw [isSpace, Bool.or_eq_false_iff] at hspace
  have hall : ∀ d ∈ List.replicate width (32 : UInt8), (d == 32) = true := fun d hd => by
    rw [List.eq_of_mem_replicate hd]
    rfl
  rw [indentation, List.takeWhile_append_of_pos hall, List.dropWhile_append_of_pos hall,
    List.takeWhile_cons_of_neg (by simp [hspace.1]),
    List.dropWhile_cons_of_neg (by simp [hspace.1]),
    List.takeWhile_cons_of_neg (by simp [hspace.2]),
    List.dropWhile_cons_of_neg (by simp [hspace.2]), List.append_nil, List.length_replicate]
  rfl

/-- A line that is not blank. -/
theorem linesTo_line (hreads : ReadsAs text m post) (hstarts : Starts stack stack' width k opening)
    (rest : Text) : LinesTo stack stack' (lineOf width text ++ rest) rest (k + (m + 1)) fun ts =>
      ∃ us vs nl, ts = us ++ (vs ++ [nl]) ∧ opening us ∧ post vs ∧ nl.type = .newline := by
  intro fuel s line hfuel hroom
  have htext : lineOf width text ++ rest = List.replicate width 32 ++ (text ++ 10 :: rest) := by
    simp [lineOf]
  rw [htext] at hfuel ⊢
  have hopens := hreads.opens.append (10 :: rest)
  obtain ⟨us, hus, hopening, hindent⟩ := hstarts s line (by omega)
  obtain ⟨vs, hvs, hpost, hlexes⟩ := hreads.lexes line rest
  simp only [List.length_append, List.length_cons] at hfuel
  obtain ⟨fuel, rfl⟩ := Nat.exists_eq_add_of_le' (show 1 ≤ fuel by omega)
  obtain ⟨fuel', hfuel', hrun⟩ := hlexes.run (text ++ 10 :: rest).length
    { s with tokens := s.tokens ++ us } le_rfl (by rw [List.length_append]; omega)
  have hend : lexLine line fuel' { s with tokens := s.tokens ++ us ++ vs } (10 :: rest) =
      .inr ({ s with tokens := s.tokens ++ us ++ vs }, 10 :: rest) := by
    rw [List.length_cons] at hfuel'
    obtain ⟨fuel', rfl⟩ := Nat.exists_eq_add_of_le' (Nat.one_le_of_lt hfuel')
    rw [lexLine]
    exact if_pos rfl
  rw [hend] at hrun
  obtain ⟨c, more, hcons, -, hnewline, hhash, -⟩ := hopens
  have hblank : ¬(text ++ 10 :: rest = [] ∨ (text ++ 10 :: rest).head? = some 10 ∨
      (text ++ 10 :: rest).head? = some 35) := by
    rw [hcons]
    simp [hnewline, hhash]
  have hne : List.replicate width 32 ++ (text ++ 10 :: rest) ≠ [] := by
    rw [hcons]
    simp
  have hemit := @Lexer.emit_of_lt line { s with tokens := s.tokens ++ us ++ vs } .newline 0 []
    (by simp only [List.length_append]; omega)
  refine ⟨fuel, line + 1, us ++ (vs ++ [⟨.newline, 0, [], line⟩]), by omega, ?_,
    ⟨us, vs, _, rfl, hopening, hpost, rfl⟩, ?_⟩
  · simp only [List.length_append, List.length_singleton]
    omega
  · rw [lexLines, if_neg hne, indentation_replicate width (hreads.opens.append _)]
    dsimp only
    rw [if_neg hblank, hindent]
    dsimp only
    rw [hrun]
    dsimp only
    rw [hemit]
    dsimp only
    rw [if_neg (List.cons_ne_nil _ _), List.tail_cons, List.append_assoc, List.append_assoc]

/-! ## Blocks that are open -/

theorem closeBlocks_pending (s : Lexer) (line : Nat) (hpend : ∀ x ∈ pend, width < x)
    (htop : stack.headD 0 ≤ width) (hroom : s.tokens.length + pend.length ≤ maxTokens) :
    closeBlocks width line s (pend ++ stack) = (true,
      { s with tokens := s.tokens ++ List.replicate pend.length ⟨.dedent, 0, [], line⟩ },
      stack) := by
  induction pend generalizing s with
  | nil =>
      rw [List.nil_append, List.length_nil, List.replicate_zero, List.append_nil]
      cases stack with
      | nil => rfl
      | cons x xs =>
          rw [List.headD_cons] at htop
          rw [closeBlocks, if_neg (Nat.not_lt.mpr htop)]
  | cons x pend ih =>
      rw [List.length_cons] at hroom
      rw [List.cons_append, closeBlocks, if_pos (hpend x List.mem_cons_self),
        Lexer.emit_of_lt (by omega)]
      dsimp only
      rw [ih _ (fun y hy => hpend y (List.mem_cons_of_mem _ hy))
        (by simp only [List.length_append, List.length_singleton]; omega)]
      rw [List.length_cons, List.replicate_succ, List.append_assoc, List.singleton_append]

/-- A line as deep as a block that is open ends the deeper ones. -/
theorem starts_same (hpend : ∀ x ∈ pend, width < x) (htop : stack.headD 0 = width) :
    Starts (pend ++ stack) stack width pend.length fun ts =>
      ts.length = pend.length ∧ ∀ t ∈ ts, t.type = .dedent := by
  intro s line hroom
  refine ⟨List.replicate pend.length ⟨.dedent, 0, [], line⟩, List.length_replicate,
    ⟨List.length_replicate, fun t ht => by rw [List.eq_of_mem_replicate ht]⟩, ?_⟩
  have hdeep : ¬(pend ++ stack).headD 0 < width := by
    cases pend with
    | nil => exact Nat.not_lt.mpr htop.ge
    | cons x pend => exact Nat.not_lt.mpr (hpend x List.mem_cons_self).le
  rw [lexIndent, if_neg hdeep, closeBlocks_pending s line hpend htop.le hroom]

/-- A deeper line begins a block. -/
theorem starts_deeper (htop : stack.headD 0 < width) :
    Starts stack (width :: stack) width 1 fun ts => ∃ indent, ts = [indent] ∧
      indent.type = .indent := by
  intro s line hroom
  refine ⟨[⟨.indent, 0, [], line⟩], rfl, ⟨_, rfl, rfl⟩, ?_⟩
  rw [lexIndent, if_pos htop, Lexer.emit_of_lt (by omega)]

/-! ## What the lines are lexed into -/

/-- These tokens are an expression, whatever stands behind them but an opening parenthesis. -/
def SpellsExpr (e : Expr) (ts : List Token) : Prop :=
  ∀ us, nextType us ≠ .lparen → Derives .strict (.expr 0 e) (ts ++ us) us

/-- A keyword and its token. -/
structure IsKeyword (word : Text) (type : TokenType) : Prop where
  type : wordType word = type
  head : ∃ c more, word = c :: more ∧ isAlpha c
  chars : ∀ c ∈ word, isAlnum c
  length : word.length ≤ 63

variable {layout : Layout} {e : Expr} {word name : Text} {type : TokenType} {line : Nat}
  {params : List Text}

theorem keywords_chars : ∀ keyword ∈ keywords, isAlpha (keyword.1.headD 0) ∧
    (∀ c ∈ keyword.1, isAlnum c) ∧ keyword.1.length ≤ 63 := by decide +kernel

/-- What is no identifier is in the table of the keywords. -/
theorem isKeyword (htype : wordType word = type) (hne : type ≠ .ident) : IsKeyword word type := by
  have hfound : keywords.find? (fun keyword => keyword.1 == word) ≠ none := by
    intro hnone
    rw [wordType, hnone] at htype
    exact hne htype.symm
  obtain ⟨keyword, hfind⟩ := Option.ne_none_iff_exists'.mp hfound
  obtain rfl : keyword.1 = word := eq_of_beq (List.find?_some hfind :)
  obtain ⟨hhead, hchars, hlength⟩ := keywords_chars keyword (List.mem_of_find?_eq_some hfind)
  refine ⟨htype, ?_, hchars, hlength⟩
  cases hcons : keyword.1 with
  | nil => exact absurd (hcons ▸ hhead) (by decide)
  | cons c more => exact ⟨c, more, rfl, by simpa [hcons] using hhead⟩

theorem IsKeyword.lexes (hword : IsKeyword word type) (hrest : Ends rest) :
    Lexes line (word ++ rest) [⟨type, 0, word, line⟩] rest :=
  lexes_keyword hword.type hword.head hword.chars hword.length hrest

theorem IsKeyword.opens (hword : IsKeyword word type) : Opens word := by
  obtain ⟨c, more, rfl, hc⟩ := hword.head
  obtain ⟨hspace, hhash, -, -, -, hnewline, hequals⟩ := isAlpha_other hc
  exact ⟨c, more, rfl, hequals, hnewline, hhash, hspace⟩

theorem lexes_space (line : Nat) (rest : Text) : Lexes line (32 :: rest) [] rest :=
  .spaces (List.forall_mem_singleton.mpr rfl : ∀ c ∈ ([32] : Text), isSpace c)

theorem lexes_colon (line : Nat) (rest : Text) :
    Lexes line (58 :: rest) [⟨.colon, 0, [], line⟩] rest :=
  .single rfl (doubleOperator_of_notMem (by decide) _)

theorem Expr.exists_lexes (layout : Layout) (he : e.Valid) (line : Nat) (hrest : Ends rest) :
    ∃ ts, ts.length = e.size ∧ SpellsExpr e ts ∧
      Lexes line (e.render layout.gap ++ rest) ts rest :=
  ⟨e.tokens line, e.length_tokens line,
    fun us hus => (Expr.derives line e he us hus).loosen (Nat.zero_le _) e.level_le,
    e.lexes layout.spaces line he rest hrest⟩

theorem readsAs_expr (layout : Layout) (he : e.Valid) :
    ReadsAs (e.render layout.gap) e.size (SpellsExpr e) :=
  ⟨e.opens _ he, fun line rest => e.exists_lexes layout he line (ends_of_mem (c := 10) rfl rest)⟩

theorem readsAs_word (hword : IsKeyword word type) :
    ReadsAs word 1 fun ts => ∃ t, ts = [t] ∧ t.type = type :=
  ⟨hword.opens, fun _ rest => ⟨_, rfl, ⟨_, rfl, rfl⟩, hword.lexes (ends_of_mem rfl rest)⟩⟩

theorem readsAs_assign (layout : Layout) (hname : IsName name) (he : e.Valid) :
    ReadsAs (name ++ layout.gap ++ 61 :: layout.gap ++ e.render layout.gap) (e.size + 2)
      fun ts => ∃ t op us, ts = t :: op :: us ∧ t.type = .ident ∧ t.strVal = name ∧
        op.type = .assign ∧ SpellsExpr e us := by
  refine ⟨((hname.opens.append _).append _).append _, fun line rest => ?_⟩
  obtain ⟨us, hus, hspells, hlexes⟩ :=
    e.exists_lexes layout he line (ends_of_mem (c := 10) rfl rest)
  have hgap : Ends (layout.gap ++ 61 :: (layout.gap ++ (e.render layout.gap ++ 10 :: rest))) := by
    cases hcons : layout.gap with
    | nil => exact ends_of_mem rfl _
    | cons c more =>
        refine ends_of_mem ?_ _
        have hc := layout.spaces c (hcons ▸ List.mem_cons_self)
        rw [isSpace, Bool.or_eq_true, beq_iff_eq, beq_iff_eq] at hc
        rcases hc with rfl | rfl <;> rfl
  have hequals : (layout.gap ++ (e.render layout.gap ++ 10 :: rest)).headD 0 ≠ 61 := by
    cases hcons : layout.gap with
    | nil =>
        obtain ⟨c, more, hrender, hc, -⟩ := (e.opens [] he).append (10 :: rest)
        rw [List.nil_append, hrender]
        exact hc
    | cons c more =>
        intro hc
        have hspace := layout.spaces c (hcons ▸ List.mem_cons_self)
        rw [show c = 61 from hc] at hspace
        exact absurd hspace (by decide)
  have hop : Lexes line (61 :: (layout.gap ++ (e.render layout.gap ++ 10 :: rest)))
      [⟨.assign, 0, [], line⟩] (layout.gap ++ (e.render layout.gap ++ 10 :: rest)) :=
    .single rfl (doubleOperator_of_ne hequals)
  have hall := (hname.lexes hgap).trans ((Lexes.spaces layout.spaces).trans
    (hop.trans ((Lexes.spaces layout.spaces).trans hlexes)))
  refine ⟨_, ?_, ⟨⟨.ident, 0, name, line⟩, ⟨.assign, 0, [], line⟩, us, rfl, rfl, rfl, rfl, hspells⟩,
    ?_⟩
  · simp [hus]
  · simpa using hall

/-- A keyword, an expression and a colon. -/
theorem readsAs_headed (layout : Layout) (hword : IsKeyword word type) (he : e.Valid) :
    ReadsAs (word ++ 32 :: e.render layout.gap ++ [58]) (e.size + 2) fun ts =>
      ∃ t us colon, ts = t :: (us ++ [colon]) ∧ t.type = type ∧ SpellsExpr e us ∧
        colon.type = .colon := by
  refine ⟨(hword.opens.append _).append _, fun line rest => ?_⟩
  obtain ⟨us, hus, hspells, hlexes⟩ :=
    e.exists_lexes layout he line (ends_of_mem (c := 58) rfl (10 :: rest))
  have hspace := lexes_space line (e.render layout.gap ++ 58 :: 10 :: rest)
  have hall := (hword.lexes (ends_of_mem rfl _)).trans
    (hspace.trans (hlexes.trans (lexes_colon line (10 :: rest))))
  refine ⟨_, ?_, ⟨⟨type, 0, word, line⟩, us, ⟨.colon, 0, [], line⟩, rfl, rfl, hspells, rfl⟩, ?_⟩
  · simp [hus]
  · simpa using hall

theorem readsAs_return (layout : Layout) (he : e.Valid) :
    ReadsAs (ascii "return" ++ 32 :: e.render layout.gap) (e.size + 1) fun ts =>
      ∃ t us, ts = t :: us ∧ t.type = .return_ ∧ SpellsExpr e us := by
  have hword : IsKeyword (ascii "return") .return_ := isKeyword rfl (by decide)
  refine ⟨hword.opens.append _, fun line rest => ?_⟩
  obtain ⟨us, hus, hspells, hlexes⟩ :=
    e.exists_lexes layout he line (ends_of_mem (c := 10) rfl rest)
  have hall := (hword.lexes (ends_of_mem rfl _)).trans
    ((lexes_space line (e.render layout.gap ++ 10 :: rest)).trans hlexes)
  refine ⟨_, ?_, ⟨⟨.return_, 0, ascii "return", line⟩, us, rfl, rfl, hspells⟩, ?_⟩
  · simp [hus]
  · simpa using hall

theorem readsAs_for (layout : Layout) (hname : IsName name) (he : e.Valid) :
    ReadsAs (ascii "for" ++ 32 :: name ++ 32 :: ascii "in" ++ 32 :: e.render layout.gap ++ [58])
      (e.size + 4) fun ts => ∃ t var in_ us colon, ts = t :: var :: in_ :: (us ++ [colon]) ∧
        t.type = .for_ ∧ var.type = .ident ∧ var.strVal = name ∧ in_.type = .in_ ∧
        SpellsExpr e us ∧ colon.type = .colon := by
  have hfor : IsKeyword (ascii "for") .for_ := isKeyword rfl (by decide)
  have hin : IsKeyword (ascii "in") .in_ := isKeyword rfl (by decide)
  refine ⟨(((hfor.opens.append _).append _).append _).append _, fun line rest => ?_⟩
  obtain ⟨us, hus, hspells, hlexes⟩ :=
    e.exists_lexes layout he line (ends_of_mem (c := 58) rfl (10 :: rest))
  have hall := (hfor.lexes (ends_of_mem rfl _)).trans ((lexes_space line _).trans
    ((hname.lexes (ends_of_mem rfl _)).trans ((lexes_space line _).trans
      ((hin.lexes (ends_of_mem rfl _)).trans ((lexes_space line _).trans
        (hlexes.trans (lexes_colon line (10 :: rest))))))))
  refine ⟨_, ?_, ⟨⟨.for_, 0, ascii "for", line⟩, ⟨.ident, 0, name, line⟩,
    ⟨.in_, 0, ascii "in", line⟩, us, ⟨.colon, 0, [], line⟩, rfl, rfl, rfl, rfl, rfl, hspells, rfl⟩,
    ?_⟩
  · simp [hus]
  · simpa using hall

theorem lexes_params (layout : Layout) (line : Nat) : ∀ params : List Text,
    (∀ param ∈ params, IsName param) → ∀ rest, Ends rest →
      Lexes line (renderParams layout.gap params ++ rest) (paramTokens line params) rest
  | [], _, rest, _ => .refl line rest
  | [param], hnames, rest, hrest => (hnames param List.mem_cons_self).lexes hrest
  | param :: param' :: params, hnames, rest, hrest => by
      have hcomma : Lexes line
          (44 :: (layout.gap ++ (renderParams layout.gap (param' :: params) ++ rest)))
          [commaToken line] (layout.gap ++ (renderParams layout.gap (param' :: params) ++ rest)) :=
        .single rfl (doubleOperator_of_notMem (by decide) _)
      have hall := ((hnames param List.mem_cons_self).lexes (ends_of_mem rfl _)).trans
        (hcomma.trans ((Lexes.spaces layout.spaces).trans
          (lexes_params layout line (param' :: params)
            (fun p hp => hnames p (List.mem_cons_of_mem _ hp)) rest hrest)))
      simpa [renderParams, paramTokens] using hall

theorem spellsParams (line : Nat) : ∀ (params : List Text) (us : List Token),
    nextType us = .rparen → SpellsParams params (paramTokens line params ++ us) us
  | [], _, hus => .nil hus
  | [param], _, hus => @SpellsParams.last ⟨.ident, 0, param, line⟩ _ rfl hus
  | param :: param' :: params, us, hus =>
      @SpellsParams.cons ⟨.ident, 0, param, line⟩ (commaToken line) _ _ _ rfl rfl
        (spellsParams line (param' :: params) us hus)

theorem readsAs_def (layout : Layout) (hname : IsName name)
    (hparams : ∀ param ∈ params, IsName param) :
    ReadsAs (ascii "def" ++ 32 :: name ++ 40 :: renderParams layout.gap params ++ [41, 58])
      ((paramTokens 1 params).length + 5) fun ts => ∃ t nameToken opening us closing colon,
        ts = t :: nameToken :: opening :: (us ++ [closing, colon]) ∧ t.type = .def_ ∧
        nameToken.type = .ident ∧ nameToken.strVal = name ∧ opening.type = .lparen ∧
        (∀ vs, nextType vs = .rparen → SpellsParams params (us ++ vs) vs) ∧
        closing.type = .rparen ∧ colon.type = .colon := by
  have hdef : IsKeyword (ascii "def") .def_ := isKeyword rfl (by decide)
  refine ⟨((hdef.opens.append _).append _).append _, fun line rest => ?_⟩
  have hopen : Lexes line (40 :: (renderParams layout.gap params ++ 41 :: 58 :: 10 :: rest))
      [openToken line] (renderParams layout.gap params ++ 41 :: 58 :: 10 :: rest) :=
    .single rfl (doubleOperator_of_notMem (by decide) _)
  have hclose : Lexes line (41 :: 58 :: 10 :: rest) [closeToken line] (58 :: 10 :: rest) :=
    .single rfl (doubleOperator_of_notMem (by decide) _)
  have hall := (hdef.lexes (ends_of_mem rfl _)).trans ((lexes_space line _).trans
    ((hname.lexes (ends_of_mem rfl _)).trans (hopen.trans
      ((lexes_params layout line params hparams _ (ends_of_mem rfl _)).trans
        (hclose.trans (lexes_colon line (10 :: rest)))))))
  refine ⟨_, ?_, ⟨⟨.def_, 0, ascii "def", line⟩, ⟨.ident, 0, name, line⟩, openToken line,
    paramTokens line params, closeToken line, ⟨.colon, 0, [], line⟩, rfl, rfl, rfl, rfl, rfl,
    spellsParams line params, rfl, rfl⟩, ?_⟩
  · simp [length_paramTokens line params]
  · simpa using hall

theorem readsAs_else : ReadsAs (ascii "else" ++ [58]) 2 fun ts => ∃ t colon, ts = [t, colon] ∧
    t.type = .else_ ∧ colon.type = .colon := by
  have helse : IsKeyword (ascii "else") .else_ := isKeyword rfl (by decide)
  exact ⟨helse.opens.append _, fun line rest => ⟨_, rfl, ⟨_, _, rfl, rfl, rfl⟩,
    (helse.lexes (ends_of_mem rfl _)).trans (lexes_colon line (10 :: rest))⟩⟩

/-! ## Lexing what was written -/

/-- Whatever the blocks that are still open end with, the tokens are this, up to what comes then. -/
def Pending (open_ : Nat) (front : List Token) (spells : List Token → List Token → Prop) : Prop :=
  ∀ dedents after, dedents.length = open_ → (∀ t ∈ dedents, t.type = .dedent) →
    spells (front ++ (dedents ++ after)) after

/-- The lines of `text` begin where one of this depth may begin; behind them deeper blocks are
open, and when these are closed so many tokens are there, and they are this. -/
def Writes (stack stack' : Indents) (count : Nat) (opening : List Token → Prop) (width : Nat)
    (text : Text) (size : Nat) (spells : List Token → List Token → Prop) : Prop :=
  ∀ rest, ∃ pend n, (∀ x ∈ pend, width < x) ∧ n + pend.length = size ∧
    LinesTo stack (pend ++ stack') (text ++ rest) rest (count + n) fun ts =>
      ∃ us front, ts = us ++ front ∧ opening us ∧ Pending pend.length front spells

/-- What is left of the tokens of a statement at this place behind it. -/
def SpellsAt : Place → Stmt → List Token → List Token → Prop
  | .line, st, ts, rest => nextType rest ∉ [.newline, .elif, .else_] → Spells (.stmt st) ts rest
  | .body, st, ts, rest => ∀ colon nl : Token, colon.type = .colon → nl.type = .newline →
      Spells (.body st) (colon :: nl :: ts) rest
  | .branch, st, ts, rest => nextType rest ∉ [.newline, .elif, .else_] → ∃ t us, ts = t :: us ∧
      (t.type = .elif ∧ Spells (.branches st) us rest ∨ t.type = .else_ ∧ Spells (.body st) us rest)

variable {size size' : Nat} {text' : Text} {spells spells' : List Token → List Token → Prop}
  {count : Nat} {st inner other : Stmt} {sts : List Stmt} {ts us rest : List Token}

/-- A line. -/
theorem writes_line (hreads : ReadsAs text m post)
    (hstarts : Starts stack stack' width count opening)
    (hspells : ∀ (vs : List Token) (nl : Token) rest, post vs → nl.type = .newline →
      spells (vs ++ nl :: rest) rest) :
    Writes stack stack' count opening width (lineOf width text) (m + 1) spells := by
  intro rest
  refine ⟨[], m + 1, fun _ hx => absurd hx List.not_mem_nil, rfl,
    (linesTo_line hreads hstarts rest).mono ?_⟩
  rintro ts - ⟨us, vs, nl, rfl, hopening, hpost, hnl⟩
  refine ⟨us, vs ++ [nl], rfl, hopening, fun dedents after hlength _ => ?_⟩
  obtain rfl := List.length_eq_zero_iff.mp hlength
  rw [List.nil_append, List.append_assoc, List.singleton_append]
  exact hspells vs nl after hpost hnl

/-- A line and a block. -/
theorem writes_headed (hreads : ReadsAs text m post)
    (hstarts : Starts stack stack' width count opening)
    (hbody : Writes stack' stack' 0 (· = []) width text' size (SpellsAt .body inner))
    (hspells : ∀ (vs : List Token) (nl : Token) ts rest, post vs → nl.type = .newline →
      SpellsAt .body inner ts rest → spells (vs ++ nl :: ts) rest) :
    Writes stack stack' count opening width (lineOf width text ++ text') (m + 1 + size) spells := by
  intro rest
  obtain ⟨pend, n, hpend, hsize, hlines⟩ := hbody rest
  have hall := (linesTo_line hreads hstarts (text' ++ rest)).trans hlines
  refine ⟨pend, m + 1 + n, hpend, by omega, ?_⟩
  rw [Nat.zero_add, Nat.add_assoc] at hall
  rw [List.append_assoc]
  refine hall.mono ?_
  rintro ts - ⟨us, vs, rfl, ⟨us, ts, nl, rfl, hopening, hpost, hnl⟩, _, front, rfl, rfl, hpending⟩
  refine ⟨us, ts ++ nl :: front, by simp, hopening, fun dedents after hlength hdedents => ?_⟩
  rw [List.append_assoc, List.cons_append]
  exact hspells ts nl _ after hpost hnl (hpending dedents after hlength hdedents)

/-- Lines behind lines. -/
theorem Writes.append (htop : stack'.headD 0 = width)
    (hfirst : Writes stack stack' count opening width text size spells)
    (hsecond : ∀ stack count opening, Starts stack stack' width count opening →
      Writes stack stack' count opening width text' size' spells')
    {result : List Token → List Token → Prop}
    (hspells : ∀ ts us rest, spells ts us → spells' us rest → result ts rest) :
    Writes stack stack' count opening width (text ++ text') (size + size') result := by
  intro rest
  obtain ⟨pend, n, hpend, hsize, hlines⟩ := hfirst (text' ++ rest)
  obtain ⟨pend', n', hpend', hsize', hlines'⟩ := hsecond _ _ _ (starts_same hpend htop) rest
  have hall := hlines.trans hlines'
  refine ⟨pend', n + (pend.length + n'), hpend', by omega, ?_⟩
  rw [Nat.add_assoc] at hall
  rw [List.append_assoc]
  refine hall.mono ?_
  rintro ts - ⟨ts, vs, rfl, ⟨us, front, rfl, hopening, hpending⟩, dedents, front', rfl,
    ⟨hlength, hdedents⟩, hpending'⟩
  refine ⟨us, front ++ (dedents ++ front'), by simp, hopening, fun dedents' after hlength' hall =>
    hspells _ (front' ++ (dedents' ++ after)) _ ?_ (hpending' dedents' after hlength' hall)⟩
  have hfront := hpending dedents (front' ++ (dedents' ++ after)) hlength hdedents
  simpa using hfront

theorem isKeyword_if {place : Place} :
    IsKeyword (ifWord place) (if place = .branch then .elif else .if_) := by
  cases place with
  | line | body | branch => exact isKeyword rfl (by decide)

/-- The word of an if, and what stands behind it. -/
theorem spellsAt_if {place : Place} {t : Token} (hplace : place ≠ .body)
    (ht : t.type = if place = .branch then .elif else .if_)
    (hbranches : nextType rest ∉ [.newline, .elif, .else_] → Spells (.branches st) us rest) :
    SpellsAt place st (t :: us) rest := by
  cases place with
  | body => exact absurd rfl hplace
  | line => exact fun hrest => .if_ ht (hbranches hrest)
  | branch => exact fun hrest => ⟨t, us, rfl, .inl ⟨ht, hbranches hrest⟩⟩

/-- The line of an if or elif and the block behind it. -/
def SpellsHead (place : Place) (cond : Expr) (body : Stmt) (ts us : List Token) : Prop :=
  ∃ t vs ws, ts = t :: vs ∧ t.type = (if place = .branch then .elif else .if_) ∧
    Derives .strict (.expr 0 cond) vs ws ∧ Spells (.body body) ws us

/-- A statement does not begin like what stands behind an if. -/
theorem Spells.apart (hspells : Spells (.stmts sts) ts rest) :
    nextType ts ∉ [.newline, .elif, .else_] := by
  have hexpr : ∀ type ∈ exprStarts, type ∉ [TokenType.newline, .elif, .else_] := by decide
  cases hspells with
  | nil hnext => rcases hnext with hnext | hnext <;> rw [hnext] <;> decide
  | cons hstmt =>
      cases hstmt with
      | expr he => exact hexpr _ (he.starts _ _ rfl)
      | assign ht | bareReturn ht | return_ ht | break_ ht | continue_ ht | def_ ht | while_ ht
      | for_ ht | if_ ht =>
          rw [nextType_cons, ht]
          decide

theorem Writes.mono (hwrites : Writes stack stack' count opening width text size spells)
    (hspells : ∀ ts rest, spells ts rest → spells' ts rest) :
    Writes stack stack' count opening width text size spells' := by
  intro rest
  obtain ⟨pend, n, hpend, hsize, hlines⟩ := hwrites rest
  refine ⟨pend, n, hpend, hsize, hlines.mono ?_⟩
  rintro ts - ⟨us, front, rfl, hopening, hpending⟩
  exact ⟨us, front, rfl, hopening, fun dedents after hlength hdedents =>
    hspells _ _ (hpending dedents after hlength hdedents)⟩

/-- What statements are left with: what ends a block. -/
def SpellsStmts (sts : List Stmt) (ts rest : List Token) : Prop :=
  nextType rest ∈ [.dedent, .eof] → Spells (.stmts sts) ts rest

/-- The statements of a block are deeper, and the block ends with a DEDENT token of its own. -/
theorem writes_block (hdeep : stack.headD 0 = width) (hstep : width < k)
    (hlimit : sts.length ≤ maxChildren)
    (hstmts : ∀ opening, Starts stack (k :: stack) k 1 opening →
      Writes stack (k :: stack) 1 opening k text size (SpellsStmts sts)) :
    Writes stack stack 0 (· = []) width text (size + 2) (SpellsAt .body (.block sts)) := by
  intro rest
  obtain ⟨pend, n, hpend, hsize, hlines⟩ := hstmts _ (starts_deeper (hdeep.trans_lt hstep)) rest
  refine ⟨pend ++ [k], n + 1, ?_, ?_, ?_⟩
  · intro x hx
    rcases List.mem_append.mp hx with hx | hx
    · exact hstep.trans (hpend x hx)
    · exact (List.mem_singleton.mp hx) ▸ hstep
  · rw [List.length_append, List.length_singleton]
    omega
  · rw [List.append_assoc, List.singleton_append, Nat.zero_add, Nat.add_comm n 1]
    refine hlines.mono ?_
    rintro ts - ⟨_, front, rfl, ⟨indent, rfl, hindent⟩, hpending⟩
    refine ⟨[], indent :: front, rfl, rfl, fun dedents after hlength hdedents => ?_⟩
    rw [List.length_append, List.length_singleton] at hlength
    obtain ⟨dedents, dedent, rfl⟩ := List.eq_nil_or_concat' dedents |>.resolve_left (by
      rintro rfl
      exact Nat.succ_ne_zero _ hlength.symm)
    have hdedent : dedent.type = .dedent :=
      hdedents dedent (List.mem_append_right _ (List.mem_singleton_self dedent))
    rw [List.length_append, List.length_singleton, Nat.add_right_cancel_iff] at hlength
    have hspells := hpending dedents (dedent :: after) hlength
      (fun t ht => hdedents t (List.mem_append_left _ ht))
      (by rw [nextType_cons, hdedent]; decide)
    intro colon nl hcolon hnl
    have hbody := Spells.body hcolon hnl hindent hspells hdedent hlimit
    simpa using hbody

mutual

/-- The lines of a statement are lexed into its tokens. -/
theorem Stmt.writes (layout : Layout) {stack stack' : Indents} {width count : Nat}
    {opening : List Token → Prop} {inLoop : Bool}
    (hstarts : Starts stack stack' width count opening) (htop : stack'.headD 0 = width) :
    ∀ (st : Stmt) (place : Place), place ≠ .body →
      st.Valid inLoop place → Writes stack stack' count opening width (st.render layout width place)
        (st.size place) (SpellsAt place st)
  | .expr e, _, _, ⟨hline, he⟩ => by
      subst hline
      exact writes_line (readsAs_expr layout he) hstarts fun vs nl rest hvs hnl _ =>
        .expr (hvs (nl :: rest) (by rw [nextType_cons, hnl]; decide)) hnl
  | .assign name e, _, _, ⟨hline, hname, he⟩ => by
      subst hline
      refine writes_line (readsAs_assign layout hname he) hstarts ?_
      rintro _ nl rest ⟨t, op, us, rfl, ht, rfl, hop, hus⟩ hnl -
      exact .assign ht hop (hus (nl :: rest) (by rw [nextType_cons, hnl]; decide)) hnl
  | .return_ none, _, _, ⟨hline, _⟩ => by
      subst hline
      refine writes_line (readsAs_word (isKeyword rfl (by decide) :
        IsKeyword (ascii "return") .return_)) hstarts ?_
      rintro _ nl rest ⟨t, rfl, ht⟩ hnl -
      exact .bareReturn ht hnl
  | .return_ (some e), _, _, ⟨hline, he⟩ => by
      subst hline
      refine writes_line (readsAs_return layout (he e rfl)) hstarts ?_
      rintro _ nl rest ⟨t, us, rfl, ht, hus⟩ hnl -
      exact .return_ ht (hus (nl :: rest) (by rw [nextType_cons, hnl]; decide)) hnl
  | .break_, _, _, ⟨hline, _⟩ => by
      subst hline
      refine writes_line (readsAs_word (isKeyword rfl (by decide) :
        IsKeyword (ascii "break") .break_)) hstarts ?_
      rintro _ nl rest ⟨t, rfl, ht⟩ hnl -
      exact .break_ ht hnl
  | .continue_, _, _, ⟨hline, _⟩ => by
      subst hline
      refine writes_line (readsAs_word (isKeyword rfl (by decide) :
        IsKeyword (ascii "continue") .continue_)) hstarts ?_
      rintro _ nl rest ⟨t, rfl, ht⟩ hnl -
      exact .continue_ ht hnl
  | .def_ name params body, _, _, ⟨hline, hname, hparams, _, hbody⟩ => by
      subst hline
      refine writes_headed (readsAs_def layout hname hparams) hstarts
        (body.writes_body layout htop hbody) ?_
      rintro _ nl ts rest ⟨t, _, opens, us, closing, colon, rfl, ht, htype, rfl, hopens, hparams,
        hclosing, hcolon⟩ hnl hinner -
      have hspells := hparams (closing :: colon :: nl :: ts) (by rw [nextType_cons, hclosing])
      simpa using Spells.def_ ht htype hopens hspells hclosing (hinner colon nl hcolon hnl)
  | .if_ cond body, _, hplace, ⟨_, hcond, hbody⟩ => by
      refine writes_headed (readsAs_headed layout isKeyword_if hcond) hstarts
        (body.writes_body layout htop hbody) ?_
      rintro _ nl ts rest ⟨t, us, colon, rfl, ht, hus, hcolon⟩ hnl hinner
      have he := hus (colon :: nl :: ts) (by rw [nextType_cons, hcolon]; decide)
      simpa using spellsAt_if hplace ht (.ifOnly he (hinner colon nl hcolon hnl))
  | .ifElse cond body other, place, hplace, ⟨_, hcond, hbody, hother⟩ => by
      have hhead : Writes stack stack' count opening width _ _ (SpellsHead place cond body) :=
        writes_headed (readsAs_headed layout isKeyword_if hcond) hstarts
          (body.writes_body layout htop hbody) (by
            rintro _ nl ts rest ⟨t, us, colon, rfl, ht, hus, hcolon⟩ hnl hinner
            have he := hus (colon :: nl :: ts) (by rw [nextType_cons, hcolon]; decide)
            exact ⟨t, _, _, by simp, ht, he, hinner colon nl hcolon hnl⟩)
      refine hhead.append htop
        (fun _ _ _ hstarts => other.writes layout hstarts htop .branch (by decide) hother) ?_
      rintro _ us rest ⟨t, vs, ws, rfl, ht, he, hinner⟩ hbranch
      refine spellsAt_if hplace ht fun hrest => ?_
      obtain ⟨t, us, rfl, ⟨ht, hother⟩ | ⟨ht, hother⟩⟩ := hbranch hrest
      · exact .ifElif he hinner ht hother
      · exact .ifElse he hinner ht hother
  | .while_ cond body, _, _, ⟨hline, hcond, hbody⟩ => by
      subst hline
      refine writes_headed (readsAs_headed layout (isKeyword rfl (by decide) :
        IsKeyword (ascii "while") .while_) hcond) hstarts (body.writes_body layout htop hbody) ?_
      rintro _ nl ts rest ⟨t, us, colon, rfl, ht, hus, hcolon⟩ hnl hinner -
      have he := hus (colon :: nl :: ts) (by rw [nextType_cons, hcolon]; decide)
      simpa using Spells.while_ ht he (hinner colon nl hcolon hnl)
  | .for_ name iter body, _, _, ⟨hline, hname, hiter, hbody⟩ => by
      subst hline
      refine writes_headed (readsAs_for layout hname hiter) hstarts
        (body.writes_body layout htop hbody) ?_
      rintro _ nl ts rest ⟨t, var, in_, us, colon, rfl, ht, hvar, rfl, hin, hus, hcolon⟩ hnl hinner
        -
      have he := hus (colon :: nl :: ts) (by rw [nextType_cons, hcolon]; decide)
      simpa using Spells.for_ ht hvar hin he (hinner colon nl hcolon hnl)
  | .block sts, .branch, _, ⟨_, hne, hlimit, hsts⟩ => by
      have hsize : Stmt.size .branch (.block sts) = 2 + 1 + (stmtsSize sts + 2) := by
        rw [Stmt.size]
        omega
      rw [hsize]
      refine writes_headed readsAs_else hstarts (writes_block htop
        (Nat.lt_add_of_pos_right layout.pos) hlimit fun _ hstarts =>
          stmts_writes layout hstarts rfl sts hne hsts) ?_
      rintro _ nl ts rest ⟨t, colon, rfl, ht, hcolon⟩ hnl hinner -
      exact ⟨t, colon :: nl :: ts, rfl, .inr ⟨ht, hinner colon nl hcolon hnl⟩⟩
  | .block _, .line, _, ⟨hline, _⟩ => absurd rfl hline
  | .block _, .body, hbody, _ => absurd rfl hbody

/-- So are the lines of a block. -/
theorem Stmt.writes_body (layout : Layout) {stack : Indents} {width : Nat} {inLoop : Bool}
    (htop : stack.headD 0 = width) : ∀ st : Stmt, st.Valid inLoop .body →
      Writes stack stack 0 (· = []) width (st.render layout (width + layout.step) .body)
        (st.size .body) (SpellsAt .body st)
  | .block sts, ⟨_, hne, hlimit, hsts⟩ =>
      writes_block htop (Nat.lt_add_of_pos_right layout.pos) hlimit fun _ hstarts =>
        stmts_writes layout hstarts rfl sts hne hsts
  | .expr _, h | .assign _ _, h | .return_ _, h | .break_, h | .continue_, h | .def_ _ _ _, h
  | .while_ _ _, h | .for_ _ _ _, h => nomatch h.1
  | .if_ _ _, h | .ifElse _ _ _, h => absurd rfl h.1

/-- So are statements one after the other. -/
theorem stmts_writes (layout : Layout) {stack stack' : Indents} {width count : Nat}
    {opening : List Token → Prop} {inLoop : Bool}
    (hstarts : Starts stack stack' width count opening) (htop : stack'.headD 0 = width) :
    ∀ sts : List Stmt, sts ≠ [] → StmtsValid inLoop sts →
      Writes stack stack' count opening width (renderStmts layout width sts) (stmtsSize sts)
        (SpellsStmts sts)
  | [], hne, _ => absurd rfl hne
  | [st], _, ⟨hst, _⟩ => by
      rw [renderStmts, renderStmts, List.append_nil]
      refine (st.writes layout hstarts htop .line (by decide) hst).mono ?_
      intro ts rest hspells hrest
      exact .cons (hspells (by
        revert hrest
        cases nextType rest <;> decide)) (.nil (by simpa using hrest))
  | st :: st' :: sts, _, ⟨hst, hsts⟩ =>
      (st.writes layout hstarts htop .line (by decide) hst).append htop
        (fun _ _ _ hstarts => stmts_writes layout hstarts htop (st' :: sts) (by simp) hsts)
        fun ts us rest hspells hmore hrest => .cons (hspells (hmore hrest).apart) (hmore hrest)

end

/-! ## Reading a program back -/

/-- The end of the text closes the blocks that are open. -/
theorem lexLines_nil_pending {fuel line : Nat} {s : Lexer} (hpend : ∀ x ∈ pend, 0 < x)
    (hroom : s.tokens.length + pend.length < maxTokens) :
    lexLines fuel s pend line [] = (true, { s with tokens := s.tokens ++
      (List.replicate pend.length ⟨.dedent, 0, [], line⟩ ++ [⟨.eof, 0, [], line⟩]) }) := by
  have hclose := @closeBlocks_pending [] pend 0 s line hpend le_rfl hroom.le
  rw [List.append_nil] at hclose
  rw [lexLines_nil, lexEnd, hclose]
  dsimp only
  rw [Lexer.emit_of_lt (by simpa using hroom), List.append_assoc]

/-- The text of a program is lexed into tokens that spell it. -/
theorem Script.gkLex_text (script : Script) (layout : Layout) (error : Text) :
    ∃ tokens eof, gkLex error (script.text layout) = (true, ⟨tokens, error⟩) ∧
      tokens.length ≤ maxTokens ∧ eof.type = .eof ∧
      Spells (.stmts script.stmts) tokens [eof] := by
  obtain ⟨sts, hvalid, -, -, hsmall⟩ := script
  by_cases hne : sts = []
  · subst hne
    exact ⟨[⟨.eof, 0, [], 1⟩], ⟨.eof, 0, [], 1⟩, rfl, by decide, rfl, .nil (.inr rfl)⟩
  obtain ⟨pend, n, hpend, hsize, hlines⟩ := stmts_writes layout (@starts_same [] [] 0 nofun rfl)
    rfl sts hne hvalid []
  simp only [List.append_nil, List.length_nil, Nat.zero_add] at hlines
  have hroom : 0 + n ≤ maxTokens := by omega
  obtain ⟨fuel, line, _, -, hcount, ⟨us, front, rfl, ⟨hus, -⟩, hpending⟩, hrun⟩ :=
    hlines (renderStmts layout 0 sts).length ⟨[], error⟩ 1 le_rfl hroom
  obtain rfl := List.length_eq_zero_iff.mp hus
  rw [List.nil_append] at hcount hrun
  have hclosed := @lexLines_nil_pending pend fuel line ⟨front, error⟩ hpend
    (by change front.length + _ < _; omega)
  refine ⟨_, ⟨.eof, 0, [], line⟩, hrun.trans hclosed, ?_, rfl, ?_⟩
  · simp only [List.length_append, List.length_replicate, List.length_singleton]
    omega
  · exact hpending _ _ List.length_replicate
      (fun t ht => by rw [List.eq_of_mem_replicate ht]) (by simp [nextType_cons])

end GeckoOS.Gk
