/-
# The grammar of statements

One statement a line, compound statements with an indented block, and elif and else behind
the block of an if: the grammar of the language as a relation between the tokens from some
point on and those that are left behind.

The parser takes three liberties over it.  The end of a line is optional, a comma may stand
behind the last argument or parameter, and a statement may begin with elif; also a block
may be empty, and its tokens need not stand at the ends of lines.  A lenient dialect has
them, read the way the parser reads: an expression goes on as far as it can.
-/

import GeckoOS.Gk.ExprGrammar

namespace GeckoOS.Gk

/-! ## Lines -/

/-- What stands behind empty lines. -/
def skipLines (tokens : List Token) : List Token := tokens.dropWhile fun t => t.type = .newline

/-- The end of a simple statement. -/
def LineEnd (d : Dialect) (ts rest : List Token) : Prop :=
  (∃ t, ts = t :: rest ∧ t.type = .newline) ∨
    rest = ts ∧ (nextType ts = .eof ∨ d.lenient ∧ nextType ts ≠ .newline)

/-- The end of a block. -/
def BlockEnd (ts rest : List Token) : Prop :=
  (∃ t, ts = t :: rest ∧ t.type = .dedent) ∨ rest = ts ∧ nextType ts = .eof

/-- Whether an assignment begins here. -/
def assigns : List Token → Bool
  | t :: next :: _ => t.type = .ident && next.type = .assign
  | _ => false

/-- The parameters of a definition, by their number. -/
inductive Params (d : Dialect) : Nat → List Token → List Token → Prop
  | nil {ts : List Token} (hnext : nextType ts = .rparen) : Params d 0 ts ts
  | last {t : Token} {rest : List Token} (ht : t.type = .ident) (hnext : nextType rest = .rparen) :
      Params d 1 (t :: rest) rest
  | cons {t comma : Token} {n : Nat} {ts rest : List Token} (ht : t.type = .ident)
      (hcomma : comma.type = .comma) (hn : n = 0 → d.lenient) (hrest : Params d n ts rest) :
      Params d (n + 1) (t :: comma :: ts) rest

/-! ## Statements -/

/-- A statement, what stands behind the keyword of an if, the colon and the block of a compound
statement, or so many statements of the program or of a block. -/
inductive StmtSym
  | stmt
  | branches
  | body
  | stmts (top : Bool) (n : Nat)

/-- From these tokens on there is this, and those tokens are left behind it. -/
inductive Parses (d : Dialect) : StmtSym → List Token → List Token → Prop
  | expr {e : Expr} {ts us rest : List Token} (he : Derives d (.expr 0 e) ts us)
      (hgreedy : d.lenient → StopsAt 0 us ∧ assigns ts = false) (hend : LineEnd d us rest) :
      Parses d .stmt ts rest
  | assign {t op : Token} {e : Expr} {ts us rest : List Token} (ht : t.type = .ident)
      (hop : op.type = .assign) (he : Derives d (.expr 0 e) ts us)
      (hgreedy : d.lenient → StopsAt 0 us) (hend : LineEnd d us rest) :
      Parses d .stmt (t :: op :: ts) rest
  | bareReturn {t : Token} {ts rest : List Token} (ht : t.type = .return_)
      (hnext : nextType ts = .newline ∨ nextType ts = .eof) (hend : LineEnd d ts rest) :
      Parses d .stmt (t :: ts) rest
  | return_ {t : Token} {e : Expr} {ts us rest : List Token} (ht : t.type = .return_)
      (he : Derives d (.expr 0 e) ts us) (hgreedy : d.lenient → StopsAt 0 us)
      (hend : LineEnd d us rest) : Parses d .stmt (t :: ts) rest
  | jump {t : Token} {ts rest : List Token} (ht : t.type = .break_ ∨ t.type = .continue_)
      (hend : LineEnd d ts rest) : Parses d .stmt (t :: ts) rest
  | def_ {t name opening closing : Token} {n : Nat} {ts us rest : List Token}
      (ht : t.type = .def_) (hname : name.type = .ident) (hopening : opening.type = .lparen)
      (hparams : Params d n ts (closing :: us)) (hclosing : closing.type = .rparen)
      (hlimit : d.bounded → n ≤ maxParams) (hbody : Parses d .body us rest) :
      Parses d .stmt (t :: name :: opening :: ts) rest
  | while_ {t : Token} {e : Expr} {ts us rest : List Token} (ht : t.type = .while_)
      (he : Derives d (.expr 0 e) ts us) (hbody : Parses d .body us rest) :
      Parses d .stmt (t :: ts) rest
  | for_ {t var in_ : Token} {e : Expr} {ts us rest : List Token} (ht : t.type = .for_)
      (hvar : var.type = .ident) (hin : in_.type = .in_) (he : Derives d (.expr 0 e) ts us)
      (hbody : Parses d .body us rest) : Parses d .stmt (t :: var :: in_ :: ts) rest
  | if_ {t : Token} {ts rest : List Token} (ht : t.type = .if_ ∨ d.lenient ∧ t.type = .elif)
      (hbranches : Parses d .branches ts rest) : Parses d .stmt (t :: ts) rest
  | ifOnly {e : Expr} {ts us vs : List Token} (he : Derives d (.expr 0 e) ts us)
      (hbody : Parses d .body us vs) (helif : nextType (skipLines vs) ≠ .elif)
      (helse : nextType (skipLines vs) ≠ .else_) : Parses d .branches ts (skipLines vs)
  | ifElse {e : Expr} {t : Token} {ts us vs ws rest : List Token}
      (he : Derives d (.expr 0 e) ts us) (hbody : Parses d .body us vs)
      (hvs : skipLines vs = t :: ws) (ht : t.type = .else_) (helse : Parses d .body ws rest) :
      Parses d .branches ts rest
  | ifElif {e : Expr} {t : Token} {ts us vs ws rest : List Token}
      (he : Derives d (.expr 0 e) ts us) (hbody : Parses d .body us vs)
      (hvs : skipLines vs = t :: ws) (ht : t.type = .elif) (helif : Parses d .branches ws rest) :
      Parses d .branches ts rest
  | body {colon indent : Token} {n : Nat} {ts us vs rest : List Token}
      (hcolon : colon.type = .colon)
      (hline : (∃ t, ts = t :: indent :: us ∧ t.type = .newline) ∨ d.lenient ∧ ts = indent :: us)
      (hindent : indent.type = .indent) (hstmts : Parses d (.stmts false n) (skipLines us) vs)
      (hempty : n = 0 → d.lenient) (hlimit : d.bounded → n ≤ maxChildren)
      (hend : BlockEnd vs rest) : Parses d .body (colon :: ts) rest
  | nil {top : Bool} {ts : List Token}
      (hends : nextType ts = .eof ∨ top = false ∧ nextType ts = .dedent) :
      Parses d (.stmts top 0) ts ts
  | cons {top : Bool} {n : Nat} {ts us rest : List Token} (hstmt : Parses d .stmt ts us)
      (hmore : Parses d (.stmts top n) (skipLines us) rest) :
      Parses d (.stmts top (n + 1)) ts rest

/-- The tokens up to EOF are a program. -/
def Program (d : Dialect) (tokens : List Token) : Prop :=
  ∃ n rest, Parses d (.stmts true n) (skipLines tokens) rest ∧ (d.bounded → n ≤ maxChildren)

/-- The program is one of the language. -/
def Documented (tokens : List Token) : Prop := Program .documented tokens

/-- It is one if the parser's liberties are granted. -/
def Accepted (tokens : List Token) : Prop := Program .accepted tokens

/-- The grammar the parser goes by, with its limits. -/
def Dialect.limited : Dialect := ⟨true, true⟩

/-- The program keeps to the limits for arguments, parameters and statements. -/
def WithinLimits (tokens : List Token) : Prop := Accepted tokens → Program .limited tokens

/-! ## What a statement begins with -/

/-- The tokens an expression begins with. -/
def exprStarts : List TokenType :=
  [.int, .str, .true, .false, .ident, .lparen, .minus, .not]

/-- The tokens a statement begins with. -/
def stmtStarts : List TokenType :=
  exprStarts ++ [.return_, .break_, .continue_, .def_, .if_, .elif, .while_, .for_]

variable {d : Dialect} {ts us rest : List Token}

theorem nextType_cons (t : Token) (ts : List Token) : nextType (t :: ts) = t.type := rfl

theorem Derives.starts {sym : ExprSym} (hderives : Derives d sym ts rest) :
    ∀ level e, sym = .expr level e → nextType ts ∈ exprStarts := by
  induction hderives with
  | int ht | str ht | true_ ht | false_ ht | var ht | call ht => simp [nextType, exprStarts, ht]
  | paren hopening => simp [nextType, exprStarts, hopening]
  | unop ht => rcases ht with ht | ht <;> simp [nextType, exprStarts, ht]
  | lift _ _ ih => exact fun _ _ _ => ih _ _ rfl
  | binop _ _ _ _ ih => exact fun _ _ _ => ih _ _ rfl
  | nil | last | cons =>
      intro _ _ hsym
      cases hsym

theorem Parses.starts (hparses : Parses d .stmt ts rest) : nextType ts ∈ stmtStarts := by
  cases hparses with
  | expr he => exact List.mem_append_left _ (he.starts _ _ rfl)
  | assign ht | bareReturn ht | return_ ht | def_ ht | while_ ht | for_ ht =>
      rw [nextType_cons, ht]
      decide
  | jump ht => rcases ht with ht | ht <;> rw [nextType_cons, ht] <;> decide
  | if_ ht => rcases ht with ht | ⟨-, ht⟩ <;> rw [nextType_cons, ht] <;> decide

theorem Parses.colon (hparses : Parses d .body ts rest) : nextType ts = .colon := by
  cases hparses with
  | body hcolon => exact hcolon

/-- What stands behind statements. -/
theorem Parses.ends {top : Bool} {n : Nat} (hparses : Parses d (.stmts top n) ts rest) :
    nextType rest = .eof ∨ top = false ∧ nextType rest = .dedent := by
  generalize hsym : StmtSym.stmts top n = sym at hparses
  induction hparses generalizing n with
  | nil hends =>
      cases hsym
      exact hends
  | cons _ _ _ ih =>
      cases hsym
      exact ih rfl
  | _ => cases hsym

theorem skipLines_length (ts : List Token) : (skipLines ts).length ≤ ts.length :=
  (List.dropWhile_suffix _).length_le

theorem nextType_skipLines (ts : List Token) : nextType (skipLines ts) ≠ .newline := by
  induction ts with
  | nil => decide
  | cons t ts ih =>
      rw [skipLines, List.dropWhile_cons]
      split_ifs with ht
      · exact ih
      · rw [nextType_cons]
        simpa using ht

/-- Where no empty line comes next there is nothing to skip. -/
theorem skipLines_of_next (hnext : nextType ts ≠ .newline) : skipLines ts = ts := by
  cases ts with
  | nil => rfl
  | cons t ts =>
      rw [nextType_cons] at hnext
      exact List.dropWhile_cons_of_neg (by simpa using hnext)

theorem skipLines_skipLines (ts : List Token) : skipLines (skipLines ts) = skipLines ts :=
  skipLines_of_next (nextType_skipLines ts)

/-! ## How much is read -/

theorem LineEnd.length (hend : LineEnd d us rest) : rest.length ≤ us.length := by
  rcases hend with ⟨t, rfl, -⟩ | ⟨rfl, -⟩
  · exact Nat.le_succ _
  · exact le_rfl

theorem BlockEnd.length (hend : BlockEnd us rest) : rest.length ≤ us.length := by
  rcases hend with ⟨t, rfl, -⟩ | ⟨rfl, -⟩
  · exact Nat.le_succ _
  · exact le_rfl

theorem Params.length {n : Nat} (hparams : Params d n ts rest) : rest.length ≤ ts.length := by
  induction hparams with
  | nil => exact le_rfl
  | last => exact Nat.le_succ _
  | cons _ _ _ _ ih => exact ih.trans (Nat.le_add_right _ 2)

/-- Nothing is put back, and a statement takes a token at least. -/
theorem Parses.length {sym : StmtSym} (hparses : Parses d sym ts rest) :
    rest.length ≤ ts.length ∧ (sym = .stmt → rest.length < ts.length) := by
  induction hparses with
  | expr he _ hend =>
      have := he.length.2 _ _ rfl
      have := hend.length
      omega
  | assign _ _ he _ hend | return_ _ he _ hend =>
      have := he.length.2 _ _ rfl
      have := hend.length
      simp only [List.length_cons]
      omega
  | bareReturn _ _ hend | jump _ hend =>
      have := hend.length
      simp only [List.length_cons]
      omega
  | def_ _ _ _ hparams _ _ _ ih =>
      have := hparams.length
      simp only [List.length_cons] at this ⊢
      omega
  | while_ _ he _ ih | for_ _ _ _ he _ ih =>
      have := he.length.2 _ _ rfl
      simp only [List.length_cons]
      omega
  | if_ _ _ ih =>
      simp only [List.length_cons]
      omega
  | @ifOnly _ _ _ vs he _ _ _ ih =>
      have := he.length.2 _ _ rfl
      have := skipLines_length vs
      exact ⟨by omega, nofun⟩
  | @ifElse _ _ _ _ vs _ _ he _ hvs _ _ ihbody ihmore
  | @ifElif _ _ _ _ vs _ _ he _ hvs _ _ ihbody ihmore =>
      have := he.length.2 _ _ rfl
      have hskip := skipLines_length vs
      rw [hvs, List.length_cons] at hskip
      exact ⟨by omega, nofun⟩
  | @body _ _ _ _ us _ _ _ hline _ _ _ _ hend ih =>
      have := hend.length
      have := skipLines_length us
      refine ⟨?_, nofun⟩
      rcases hline with ⟨t, rfl, -⟩ | ⟨-, rfl⟩ <;> simp only [List.length_cons] <;> omega
  | nil => exact ⟨le_rfl, nofun⟩
  | @cons _ _ _ us _ _ _ ihstmt ihmore =>
      have := skipLines_length us
      exact ⟨by omega, nofun⟩

/-- What is read has no EOF in it. -/
def Consumes (ts rest : List Token) : Prop :=
  ∃ front, ts = front ++ rest ∧ ∀ t ∈ front, t.type ≠ .eof

theorem Consumes.refl (ts : List Token) : Consumes ts ts := ⟨[], rfl, nofun⟩

theorem Consumes.trans (hfirst : Consumes ts us) (hsecond : Consumes us rest) :
    Consumes ts rest := by
  obtain ⟨front, rfl, hfront⟩ := hfirst
  obtain ⟨more, rfl, hmore⟩ := hsecond
  refine ⟨front ++ more, (List.append_assoc ..).symm, fun t ht => ?_⟩
  rcases List.mem_append.mp ht with ht | ht
  · exact hfront t ht
  · exact hmore t ht

theorem Consumes.token {t : Token} (ht : t.type ≠ .eof) : Consumes (t :: ts) ts :=
  ⟨[t], rfl, fun _ hmem => List.mem_singleton.mp hmem ▸ ht⟩

theorem Consumes.cons {t : Token} (ht : t.type ≠ .eof) (hrest : Consumes ts rest) :
    Consumes (t :: ts) rest :=
  (Consumes.token ht).trans hrest

theorem consumes_skipLines (ts : List Token) : Consumes ts (skipLines ts) := by
  induction ts with
  | nil => exact .refl []
  | cons t ts ih =>
      rw [skipLines, List.dropWhile_cons]
      split_ifs with ht
      · exact ih.cons (by simp [of_decide_eq_true ht])
      · exact .refl _

theorem Derives.consumes {sym : ExprSym} (hderives : Derives d sym ts rest) :
    Consumes ts rest := by
  induction hderives with
  | int ht | str ht | true_ ht | false_ ht | var ht => exact .token (by simp [ht])
  | call ht hopening _ hclosing _ ih =>
      exact ((ih.trans (.token (by simp [hclosing]))).cons (by simp [hopening])).cons (by simp [ht])
  | paren hopening _ hclosing ih =>
      exact (ih.trans (.token (by simp [hclosing]))).cons (by simp [hopening])
  | unop ht _ ih => exact ih.cons (by rcases ht with ht | ht <;> simp [ht])
  | lift _ _ ih => exact ih
  | binop _ _ hop _ ihl ihr => exact ihl.trans (ihr.cons (opsAt_ne_eof hop))
  | nil => exact .refl _
  | last _ _ ih => exact ih
  | cons _ hcomma _ _ ihe ihes => exact ihe.trans (ihes.cons (by simp [hcomma]))

theorem Params.consumes {n : Nat} (hparams : Params d n ts rest) : Consumes ts rest := by
  induction hparams with
  | nil => exact .refl _
  | last ht => exact .token (by simp [ht])
  | cons ht hcomma _ _ ih => exact (ih.cons (by simp [hcomma])).cons (by simp [ht])

theorem LineEnd.consumes (hend : LineEnd d us rest) : Consumes us rest := by
  rcases hend with ⟨t, rfl, ht⟩ | ⟨rfl, -⟩
  · exact .token (by simp [ht])
  · exact .refl _

theorem BlockEnd.consumes (hend : BlockEnd us rest) : Consumes us rest := by
  rcases hend with ⟨t, rfl, ht⟩ | ⟨rfl, -⟩
  · exact .token (by simp [ht])
  · exact .refl _

theorem Parses.consumes {sym : StmtSym} (hparses : Parses d sym ts rest) : Consumes ts rest := by
  induction hparses with
  | expr he _ hend => exact he.consumes.trans hend.consumes
  | assign ht hop he _ hend =>
      exact ((he.consumes.trans hend.consumes).cons (by simp [hop])).cons (by simp [ht])
  | bareReturn ht _ hend => exact hend.consumes.cons (by simp [ht])
  | return_ ht he _ hend => exact (he.consumes.trans hend.consumes).cons (by simp [ht])
  | jump ht hend => exact hend.consumes.cons (by rcases ht with ht | ht <;> simp [ht])
  | def_ ht hname hopening hparams hclosing _ _ ih =>
      exact (((hparams.consumes.trans (ih.cons (by simp [hclosing]))).cons
        (by simp [hopening])).cons (by simp [hname])).cons (by simp [ht])
  | while_ ht he _ ih => exact (he.consumes.trans ih).cons (by simp [ht])
  | for_ ht hvar hin he _ ih =>
      exact (((he.consumes.trans ih).cons (by simp [hin])).cons (by simp [hvar])).cons
        (by simp [ht])
  | if_ ht _ ih => exact ih.cons (by rcases ht with ht | ⟨-, ht⟩ <;> simp [ht])
  | @ifOnly _ _ _ vs he _ _ _ ih => exact he.consumes.trans (ih.trans (consumes_skipLines vs))
  | @ifElse _ _ _ _ vs _ _ he _ hvs ht _ ihbody ihmore
  | @ifElif _ _ _ _ vs _ _ he _ hvs ht _ ihbody ihmore =>
      have hskip := consumes_skipLines vs
      rw [hvs] at hskip
      exact he.consumes.trans (ihbody.trans (hskip.trans (ihmore.cons (by simp [ht]))))
  | @body _ _ _ _ us _ _ hcolon hline hindent _ _ _ hend ih =>
      have hblock := (((consumes_skipLines us).trans ih).trans hend.consumes)
      refine Consumes.cons (by simp [hcolon]) ?_
      rcases hline with ⟨t, rfl, ht⟩ | ⟨-, rfl⟩
      · exact (hblock.cons (by simp [hindent])).cons (by simp [ht])
      · exact hblock.cons (by simp [hindent])
  | nil => exact .refl _
  | @cons _ _ _ us _ _ _ ihstmt ihmore =>
      exact ihstmt.trans ((consumes_skipLines us).trans ihmore)

/-- So something is left of tokens with an EOF. -/
theorem Consumes.rest_pos (hconsumes : Consumes ts rest) (heof : ∃ t ∈ ts, t.type = .eof) :
    0 < rest.length := by
  obtain ⟨front, rfl, hfront⟩ := hconsumes
  obtain ⟨t, ht, hend⟩ := heof
  rcases List.mem_append.mp ht with ht | ht
  · exact absurd hend (hfront t ht)
  · exact List.length_pos_of_mem ht

/-! ## A liberty is not a restriction -/

theorem Derives.mono {sym : ExprSym} (hderives : Derives .documented sym ts rest) :
    Derives .accepted sym ts rest := by
  induction hderives with
  | int ht => exact .int ht
  | str ht => exact .str ht
  | true_ ht => exact .true_ ht
  | false_ ht => exact .false_ ht
  | var ht hnext => exact .var ht hnext
  | call ht hopening _ hclosing _ ih => exact .call ht hopening ih hclosing nofun
  | paren hopening _ hclosing ih => exact .paren hopening ih hclosing
  | unop ht _ ih => exact .unop ht ih
  | lift hlevel _ ih => exact .lift hlevel ih
  | binop hlevel _ hop _ ihl ihr => exact .binop hlevel ihl hop ihr
  | nil hnext => exact .nil hnext
  | last _ hnext ih => exact .last ih hnext
  | cons _ hcomma _ _ ihe ihes => exact .cons ihe hcomma (fun _ => rfl) ihes

theorem Params.mono {n : Nat} (hparams : Params .documented n ts rest) :
    Params .accepted n ts rest := by
  induction hparams with
  | nil hnext => exact .nil hnext
  | last ht hnext => exact .last ht hnext
  | cons ht hcomma _ _ ih => exact .cons ht hcomma (fun _ => rfl) ih

/-- An assignment is no expression with something else behind it. -/
theorem Derives.assigns {sym : ExprSym} (hderives : Derives d sym ts rest) :
    ∀ level e, sym = .expr level e → Gk.assigns ts → nextType rest = .assign := by
  induction hderives with
  | @int t rest ht | @str t rest ht | @true_ t rest ht | @false_ t rest ht | @var t rest ht =>
      intro _ _ _ hassigns
      cases rest with
      | nil => cases hassigns
      | cons u us =>
          rw [Gk.assigns, Bool.and_eq_true, decide_eq_true_eq, decide_eq_true_eq] at hassigns
          exact hassigns.2
  | call _ hopening => simp [Gk.assigns, hopening]
  | @paren opening _ _ ts _ hopening =>
      intro _ _ _ hassigns
      cases ts with
      | nil => cases hassigns
      | cons u us => simp [Gk.assigns, hopening] at hassigns
  | @unop t _ ts _ ht =>
      intro _ _ _ hassigns
      cases ts with
      | nil => cases hassigns
      | cons u us => rcases ht with ht | ht <;> simp [Gk.assigns, ht] at hassigns
  | lift _ _ ih => exact fun _ _ _ => ih _ _ rfl
  | binop _ _ hop _ ih =>
      intro _ _ _ hassigns
      have hassign := ih _ _ rfl hassigns
      rw [nextType_cons] at hassign
      exact absurd (hassign ▸ mem_binaryOps hop) (by decide)
  | nil | last | cons => nofun

/-- At the end of a line an expression stops. -/
theorem LineEnd.stopsAt (hstrict : d.lenient = false) (hend : LineEnd d us rest) :
    StopsAt 0 us := by
  have hnext : nextType us = .newline ∨ nextType us = .eof := by
    rcases hend with ⟨t, rfl, ht⟩ | ⟨-, hend | ⟨hlenient, -⟩⟩
    · exact .inl ht
    · exact .inr hend
    · rw [hstrict] at hlenient
      cases hlenient
  refine stopsAt_of_notMem ?_
  rcases hnext with hnext | hnext <;> rw [hnext] <;> decide

theorem LineEnd.mono (hend : LineEnd .documented us rest) : LineEnd .accepted us rest :=
  hend.imp_right fun ⟨hrest, hend⟩ => ⟨hrest, hend.imp_right fun ⟨hlenient, _⟩ => nomatch hlenient⟩

theorem LineEnd.assigns {level : Nat} {e : Expr} (hend : LineEnd .documented us rest)
    (he : Derives d (.expr level e) ts us) : Gk.assigns ts = false := by
  by_contra hassigns
  have hnext := he.assigns _ _ rfl (Bool.not_eq_false _ ▸ hassigns)
  rcases hend with ⟨t, rfl, ht⟩ | ⟨-, hend | ⟨⟨⟩, -⟩⟩
  · rw [nextType_cons, ht] at hnext
    cases hnext
  · rw [hend] at hnext
    cases hnext

theorem Parses.mono {sym : StmtSym} (hparses : Parses .documented sym ts rest) :
    Parses .accepted sym ts rest := by
  induction hparses with
  | expr he _ hend => exact .expr he.mono (fun _ => ⟨hend.stopsAt rfl, hend.assigns he⟩) hend.mono
  | assign ht hop he _ hend => exact .assign ht hop he.mono (fun _ => hend.stopsAt rfl) hend.mono
  | bareReturn ht hnext hend => exact .bareReturn ht hnext hend.mono
  | return_ ht he _ hend => exact .return_ ht he.mono (fun _ => hend.stopsAt rfl) hend.mono
  | jump ht hend => exact .jump ht hend.mono
  | def_ ht hname hopening hparams hclosing _ _ ih =>
      exact .def_ ht hname hopening hparams.mono hclosing nofun ih
  | while_ ht he _ ih => exact .while_ ht he.mono ih
  | for_ ht hvar hin he _ ih => exact .for_ ht hvar hin he.mono ih
  | if_ ht _ ih => exact .if_ (ht.imp_right fun ⟨hlenient, _⟩ => nomatch hlenient) ih
  | ifOnly he _ helif helse ih => exact .ifOnly he.mono ih helif helse
  | ifElse he _ hvs ht _ ihbody ihelse => exact .ifElse he.mono ihbody hvs ht ihelse
  | ifElif he _ hvs ht _ ihbody ihelif => exact .ifElif he.mono ihbody hvs ht ihelif
  | body hcolon hline hindent _ hempty _ hend ih =>
      exact .body hcolon (hline.imp_right fun ⟨hlenient, _⟩ => nomatch hlenient) hindent ih
        (fun _ => rfl) nofun hend
  | nil hends => exact .nil hends
  | cons _ _ ihstmt ihmore => exact .cons ihstmt ihmore

/-- A program of the language is one with the liberties granted. -/
theorem Documented.accepted {tokens : List Token} (hprogram : Documented tokens) :
    Accepted tokens := by
  obtain ⟨n, rest, hparses, -⟩ := hprogram
  exact ⟨n, rest, hparses.mono, nofun⟩

end GeckoOS.Gk
