/-
# Writing an expression and reading it back

An expression is written with the parentheses that the precedence table asks for: around
an operand that binds less tightly than its place, and around a right operand that binds
no more tightly than its operator.  What `gk_lex` and `parse_expr` make of that text is
the expression again.

Around the operators that are no words, and behind a comma, any spaces may stand.
-/

import GeckoOS.Gk.ExprParsing
import GeckoOS.Gk.LexerSteps

namespace GeckoOS.Gk

open GeckoOS.Math

/-! ## Writing -/

/-- The level of a binary operator; there are five. -/
def levelOf : TokenType → Nat
  | .or => 0
  | .and => 1
  | .eq | .neq | .lt | .le | .gt | .ge => 2
  | .plus | .minus => 3
  | .star | .slash | .percent => 4
  | _ => 5

/-- The level of an expression. -/
def Expr.level : Expr → Nat
  | .binop op _ _ => levelOf op
  | _ => 5

/-- How an operator is written. -/
def symbol : TokenType → Text
  | .plus => ascii "+"
  | .minus => ascii "-"
  | .star => ascii "*"
  | .slash => ascii "/"
  | .percent => ascii "%"
  | .eq => ascii "=="
  | .neq => ascii "!="
  | .lt => ascii "<"
  | .le => ascii "<="
  | .gt => ascii ">"
  | .ge => ascii ">="
  | .and => ascii "and"
  | .or => ascii "or"
  | .not => ascii "not"
  | _ => []

/-- A binary operator with the spaces around it. -/
def between (gap : Text) (op : TokenType) : Text :=
  if op = .and ∨ op = .or then 32 :: symbol op ++ [32] else gap ++ symbol op ++ gap

/-- A unary operator before its operand. -/
def before (op : TokenType) : Text := if op = .not then symbol op ++ [32] else symbol op

/-- A number in decimal digits. -/
def decimal (n : Nat) : Text := (Nat.toDigits 10 n).map fun c => UInt8.ofNat c.toNat

/-- Parentheses, where they are needed. -/
def parens (needed : Bool) (text : Text) : Text := if needed then 40 :: text ++ [41] else text

mutual

/-- An expression as it is written. -/
def Expr.render (gap : Text) : Expr → Text
  | .int v => decimal v.toInt.toNat
  | .str s => 34 :: s.flatMap escape ++ [34]
  | .bool b => if b then ascii "True" else ascii "False"
  | .var name => name
  | .unop op e => before op ++ parens (e.level < 5) (e.render gap)
  | .binop op l r => parens (l.level < levelOf op) (l.render gap) ++ between gap op ++
      parens (r.level ≤ levelOf op) (r.render gap)
  | .call name args => name ++ 40 :: renderArgs gap args ++ [41]

/-- The arguments of a call. -/
def renderArgs (gap : Text) : List Expr → Text
  | [] => []
  | e :: es => e.render gap ++ (if es.isEmpty then [] else 44 :: gap) ++ renderArgs gap es

end

/-! ## Its tokens -/

/-- The token of an operator; a word keeps its text. -/
def opToken (line : Nat) (op : TokenType) : Token :=
  ⟨op, 0, if op = .and ∨ op = .or ∨ op = .not then symbol op else [], line⟩

def openToken (line : Nat) : Token := ⟨.lparen, 0, [], line⟩

def closeToken (line : Nat) : Token := ⟨.rparen, 0, [], line⟩

def commaToken (line : Nat) : Token := ⟨.comma, 0, [], line⟩

@[inherit_doc parens]
def parenTokens (line : Nat) (needed : Bool) (ts : List Token) : List Token :=
  if needed then openToken line :: ts ++ [closeToken line] else ts

mutual

/-- The tokens of an expression. -/
def Expr.tokens (line : Nat) : Expr → List Token
  | .int v => [⟨.int, v, [], line⟩]
  | .str s => [⟨.str, 0, s, line⟩]
  | .bool b => if b then [⟨.true, 0, ascii "True", line⟩] else [⟨.false, 0, ascii "False", line⟩]
  | .var name => [⟨.ident, 0, name, line⟩]
  | .unop op e => opToken line op :: parenTokens line (e.level < 5) (e.tokens line)
  | .binop op l r => parenTokens line (l.level < levelOf op) (l.tokens line) ++
      opToken line op :: parenTokens line (r.level ≤ levelOf op) (r.tokens line)
  | .call name args => ⟨.ident, 0, name, line⟩ :: openToken line :: argTokens line args ++
      [closeToken line]

@[inherit_doc renderArgs]
def argTokens (line : Nat) : List Expr → List Token
  | [] => []
  | e :: es => e.tokens line ++ (if es.isEmpty then [] else [commaToken line]) ++ argTokens line es

end

/-! ## Which expressions can be written -/

/-- A name that is no keyword. -/
structure IsName (name : Text) : Prop where
  head : ∃ c more, name = c :: more ∧ isAlpha c
  chars : ∀ c ∈ name, isAlnum c
  length : name.length ≤ 63
  plain : wordType name = .ident

mutual

/-- The operators are operators, and the literals and names are ones of the language. -/
def Expr.Valid : Expr → Prop
  | .int v => 0 ≤ v
  | .str s => s.length ≤ maxStr - 1 ∧ 0 ∉ s
  | .bool _ => True
  | .var name => IsName name
  | .unop op e => (op = .minus ∨ op = .not) ∧ e.Valid
  | .binop op l r => levelOf op < 5 ∧ l.Valid ∧ r.Valid
  | .call name args => IsName name ∧ args.length ≤ maxChildren ∧ AllValid args

@[inherit_doc Expr.Valid]
def AllValid : List Expr → Prop
  | [] => True
  | e :: es => e.Valid ∧ AllValid es

end

variable {gap rest text : Text} {line : Nat} {ts : List Token} {e : Expr}

/-! ## Numbers -/

theorem digit_decimal {n : Nat} (hn : n < 10) :
    UInt8.ofNat (Nat.digitChar n).toNat = UInt8.ofNat (48 + n) := by
  interval_cases n <;> rfl

theorem decimal_of_lt {n : Nat} (hn : n < 10) : decimal n = [UInt8.ofNat (48 + n)] := by
  rw [decimal, Nat.toDigits_of_lt_base hn, List.map_singleton, digit_decimal hn]

theorem decimal_of_le {n : Nat} (hn : 10 ≤ n) :
    decimal n = decimal (n / 10) ++ [UInt8.ofNat (48 + n % 10)] := by
  rw [decimal, Nat.toDigits_of_base_le (by decide) hn, List.map_append, List.map_singleton,
    digit_decimal (Nat.mod_lt n (by decide)), decimal]

theorem isDigit_ofNat {n : Nat} (hn : n < 10) : isDigit (UInt8.ofNat (48 + n)) = true := by
  interval_cases n <;> rfl

theorem decimal_ne_nil (n : Nat) : decimal n ≠ [] := by
  simp [decimal]

theorem isDigit_decimal (n : Nat) : ∀ c ∈ decimal n, isDigit c := by
  induction n using Nat.strong_induction_on with
  | h n ih =>
      rcases Nat.lt_or_ge n 10 with hn | hn
      · rw [decimal_of_lt hn]
        simpa using isDigit_ofNat hn
      · rw [decimal_of_le hn]
        intro c hc
        rcases List.mem_append.mp hc with hc | hc
        · exact ih (n / 10) (by omega) c hc
        · rw [List.mem_singleton.mp hc]
          exact isDigit_ofNat (Nat.mod_lt n (by decide))

/-- The lexer computes the number that was written. -/
theorem intValue_decimal (n : Nat) : intValue (decimal n) = Int32.ofNat n := by
  have hdigit : ∀ m < 10, (UInt8.ofNat (48 + m)).toNat - 48 = m := by decide
  induction n using Nat.strong_induction_on with
  | h n ih =>
      rcases Nat.lt_or_ge n 10 with hn | hn
      · rw [decimal_of_lt hn, intValue, List.foldl_cons, List.foldl_nil, hdigit n hn]
        simp
      · rw [decimal_of_le hn, intValue, List.foldl_append, ← intValue, ih (n / 10) (by omega),
          List.foldl_cons, List.foldl_nil, hdigit _ (Nat.mod_lt n (by decide))]
        calc Int32.ofNat (n / 10) * 10 + Int32.ofNat (n % 10)
            = Int32.ofNat (n / 10 * 10 + n % 10) := by rw [Int32.ofNat_add, Int32.ofNat_mul]; rfl
          _ = Int32.ofNat n := by rw [Nat.div_add_mod']

theorem ofNat_toInt {v : Int32} (hv : 0 ≤ v) : Int32.ofNat v.toInt.toNat = v := by
  have hnonneg : 0 ≤ v.toInt := Int32.le_iff_toInt_le.mp hv
  rw [← Int32.ofInt_eq_ofNat, Int.toNat_of_nonneg hnonneg, Int32.ofInt_toInt]

/-! ## What a text begins with -/

/-- A line does not skip this text, and no operator takes its first character. -/
def Opens (text : Text) : Prop :=
  ∃ c more, text = c :: more ∧ c ≠ 61 ∧ c ≠ 10 ∧ c ≠ 35 ∧ isSpace c = false

theorem Opens.append (hopens : Opens text) (more : Text) : Opens (text ++ more) := by
  obtain ⟨c, more', rfl, hc⟩ := hopens
  exact ⟨c, more' ++ more, rfl, hc⟩

theorem opens_digits {digits : Text} (hdigits : ∀ c ∈ digits, isDigit c) (hne : digits ≠ []) :
    Opens digits := by
  obtain ⟨c, more, rfl⟩ := List.exists_cons_of_ne_nil hne
  obtain ⟨hspace, hhash, hnewline, hequals⟩ := isDigit_other (hdigits c List.mem_cons_self)
  exact ⟨c, more, rfl, hequals, hnewline, hhash, hspace⟩

theorem IsName.opens {name : Text} (hname : IsName name) : Opens name := by
  obtain ⟨c, more, rfl, hc⟩ := hname.head
  obtain ⟨hspace, hhash, -, -, -, hnewline, hequals⟩ := isAlpha_other hc
  exact ⟨c, more, rfl, hequals, hnewline, hhash, hspace⟩

theorem Opens.parens (needed : Bool) (hopens : Opens text) : Opens (parens needed text) := by
  cases needed with
  | false => exact hopens
  | true => exact ⟨40, text ++ [41], rfl, by decide⟩

theorem Expr.opens (gap : Text) : ∀ e : Expr, e.Valid → Opens (e.render gap)
  | .int v, _ => by
      rw [Expr.render]
      exact opens_digits (isDigit_decimal _) (decimal_ne_nil _)
  | .str s, _ => by
      rw [Expr.render]
      exact ⟨34, s.flatMap escape ++ [34], rfl, by decide⟩
  | .bool b, _ => by
      rw [Expr.render]
      cases b with
      | false => exact ⟨70, ascii "alse", rfl, by decide⟩
      | true => exact ⟨84, ascii "rue", rfl, by decide⟩
  | .var name, hvalid => by
      rw [Expr.Valid] at hvalid
      rw [Expr.render]
      exact hvalid.opens
  | .unop op e, hvalid => by
      rw [Expr.Valid] at hvalid
      rw [Expr.render]
      refine Opens.append ?_ _
      rcases hvalid.1 with rfl | rfl
      · exact ⟨45, [], rfl, by decide⟩
      · exact ⟨110, ascii "ot ", rfl, by decide⟩
  | .binop op l r, hvalid => by
      rw [Expr.Valid] at hvalid
      rw [Expr.render]
      exact (((Expr.opens gap l hvalid.2.1).parens _).append _).append _
  | .call name args, hvalid => by
      rw [Expr.Valid] at hvalid
      rw [Expr.render]
      exact (hvalid.1.opens.append _).append _

/-! ## Lexing what was written -/

theorem ends_of_mem {c : UInt8} (hc : isAlnum c = false) (text : Text) : Ends (c :: text) := by
  intro d hd
  obtain rfl := Option.some.inj hd
  exact hc

theorem IsName.lexes {name : Text} (hname : IsName name) (hrest : Ends rest) :
    Lexes line (name ++ rest) [⟨.ident, 0, name, line⟩] rest := by
  obtain ⟨c, more, hcons, hc⟩ := hname.head
  have hword : Lexes line (name ++ rest) [⟨wordType name, 0, name, line⟩] rest :=
    .word hcons hc hname.chars hname.length hrest
  rwa [hname.plain] at hword

/-- A keyword. -/
theorem lexes_keyword {name : Text} {type : TokenType} (htype : wordType name = type)
    (hhead : ∃ c more, name = c :: more ∧ isAlpha c) (hchars : ∀ c ∈ name, isAlnum c)
    (hlength : name.length ≤ 63) (hrest : Ends rest) :
    Lexes line (name ++ rest) [⟨type, 0, name, line⟩] rest := by
  obtain ⟨c, more, hcons, hc⟩ := hhead
  rw [← htype]
  exact .word hcons hc hchars hlength hrest

theorem doubleOperator_of_ne {c next : UInt8} (hnext : next ≠ 61) :
    doubleOperator c next = none := by
  rw [doubleOperator, if_pos hnext]

theorem doubleOperator_of_notMem {c : UInt8} (hc : c ∉ [61, 33, 60, 62]) (next : UInt8) :
    doubleOperator c next = none := by
  simp only [List.mem_cons, List.not_mem_nil, or_false, not_or] at hc
  rw [doubleOperator, if_neg hc.1, if_neg hc.2.1, if_neg hc.2.2.1, if_neg hc.2.2.2]
  exact ite_self none

theorem lexes_parens (htext : ∀ rest, Ends rest → Lexes line (text ++ rest) ts rest)
    (needed : Bool) (hrest : Ends rest) :
    Lexes line (parens needed text ++ rest) (parenTokens line needed ts) rest := by
  cases needed with
  | false => exact htext rest hrest
  | true =>
      have hopen : Lexes line (40 :: (text ++ (41 :: rest))) [openToken line]
          (text ++ (41 :: rest)) :=
        .single rfl (doubleOperator_of_notMem (by decide) _)
      have hclose : Lexes line (41 :: rest) [closeToken line] rest :=
        .single rfl (doubleOperator_of_notMem (by decide) _)
      have hall := hopen.trans ((htext _ (ends_of_mem (by decide) rest)).trans hclose)
      have htext' : parens true text ++ rest = 40 :: (text ++ 41 :: rest) := by simp [parens]
      rw [htext']
      exact hall

/-- An operator that is no word, when no equals sign comes behind it. -/
theorem lexes_symbol {op : TokenType} (hop : levelOf op < 5) (hword : ¬ (op = .and ∨ op = .or))
    (hrest : rest.headD 0 ≠ 61) : Lexes line (symbol op ++ rest) [opToken line op] rest := by
  obtain ⟨hand, hor⟩ := not_or.mp hword
  cases op with
  | eq | neq | le | ge => exact .double rfl
  | plus | minus | star | slash | percent | lt | gt =>
      exact .single rfl (doubleOperator_of_ne hrest)
  | and => exact absurd rfl hand
  | or => exact absurd rfl hor
  | _ => exact absurd hop (by decide)

theorem lexes_between (hgap : ∀ c ∈ gap, isSpace c) {op : TokenType} (hop : levelOf op < 5)
    (hrest : Opens rest) : Lexes line (between gap op ++ rest) [opToken line op] rest := by
  rw [between]
  split_ifs with hword
  · have hspace : ∀ rest, Lexes line (32 :: rest) [] rest := fun rest =>
      .spaces (by decide +kernel : ∀ c ∈ ([32] : Text), isSpace c)
    have hname : Lexes line (symbol op ++ (32 :: rest)) [opToken line op] (32 :: rest) := by
      rcases hword with rfl | rfl
      · exact lexes_keyword rfl ⟨97, ascii "nd", rfl, rfl⟩ (by decide +kernel) (by decide)
          (ends_of_mem rfl rest)
      · exact lexes_keyword rfl ⟨111, ascii "r", rfl, rfl⟩ (by decide +kernel) (by decide)
          (ends_of_mem rfl rest)
    have hall := (hspace _).trans (hname.trans (hspace rest))
    rw [List.cons_append, List.cons_append, List.append_assoc]
    exact hall
  · have hhead : (gap ++ rest).headD 0 ≠ 61 := by
      cases gap with
      | nil =>
          obtain ⟨c, more, rfl, hc, -⟩ := hrest
          exact hc
      | cons c more =>
          intro hc
          have hspace := hgap c List.mem_cons_self
          rw [show c = 61 from hc] at hspace
          exact absurd hspace (by decide)
    have hsymbol : Lexes line (symbol op ++ (gap ++ rest)) [opToken line op] (gap ++ rest) :=
      lexes_symbol hop hword hhead
    have hall := (Lexes.spaces hgap).trans (hsymbol.trans (.spaces hgap))
    rwa [List.append_assoc, List.append_assoc]

/-- A unary operator. -/
theorem lexes_before {op : TokenType} (hop : op = .minus ∨ op = .not) :
    Lexes line (before op ++ rest) [opToken line op] rest := by
  rcases hop with rfl | rfl
  · exact .single rfl (doubleOperator_of_notMem (by decide) _)
  · have hname : Lexes line (symbol .not ++ (32 :: rest)) [opToken line .not] (32 :: rest) :=
      lexes_keyword rfl ⟨110, ascii "ot", rfl, rfl⟩ (by decide +kernel) (by decide)
        (ends_of_mem rfl rest)
    exact hname.trans (.spaces (by decide +kernel : ∀ c ∈ ([32] : Text), isSpace c))

theorem ends_between (hgap : ∀ c ∈ gap, isSpace c) {op : TokenType} (hop : levelOf op < 5) :
    Ends (between gap op ++ rest) := by
  rw [between]
  split_ifs with hword
  · exact ends_of_mem rfl _
  · cases gap with
    | cons c more =>
        refine ends_of_mem ?_ _
        have hc := hgap c List.mem_cons_self
        rw [isSpace, Bool.or_eq_true, beq_iff_eq, beq_iff_eq] at hc
        rcases hc with rfl | rfl <;> rfl
    | nil =>
        cases op with
        | and => exact absurd (.inl rfl) hword
        | or => exact absurd (.inr rfl) hword
        | plus | minus | star | slash | percent | lt | gt | eq | neq | le | ge =>
            exact ends_of_mem rfl _
        | _ => exact absurd hop (by decide)

mutual

/-- What was written is lexed into the tokens of the expression. -/
theorem Expr.lexes (hgap : ∀ c ∈ gap, isSpace c) (line : Nat) :
    ∀ (e : Expr), e.Valid → ∀ rest, Ends rest →
      Lexes line (e.render gap ++ rest) (e.tokens line) rest
  | .int v, hvalid, rest, hrest => by
      rw [Expr.Valid] at hvalid
      have hnumber : Lexes line (decimal v.toInt.toNat ++ rest) _ rest :=
        .number (isDigit_decimal _) (decimal_ne_nil _) hrest
      rw [intValue_decimal, ofNat_toInt hvalid] at hnumber
      rwa [Expr.render, Expr.tokens]
  | .str s, hvalid, rest, hrest => by
      rw [Expr.Valid] at hvalid
      rw [Expr.render, Expr.tokens, List.append_assoc]
      exact .string hvalid.1
  | .bool b, _, rest, hrest => by
      rw [Expr.render, Expr.tokens]
      cases b with
      | false =>
          exact lexes_keyword rfl ⟨70, ascii "alse", rfl, rfl⟩ (by decide +kernel) (by decide) hrest
      | true =>
          exact lexes_keyword rfl ⟨84, ascii "rue", rfl, rfl⟩ (by decide +kernel) (by decide) hrest
  | .var name, hvalid, rest, hrest => by
      rw [Expr.Valid] at hvalid
      rw [Expr.render, Expr.tokens]
      exact hvalid.lexes hrest
  | .unop op e, hvalid, rest, hrest => by
      rw [Expr.Valid] at hvalid
      rw [Expr.render, Expr.tokens, List.append_assoc]
      exact (lexes_before hvalid.1).trans
        (lexes_parens (Expr.lexes hgap line e hvalid.2) _ hrest)
  | .binop op l r, hvalid, rest, hrest => by
      rw [Expr.Valid] at hvalid
      obtain ⟨hop, hl, hr⟩ := hvalid
      rw [Expr.render, Expr.tokens, List.append_assoc, List.append_assoc]
      refine (lexes_parens (Expr.lexes hgap line l hl) _ (ends_between hgap hop)).trans ?_
      refine (lexes_between hgap hop ?_).trans (lexes_parens (Expr.lexes hgap line r hr) _ hrest)
      exact ((r.opens gap hr).parens _).append rest
  | .call name args, hvalid, rest, hrest => by
      rw [Expr.Valid] at hvalid
      obtain ⟨hname, -, hargs⟩ := hvalid
      have hopen : Lexes line (40 :: (renderArgs gap args ++ 41 :: rest)) [openToken line]
          (renderArgs gap args ++ 41 :: rest) :=
        .single rfl (doubleOperator_of_notMem (by decide) _)
      have hclose : Lexes line (41 :: rest) [closeToken line] rest :=
        .single rfl (doubleOperator_of_notMem (by decide) _)
      have hall := (hname.lexes (ends_of_mem rfl _)).trans (hopen.trans
        ((lexes_args hgap line args hargs _ (ends_of_mem rfl rest)).trans hclose))
      have htext : (Expr.call name args).render gap ++ rest =
          name ++ 40 :: (renderArgs gap args ++ 41 :: rest) := by simp [Expr.render]
      rw [htext, Expr.tokens]
      exact hall

@[inherit_doc Expr.lexes]
theorem lexes_args (hgap : ∀ c ∈ gap, isSpace c) (line : Nat) :
    ∀ (es : List Expr), AllValid es → ∀ rest, Ends rest →
      Lexes line (renderArgs gap es ++ rest) (argTokens line es) rest
  | [], _, rest, _ => .refl line rest
  | [e], hvalid, rest, hrest => by
      rw [AllValid] at hvalid
      have he := Expr.lexes hgap line e hvalid.1 rest hrest
      simpa [renderArgs, argTokens] using he
  | e :: e' :: es, hvalid, rest, hrest => by
      rw [AllValid] at hvalid
      have he := Expr.lexes hgap line e hvalid.1
        (44 :: (gap ++ (renderArgs gap (e' :: es) ++ rest)))
        (ends_of_mem rfl _)
      have hcomma : Lexes line (44 :: (gap ++ (renderArgs gap (e' :: es) ++ rest)))
          [commaToken line]
          (gap ++ (renderArgs gap (e' :: es) ++ rest)) :=
        .single rfl (doubleOperator_of_notMem (by decide) _)
      have hall := he.trans (hcomma.trans ((Lexes.spaces hgap).trans
        (lexes_args hgap line (e' :: es) hvalid.2 rest hrest)))
      rw [renderArgs, argTokens]
      simpa using hall

end

/-! ## Its tokens are derived -/

/-- What binds tightly may stand where something looser is asked for. -/
theorem Derives.loosen {d : Dialect} {us : List Token} {level : Nat} :
    ∀ {level'}, level ≤ level' → level' ≤ 5 → Derives d (.expr level' e) ts us →
      Derives d (.expr level e) ts us := by
  intro level' hle hlevel' hderives
  induction hle with
  | refl => exact hderives
  | step _ ih => exact ih (Nat.le_of_succ_le hlevel') (.lift hlevel' hderives)

theorem levelOf_le (op : TokenType) : levelOf op ≤ 5 := by
  cases op <;> decide

theorem Expr.level_le (e : Expr) : e.level ≤ 5 := by
  cases e with
  | binop op l r => exact levelOf_le op
  | _ => exact le_rfl

/-- In parentheses where they are needed, an expression may stand at a level. -/
theorem derives_parens {d : Dialect} {level : Nat} (hlevel : level ≤ 5) {needed : Bool}
    (hneeded : needed = false → level ≤ e.level) {us : List Token} (hus : nextType us ≠ .lparen)
    (he : ∀ us, nextType us ≠ .lparen → Derives d (.expr e.level e) (ts ++ us) us) :
    Derives d (.expr level e) (parenTokens line needed ts ++ us) us := by
  cases needed with
  | false => exact (he us hus).loosen (hneeded rfl) e.level_le
  | true =>
      have hinner := (he (closeToken line :: us) nofun).loosen (Nat.zero_le _) e.level_le
      have htokens : parenTokens line true ts ++ us =
          openToken line :: (ts ++ closeToken line :: us) := by
        simp [parenTokens]
      rw [htokens]
      exact Derives.loosen hlevel le_rfl (.paren rfl hinner rfl)

theorem opsAt_levelOf {op : TokenType} (hop : levelOf op < 5) : op ∈ opsAt (levelOf op) := by
  cases op with
  | plus | minus | star | slash | percent | eq | neq | lt | le | gt | ge | and | or => decide
  | _ => exact absurd hop (by decide)

mutual

/-- The tokens of a valid expression are derived, whatever stands behind them but an opening
parenthesis. -/
theorem Expr.derives (line : Nat) : ∀ (e : Expr), e.Valid → ∀ us, nextType us ≠ .lparen →
    Derives ⟨false, true⟩ (.expr e.level e) (e.tokens line ++ us) us
  | .int v, _, us, _ => by
      rw [Expr.tokens]
      exact @Derives.int _ ⟨.int, v, [], line⟩ us rfl
  | .str s, _, us, _ => by
      rw [Expr.tokens]
      exact @Derives.str _ ⟨.str, 0, s, line⟩ us rfl
  | .bool b, _, us, _ => by
      rw [Expr.tokens]
      cases b with
      | false => exact .false_ rfl
      | true => exact .true_ rfl
  | .var name, _, us, hus => by
      rw [Expr.tokens]
      exact @Derives.var _ ⟨.ident, 0, name, line⟩ us rfl hus
  | .unop op e, hvalid, us, hus => by
      rw [Expr.Valid] at hvalid
      rw [Expr.tokens]
      exact @Derives.unop _ (opToken line op) e _ us hvalid.1
        (derives_parens le_rfl (fun hneeded => by simpa using hneeded) hus
          (Expr.derives line e hvalid.2))
  | .binop op l r, hvalid, us, hus => by
      rw [Expr.Valid] at hvalid
      obtain ⟨hop, hl, hr⟩ := hvalid
      rw [Expr.tokens, List.append_assoc]
      refine @Derives.binop _ (levelOf op) l r (opToken line op) _ _ us hop
        (derives_parens (Nat.le_of_lt hop) (fun hneeded => by simpa using hneeded) ?_
          (Expr.derives line l hl))
        (opsAt_levelOf hop)
        (derives_parens hop (fun hneeded => Nat.not_le.mp (of_decide_eq_false hneeded)) hus
          (Expr.derives line r hr))
      intro hparen
      have hmem := opsAt_levelOf hop
      rw [show op = .lparen from hparen] at hop
      exact absurd hop (by decide)
  | .call name args, hvalid, us, _ => by
      rw [Expr.Valid] at hvalid
      obtain ⟨-, hlimit, hargs⟩ := hvalid
      have htokens : (Expr.call name args).tokens line ++ us =
          ⟨.ident, 0, name, line⟩ :: openToken line ::
            (argTokens line args ++ closeToken line :: us) := by simp [Expr.tokens]
      rw [htokens]
      exact @Derives.call _ ⟨.ident, 0, name, line⟩ (openToken line) (closeToken line) args _ us rfl
        rfl (derives_args line args hargs _ rfl) rfl fun _ => hlimit

@[inherit_doc Expr.derives]
theorem derives_args (line : Nat) : ∀ (es : List Expr), AllValid es → ∀ us, nextType us = .rparen →
    Derives ⟨false, true⟩ (.args es) (argTokens line es ++ us) us
  | [], _, us, hus => .nil hus
  | [e], hvalid, us, hus => by
      rw [AllValid] at hvalid
      have he := Expr.derives line e hvalid.1 us (by rw [hus]; decide)
      have htokens : argTokens line [e] ++ us = e.tokens line ++ us := by simp [argTokens]
      rw [htokens]
      exact .last (he.loosen (Nat.zero_le _) e.level_le) hus
  | e :: e' :: es, hvalid, us, hus => by
      rw [AllValid] at hvalid
      have he := Expr.derives line e hvalid.1
        (commaToken line :: (argTokens line (e' :: es) ++ us)) nofun
      have htokens : argTokens line (e :: e' :: es) ++ us =
          e.tokens line ++ commaToken line :: (argTokens line (e' :: es) ++ us) := by
        rw [argTokens]
        simp
      rw [htokens]
      exact .cons (he.loosen (Nat.zero_le _) e.level_le) rfl nofun
        (derives_args line (e' :: es) hvalid.2 us hus)

end

/-! ## The round trip -/

theorem lexLine_nil (fuel : Nat) (s : Lexer) : lexLine line fuel s [] = .inr (s, []) := by
  cases fuel <;> rfl

theorem lexLines_nil (fuel : Nat) (s : Lexer) (indents : Indents) :
    lexLines fuel s indents line [] = lexEnd s indents line := by
  cases fuel <;> rfl

/-- The lexer makes one line of the text: its tokens, a NEWLINE and EOF. -/
theorem gkLex_render (hgap : ∀ c ∈ gap, isSpace c) (he : e.Valid) (error : Text)
    (hlimit : (e.tokens 1).length + 2 ≤ maxTokens) : gkLex error (e.render gap) =
      (true, ⟨e.tokens 1 ++ [⟨.newline, 0, [], 1⟩, ⟨.eof, 0, [], 1⟩], error⟩) := by
  obtain ⟨c, more, hcons, -, hnewline, hhash, hspace⟩ := e.opens gap he
  have hlexes := Expr.lexes hgap 1 e he [] nofun
  rw [List.append_nil, hcons] at hlexes
  have hindent : indentation (c :: more) = (0, c :: more) := by
    rw [isSpace, Bool.or_eq_false_iff] at hspace
    simp [indentation, hspace.1, hspace.2]
  have hline : ¬ (c :: more = [] ∨ (c :: more).head? = some 10 ∨ (c :: more).head? = some 35) := by
    simp [hnewline, hhash]
  have hempty : lexIndent ⟨[], error⟩ [] 0 1 = (true, ⟨[], error⟩, []) := rfl
  obtain ⟨fuel, -, hrun⟩ := hlexes.run (c :: more).length ⟨[], error⟩ le_rfl (by
    rw [List.length_nil]
    omega)
  rw [lexLine_nil] at hrun
  have hroom : (e.tokens 1).length < maxTokens := by omega
  rw [hcons, gkLex, List.length_cons, lexLines, if_neg (List.cons_ne_nil c more)]
  simp only [hindent, if_neg hline, hempty, hrun, List.nil_append, Lexer.emit_of_lt, hroom,
    List.tail_nil, if_true, lexLines_nil, lexEnd, closeBlocks]
  rw [Lexer.emit_of_lt (by rw [List.length_append, List.length_singleton]; omega),
    List.append_assoc]
  rfl

/-- An expression that is written and lexed is parsed into itself and nothing else, up to the
NEWLINE. -/
theorem parseExpr_render (hgap : ∀ c ∈ gap, isSpace c) (he : e.Valid) {fuel : Nat}
    (hlimit : (e.tokens 1).length + 2 ≤ maxTokens) (hfuel : (e.tokens 1).length + 2 ≤ fuel) :
    ∃ lexer newline eof, gkLex [] (e.render gap) = (true, lexer) ∧
      lexer.tokens = e.tokens 1 ++ [newline, eof] ∧ newline.type = .newline ∧ eof.type = .eof ∧
      ∃ n s, parseExpr fuel ⟨lexer.tokens, []⟩ = .ok n s ∧ Denotes s.nodes 0 e n ∧
        (∀ e', Denotes s.nodes 0 e' n → e' = e) ∧ s.rest = [newline, eof] := by
  refine ⟨_, _, _, gkLex_render hgap he [] hlimit, rfl, rfl, rfl, ?_⟩
  have hderives := Expr.derives 1 e he [⟨.newline, 0, [], 1⟩, ⟨.eof, 0, [], 1⟩] (by decide)
  have hstops : StopsAt 0 [⟨.newline, 0, [], 1⟩, ⟨.eof, 0, [], 1⟩] := stopsAt_of_notMem (by decide)
  have hlength : (e.tokens 1 ++ [⟨.newline, 0, [], 1⟩, ⟨.eof, 0, [], 1⟩] : List Token).length =
      (e.tokens 1).length + 2 := by rw [List.length_append]; rfl
  have hroom : maxNodes = maxTokens := rfl
  have hreturns : Returns (parseExpr fuel)
      ⟨e.tokens 1 ++ [⟨.newline, 0, [], 1⟩, ⟨.eof, 0, [], 1⟩], []⟩ _ :=
    ((hderives.loosen (Nat.zero_le _) e.level_le).accepts rfl).returns_parseExpr rfl
      (by rw [hlength]; exact hfuel) (by rw [hlength]; omega)
      (by rw [hlength]; simp only [List.length_nil, List.length_cons]; omega) hstops
  obtain ⟨n, s, hrun, hread⟩ := hreturns
  exact ⟨n, s, hrun, hread.denotes, fun e' he' => Denotes.unique e' e n he' hread.denotes,
    hread.rest⟩

/-- The sum of a number and a product, with its parentheses and spaces. -/
theorem parseExpr_render_sum :
    let e : Expr := .binop .star (.binop .plus (.int 2) (.var (ascii "x"))) (.int 10)
    e.render (ascii " ") = ascii "(2 + x) * 10" ∧
      ∃ lexer newline eof, gkLex [] (e.render (ascii " ")) = (true, lexer) ∧
        lexer.tokens = e.tokens 1 ++ [newline, eof] ∧ newline.type = .newline ∧ eof.type = .eof ∧
        ∃ n s, parseExpr 9 ⟨lexer.tokens, []⟩ = .ok n s ∧ Denotes s.nodes 0 e n ∧
          (∀ e', Denotes s.nodes 0 e' n → e' = e) ∧ s.rest = [newline, eof] := by
  refine ⟨by decide +kernel, parseExpr_render (by decide +kernel) ?_ (by decide +kernel)
    (by decide +kernel)⟩
  have hname : IsName (ascii "x") := ⟨⟨120, [], rfl, rfl⟩, by decide +kernel, by decide, rfl⟩
  simp [Expr.Valid, hname, levelOf]

end GeckoOS.Gk
