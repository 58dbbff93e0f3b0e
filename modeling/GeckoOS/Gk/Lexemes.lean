/-
# What a program is made of

A program is a sequence of words, numbers, strings and operators, with blanks, newlines and
comments between them.  A word and a number are as long as they can be, and a string ends at
the first quote of its kind that is not escaped.

The lexer has a buffer for a word and one for a string, and when one is full it leaves its
loop and goes on where it is, in the middle of the word or the string.  So what it makes of a
program that it accepts is what the program is made of, provided that every word and every
string fits into its buffer.
-/

import GeckoOS.Gk.CompleteNodes

namespace GeckoOS.Gk

/-- A part of a program that is a token of its own. -/
inductive Lexeme
  | number (digits : Text)
  /-- The bytes that stand between the quotes, unescaped. -/
  | string (bytes : Text)
  | word (name : Text)
  | operator (type : TokenType)
  deriving DecidableEq

/-- The type and the values of its token. -/
def Lexeme.token : Lexeme → TokenType × Int32 × Text
  | .number digits => (.int, intValue digits, [])
  | .string bytes => (.str, 0, bytes)
  | .word name => (wordType name, 0, name)
  | .operator type => (type, 0, [])

/-- There is room for it. -/
def Lexeme.Fits : Lexeme → Prop
  | .string bytes => bytes.length ≤ 255
  | .word name => name.length ≤ 63
  | _ => True

/-- The bytes of a string and the text behind it, when the opening quote has been read. -/
def literal (quote : UInt8) : Text → Option (Text × Text)
  | [] => none
  | c :: rest =>
      if c = quote then some ([], rest)
      else
        match c, rest with
        | 92, d :: rest => (literal quote rest).map fun read => (escaped d :: read.1, read.2)
        | c, rest => (literal quote rest).map fun read => (c :: read.1, read.2)

/-- What is read at the character `c`, if it is a lexeme, and the text behind it; nothing if it
is an unknown character or the quote of a string that does not end. -/
def nextLexeme (c : UInt8) (rest : Text) : Option (Option Lexeme × Text) :=
  if isSpace c ∨ c = 10 then some (none, rest)
  else if c = 35 then some (none, rest.dropWhile (· ≠ 10))
  else if isDigit c then
    some (some (.number ((c :: rest).takeWhile isDigit)), rest.dropWhile isDigit)
  else if c = 34 ∨ c = 39 then
    (literal c rest).map fun read => (some (.string read.1), read.2)
  else if isAlpha c then
    some (some (.word ((c :: rest).takeWhile isAlnum)), rest.dropWhile isAlnum)
  else
    match doubleOperator c (rest.headD 0) with
    | some type => some (some (.operator type), rest.tail)
    | none => (singleOperator c).map fun type => (some (.operator type), rest)

/-- A text is made of these lexemes. -/
inductive Scans : Text → List Lexeme → Prop
  | nil : Scans [] []
  | skip {c : UInt8} {text rest : Text} {ls : List Lexeme}
      (hnext : nextLexeme c text = some (none, rest)) (hrest : Scans rest ls) :
      Scans (c :: text) ls
  | lexeme {c : UInt8} {text rest : Text} {l : Lexeme} {ls : List Lexeme}
      (hnext : nextLexeme c text = some (some l, rest)) (hrest : Scans rest ls) :
      Scans (c :: text) (l :: ls)

/-- The tokens that show the lines and the blocks. -/
def TokenType.isLayout : TokenType → Bool
  | .newline | .indent | .dedent | .eof => Bool.true
  | _ => Bool.false

/-- The other tokens, without their lines. -/
def content (tokens : List Token) : List (TokenType × Int32 × Text) :=
  (tokens.filter fun t => !t.type.isLayout).map fun t => (t.type, t.intVal, t.strVal)

variable {line : Nat} {text rest : Text} {c : UInt8} {s s' : Lexer} {l : Lexeme} {ls : List Lexeme}

/-! ## Lexemes -/

/-- Something is read at the first character, and the rest is read behind it. -/
theorem Scans.uncons (hscans : Scans (c :: text) ls) :
    ∃ next rest ls', nextLexeme c text = some (next, rest) ∧ Scans rest ls' ∧
      ls = next.toList ++ ls' := by
  cases hscans with
  | skip hnext hrest => exact ⟨none, _, _, hnext, hrest, rfl⟩
  | lexeme hnext hrest => exact ⟨some _, _, _, hnext, hrest, rfl⟩

/-- There is one way to divide a text. -/
theorem Scans.unique {ls' : List Lexeme} (hscans : Scans text ls) (hscans' : Scans text ls') :
    ls = ls' := by
  induction hscans generalizing ls' with
  | nil =>
      cases hscans'
      rfl
  | skip hnext _ ih =>
      obtain ⟨next, rest, ls'', hnext', hrest', rfl⟩ := hscans'.uncons
      cases hnext.symm.trans hnext'
      exact ih hrest'
  | lexeme hnext _ ih =>
      obtain ⟨next, rest, ls'', hnext', hrest', rfl⟩ := hscans'.uncons
      cases hnext.symm.trans hnext'
      rw [ih hrest']
      rfl

/-- Spaces, tabs and newlines are skipped. -/
theorem Scans.of_skip (hscans : Scans (c :: text) ls) (hc : isSpace c ∨ c = 10) :
    Scans text ls := by
  obtain ⟨next, rest, ls', hnext, hrest, rfl⟩ := hscans.uncons
  rw [nextLexeme, if_pos hc] at hnext
  cases hnext
  exact hrest

/-- So is a comment. -/
theorem Scans.of_comment (hscans : Scans (35 :: text) ls) : Scans (text.dropWhile (· ≠ 10)) ls := by
  obtain ⟨next, rest, ls', hnext, hrest, rfl⟩ := hscans.uncons
  cases hnext
  exact hrest

theorem content_append (ts us : List Token) : content (ts ++ us) = content ts ++ content us := by
  rw [content, List.filter_append, List.map_append, content, content]

theorem content_singleton {t : Token} (htype : t.type.isLayout = false) :
    content [t] = [(t.type, t.intVal, t.strVal)] := by
  rw [content, List.filter_cons_of_pos (by rw [htype]; rfl), List.filter_nil, List.map_singleton]

theorem wordType_ne (name : Text) : (wordType name).isLayout = false ∧ wordType name ≠ .str := by
  have hall : ∀ keyword ∈ keywords, keyword.2.isLayout = false ∧ keyword.2 ≠ .str := by decide
  rw [wordType]
  cases hfind : keywords.find? fun keyword => keyword.1 == name with
  | none => exact ⟨rfl, by decide⟩
  | some keyword => exact hall keyword (List.mem_of_find?_eq_some hfind)

theorem singleOperator_content {type : TokenType} (htype : singleOperator c = some type) :
    type.isLayout = false := by
  have hall : ∀ n < 256, ∀ type ∈ singleOperator (UInt8.ofNat n), type.isLayout = false := by
    decide +kernel
  have hbyte := hall c.toNat c.toNat_lt
  rw [UInt8.ofNat_toNat] at hbyte
  exact hbyte type htype

theorem doubleOperator_content {next : UInt8} {type : TokenType}
    (htype : doubleOperator c next = some type) : type.isLayout = false := by
  rw [doubleOperator] at htype
  split_ifs at htype <;>
    · cases htype
      rfl

/-- What matches in its tokens fits into its buffers. -/
theorem Lexeme.fits_of_token {t : Token} (hshort : t.Short)
    (hmatch : (t.type, t.intVal, t.strVal) = l.token) : l.Fits := by
  cases l with
  | number digits => trivial
  | operator type => trivial
  | string bytes =>
      obtain ⟨-, hbytes⟩ := Prod.mk.inj (Prod.mk.inj hmatch).2
      subst hbytes
      exact hshort.elim (fun h => h.trans (by decide)) And.right
  | word name =>
      obtain ⟨htype, hrest⟩ := Prod.mk.inj hmatch
      obtain ⟨-, hname⟩ := Prod.mk.inj hrest
      subst hname
      exact hshort.resolve_right fun hstr => (wordType_ne _).2 (htype.symm.trans hstr.1)

/-! ## One round of the loop over a line -/

/-- At the quote a string ends. -/
theorem literal_quote (quote : UInt8) : literal quote (quote :: text) = some ([], text) := by
  unfold literal
  exact if_pos rfl

/-- An escape stands for one byte. -/
theorem literal_escape {quote d : UInt8} (hquote : (92 : UInt8) ≠ quote) :
    literal quote (92 :: d :: text)
      = (literal quote text).map fun read => (escaped d :: read.1, read.2) := by
  rw [literal, if_neg hquote]

/-- Every other byte stands for itself. -/
theorem literal_plain {quote : UInt8} (hquote : c ≠ quote)
    (hplain : ∀ d rest, c = 92 → text = d :: rest → False) :
    literal quote (c :: text) = (literal quote text).map fun read => (c :: read.1, read.2) := by
  rw [literal, if_neg hquote]
  exact hplain

/-- Behind the last byte of a string comes its quote. -/
theorem literal_nil {quote : UInt8} (hliteral : literal quote text = some ([], rest)) :
    text = quote :: rest := by
  have hcons : ∀ {read : Option (Text × Text)} {byte : UInt8},
      read.map (fun read => (byte :: read.1, read.2)) ≠ some ([], rest) := by
    intro read byte hread
    obtain ⟨bytes, -, hbytes⟩ := Option.map_eq_some_iff.mp hread
    cases hbytes
  induction text using literal.induct quote with
  | case1 => cases hliteral
  | case2 more =>
      rw [literal_quote] at hliteral
      cases hliteral
      rfl
  | case3 d more hquote _ =>
      rw [literal_escape hquote] at hliteral
      exact absurd hliteral hcons
  | case4 c more hplain hquote _ =>
      rw [literal_plain hquote hplain] at hliteral
      exact absurd hliteral hcons

/-- The loop over a string that fits stops at its closing quote. -/
theorem lexString_literal {quote : UInt8} {stored : Nat} {bytes : Text}
    (hliteral : literal quote text = some (bytes, rest)) (hroom : stored + bytes.length ≤ 255) :
    lexString quote stored text = (bytes, quote :: rest) := by
  -- A byte is stored, and the buffer is full or the loop goes on.
  have hstored : ∀ {stored : Nat} {byte : UInt8} {bytes text : Text},
      literal quote text = some (bytes, rest) → stored + (bytes.length + 1) ≤ 255 →
      (stored + 1 + bytes.length ≤ 255 →
        lexString quote (stored + 1) text = (bytes, quote :: rest)) →
      (if maxStr - 1 ≤ stored + 1 then ([byte], text)
        else (byte :: (lexString quote (stored + 1) text).1,
          (lexString quote (stored + 1) text).2)) = (byte :: bytes, quote :: rest) := by
    intro stored byte bytes text hread hroom ih
    split_ifs with hfull
    · have hnil : bytes = [] := List.length_eq_zero_iff.mp (by simp only [maxStr] at hfull; omega)
      subst hnil
      rw [literal_nil hread]
    · rw [ih (by omega)]
  induction text using literal.induct quote generalizing stored bytes with
  | case1 => cases hliteral
  | case2 more =>
      rw [literal_quote] at hliteral
      cases hliteral
      unfold lexString
      exact if_pos rfl
  | case3 d more hquote ih =>
      rw [literal_escape hquote] at hliteral
      obtain ⟨read, hread, hbytes⟩ := Option.map_eq_some_iff.mp hliteral
      cases hbytes
      rw [lexString, if_neg hquote]
      exact hstored hread hroom (ih hread)
  | case4 c more hplain hquote ih =>
      rw [literal_plain hquote hplain] at hliteral
      obtain ⟨read, hread, hbytes⟩ := Option.map_eq_some_iff.mp hliteral
      cases hbytes
      rw [lexString, if_neg hquote]
      · exact hstored hread hroom (ih hread)
      · exact hplain

theorem literal_length {quote : UInt8} {bytes : Text}
    (hliteral : literal quote text = some (bytes, rest)) : rest.length ≤ text.length := by
  induction text using literal.induct quote generalizing bytes with
  | case1 => cases hliteral
  | case2 more =>
      rw [literal_quote] at hliteral
      cases hliteral
      simp
  | case3 d more hquote ih =>
      rw [literal_escape hquote] at hliteral
      obtain ⟨read, hread, hbytes⟩ := Option.map_eq_some_iff.mp hliteral
      cases hbytes
      have hmore := ih hread
      simp only [List.length_cons]
      omega
  | case4 c more hplain hquote ih =>
      rw [literal_plain hquote hplain] at hliteral
      obtain ⟨read, hread, hbytes⟩ := Option.map_eq_some_iff.mp hliteral
      cases hbytes
      exact (ih hread).trans (Nat.le_succ _)

theorem nextLexeme_length {next : Option Lexeme} (hnext : nextLexeme c text = some (next, rest)) :
    rest.length ≤ text.length := by
  rw [nextLexeme] at hnext
  split_ifs at hnext
  · cases hnext
    exact le_rfl
  · cases hnext
    exact (List.dropWhile_sublist _).length_le
  · cases hnext
    exact (List.dropWhile_sublist _).length_le
  · obtain ⟨read, hread, hrest⟩ := Option.map_eq_some_iff.mp hnext
    cases hrest
    exact literal_length hread
  · cases hnext
    exact (List.dropWhile_sublist _).length_le
  · split at hnext
    · cases hnext
      exact (List.tail_sublist _).length_le
    · obtain ⟨type, -, hrest⟩ := Option.map_eq_some_iff.mp hnext
      cases hrest
      exact le_rfl

/-- One round emits the token of a lexeme that fits, and nothing for what is skipped. -/
theorem lexToken_next (line : Nat) {next : Option Lexeme}
    (hnext : nextLexeme c text = some (next, rest))
    (hc : c ≠ 10) (hfits : ∀ l ∈ next, l.Fits) (hroom : s.tokens.length < maxTokens) :
    ∃ ts, lexToken s line c text = .inr ({ s with tokens := s.tokens ++ ts }, rest) ∧
      content ts = next.toList.map Lexeme.token := by
  rw [nextLexeme] at hnext
  rw [lexToken]
  split_ifs at hnext with hspace hhash hdigit hquote halpha
  · cases hnext
    exact ⟨[], by rw [if_pos (hspace.resolve_right hc), List.append_nil], rfl⟩
  · cases hnext
    exact ⟨[], by rw [if_neg (not_or.mp hspace).1, if_pos hhash, List.append_nil], rfl⟩
  · cases hnext
    refine ⟨[⟨.int, intValue ((c :: text).takeWhile isDigit), [], line⟩], ?_, rfl⟩
    rw [if_neg (not_or.mp hspace).1, if_neg hhash, if_pos hdigit, Lexer.emit_of_lt hroom]
  · obtain ⟨⟨bytes, rest⟩, hread, hrest⟩ := Option.map_eq_some_iff.mp hnext
    cases hrest
    have hlength : bytes.length ≤ 255 := hfits _ rfl
    refine ⟨[⟨.str, 0, bytes, line⟩], ?_, rfl⟩
    rw [if_neg (not_or.mp hspace).1, if_neg hhash, if_neg hdigit, if_pos hquote,
      lexString_literal hread (by omega)]
    simp only [Lexer.emit_of_lt hroom, List.tail_cons]
  · cases hnext
    have hlength : ((c :: text).takeWhile isAlnum).length ≤ 63 := hfits _ rfl
    have hdrop : (c :: text).drop ((c :: text).takeWhile isAlnum).length
        = text.dropWhile isAlnum := by
      have hboth := List.takeWhile_append_dropWhile (p := isAlnum) (l := c :: text)
      rw [List.dropWhile_cons_of_pos (by rw [isAlnum, halpha, Bool.true_or])] at hboth
      nth_rewrite 2 [← hboth]
      exact List.drop_left
    refine ⟨[⟨wordType ((c :: text).takeWhile isAlnum), 0, (c :: text).takeWhile isAlnum, line⟩],
      ?_, content_singleton (wordType_ne _).1⟩
    rw [if_neg (not_or.mp hspace).1, if_neg hhash, if_neg hdigit, if_neg hquote, if_pos halpha,
      List.take_of_length_le hlength]
    simp only [Lexer.emit_of_lt hroom, hdrop]
  · rw [if_neg (not_or.mp hspace).1, if_neg hhash, if_neg hdigit, if_neg hquote, if_neg halpha]
    split at hnext
    · rename_i type hdouble
      cases hnext
      refine ⟨[⟨type, 0, [], line⟩], ?_, content_singleton (doubleOperator_content hdouble)⟩
      simp only [hdouble, Lexer.emit_of_lt hroom]
    · rename_i hdouble
      obtain ⟨type, hsingle, hrest⟩ := Option.map_eq_some_iff.mp hnext
      cases hrest
      refine ⟨[⟨type, 0, [], line⟩], ?_, content_singleton (singleOperator_content hsingle)⟩
      simp only [hdouble, hsingle, Lexer.emit_of_lt hroom]

/-- At most one token is emitted. -/
theorem Lexer.emit_tokens (s : Lexer) {type : TokenType} (htype : type.isLayout = false)
    (intVal : Int32) (strVal : Text) (line : Nat) :
    ∃ ts, (s.emit type intVal strVal line).2.tokens = s.tokens ++ ts ∧
      ∀ t ∈ ts, t.type.isLayout = false := by
  rw [Lexer.emit]
  split_ifs
  · exact ⟨[], (List.append_nil _).symm, fun _ ht => absurd ht List.not_mem_nil⟩
  · refine ⟨[⟨type, intVal, strVal, line⟩], rfl, fun t ht => ?_⟩
    obtain rfl := List.mem_singleton.mp ht
    exact htype

/-- One round emits tokens that are no layout. -/
theorem lexToken_tokens (hrun : lexToken s line c text = .inr (s', rest)) :
    ∃ ts, s'.tokens = s.tokens ++ ts ∧ ∀ t ∈ ts, t.type.isLayout = false := by
  have hnone : ∃ ts, s.tokens = s.tokens ++ ts ∧ ∀ t ∈ ts, t.type.isLayout = false :=
    ⟨[], (List.append_nil _).symm, fun _ ht => absurd ht List.not_mem_nil⟩
  rw [lexToken] at hrun
  split_ifs at hrun
  · cases hrun
    exact hnone
  · cases hrun
    exact hnone
  · have hemit := s.emit_tokens (show TokenType.int.isLayout = false from rfl)
      (intValue ((c :: text).takeWhile isDigit)) [] line
    split at hrun
    · rename_i hrun'
      cases hrun
      rwa [hrun'] at hemit
    · cases hrun
  · have hemit := s.emit_tokens (show TokenType.str.isLayout = false from rfl) 0
      (lexString c 0 text).1 line
    dsimp only at hrun
    split at hrun
    · rename_i hrun'
      cases hrun
      rwa [hrun'] at hemit
    · cases hrun
  · have hemit := s.emit_tokens (wordType_ne (((c :: text).takeWhile isAlnum).take 63)).1 0
      (((c :: text).takeWhile isAlnum).take 63) line
    dsimp only at hrun
    split at hrun
    · rename_i hrun'
      cases hrun
      rwa [hrun'] at hemit
    · cases hrun
  · split at hrun
    · rename_i htype
      cases hrun
      exact s.emit_tokens (doubleOperator_content htype) 0 [] line
    · split at hrun
      · rename_i htype
        cases hrun
        exact s.emit_tokens (singleOperator_content htype) 0 [] line
      · cases hrun

/-- So does the loop. -/
theorem lexLine_tokens {fuel : Nat} (hrun : lexLine line fuel s text = .inr (s', rest)) :
    ∃ ts, s'.tokens = s.tokens ++ ts ∧ ∀ t ∈ ts, t.type.isLayout = false := by
  have hnone : ∀ s : Lexer, ∃ ts, s.tokens = s.tokens ++ ts ∧ ∀ t ∈ ts, t.type.isLayout = false :=
    fun _ => ⟨[], (List.append_nil _).symm, fun _ ht => absurd ht List.not_mem_nil⟩
  induction fuel generalizing s text with
  | zero =>
      cases hrun
      exact hnone _
  | succ fuel ih =>
      cases text with
      | nil =>
          cases hrun
          exact hnone _
      | cons c text =>
          rw [lexLine] at hrun
          split_ifs at hrun
          · cases hrun
            exact hnone _
          · split at hrun
            · cases hrun
            · rename_i htoken
              obtain ⟨ts, hts, htypes⟩ := lexToken_tokens htoken
              obtain ⟨us, hus, htypes'⟩ := ih hrun
              refine ⟨ts ++ us, by rw [hus, hts, List.append_assoc], fun t ht => ?_⟩
              exact (List.mem_append.mp ht).elim (htypes t) (htypes' t)

theorem lexLine_length {fuel : Nat} (hrun : lexLine line fuel s text = .inr (s', rest)) :
    s.tokens.length ≤ s'.tokens.length := by
  obtain ⟨ts, hts, -⟩ := lexLine_tokens hrun
  rw [hts]
  exact (List.sublist_append_left _ _).length_le

/-! ## The loop over a line -/

/-- The loop over a line, when there is room for its tokens: it stops at a newline or at the end,
and it has emitted the tokens of the lexemes before that. -/
theorem lexLine_scans {fuel : Nat} (hrun : lexLine line fuel s text = .inr (s', rest))
    (hfuel : text.length ≤ fuel) (hroom : s'.tokens.length < maxTokens) (hscans : Scans text ls)
    (hfits : ∀ l ∈ ls, l.Fits) :
    rest.length ≤ text.length ∧ ∃ ls₁ ls₂, ls = ls₁ ++ ls₂ ∧ Scans rest ls₂ ∧
      (rest = [] ∨ rest.head? = some 10) ∧
      content s'.tokens = content s.tokens ++ ls₁.map Lexeme.token := by
  have hstop : ∀ {s : Lexer} {text : Text} {ls : List Lexeme}, Scans text ls →
      (text = [] ∨ text.head? = some 10) →
      text.length ≤ text.length ∧ ∃ ls₁ ls₂, ls = ls₁ ++ ls₂ ∧ Scans text ls₂ ∧
        (text = [] ∨ text.head? = some 10) ∧
        content s.tokens = content s.tokens ++ ls₁.map Lexeme.token := by
    intro s text ls hscans hend
    exact ⟨le_rfl, [], ls, rfl, hscans, hend, by rw [List.map_nil, List.append_nil]⟩
  induction fuel generalizing s text ls with
  | zero =>
      obtain rfl := List.length_eq_zero_iff.mp (Nat.le_zero.mp hfuel)
      cases hrun
      exact hstop hscans (.inl rfl)
  | succ fuel ih =>
      cases text with
      | nil =>
          cases hrun
          exact hstop hscans (.inl rfl)
      | cons c text =>
          have hmore := lexLine_length hrun
          rw [lexLine] at hrun
          split_ifs at hrun with hnewline
          · cases hrun
            exact hstop hscans (.inr (by rw [hnewline]; rfl))
          · obtain ⟨next, rest₁, ls', hnext, hrest, rfl⟩ := hscans.uncons
            have hroom₁ : s.tokens.length < maxTokens := hmore.trans_lt hroom
            obtain ⟨ts, htoken, hts⟩ := lexToken_next line hnext hnewline
              (fun l hl => hfits l (List.mem_append_left _ (Option.mem_toList.mpr hl))) hroom₁
            simp only [htoken] at hrun
            have hshorter := nextLexeme_length hnext
            rw [List.length_cons] at hfuel
            obtain ⟨hlength, ls₁, ls₂, rfl, hscans₂, hend, hcontent⟩ := ih hrun (by omega) hrest
              fun l hl => hfits l (List.mem_append_right _ hl)
            refine ⟨hlength.trans (by simp; omega), next.toList ++ ls₁, ls₂,
              (List.append_assoc _ _ _).symm, hscans₂, hend, ?_⟩
            rw [hcontent, content_append, hts, List.map_append, List.append_assoc]

/-! ## All lines -/

/-- Layout has no content. -/
theorem Lexer.content_emit (s : Lexer) (type : TokenType) (htype : type.isLayout = true)
    (line : Nat) : content (s.emit type 0 [] line).2.tokens = content s.tokens := by
  have hnone : content [⟨type, 0, [], line⟩] = [] := by
    rw [content, List.filter_cons_of_neg (by rw [htype]; decide), List.filter_nil, List.map_nil]
  rw [Lexer.emit]
  split_ifs
  · rfl
  · rw [content_append, hnone, List.append_nil]

theorem closeBlocks_content (indent line : Nat) (s : Lexer) (indents : Indents) :
    content (closeBlocks indent line s indents).2.1.tokens = content s.tokens := by
  induction indents generalizing s with
  | nil => rfl
  | cons width widths ih =>
      have hemit := s.content_emit .dedent rfl line
      rw [closeBlocks]
      split_ifs
      · split
        · rename_i hrun
          rw [ih, ← hemit, hrun]
        · rename_i hrun
          rw [← hemit, hrun]
      · rfl

theorem lexIndent_content (s : Lexer) (indents : Indents) (indent line : Nat) :
    content (lexIndent s indents indent line).2.1.tokens = content s.tokens := by
  have hemit := s.content_emit .indent rfl line
  rw [lexIndent]
  split_ifs
  · split <;>
    · rename_i hrun
      rw [← hemit, hrun]
  · exact closeBlocks_content indent line s indents

theorem lexEnd_content (s : Lexer) (indents : Indents) (line : Nat) :
    content (lexEnd s indents line).2.tokens = content s.tokens := by
  have hclose := closeBlocks_content 0 line s indents
  rw [lexEnd]
  split
  · rename_i hrun
    rw [← hclose, hrun]
  · rename_i s₁ widths hrun
    rw [s₁.content_emit .eof rfl, ← hclose, hrun]

/-- Indentation is skipped. -/
theorem Scans.dropWhile {p : UInt8 → Bool} (hp : ∀ c, p c → isSpace c) (hscans : Scans text ls) :
    Scans (text.dropWhile p) ls := by
  induction text with
  | nil => exact hscans
  | cons c text ih =>
      by_cases hc : p c
      · rw [List.dropWhile_cons_of_pos hc]
        exact ih (hscans.of_skip (.inl (hp c hc)))
      · rwa [List.dropWhile_cons_of_neg hc]

theorem Scans.indentation (hscans : Scans text ls) : Scans (indentation text).2 ls := by
  have hspaces := hscans.dropWhile (p := (· == 32)) fun c hc => by rw [isSpace, hc, Bool.true_or]
  exact hspaces.dropWhile fun c hc => by rw [isSpace, hc, Bool.or_true]

theorem indentation_length (text : Text) : (indentation text).2.length ≤ text.length :=
  ((List.dropWhile_sublist _).trans (List.dropWhile_sublist _)).length_le

/-- So is a newline. -/
theorem Scans.tail (hscans : Scans text ls) (hend : text = [] ∨ text.head? = some 10) :
    Scans text.tail ls := by
  cases text with
  | nil => exact hscans
  | cons c text =>
      have hc : c = 10 := Option.some.inj (hend.resolve_left (List.cons_ne_nil c text))
      exact hscans.of_skip (.inr hc)

/-- And a line that is blank or a comment. -/
theorem Scans.blank (hscans : Scans text ls)
    (hblank : text = [] ∨ text.head? = some 10 ∨ text.head? = some 35) :
    Scans (text.dropWhile (· ≠ 10)).tail ls := by
  have hend : ∀ text : Text, text.dropWhile (· ≠ 10) = [] ∨
      (text.dropWhile (· ≠ 10)).head? = some 10 := by
    intro text
    have hhead := List.head?_dropWhile_not (fun c : UInt8 => decide (c ≠ 10)) text
    cases hrest : text.dropWhile (· ≠ 10) with
    | nil => exact .inl rfl
    | cons c rest =>
        rw [hrest] at hhead
        exact .inr (congrArg some (not_not.mp (of_decide_eq_false hhead)))
  refine Scans.tail ?_ (hend text)
  cases text with
  | nil => exact hscans
  | cons c text =>
      rcases hblank.resolve_left (List.cons_ne_nil c text) with hc | hc
      · cases hc
        exact hscans
      · cases hc
        exact hscans.of_comment

/-- What all lines together are made of, if they are accepted. -/
theorem lexLines_scans {fuel : Nat} {indents : Indents}
    (hrun : lexLines fuel s indents line text = (true, s')) (hfuel : text.length ≤ fuel)
    (hscans : Scans text ls) (hfits : ∀ l ∈ ls, l.Fits) :
    content s'.tokens = content s.tokens ++ ls.map Lexeme.token := by
  have hend : ∀ {s : Lexer} {indents : Indents} {line : Nat} {ls : List Lexeme}, Scans [] ls →
      lexEnd s indents line = (true, s') →
      content s'.tokens = content s.tokens ++ ls.map Lexeme.token := by
    intro s indents line ls hscans hrun
    cases hscans
    have hcontent := lexEnd_content s indents line
    rw [hrun] at hcontent
    rw [hcontent, List.map_nil, List.append_nil]
  induction fuel generalizing s indents line text ls with
  | zero =>
      obtain rfl := List.length_eq_zero_iff.mp (Nat.le_zero.mp hfuel)
      exact hend hscans hrun
  | succ fuel ih =>
      rw [lexLines] at hrun
      split_ifs at hrun with hempty
      · subst hempty
        exact hend hscans hrun
      have hlength := indentation_length text
      have hpos := List.length_pos_of_ne_nil hempty
      have hscans₁ := hscans.indentation
      dsimp only at hrun
      split at hrun
      · rename_i hblank
        have hshorter := (List.dropWhile_sublist (· ≠ (10 : UInt8))
          (l := (indentation text).2)).length_le
        refine ih hrun ?_ (hscans₁.blank hblank) hfits
        rw [List.length_tail]
        omega
      · have hindent := lexIndent_content s indents (indentation text).1 line
        split at hrun
        · cases hrun
        · rename_i s₁ indents₁ hindents
          rw [hindents] at hindent
          split at hrun
          · cases hrun
          · rename_i s₂ rest hline
            split at hrun
            · cases hrun
            · rename_i s₃ hnewline
              have hroom : s₂.tokens.length < maxTokens := by
                rw [Lexer.emit] at hnewline
                split_ifs at hnewline with hfull
                · cases hnewline
                · exact Nat.not_le.mp hfull
              obtain ⟨hshorter, ls₁, ls₂, rfl, hrest, hstop, hcontent⟩ :=
                lexLine_scans hline le_rfl hroom hscans₁ hfits
              have hemit := s₂.content_emit .newline rfl line
              rw [hnewline] at hemit
              have hall := ih hrun ?_ (hrest.tail hstop)
                fun l hl => hfits l (List.mem_append_right _ hl)
              · rw [hall, hemit, hcontent, hindent, List.map_append, List.append_assoc]
              · rw [List.length_tail]
                omega

/-- **What a program that is accepted is made of**: its tokens, layout apart, are the lexemes of
the text if and only if the text is made of lexemes that fit into the buffers. -/
theorem gkLex_lexemes {src : Text} {lexer : Lexer} (hrun : gkLex [] src = (true, lexer)) :
    (∃ ls, Scans src ls ∧ content lexer.tokens = ls.map Lexeme.token) ↔
      ∃ ls, Scans src ls ∧ ∀ l ∈ ls, l.Fits := by
  constructor
  · rintro ⟨ls, hscans, hcontent⟩
    refine ⟨ls, hscans, fun l hl => ?_⟩
    have hmem : l.token ∈ content lexer.tokens := by
      rw [hcontent]
      exact List.mem_map_of_mem hl
    obtain ⟨t, ht, hmatch⟩ := List.mem_map.mp hmem
    exact Lexeme.fits_of_token (gkLex_short hrun t (List.mem_of_mem_filter ht)) hmatch
  · rintro ⟨ls, hscans, hfits⟩
    exact ⟨ls, hscans, lexLines_scans hrun le_rfl hscans hfits⟩

/-- A program with a comment, a word, a number, operators and an escaped quote. -/
theorem gkLex_lexemes_printing :
    ∃ lexer, gkLex [] (ascii "# a\nprint('b\\'c' + 1)") = (true, lexer) ∧
      ((∃ ls, Scans (ascii "# a\nprint('b\\'c' + 1)") ls ∧
          content lexer.tokens = ls.map Lexeme.token) ↔
        ∃ ls, Scans (ascii "# a\nprint('b\\'c' + 1)") ls ∧ ∀ l ∈ ls, l.Fits) := by
  have hrun : gkLex [] (ascii "# a\nprint('b\\'c' + 1)")
      = (true, (gkLex [] (ascii "# a\nprint('b\\'c' + 1)")).2) := by decide +kernel
  exact ⟨_, hrun, gkLex_lexemes hrun⟩

/-- A word of 64 letters is accepted, as two words, and so is a string without an end. -/
theorem gkLex_splits_word :
    (∃ lexer, gkLex [] (List.replicate 64 97) = (true, lexer) ∧
      ¬ ∃ ls, Scans (List.replicate 64 97) ls ∧ content lexer.tokens = ls.map Lexeme.token) ∧
    ∃ lexer, gkLex [] [34, 97] = (true, lexer) ∧ ¬ ∃ ls, Scans [34, 97] ls := by
  constructor
  · have hrun : gkLex [] (List.replicate 64 97) = (true,
        ⟨[⟨.ident, 0, List.replicate 63 97, 1⟩, ⟨.ident, 0, [97], 1⟩, ⟨.newline, 0, [], 1⟩,
          ⟨.eof, 0, [], 1⟩], []⟩) := by decide +kernel
    refine ⟨_, hrun, ?_⟩
    rintro ⟨ls, hscans, hcontent⟩
    have hone : Scans (List.replicate 64 97) [.word (List.replicate 64 97)] :=
      @Scans.lexeme _ _ [] _ _ (by decide +kernel) .nil
    rw [hscans.unique hone] at hcontent
    exact absurd (congrArg List.length hcontent) (by decide)
  · have hrun : gkLex [] [34, 97] = (true,
        ⟨[⟨.str, 0, [97], 1⟩, ⟨.newline, 0, [], 1⟩, ⟨.eof, 0, [], 1⟩], []⟩) := by
      decide +kernel
    refine ⟨_, hrun, ?_⟩
    rintro ⟨ls, hscans⟩
    obtain ⟨next, rest, ls', hnext, -⟩ := hscans.uncons
    have hnone : nextLexeme 34 [97] = none := by decide +kernel
    cases hnone.symm.trans hnext

end GeckoOS.Gk
