/-
# Reading one token

What the loop over a line makes of a word, a number, a string, an operator or a space, as
steps from one place of the text to a later one.  Such steps can be put together.

What stands behind a token matters in two places only: a word or a number must not go on,
and no equals sign may come behind an operator that would take it.
-/

import GeckoOS.Gk.Lexer

namespace GeckoOS.Gk

/-- At `text` the loop over a line emits these tokens and goes on at `rest`. -/
structure Lexes (line : Nat) (text : Text) (ts : List Token) (rest : Text) : Prop where
  length : rest.length ≤ text.length
  run : ∀ fuel s, text.length ≤ fuel → s.tokens.length + ts.length ≤ maxTokens →
    ∃ fuel', rest.length ≤ fuel' ∧
      lexLine line fuel s text = lexLine line fuel' { s with tokens := s.tokens ++ ts } rest

variable {line : Nat} {text rest rest' : Text} {t : Token} {ts us : List Token} {s : Lexer}
  {c : UInt8}

namespace Lexes

theorem refl (line : Nat) (text : Text) : Lexes line text [] text where
  length := le_rfl
  run fuel s hfuel _ := ⟨fuel, hfuel, by rw [List.append_nil]⟩

theorem trans (hfirst : Lexes line text ts rest) (hsecond : Lexes line rest us rest') :
    Lexes line text (ts ++ us) rest' where
  length := hsecond.length.trans hfirst.length
  run fuel s hfuel hroom := by
    rw [List.length_append] at hroom
    obtain ⟨fuel₁, hfuel₁, hrun₁⟩ := hfirst.run fuel s hfuel (by omega)
    obtain ⟨fuel₂, hfuel₂, hrun₂⟩ := hsecond.run fuel₁ { s with tokens := s.tokens ++ ts } hfuel₁
      (by rw [List.length_append]; omega)
    refine ⟨fuel₂, hfuel₂, ?_⟩
    rw [hrun₁, hrun₂, List.append_assoc]

/-- One round of the loop that emits a token. -/
theorem token (hc : c ≠ 10) (hlength : rest.length ≤ text.length)
    (hlex : ∀ s : Lexer, s.tokens.length < maxTokens →
      lexToken s line c text = .inr ({ s with tokens := s.tokens ++ [t] }, rest)) :
    Lexes line (c :: text) [t] rest where
  length := hlength.trans (by simp)
  run fuel s hfuel hroom := by
    rw [List.length_cons] at hfuel
    obtain ⟨fuel, rfl⟩ := Nat.exists_eq_add_of_le' (Nat.one_le_of_lt hfuel)
    refine ⟨fuel, by omega, ?_⟩
    rw [lexLine]
    simp only [hc, if_false, hlex s hroom]

/-- Spaces and tabs are passed. -/
theorem spaces (hspaces : ∀ c ∈ text, isSpace c) : Lexes line (text ++ rest) [] rest := by
  induction text with
  | nil => exact .refl line rest
  | cons c text ih =>
      have hc := hspaces c List.mem_cons_self
      have hnewline : c ≠ 10 := by
        rintro rfl
        exact absurd hc (by decide)
      refine ⟨by simp; omega, fun fuel s hfuel hroom => ?_⟩
      rw [List.cons_append, List.length_cons] at hfuel
      obtain ⟨fuel, rfl⟩ := Nat.exists_eq_add_of_le' (Nat.one_le_of_lt hfuel)
      obtain ⟨fuel', hfuel', hrun⟩ := (ih fun c hc => hspaces c (List.mem_cons_of_mem _ hc)).run
        fuel s (by omega) hroom
      refine ⟨fuel', hfuel', ?_⟩
      rw [List.cons_append, lexLine]
      simp only [hnewline, if_false, lexToken, hc, if_true]
      exact hrun

end Lexes

/-! ## Characters -/

theorem Lexer.emit_of_lt {type : TokenType} {intVal : Int32} {strVal : Text}
    (hroom : s.tokens.length < maxTokens) : s.emit type intVal strVal line =
      (true, { s with tokens := s.tokens ++ [⟨type, intVal, strVal, line⟩] }) := by
  rw [Lexer.emit, if_neg (Nat.not_le.mpr hroom)]

/-- What a word begins with begins nothing else. -/
theorem isAlpha_other (hc : isAlpha c) :
    isSpace c = false ∧ c ≠ 35 ∧ isDigit c = false ∧ c ≠ 34 ∧ c ≠ 39 ∧ c ≠ 10 ∧ c ≠ 61 := by
  simp only [isAlpha, isSpace, isDigit, Bool.or_eq_true, Bool.and_eq_true, decide_eq_true_eq,
    beq_iff_eq, Bool.or_eq_false_iff, beq_eq_false_iff_ne, Bool.and_eq_false_iff,
    decide_eq_false_iff_not, ne_eq, UInt8.le_iff_toNat_le, ← UInt8.toNat_inj,
    UInt8.reduceToNat] at hc ⊢
  omega

/-- Nor does a digit. -/
theorem isDigit_other (hc : isDigit c) : isSpace c = false ∧ c ≠ 35 ∧ c ≠ 10 ∧ c ≠ 61 := by
  simp only [isSpace, isDigit, Bool.and_eq_true, decide_eq_true_eq, Bool.or_eq_false_iff,
    beq_eq_false_iff_ne, ne_eq, UInt8.le_iff_toNat_le, ← UInt8.toNat_inj, UInt8.reduceToNat] at hc ⊢
  omega

/-- And an operator begins neither a word nor a number nor a string. -/
theorem operator_other (hc : singleOperator c ≠ none ∨ doubleOperator c 61 ≠ none) :
    isSpace c = false ∧ c ≠ 35 ∧ isDigit c = false ∧ c ≠ 34 ∧ c ≠ 39 ∧ isAlpha c = false ∧
      c ≠ 10 := by
  have hall : ∀ n < 256, singleOperator (UInt8.ofNat n) ≠ none ∨
      doubleOperator (UInt8.ofNat n) 61 ≠ none → isSpace (UInt8.ofNat n) = false ∧
        UInt8.ofNat n ≠ 35 ∧ isDigit (UInt8.ofNat n) = false ∧ UInt8.ofNat n ≠ 34 ∧
        UInt8.ofNat n ≠ 39 ∧ isAlpha (UInt8.ofNat n) = false ∧ UInt8.ofNat n ≠ 10 := by
    decide +kernel
  have hbyte := hall c.toNat c.toNat_lt
  rw [UInt8.ofNat_toNat] at hbyte
  exact hbyte hc

/-- A word or a number ends before this text. -/
def Ends (text : Text) : Prop := ∀ c ∈ text.head?, isAlnum c = false

theorem takeWhile_ends {p : UInt8 → Bool} (htext : ∀ c ∈ text, p c)
    (hrest : ∀ c ∈ rest.head?, ¬ p c) :
    (text ++ rest).takeWhile p = text ∧ (text ++ rest).dropWhile p = rest := by
  rw [List.takeWhile_append_of_pos htext, List.dropWhile_append_of_pos htext]
  cases rest with
  | nil => exact ⟨by simp, rfl⟩
  | cons c rest => simp [hrest c rfl]

theorem isDigit_ends (hrest : Ends rest) : ∀ c ∈ rest.head?, ¬ isDigit c := by
  intro c hc hdigit
  have halnum := hrest c hc
  rw [isAlnum, hdigit, Bool.or_true] at halnum
  cases halnum

namespace Lexes

/-- A number. -/
theorem number {digits : Text} (hdigits : ∀ c ∈ digits, isDigit c) (hne : digits ≠ [])
    (hrest : Ends rest) :
    Lexes line (digits ++ rest) [⟨.int, intValue digits, [], line⟩] rest := by
  obtain ⟨c, more, rfl⟩ := List.exists_cons_of_ne_nil hne
  have hc := hdigits c List.mem_cons_self
  obtain ⟨hspace, hhash, hnewline, -⟩ := isDigit_other hc
  have hall := takeWhile_ends hdigits (isDigit_ends hrest)
  have hmore := takeWhile_ends (fun c hc => hdigits c (List.mem_cons_of_mem _ hc))
    (isDigit_ends hrest)
  rw [List.cons_append] at hall ⊢
  refine .token hnewline (by simp) fun s hroom => ?_
  rw [lexToken, hspace, if_neg (by decide), if_neg hhash, if_pos hc, hall.1,
    hmore.2, Lexer.emit_of_lt hroom]

/-- A word, keyword or not. -/
theorem word {name : Text} {w : Text} (hname : name = c :: w) (hc : isAlpha c)
    (halnum : ∀ c ∈ name, isAlnum c) (hlength : name.length ≤ 63) (hrest : Ends rest) :
    Lexes line (name ++ rest) [⟨wordType name, 0, name, line⟩] rest := by
  subst hname
  obtain ⟨hspace, hhash, hdigit, hquote, hquote', hnewline, -⟩ := isAlpha_other hc
  have hall := takeWhile_ends halnum fun c hc halnum => by rw [hrest c hc] at halnum; cases halnum
  rw [List.cons_append] at hall ⊢
  refine .token hnewline (by simp) fun s hroom => ?_
  rw [lexToken, hspace, if_neg (by decide), if_neg hhash, hdigit,
    if_neg (by decide), if_neg (not_or.mpr ⟨hquote, hquote'⟩), if_pos hc, hall.1,
    List.take_of_length_le hlength]
  simp only [Lexer.emit_of_lt hroom]
  rw [← List.cons_append, List.drop_left]

/-- An operator of one character, if the next one does not make it longer. -/
theorem single {type : TokenType} (htype : singleOperator c = some type)
    (hdouble : doubleOperator c (rest.headD 0) = none) :
    Lexes line (c :: rest) [⟨type, 0, [], line⟩] rest := by
  obtain ⟨hspace, hhash, hdigit, hquote, hquote', halpha, hnewline⟩ :=
    operator_other (.inl (by rw [htype]; exact Option.some_ne_none type))
  refine .token hnewline le_rfl fun s hroom => ?_
  rw [lexToken, hspace, if_neg (by decide), if_neg hhash, hdigit, if_neg (by decide),
    if_neg (not_or.mpr ⟨hquote, hquote'⟩), halpha, if_neg (by decide)]
  simp only [hdouble, htype, Lexer.emit_of_lt hroom]

/-- An operator of two characters. -/
theorem double {type : TokenType} (htype : doubleOperator c 61 = some type) :
    Lexes line (c :: 61 :: rest) [⟨type, 0, [], line⟩] rest := by
  obtain ⟨hspace, hhash, hdigit, hquote, hquote', halpha, hnewline⟩ :=
    operator_other (.inr (by rw [htype]; exact Option.some_ne_none type))
  refine .token hnewline (by simp) fun s hroom => ?_
  rw [lexToken, hspace, if_neg (by decide), if_neg hhash, hdigit, if_neg (by decide),
    if_neg (not_or.mpr ⟨hquote, hquote'⟩), halpha, if_neg (by decide)]
  simp only [List.headD_cons, htype, Lexer.emit_of_lt hroom, List.tail_cons]

end Lexes

/-! ## Strings -/

/-- A byte of a string as it is written between double quotes. -/
def escape (c : UInt8) : Text :=
  if c = 10 then [92, 110]
  else if c = 9 then [92, 116]
  else if c = 34 ∨ c = 92 then [92, c]
  else [c]

/-- One round of the loop over a string literal, at an escaped byte. -/
theorem lexString_backslash (stored : Nat) (d : UInt8) (rest : Text) :
    lexString 34 stored (92 :: d :: rest) =
      if maxStr - 1 ≤ stored + 1 then ([escaped d], rest)
      else
        let (bytes, stop) := lexString 34 (stored + 1) rest
        (escaped d :: bytes, stop) := by
  rw [lexString, if_neg (by decide)]

/-- And at another byte. -/
theorem lexString_plain (stored : Nat) (hquote : c ≠ 34) (hbackslash : c ≠ 92) (rest : Text) :
    lexString 34 stored (c :: rest) =
      if maxStr - 1 ≤ stored + 1 then ([c], rest)
      else
        let (bytes, stop) := lexString 34 (stored + 1) rest
        (c :: bytes, stop) := by
  rw [lexString, if_neg hquote]
  exact fun d rest hc _ => hbackslash hc

/-- One round reads back one byte. -/
theorem lexString_escape (stored : Nat) (c : UInt8) (rest : Text) :
    lexString 34 stored (escape c ++ rest) =
      if maxStr - 1 ≤ stored + 1 then ([c], rest)
      else
        let (bytes, stop) := lexString 34 (stored + 1) rest
        (c :: bytes, stop) := by
  by_cases hnewline : c = 10
  · subst c
    exact lexString_backslash stored 110 rest
  · by_cases htab : c = 9
    · subst c
      exact lexString_backslash stored 116 rest
    · by_cases hquote : c = 34 ∨ c = 92
      · have hescape : escape c = [92, c] := by
          rw [escape, if_neg hnewline, if_neg htab, if_pos hquote]
        have hself : escaped c = c := by
          rcases hquote with rfl | rfl <;> decide
        rw [hescape, List.cons_append, List.singleton_append, lexString_backslash, hself]
      · obtain ⟨hquote, hbackslash⟩ := not_or.mp hquote
        have hescape : escape c = [c] := by
          rw [escape, if_neg hnewline, if_neg htab, if_neg (not_or.mpr ⟨hquote, hbackslash⟩)]
        rw [hescape, List.singleton_append, lexString_plain stored hquote hbackslash]

/-- The loop reads back a string. -/
theorem lexString_escaped (bytes : Text) : ∀ stored, stored + bytes.length ≤ maxStr - 1 →
    lexString 34 stored (bytes.flatMap escape ++ 34 :: rest) = (bytes, 34 :: rest) := by
  induction bytes with
  | nil =>
      intro stored _
      rw [List.flatMap_nil, List.nil_append, lexString, if_pos rfl]
      exact fun _ _ hc => absurd hc (by decide)
  | cons c bytes ih =>
      intro stored hlength
      rw [List.length_cons] at hlength
      rw [List.flatMap_cons, List.append_assoc, lexString_escape]
      split_ifs with hfull
      · obtain rfl := List.length_eq_zero_iff.mp (show bytes.length = 0 by omega)
        rfl
      · rw [ih (stored + 1) (by omega)]

/-- A string between double quotes. -/
theorem Lexes.string {bytes : Text} (hlength : bytes.length ≤ maxStr - 1) :
    Lexes line (34 :: bytes.flatMap escape ++ 34 :: rest) [⟨.str, 0, bytes, line⟩] rest := by
  rw [List.cons_append]
  refine .token (by decide) (by simp; omega) fun s hroom => ?_
  rw [lexToken, if_neg (by decide), if_neg (by decide), if_neg (by decide), if_pos (.inl rfl),
    lexString_escaped bytes 0 (by omega)]
  simp only [Lexer.emit_of_lt hroom, List.tail_cons]

/-! ## All tokens -/

/-- The tokens fit into their array, and EOF is among them. -/
structure Closed (tokens : List Token) : Prop where
  length : tokens.length ≤ maxTokens
  eof : ∃ t ∈ tokens, t.type = .eof

theorem lexEnd_closed {indents : Indents} {s' : Lexer} (hrun : lexEnd s indents line = (true, s')) :
    Closed s'.tokens := by
  rw [lexEnd] at hrun
  split at hrun
  · cases hrun
  · rename_i s₁ widths hclose
    rw [Lexer.emit] at hrun
    split_ifs at hrun with hfull
    · cases hrun
    · cases hrun
      refine ⟨?_, ⟨.eof, 0, [], line⟩, List.mem_append_right _ List.mem_cons_self, rfl⟩
      rw [List.length_append, List.length_singleton]
      exact Nat.not_le.mp hfull

theorem lexLines_closed {fuel : Nat} {indents : Indents} {s' : Lexer}
    (hrun : lexLines fuel s indents line text = (true, s')) : Closed s'.tokens := by
  induction fuel generalizing s indents line text with
  | zero => exact lexEnd_closed hrun
  | succ fuel ih =>
      rw [lexLines] at hrun
      split_ifs at hrun with hempty
      · exact lexEnd_closed hrun
      · dsimp only at hrun
        split at hrun
        · exact ih hrun
        · split at hrun
          · cases hrun
          · split at hrun
            · cases hrun
            · split at hrun
              · cases hrun
              · exact ih hrun

theorem gkLex_closed {error src : Text} {s' : Lexer} (hrun : gkLex error src = (true, s')) :
    Closed s'.tokens :=
  lexLines_closed hrun

end GeckoOS.Gk
