/-
# Seeing the parser's liberties in the tokens

A watch reads the tokens once, from left to right, and sees where the parser would have to
take a liberty: a comma before a closing parenthesis, a statement directly behind another,
an elif that no block of an if or elif has just made room for, a block with nothing in it
or at the wrong place of a line.  It keeps the last token, the kinds of the open blocks,
and what has just been opened or closed.

A program of the grammar with the liberties is one of the language exactly if the watch sees
nothing.  So `gk_parse` agrees with the grammar of the language exactly on the streams that
do not parse with a liberty.
-/

import GeckoOS.Gk.StmtParsing

namespace GeckoOS.Gk

/-! ## The watch -/

/-- What the watch keeps: the last token, whether the last compound statement is an if or elif,
the same for the open blocks, whether a block of an if or elif has just been closed, and whether a
block has just been opened. -/
structure Watch where
  prev : TokenType
  header : Bool
  blocks : List Bool
  closed : Bool
  opened : Bool
  deriving DecidableEq

/-- The tokens an expression ends with. -/
def exprEnds : List TokenType := [.int, .str, .true, .false, .ident, .rparen]

/-- A statement directly behind another. -/
def juxtaposed (prev next : TokenType) : Bool :=
  prev ∈ exprEnds && next ∈ stmtStarts && next ≠ .minus && !(prev = .ident && next = .lparen) ||
    (prev = .break_ || prev = .continue_) && next ∈ stmtStarts

/-- Whether the next token shows a liberty. -/
def Watch.sees (w : Watch) (t : TokenType) : Bool :=
  w.prev = .comma && t = .rparen || juxtaposed w.prev t || t = .elif && !w.closed ||
    t = .indent && w.prev ≠ .newline ||
    t = .dedent && (w.opened || w.prev ≠ .newline && w.prev ≠ .dedent)

/-- The watch behind the next token. -/
def Watch.step (w : Watch) (t : TokenType) : Watch where
  prev := t
  header :=
    if t = .if_ ∨ t = .elif then true
    else if t = .else_ ∨ t = .while_ ∨ t = .for_ ∨ t = .def_ then false
    else w.header
  blocks := if t = .indent then w.header :: w.blocks else if t = .dedent then w.blocks.tail
    else w.blocks
  closed := if t = .dedent then w.blocks.headD false else if t = .newline then w.closed else false
  opened := if t = .indent then true else if t = .newline then w.opened else false

/-- Whether the watch sees a liberty up to EOF. -/
def Watch.alarm (w : Watch) : List Token → Bool
  | [] => w.opened
  | t :: ts => if t.type = .eof then w.opened else w.sees t.type || (w.step t.type).alarm ts

/-- The watch at the beginning of a program. -/
def Watch.start : Watch := ⟨.newline, false, [], false, false⟩

/-- The tokens have a liberty in them. -/
def TakesLiberty (tokens : List Token) : Prop := Watch.start.alarm tokens = true

instance (tokens : List Token) : Decidable (TakesLiberty tokens) :=
  inferInstanceAs (Decidable (_ = _))

/-! ## Watching a part of the tokens -/

/-- The watch moves from here to there, and sees nothing where `plain` holds; where it will see
nothing up to EOF, `strict` holds. -/
def Watched (plain : Prop) (w : Watch) (ts : List Token) (w' : Watch) (rest : List Token)
    (strict : Prop) : Prop :=
  ∃ seen, w.alarm ts = (seen || w'.alarm rest) ∧ (plain → seen = false) ∧
    (w.alarm ts = false → strict)

variable {plain plain' strict strict' : Prop} {w w' w'' : Watch} {ts us rest : List Token}
  {t : Token} {d : Dialect}

namespace Watched

theorem refl : Watched plain w ts w ts True := ⟨false, rfl, fun _ => rfl, fun _ => trivial⟩

theorem trans (hfirst : Watched plain w ts w' us strict)
    (hsecond : Watched plain' w' us w'' rest strict') (hplain : plain → plain') :
    Watched plain w ts w'' rest (strict ∧ strict') := by
  obtain ⟨seen, halarm, hseen, hstrict⟩ := hfirst
  obtain ⟨seen', halarm', hseen', hstrict'⟩ := hsecond
  refine ⟨seen || seen', by rw [halarm, halarm', Bool.or_assoc], fun h => ?_, fun h => ?_⟩
  · rw [hseen h, hseen' (hplain h), Bool.or_false]
  · refine ⟨hstrict h, hstrict' ?_⟩
    rw [halarm, Bool.or_eq_false_iff] at h
    exact h.2

theorem weaken (hwatched : Watched plain w ts w' rest strict) (hstrict : strict → strict') :
    Watched plain w ts w' rest strict' := by
  obtain ⟨seen, halarm, hseen, hall⟩ := hwatched
  exact ⟨seen, halarm, hseen, fun h => hstrict (hall h)⟩

theorem restrict (hwatched : Watched plain w ts w' rest strict) (hplain : plain' → plain) :
    Watched plain' w ts w' rest strict := by
  obtain ⟨seen, halarm, hseen, hall⟩ := hwatched
  exact ⟨seen, halarm, fun h => hseen (hplain h), hall⟩

/-- What holds where the watch sees nothing may use that it sees nothing behind. -/
theorem impRest (hwatched : Watched plain w ts w' rest strict)
    (hstrict : strict → w'.alarm rest = false → strict') : Watched plain w ts w' rest strict' := by
  obtain ⟨seen, halarm, hseen, hall⟩ := hwatched
  refine ⟨seen, halarm, hseen, fun h => hstrict (hall h) ?_⟩
  rw [halarm, Bool.or_eq_false_iff] at h
  exact h.2

theorem token (hend : t.type ≠ .eof) (hsees : plain → w.sees t.type = false) :
    Watched plain w (t :: ts) (w.step t.type) ts (w.sees t.type = false) := by
  have halarm : w.alarm (t :: ts) = (w.sees t.type || (w.step t.type).alarm ts) := by
    rw [Watch.alarm, if_neg hend]
  refine ⟨w.sees t.type, halarm, hsees, fun h => ?_⟩
  rw [halarm, Bool.or_eq_false_iff] at h
  exact h.1

theorem cons (hend : t.type ≠ .eof) (hsees : plain → w.sees t.type = false)
    (hrest : Watched plain (w.step t.type) ts w' rest strict) :
    Watched plain w (t :: ts) w' rest (w.sees t.type = false ∧ strict) :=
  (token hend hsees).trans hrest id

end Watched

/-! ## Tokens that change little -/

/-- The watch behind a token that neither opens nor closes anything. -/
def Watch.after (w : Watch) (t : TokenType) : Watch :=
  { w with prev := t, closed := false, opened := false }

/-- The tokens inside of a line. -/
def inlineTokens : List TokenType :=
  exprStarts ++ binaryOps ++ [.rparen, .comma, .colon, .assign, .in_, .return_, .break_, .continue_]

theorem Watch.step_inline {type : TokenType} (htype : type ∈ inlineTokens) :
    w.step type = w.after type := by
  revert htype
  cases type <;> first | exact fun _ => rfl | exact fun hmem => absurd hmem (by decide)

/-- Among them only a closing parenthesis is seen where nothing is juxtaposed. -/
theorem Watch.sees_inline {type : TokenType} (htype : type ∈ inlineTokens) :
    w.sees type = (w.prev = .comma && type = .rparen || juxtaposed w.prev type) := by
  revert htype
  cases type <;> first
    | exact fun hmem => absurd hmem (by decide)
    | exact fun _ => by simp [Watch.sees]

theorem juxtaposed_of_notMem {prev next : TokenType} (hnext : next ∉ stmtStarts) :
    juxtaposed prev next = false := by
  simp [juxtaposed, hnext]

/-- No statement ends with this token. -/
abbrev Quiet (type : TokenType) : Prop :=
  type ∉ exprEnds ∧ type ≠ .break_ ∧ type ≠ .continue_

theorem juxtaposed_of_quiet {prev next : TokenType} (hprev : Quiet prev) :
    juxtaposed prev next = false := by
  simp [juxtaposed, hprev.1, hprev.2.1, hprev.2.2]

/-- Behind an expression stands an operator, or what no statement begins with. -/
theorem juxtaposed_binaryOp {prev next : TokenType} (hprev : prev ∈ exprEnds)
    (hnext : next ∈ binaryOps) : juxtaposed prev next = false := by
  have hall : ∀ prev ∈ exprEnds, ∀ next ∈ binaryOps, juxtaposed prev next = false := by decide
  exact hall prev hprev next hnext

theorem Watch.sees_of_ne {type : TokenType} (htype : type ∈ inlineTokens) (hparen : type ≠ .rparen)
    (hjuxtaposed : juxtaposed w.prev type = false) : w.sees type = false := by
  rw [Watch.sees_inline htype, hjuxtaposed, Bool.or_false]
  simp [hparen]

theorem Watch.sees_rparen (hprev : w.prev ≠ .comma) : w.sees .rparen = false := by
  rw [Watch.sees_inline (by decide), juxtaposed_of_notMem (by decide)]
  simp [hprev]

/-- A comma before a closing parenthesis. -/
theorem Watch.alarm_comma (hprev : w.prev = .comma) (hnext : nextType ts = .rparen) :
    w.alarm ts = true := by
  cases ts with
  | nil => cases hnext
  | cons t ts =>
      rw [nextType_cons] at hnext
      simp [Watch.alarm, hnext, Watch.sees, hprev]

/-- An inline token that the watch sees nothing in, and what stands behind it. -/
theorem Watched.inline {type : TokenType} (ht : t.type = type) (htype : type ∈ inlineTokens)
    (hsees : plain → w.sees type = false)
    (hrest : Watched plain (w.after type) ts w' rest strict) :
    Watched plain w (t :: ts) w' rest (w.sees type = false ∧ strict) := by
  subst ht
  rw [← Watch.step_inline htype] at hrest
  exact .cons (fun hend => absurd (hend ▸ htype) (by decide)) hsees hrest

/-- The grammar of the language is asked for, and what comes next begins nothing new behind the
end of something. -/
def Plain (d : Dialect) (w : Watch) (ts : List Token) : Prop :=
  d.lenient = false ∧ juxtaposed w.prev (nextType ts) = false

/-- The first token of an expression or a statement. -/
theorem Watched.first {type : TokenType} (ht : t.type = type) (htype : type ∈ inlineTokens)
    (hparen : type ≠ .rparen)
    (hrest : Watched (d.lenient = false) (w.after type) ts w' rest strict) :
    Watched (Plain d w (t :: ts)) w (t :: ts) w' rest strict := by
  subst ht
  exact (Watched.inline rfl htype (fun hplain => Watch.sees_of_ne htype hparen hplain.2)
    (hrest.restrict And.left)).weaken And.right

/-! ## Expressions -/

/-- What the watch makes of an expression, and of arguments behind their opening parenthesis or
a comma. -/
def ExprWatched (d : Dialect) (ts rest : List Token) : ExprSym → Prop
  | .expr level e => ∀ w : Watch, ∃ last ∈ exprEnds, (last = .ident → nextType rest ≠ .lparen) ∧
      Watched (Plain d w ts) w ts (w.after last) rest
        (Derives { d with lenient := false } (.expr level e) ts rest)
  | .args es => ∀ w : Watch, w.prev = .lparen ∨ w.prev = .comma → ∃ w' : Watch,
      (∀ type, w'.after type = w.after type) ∧ (es = [] → w' = w) ∧
      (d.lenient = false → w'.prev = .comma → w.prev = .comma ∧ es = []) ∧
      Watched (d.lenient = false) w ts w' rest
        (Derives { d with lenient := false } (.args es) ts rest)

theorem ExprWatched.leaf {level : Nat} {e : Expr} {type : TokenType} (ht : t.type = type)
    (htype : type ∈ exprEnds) (hinline : type ∈ inlineTokens) (hparen : type ≠ .rparen)
    (hnext : type = .ident → nextType rest ≠ .lparen)
    (hderives : Derives { d with lenient := false } (.expr level e) (t :: rest) rest) :
    ExprWatched d (t :: rest) rest (.expr level e) := by
  intro w
  exact ⟨type, htype, hnext, (Watched.refl.first ht hinline hparen).weaken fun _ => hderives⟩

/-- Behind the arguments of a call stands its closing parenthesis. -/
theorem Derives.closing {es : List Expr} (hderives : Derives d (.args es) ts rest) :
    nextType rest = .rparen := by
  generalize hsym : ExprSym.args es = sym at hderives
  induction hderives generalizing es with
  | nil hnext => exact hnext
  | last _ hnext => exact hnext
  | cons _ _ _ _ _ ih => exact ih rfl
  | _ => cases hsym

theorem Derives.watched {sym : ExprSym} (hderives : Derives d sym ts rest) :
    ExprWatched d ts rest sym := by
  induction hderives with
  | int ht => exact .leaf ht (by decide) (by decide) (by decide) (absurd · (by decide)) (.int ht)
  | str ht => exact .leaf ht (by decide) (by decide) (by decide) (absurd · (by decide)) (.str ht)
  | true_ ht =>
      exact .leaf ht (by decide) (by decide) (by decide) (absurd · (by decide)) (.true_ ht)
  | false_ ht =>
      exact .leaf ht (by decide) (by decide) (by decide) (absurd · (by decide)) (.false_ ht)
  | var ht hnext =>
      exact .leaf ht (by decide) (by decide) (by decide) (fun _ => hnext) (.var ht hnext)
  | @call t opening closing args ts rest ht hopening _ hclosing hlimit ih =>
      intro w
      obtain ⟨w', hafter, -, hcomma, hargs⟩ := ih ((w.after .ident).after .lparen) (.inl rfl)
      have hclose : Watched (d.lenient = false) w' (closing :: rest) (w'.after .rparen) rest _ :=
        .inline hclosing (by decide) (fun hstrict => Watch.sees_rparen fun hprev => by
          cases (hcomma hstrict hprev).1) .refl
      rw [hafter] at hclose
      have hinner : Watched (d.lenient = false) (w.after .ident) (opening :: ts)
          ((w.after .ident).after .rparen) rest _ :=
        .inline hopening (by decide) (fun _ => Watch.sees_of_ne (by decide) (by decide)
          (by decide : juxtaposed .ident .lparen = false)) (hargs.trans hclose id)
      exact ⟨.rparen, by decide, (absurd · (by decide)),
        (hinner.first ht (by decide) (by decide)).weaken
          fun hread => .call ht hopening hread.2.1 hclosing hlimit⟩
  | @paren opening closing e ts rest hopening he hclosing ih =>
      intro w
      obtain ⟨last, hlast, -, hinner⟩ := ih (w.after .lparen)
      have hclose : Watched True ((w.after .lparen).after last) (closing :: rest)
          (((w.after .lparen).after last).after .rparen) rest _ :=
        .inline hclosing (by decide) (fun _ => Watch.sees_rparen fun hprev =>
          absurd (hprev ▸ hlast : TokenType.comma ∈ exprEnds) (by decide)) .refl
      have hinside := (hinner.trans hclose fun _ => trivial).restrict
        fun hstrict => ⟨hstrict, juxtaposed_of_quiet (by decide : Quiet .lparen)⟩
      exact ⟨.rparen, by decide, (absurd · (by decide)),
        (hinside.first hopening (by decide) (by decide)).weaken
          fun hread => .paren hopening hread.1 hclosing⟩
  | @unop t e ts rest ht he ih =>
      intro w
      obtain ⟨last, hlast, hnext, hinner⟩ := ih (w.after t.type)
      have hall : t.type ∈ inlineTokens ∧ t.type ≠ .rparen ∧ Quiet t.type := by
        rcases ht with ht | ht <;> rw [ht] <;> decide
      exact ⟨last, hlast, hnext, ((hinner.restrict fun hstrict =>
        ⟨hstrict, juxtaposed_of_quiet hall.2.2⟩).first rfl hall.1 hall.2.1).weaken
          fun he => .unop ht he⟩
  | lift hlevel _ ih =>
      intro w
      obtain ⟨last, hlast, hnext, hinner⟩ := ih w
      exact ⟨last, hlast, hnext, hinner.weaken fun he => .lift hlevel he⟩
  | @binop level l r op ts us rest hlevel hl hop hr ihl ihr =>
      intro w
      obtain ⟨last, hlast, -, hleft⟩ := ihl w
      obtain ⟨last', hlast', hnext, hright⟩ := ihr ((w.after last).after op.type)
      have hmem := mem_binaryOps hop
      have hall : ∀ type ∈ binaryOps, type ∈ inlineTokens ∧ type ≠ .rparen ∧ Quiet type := by
        decide
      obtain ⟨hinline, hparen, hquiet⟩ := hall _ hmem
      have hoperator : Watched (d.lenient = false) (w.after last) (op :: us)
          (w.after last') rest _ :=
        .inline rfl hinline
          (fun _ => Watch.sees_of_ne hinline hparen (juxtaposed_binaryOp hlast hmem))
          (hright.restrict fun hplain => ⟨hplain, juxtaposed_of_quiet hquiet⟩)
      exact ⟨last', hlast', hnext, (hleft.trans hoperator And.left).weaken
        fun hread => .binop hlevel hread.1 hop hread.2.2⟩
  | nil hnext =>
      intro w hw
      exact ⟨w, fun _ => rfl, fun _ => rfl, fun _ hprev => ⟨hprev, rfl⟩,
        Watched.refl.weaken fun _ => .nil hnext⟩
  | @last e ts rest he hnext ih =>
      intro w hw
      obtain ⟨last, hlast, -, hinner⟩ := ih w
      have hquiet : Quiet w.prev := by rcases hw with hw | hw <;> rw [hw] <;> decide
      refine ⟨w.after last, fun _ => rfl, fun hnil => absurd hnil (List.cons_ne_nil _ _),
        fun _ hprev => ?_, (hinner.restrict fun hplain =>
          ⟨hplain, juxtaposed_of_quiet hquiet⟩).weaken fun he => .last he hnext⟩
      exact absurd (hprev ▸ hlast : TokenType.comma ∈ exprEnds) (by decide)
  | @cons e es comma ts us rest he hcomma hes hrest ihe ihes =>
      intro w hw
      obtain ⟨last, hlast, -, hinner⟩ := ihe w
      obtain ⟨w', hafter, hsame, hcomma', hmore⟩ := ihes ((w.after last).after .comma) (.inr rfl)
      have hquiet : Quiet w.prev := by rcases hw with hw | hw <;> rw [hw] <;> decide
      have htail : Watched (d.lenient = false) (w.after last) (comma :: us) w' rest _ :=
        .inline hcomma (by decide) (fun _ => Watch.sees_of_ne (by decide) (by decide)
          (juxtaposed_of_notMem (by decide))) hmore
      refine ⟨w', hafter, fun hnil => absurd hnil (List.cons_ne_nil _ _), fun hstrict hprev => ?_,
        ((hinner.restrict fun hplain => ⟨hplain, juxtaposed_of_quiet hquiet⟩).trans htail
          id).impRest fun hread hrest' => .cons hread.1 hcomma ?_ hread.2.2⟩
      · have hempty := (hcomma' hstrict hprev).2
        exact absurd (hes hempty) (by simp [hstrict])
      · intro hempty
        rw [hsame hempty, Watch.alarm_comma rfl hrest.closing] at hrest'
        cases hrest'

theorem Params.closing {n : Nat} (hparams : Params d n ts rest) : nextType rest = .rparen := by
  induction hparams with
  | nil hnext => exact hnext
  | last _ hnext => exact hnext
  | cons _ _ _ _ ih => exact ih

/-- The same for the parameters of a definition. -/
theorem Params.watched {n : Nat} (hparams : Params d n ts rest) : ∀ w : Watch,
    w.prev = .lparen ∨ w.prev = .comma → ∃ w' : Watch,
      (∀ type, w'.after type = w.after type) ∧ (n = 0 → w' = w) ∧
      (d.lenient = false → w'.prev = .comma → w.prev = .comma ∧ n = 0) ∧
      Watched (d.lenient = false) w ts w' rest (Params { d with lenient := false } n ts rest) := by
  induction hparams with
  | nil hnext =>
      intro w _
      exact ⟨w, fun _ => rfl, fun _ => rfl, fun _ hprev => ⟨hprev, rfl⟩,
        Watched.refl.weaken fun _ => .nil hnext⟩
  | last ht hnext =>
      intro w hw
      have hquiet : Quiet w.prev := by rcases hw with hw | hw <;> rw [hw] <;> decide
      exact ⟨w.after .ident, fun _ => rfl, nofun, fun _ hprev => (by cases hprev),
        Watched.weaken (.inline ht (by decide) (fun _ => Watch.sees_of_ne (by decide) (by decide)
          (juxtaposed_of_quiet hquiet)) .refl) fun _ => .last ht hnext⟩
  | @cons t comma n ts rest ht hcomma hn hmore ih =>
      intro w hw
      obtain ⟨w', hafter, hsame, hcomma', hwatched⟩ := ih ((w.after .ident).after .comma) (.inr rfl)
      have hquiet : Quiet w.prev := by rcases hw with hw | hw <;> rw [hw] <;> decide
      refine ⟨w', hafter, nofun, fun hstrict hprev => ?_, Watched.impRest (Watched.inline ht
        (by decide) (fun _ => Watch.sees_of_ne (by decide) (by decide) (juxtaposed_of_quiet hquiet))
        (.inline hcomma (by decide) (fun _ => Watch.sees_of_ne (by decide) (by decide)
          (juxtaposed_of_notMem (by decide))) hwatched)) fun ⟨_, _, hmore'⟩ hrest =>
            .cons ht hcomma ?_ hmore'⟩
      · exact absurd (hn (hcomma' hstrict hprev).2) (by simp [hstrict])
      · intro hempty
        rw [hsame hempty, Watch.alarm_comma rfl hmore.closing] at hrest
        cases hrest

/-! ## Lines -/

theorem Watch.alarm_of_sees (hend : nextType ts ≠ .eof) (hsees : w.sees (nextType ts) = true) :
    w.alarm ts = true := by
  cases ts with
  | nil => exact absurd rfl hend
  | cons t ts =>
      rw [nextType_cons] at hend hsees
      rw [Watch.alarm, if_neg hend, hsees, Bool.true_or]

theorem Watch.alarm_eof (heof : nextType ts = .eof) : w.alarm ts = w.opened := by
  cases ts with
  | nil => rfl
  | cons t ts =>
      rw [nextType_cons] at heof
      rw [Watch.alarm, if_pos heof]

theorem Watch.sees_newline : w.sees .newline = false := by
  simp [Watch.sees, juxtaposed_of_notMem (by decide : TokenType.newline ∉ stmtStarts)]

/-- What empty lines leave of the watch. -/
theorem watched_skipLines (w : Watch) (ts : List Token) : ∃ w' : Watch,
    (w' = w ∧ skipLines ts = ts ∨ w' = { w with prev := .newline }) ∧
      Watched True w ts w' (skipLines ts) True := by
  induction ts generalizing w with
  | nil => exact ⟨w, .inl ⟨rfl, rfl⟩, .refl⟩
  | cons t ts ih =>
      by_cases ht : t.type = .newline
      · have hskip : skipLines (t :: ts) = skipLines ts :=
          List.dropWhile_cons_of_pos (by simp [ht])
        obtain ⟨w', hw', hwatched⟩ := ih (w.step .newline)
        have hstep : w.step .newline = { w with prev := .newline } := by simp [Watch.step]
        refine ⟨w', .inr ?_, ?_⟩
        · rcases hw' with ⟨rfl, -⟩ | rfl
          · exact hstep
          · rw [hstep]
        · rw [hskip]
          rw [← ht] at hwatched
          exact (Watched.cons (by simp [ht]) (fun _ => by rw [ht]; exact Watch.sees_newline)
            hwatched).weaken fun _ => trivial
      · rw [@skipLines_of_next (t :: ts) ht]
        exact ⟨w, .inl ⟨rfl, rfl⟩, .refl⟩

/-- The watch behind a statement. -/
structure Settled (d : Dialect) (w w' : Watch) (rest : List Token) : Prop where
  blocks : nextType rest ≠ .eof → w'.blocks = w.blocks
  closed : w'.closed = true → nextType (skipLines rest) ≠ .elif
  line : d.lenient = false → (w'.prev = .newline ∨ w'.prev = .dedent) ∨ nextType rest = .eof
  opened : d.lenient = false → w'.opened = false

/-- What can stand behind a statement. -/
def Continues (rest : List Token) : Prop :=
  nextType rest ∈ stmtStarts ∨ nextType rest ∈ [TokenType.newline, .eof, .dedent]

/-- The end of a simple statement; where the line does not end, the next statement is seen. -/
theorem LineEnd.watched {last : TokenType} (hend : LineEnd d us rest) (hrest : Continues rest)
    (hlast : last ≠ .newline ∧ last ≠ .dedent)
    (hjoined : nextType us ∈ stmtStarts → juxtaposed last (nextType us) = true) (w : Watch) :
    ∃ w', Settled d w w' rest ∧ Watched (d.lenient = false) (w.after last) us w' rest
      (LineEnd { d with lenient := false } us rest) := by
  rcases hend with ⟨t, rfl, ht⟩ | ⟨rfl, hend⟩
  · have hstep : (w.after last).step .newline = w.after .newline := by
      simp [Watch.step, Watch.after]
    have htoken : Watched (d.lenient = false) (w.after last) (t :: rest)
      ((w.after last).step t.type)
        rest _ := .token (by simp [ht]) fun _ => by rw [ht]; exact Watch.sees_newline
    rw [ht, hstep] at htoken
    exact ⟨w.after .newline, ⟨fun _ => rfl, nofun, fun _ => .inl (.inl rfl), fun _ => rfl⟩,
      htoken.weaken fun _ => .inl ⟨t, rfl, ht⟩⟩
  · refine ⟨w.after last, ⟨fun _ => rfl, nofun, fun hstrict => .inr ?_, fun _ => rfl⟩,
      Watched.refl.impRest fun _ halarm => .inr ⟨rfl, .inl ?_⟩⟩
    · rcases hend with hend | ⟨hlenient, -⟩
      · exact hend
      · rw [hstrict] at hlenient
        cases hlenient
    · rcases hend with hend | ⟨-, hnewline⟩
      · exact hend
      · by_contra heof
        have hsees : (w.after last).sees (nextType rest) = true := by
          rcases hrest with hstarts | hmem
          · simp [Watch.sees, Watch.after, hjoined hstarts]
          · simp only [List.mem_cons, List.not_mem_nil, or_false] at hmem
            rw [(hmem.resolve_left hnewline).resolve_left heof]
            simp [Watch.sees, Watch.after, hlast]
        rw [Watch.alarm_of_sees heof hsees] at halarm
        cases halarm

/-- An expression stops where the next statement shows. -/
theorem juxtaposed_of_stops {last : TokenType} (hlast : last ∈ exprEnds) (hstops : StopsAt 0 us)
    (hparen : last = .ident → nextType us ≠ .lparen) (hstarts : nextType us ∈ stmtStarts) :
    juxtaposed last (nextType us) = true := by
  have hminus : nextType us ≠ .minus := fun hminus => hstops 3 (Nat.zero_le 3) (by
    rw [hminus]
    decide)
  have hcall : ¬ (last = .ident ∧ nextType us = .lparen) := fun ⟨hident, hopening⟩ =>
    hparen hident hopening
  simp [juxtaposed, hlast, hstarts, hminus]
  exact .inl (not_and_or.mp hcall)

/-! ## Statements -/

/-- The watch behind a block: it has been closed, or EOF has come. -/
def Ended (d : Dialect) (w w' : Watch) (rest : List Token) : Prop :=
  (w'.blocks = w.blocks ∧ w'.closed = w.header ∧ w'.prev = .dedent ∧ w'.opened = false) ∨
    nextType rest = .eof ∧ (d.lenient = false → w'.opened = false)

/-- What the watch makes of statements. -/
def StmtWatched (d : Dialect) (ts rest : List Token) : StmtSym → Prop
  | .stmt => Continues rest → ∀ w : Watch, (w.closed = true → nextType ts ≠ .elif) →
      ∃ w', Settled d w w' rest ∧
        Watched (Plain d w ts) w ts w' rest (Parses { d with lenient := false } .stmt ts rest)
  | .branches => ∀ w : Watch, w.header = true → Quiet w.prev → ∃ w', Settled d w w' rest ∧
      Watched (d.lenient = false) w ts w' rest
        (Parses { d with lenient := false } .branches ts rest)
  | .body => ∀ w : Watch, ∃ w', Ended d w w' rest ∧
      Watched (d.lenient = false) w ts w' rest (Parses { d with lenient := false } .body ts rest)
  | .stmts top n => ∀ w : Watch, (w.closed = true → nextType ts ≠ .elif) → ∃ w' : Watch,
      (nextType rest ≠ .eof → w'.blocks = w.blocks) ∧ (n = 0 → w' = w) ∧
      (d.lenient = false → 0 < n → w'.opened = false ∧
        ((w'.prev = .newline ∨ w'.prev = .dedent) ∨ nextType rest = .eof)) ∧
      Watched (Plain d w ts) w ts w' rest
        (Parses { d with lenient := false } (.stmts top n) ts rest)

/-- A statement that ends with an expression and the end of a line. -/
theorem watched_simple {last : TokenType} {strict' : Prop} (hlast : last ∈ exprEnds)
    (hparen : last = .ident → nextType us ≠ .lparen) (hstops : StopsAt 0 us)
    (hend : LineEnd d us rest) (hrest : Continues rest)
    (hwatched : Watched plain w ts (w.after last) us strict) (hplain : plain → d.lenient = false)
    (hstrict : strict → LineEnd { d with lenient := false } us rest → strict') :
    ∃ w', Settled d w w' rest ∧ Watched plain w ts w' rest strict' := by
  have hlast' : last ≠ .newline ∧ last ≠ .dedent := by
    constructor <;> rintro rfl <;> exact absurd hlast (by decide)
  obtain ⟨w', hsettled, hline⟩ :=
    hend.watched hrest hlast' (juxtaposed_of_stops hlast hstops hparen) w
  exact ⟨w', hsettled, (hwatched.trans hline hplain).weaken fun ⟨hs, hl⟩ => hstrict hs hl⟩

theorem Ended.settled (hended : Ended d w w' rest) (hheader : w.header = false) :
    Settled d w w' rest := by
  rcases hended with ⟨hblocks, hclosed, hprev, hopened⟩ | ⟨heof, hopened⟩
  · refine ⟨fun _ => hblocks, fun h => ?_, fun _ => .inl (.inr hprev), fun _ => hopened⟩
    rw [hclosed, hheader] at h
    cases h
  · refine ⟨fun hne => absurd heof hne, fun _ => ?_, fun _ => .inr heof, hopened⟩
    rw [skipLines_of_next (by rw [heof]; decide), heof]
    decide

theorem LineEnd.stops (hend : LineEnd d us rest) (hgreedy : d.lenient → StopsAt 0 us) :
    StopsAt 0 us := by
  cases hlenient : d.lenient with
  | false => exact hend.stopsAt hlenient
  | true => exact hgreedy hlenient

/-- What begins a statement and is no elif. -/
theorem Watch.sees_start {type : TokenType} (htype : type ∈ stmtStarts) (helif : type ≠ .elif)
    (hjuxtaposed : juxtaposed w.prev type = false) : w.sees type = false := by
  revert htype helif hjuxtaposed
  cases type <;> first
    | exact fun hmem => absurd hmem (by decide)
    | exact fun _ hne => absurd rfl hne
    | exact fun _ _ hjuxtaposed => by simp [Watch.sees, hjuxtaposed]

/-- A block begins only where no statement has ended: then its first statement is seen alone. -/
theorem Parses.continues {top : Bool} {n : Nat}
    (hparses : Parses d (.stmts top n) (skipLines us) rest) : Continues us := by
  by_cases hnewline : nextType us = .newline
  · exact .inr (by simp [hnewline])
  · rw [skipLines_of_next hnewline] at hparses
    cases hparses with
    | nil hends =>
        rcases hends with hends | ⟨-, hends⟩ <;> exact .inr (by simp [hends])
    | cons hstmt => exact .inl hstmt.starts

/-- The watch in a block that has just been opened. -/
def Watch.inBlock (w : Watch) : Watch := ⟨.indent, w.header, w.header :: w.blocks, false, true⟩

theorem Watch.sees_indent (w : Watch) : w.sees .indent = decide (w.prev ≠ .newline) := by
  simp [Watch.sees, juxtaposed_of_notMem (by decide : TokenType.indent ∉ stmtStarts)]

theorem Watch.sees_dedent (w : Watch) :
    w.sees .dedent = (w.opened || w.prev ≠ .newline && w.prev ≠ .dedent) := by
  simp [Watch.sees, juxtaposed_of_notMem (by decide : TokenType.dedent ∉ stmtStarts)]

/-- From the colon of a compound statement into its block. -/
theorem watched_opening {colon indent : Token} (hcolon : colon.type = .colon)
    (hline : (∃ t, ts = t :: indent :: us ∧ t.type = .newline) ∨ d.lenient ∧ ts = indent :: us)
    (hindent : indent.type = .indent) (w : Watch) :
    Watched (d.lenient = false) w (colon :: ts) w.inBlock us
      (∃ t, ts = t :: indent :: us ∧ t.type = .newline) := by
  have hsees : d.lenient = false → w.sees .colon = false := fun _ =>
    Watch.sees_of_ne (by decide) (by decide) (juxtaposed_of_notMem (by decide))
  have hstep : ∀ type, (w.after type).step .indent = w.inBlock := fun type => by
    simp [Watch.step, Watch.after, Watch.inBlock]
  have hopening : ∀ type, (d.lenient = false → type = .newline) →
      Watched (d.lenient = false) (w.after type) (indent :: us) w.inBlock us
        ((w.after type).sees .indent = false) := fun type htype => by
    have htoken : Watched (d.lenient = false) (w.after type) (indent :: us)
        ((w.after type).step indent.type) us _ := .token (by simp [hindent]) fun hstrict => by
      rw [hindent, Watch.sees_indent]
      simp [Watch.after, htype hstrict]
    rwa [hindent, hstep] at htoken
  rcases hline with ⟨t, rfl, ht⟩ | ⟨hlenient, rfl⟩
  · have hnewline : (w.after .colon).step t.type = w.after .newline := by
      rw [ht]
      simp [Watch.step, Watch.after]
    refine (Watched.inline hcolon (by decide) hsees (.cons (by simp [ht])
      (fun _ => by rw [ht]; exact Watch.sees_newline)
      (hnewline ▸ hopening .newline fun _ => rfl))).weaken fun _ => ⟨t, rfl, ht⟩
  · refine (Watched.inline hcolon (by decide) hsees (hopening .colon fun hstrict => ?_)).weaken
      fun ⟨_, hindents⟩ => ?_
    · rw [hstrict] at hlenient
      cases hlenient
    · rw [Watch.sees_indent] at hindents
      exact absurd hindents (by simp [Watch.after])

/-- The end of a block, by the watch behind its statements. -/
theorem BlockEnd.watched {n : Nat} {vs : List Token} (hend : BlockEnd vs rest)
    (hempty : n = 0 → d.lenient) (hblocks : nextType vs ≠ .eof → w'.blocks = w.header :: w.blocks)
    (hzero : n = 0 → w'.opened = true)
    (hpos : d.lenient = false → 0 < n → w'.opened = false ∧
      ((w'.prev = .newline ∨ w'.prev = .dedent) ∨ nextType vs = .eof)) :
    ∃ w'', Ended d w w'' rest ∧ Watched (d.lenient = false) w' vs w'' rest (0 < n) := by
  have hfilled : d.lenient = false → 0 < n := fun hstrict => Nat.pos_of_ne_zero fun hn => by
    have hlenient := hempty hn
    rw [hstrict] at hlenient
    cases hlenient
  rcases hend with ⟨t, rfl, ht⟩ | ⟨rfl, heof⟩
  · have hnext : nextType (t :: rest) ≠ .eof := by rw [nextType_cons, ht]; decide
    have htoken : Watched (d.lenient = false) w' (t :: rest) (w'.step t.type) rest _ :=
      .token hnext fun hstrict => by
        obtain ⟨hopened, hprev⟩ := hpos hstrict (hfilled hstrict)
        rw [ht, Watch.sees_dedent, hopened]
        rcases hprev.resolve_right hnext with hprev | hprev <;> simp [hprev]
    refine ⟨w'.step t.type, .inl ?_, htoken.weaken fun hsees => Nat.pos_of_ne_zero fun hn => ?_⟩
    · rw [ht]
      simp [Watch.step, hblocks hnext]
    · rw [ht, Watch.sees_dedent, hzero hn] at hsees
      cases hsees
  · refine ⟨w', .inr ⟨heof, fun hstrict => (hpos hstrict (hfilled hstrict)).1⟩,
      Watched.refl.impRest fun _ halarm => Nat.pos_of_ne_zero fun hn => ?_⟩
    rw [Watch.alarm_eof heof, hzero hn] at halarm
    cases halarm

theorem StmtWatched.body {colon indent : Token} {n : Nat} {vs : List Token}
    (hcolon : colon.type = .colon)
    (hline : (∃ t, ts = t :: indent :: us ∧ t.type = .newline) ∨ d.lenient ∧ ts = indent :: us)
    (hindent : indent.type = .indent) (hempty : n = 0 → d.lenient)
    (hlimit : d.bounded → n ≤ maxChildren) (hend : BlockEnd vs rest)
    (hstmts : StmtWatched d (skipLines us) vs (.stmts false n)) :
    StmtWatched d (colon :: ts) rest .body := by
  intro w
  obtain ⟨w₁, hw₁, hskip⟩ := watched_skipLines w.inBlock us
  have hfields : w₁.blocks = w.header :: w.blocks ∧ w₁.closed = false ∧ w₁.opened = true ∧
      Quiet w₁.prev := by
    rcases hw₁ with ⟨rfl, -⟩ | rfl
    · exact ⟨rfl, rfl, rfl, (by decide : Quiet .indent)⟩
    · exact ⟨rfl, rfl, rfl, (by decide : Quiet .newline)⟩
  obtain ⟨hblocks, hclosed, hopened, hquiet⟩ := hfields
  obtain ⟨w₂, hblocks₂, hzero, hpos, hwatched⟩ := hstmts w₁ fun h => by rw [hclosed] at h; cases h
  obtain ⟨w₃, hended, hclose⟩ := hend.watched hempty (w := w)
    (fun hne => (hblocks₂ hne).trans hblocks) (fun hn => by rw [hzero hn, hopened]) hpos
  have hinner := hwatched.restrict fun hstrict => ⟨hstrict, juxtaposed_of_quiet hquiet⟩
  refine ⟨w₃, hended, ((watched_opening hcolon hline hindent w).trans
    ((hskip.restrict fun _ => trivial).trans (hinner.trans hclose id) id) id).weaken ?_⟩
  exact fun ⟨hline', _, hstmts', hn⟩ =>
    .body hcolon (.inl hline') hindent hstmts' (fun hn' => absurd hn' (Nat.pos_iff_ne_zero.mp hn))
      hlimit hend

/-- The watch behind the keyword of a compound statement. -/
theorem Watch.step_keyword {type : TokenType} {kind : Bool}
    (htype : kind = true ∧ (type = .if_ ∨ type = .elif) ∨
      kind = false ∧ type ∈ [TokenType.else_, .while_, .for_, .def_]) :
    w.step type = ⟨type, kind, w.blocks, false, false⟩ := by
  rcases htype with ⟨rfl, rfl | rfl⟩ | ⟨rfl, hmem⟩
  · simp [Watch.step]
  · simp [Watch.step]
  · simp only [List.mem_cons, List.not_mem_nil, or_false] at hmem
    rcases hmem with rfl | rfl | rfl | rfl <;> simp [Watch.step]

/-- Such a keyword, and what stands behind it. -/
theorem Watched.keyword {type : TokenType} {kind : Bool} (ht : t.type = type)
    (htype : kind = true ∧ (type = .if_ ∨ type = .elif) ∨
      kind = false ∧ type ∈ [TokenType.else_, .while_, .for_, .def_])
    (hsees : plain → w.sees type = false)
    (hrest : Watched plain ⟨type, kind, w.blocks, false, false⟩ ts w' rest strict) :
    Watched plain w (t :: ts) w' rest (w.sees type = false ∧ strict) := by
  subst ht
  rw [← Watch.step_keyword htype] at hrest
  refine .cons (fun hend => ?_) hsees hrest
  rw [hend] at htype
  revert htype
  cases kind <;> decide

/-- A statement that begins with such a keyword. -/
theorem Watched.firstKeyword {type : TokenType} {kind : Bool} (ht : t.type = type)
    (htype : kind = true ∧ type = .if_ ∨ kind = false ∧ type ∈ [TokenType.while_, .for_, .def_])
    (hrest : Watched (d.lenient = false) ⟨type, kind, w.blocks, false, false⟩ ts w' rest strict) :
    Watched (Plain d w (t :: ts)) w (t :: ts) w' rest strict := by
  have hall : type ∈ stmtStarts ∧ type ≠ .elif ∧ (kind = true ∧ (type = .if_ ∨ type = .elif) ∨
      kind = false ∧ type ∈ [TokenType.else_, .while_, .for_, .def_]) := by
    rcases htype with ⟨rfl, rfl⟩ | ⟨rfl, hmem⟩
    · decide
    · revert hmem
      cases type <;> decide
  subst ht
  exact (Watched.keyword rfl hall.2.2 (fun hplain => Watch.sees_start hall.1 hall.2.1 hplain.2)
    (hrest.restrict And.left)).weaken And.right

/-- A condition and the block behind it. -/
theorem watched_headed {e : Expr} (he : Derives d (.expr 0 e) ts us)
    (hbody : StmtWatched d us rest .body) (hquiet : Quiet w.prev) :
    ∃ w₁ w', w₁.blocks = w.blocks ∧ w₁.header = w.header ∧ Ended d w₁ w' rest ∧
      Watched (d.lenient = false) w ts w' rest
        (Derives { d with lenient := false } (.expr 0 e) ts us ∧
          Parses { d with lenient := false } .body us rest) := by
  obtain ⟨last, -, -, hexpr⟩ := he.watched w
  obtain ⟨w', hended, hwatched⟩ := hbody (w.after last)
  exact ⟨w.after last, w', rfl, rfl, hended, (hexpr.restrict fun hstrict =>
    ⟨hstrict, juxtaposed_of_quiet hquiet⟩).trans hwatched id⟩

/-- A loop or a definition has ended. -/
theorem Ended.settled_of {w₁ : Watch} (hended : Ended d w₁ w' rest) (hheader : w₁.header = false)
    (hblocks : w₁.blocks = w.blocks) : Settled d w w' rest :=
  { hended.settled hheader with
    blocks := fun hne => ((hended.settled hheader).blocks hne).trans hblocks }

theorem StmtWatched.cons {top : Bool} {n : Nat}
    (hmore : Parses d (.stmts top n) (skipLines us) rest) (ihstmt : StmtWatched d ts us .stmt)
    (ihmore : StmtWatched d (skipLines us) rest (.stmts top n)) :
    StmtWatched d ts rest (.stmts top (n + 1)) := by
  intro w hw
  obtain ⟨w₁, hsettled, hwatched₁⟩ := ihstmt hmore.continues w hw
  obtain ⟨w₂, hw₂, hskip⟩ := watched_skipLines w₁ us
  have hfields : w₂.blocks = w₁.blocks ∧ w₂.closed = w₁.closed ∧ w₂.opened = w₁.opened ∧
      (w₂.prev = w₁.prev ∨ w₂.prev = .newline) := by
    rcases hw₂ with ⟨rfl, -⟩ | rfl
    · exact ⟨rfl, rfl, rfl, .inl rfl⟩
    · exact ⟨rfl, rfl, rfl, .inr rfl⟩
  obtain ⟨hblocks, hclosed, hopened, hprev⟩ := hfields
  have heof : nextType us = .eof → nextType rest = .eof ∧ nextType (skipLines us) = .eof ∧
      n = 0 := by
    intro heof
    rw [skipLines_of_next (by rw [heof]; decide)] at hmore ⊢
    cases hmore with
    | nil => exact ⟨heof, heof, rfl⟩
    | cons hnext => exact absurd (heof ▸ hnext.starts) (by decide)
  have hline : d.lenient = false →
      (w₂.prev = .newline ∨ w₂.prev = .dedent) ∨ nextType us = .eof := fun hstrict => by
    rcases hsettled.line hstrict with (h | h) | h
    · exact .inl (.inl (hprev.elim (fun hsame => hsame.trans h) id))
    · exact .inl (hprev.elim (fun hsame => .inr (hsame.trans h)) .inl)
    · exact .inr h
  obtain ⟨w₃, hblocks₃, hzero, hpos, hwatched₃⟩ := ihmore w₂ fun h =>
    hsettled.closed (hclosed.symm.trans h)
  have hmiddle : d.lenient = false → juxtaposed w₂.prev (nextType (skipLines us)) = false := by
    intro hstrict
    rcases hline hstrict with (h | h) | h
    · exact juxtaposed_of_quiet (by rw [h]; decide)
    · exact juxtaposed_of_quiet (by rw [h]; decide)
    · exact juxtaposed_of_notMem (by rw [(heof h).2.1]; decide)
  refine ⟨w₃, fun hne => ?_, nofun, fun hstrict _ => ?_, ((hwatched₁.trans
    ((hskip.restrict fun _ => trivial).trans (hwatched₃.restrict fun hstrict =>
      ⟨hstrict, hmiddle hstrict⟩) id) And.left).weaken fun ⟨hs, _, hm⟩ => .cons hs hm)⟩
  · rw [hblocks₃ hne, hblocks]
    exact hsettled.blocks fun h => hne (heof h).1
  · rcases Nat.eq_zero_or_pos n with rfl | hn
    · rw [hzero rfl, hopened]
      refine ⟨hsettled.opened hstrict, ?_⟩
      exact (hline hstrict).imp_right fun h => (heof h).1
    · exact hpos hstrict hn

/-- Behind the block of an if or elif and the empty lines after it. -/
theorem watched_branch {e : Expr} {vs : List Token} (he : Derives d (.expr 0 e) ts us)
    (hbody : StmtWatched d us vs .body) (hheader : w.header = true) (hquiet : Quiet w.prev) :
    ∃ w₃ : Watch, (w₃.blocks = w.blocks ∧ w₃.closed = true ∧
        (w₃.prev = .newline ∨ w₃.prev = .dedent) ∧ w₃.opened = false ∨
          nextType (skipLines vs) = .eof ∧ (d.lenient = false → w₃.opened = false)) ∧
      Watched (d.lenient = false) w ts w₃ (skipLines vs)
        (Derives { d with lenient := false } (.expr 0 e) ts us ∧
          Parses { d with lenient := false } .body us vs) := by
  obtain ⟨w₁, w₂, hblocks, hheader', hended, hwatched⟩ := watched_headed he hbody hquiet
  obtain ⟨w₃, hw₃, hskip⟩ := watched_skipLines w₂ vs
  refine ⟨w₃, ?_, (hwatched.trans (hskip.restrict fun _ => trivial) id).weaken And.left⟩
  rcases hended with ⟨hblocks₂, hclosed, hprev, hopened⟩ | ⟨heof, hopened⟩
  · have hclosed' : w₂.closed = true := by rw [hclosed, hheader', hheader]
    left
    rcases hw₃ with ⟨rfl, -⟩ | rfl
    · exact ⟨hblocks₂.trans hblocks, hclosed', .inr hprev, hopened⟩
    · exact ⟨hblocks₂.trans hblocks, hclosed', .inl rfl, hopened⟩
  · right
    rw [skipLines_of_next (by rw [heof]; decide)]
    rcases hw₃ with ⟨rfl, -⟩ | rfl
    · exact ⟨heof, hopened⟩
    · exact ⟨heof, hopened⟩

/-- Where a block has just been closed, elif and else take no liberty. -/
theorem StmtWatched.ifOnly {e : Expr} {vs : List Token} (he : Derives d (.expr 0 e) ts us)
    (hbody : StmtWatched d us vs .body) (helif : nextType (skipLines vs) ≠ .elif)
    (helse : nextType (skipLines vs) ≠ .else_) :
    StmtWatched d ts (skipLines vs) .branches := by
  intro w hheader hquiet
  obtain ⟨w₃, hw₃, hwatched⟩ := watched_branch he hbody hheader hquiet
  refine ⟨w₃, ⟨fun hne => ?_, fun _ => by rwa [skipLines_skipLines], fun _ => ?_,
    fun hstrict => ?_⟩,
    hwatched.weaken fun ⟨he', hbody'⟩ => .ifOnly he' hbody' helif helse⟩
  · exact (hw₃.resolve_right fun h => hne h.1).1
  · exact hw₃.imp (fun h => h.2.2.1) And.left
  · exact hw₃.elim (fun h => h.2.2.2) fun h => h.2 hstrict

theorem StmtWatched.ifElse {e : Expr} {vs ws : List Token} (he : Derives d (.expr 0 e) ts us)
    (hbody : StmtWatched d us vs .body) (hvs : skipLines vs = t :: ws) (ht : t.type = .else_)
    (helse : StmtWatched d ws rest .body) : StmtWatched d ts rest .branches := by
  intro w hheader hquiet
  obtain ⟨w₃, hw₃, hwatched⟩ := watched_branch he hbody hheader hquiet
  obtain ⟨hblocks, -, -, -⟩ := hw₃.resolve_right fun h => by
    rw [hvs, nextType_cons, ht] at h
    cases h.1
  obtain ⟨w', hended, hwatched'⟩ := helse ⟨.else_, false, w₃.blocks, false, false⟩
  rw [hvs] at hwatched
  refine ⟨w', hended.settled_of rfl hblocks, (hwatched.trans (.keyword ht (.inr ⟨rfl, by decide⟩)
    (fun _ => ?_) hwatched') id).weaken fun ⟨⟨he', hbody'⟩, _, helse'⟩ =>
      .ifElse he' hbody' hvs ht helse'⟩
  simp [Watch.sees, juxtaposed_of_notMem (by decide : TokenType.else_ ∉ stmtStarts)]

theorem StmtWatched.ifElif {e : Expr} {vs ws : List Token} (he : Derives d (.expr 0 e) ts us)
    (hbody : StmtWatched d us vs .body) (hvs : skipLines vs = t :: ws) (ht : t.type = .elif)
    (helif : StmtWatched d ws rest .branches) : StmtWatched d ts rest .branches := by
  intro w hheader hquiet
  obtain ⟨w₃, hw₃, hwatched⟩ := watched_branch he hbody hheader hquiet
  obtain ⟨hblocks, hclosed, hprev, -⟩ := hw₃.resolve_right fun h => by
    rw [hvs, nextType_cons, ht] at h
    cases h.1
  obtain ⟨w', hsettled, hwatched'⟩ := helif ⟨.elif, true, w₃.blocks, false, false⟩ rfl
    (by decide : Quiet .elif)
  rw [hvs] at hwatched
  refine ⟨w', { hsettled with blocks := fun hne => (hsettled.blocks hne).trans hblocks },
    (hwatched.trans (.keyword ht (.inl ⟨rfl, .inr rfl⟩) (fun _ => ?_) hwatched') id).weaken
      fun ⟨⟨he', hbody'⟩, _, helif'⟩ => .ifElif he' hbody' hvs ht helif'⟩
  have hquiet' : Quiet w₃.prev := by rcases hprev with hprev | hprev <;> rw [hprev] <;> decide
  simp [Watch.sees, juxtaposed_of_quiet hquiet', hclosed]

/-- What the watch makes of a derivation. -/
theorem Parses.watched {sym : StmtSym} (hparses : Parses d sym ts rest) :
    StmtWatched d ts rest sym := by
  induction hparses with
  | expr he hgreedy hend =>
      intro hrest w _
      obtain ⟨last, hlast, hparen, hwatched⟩ := he.watched w
      exact watched_simple hlast hparen (hend.stops fun h => (hgreedy h).1) hend hrest hwatched
        And.left fun he' hend' => .expr he' nofun hend'
  | assign ht hop he hgreedy hend =>
      intro hrest w _
      obtain ⟨last, hlast, hparen, hwatched⟩ := he.watched ((w.after .ident).after .assign)
      have hvalue := hwatched.restrict fun hstrict =>
        ⟨hstrict, juxtaposed_of_quiet (by decide : Quiet .assign)⟩
      exact watched_simple hlast hparen (hend.stops hgreedy) hend hrest
        (Watched.first ht (by decide) (by decide) (.inline hop (by decide) (fun _ =>
          Watch.sees_of_ne (by decide) (by decide) (juxtaposed_of_notMem (by decide))) hvalue))
        And.left fun ⟨_, he'⟩ hend' => .assign ht hop he' nofun hend'
  | bareReturn ht hnext hend =>
      intro hrest w _
      obtain ⟨w', hsettled, hwatched⟩ := hend.watched hrest (by decide : TokenType.return_ ≠ _ ∧ _)
        (fun hstarts => by
          rcases hnext with hnext | hnext <;> rw [hnext] at hstarts <;>
            exact absurd hstarts (by decide)) w
      exact ⟨w', hsettled, (hwatched.first ht (by decide) (by decide)).weaken
        fun hend' => .bareReturn ht hnext hend'⟩
  | return_ ht he hgreedy hend =>
      intro hrest w _
      obtain ⟨last, hlast, hparen, hwatched⟩ := he.watched (w.after .return_)
      have hvalue := hwatched.restrict fun hstrict =>
        ⟨hstrict, juxtaposed_of_quiet (by decide : Quiet .return_)⟩
      exact watched_simple hlast hparen (hend.stops hgreedy) hend hrest
        (hvalue.first ht (by decide) (by decide)) And.left fun he' hend' =>
          .return_ ht he' nofun hend'
  | @jump t ts rest ht hend =>
      intro hrest w _
      have hall : t.type ∈ inlineTokens ∧ t.type ≠ .rparen ∧ t.type ≠ .newline ∧
          t.type ≠ .dedent := by
        rcases ht with ht | ht <;> rw [ht] <;> decide
      obtain ⟨w', hsettled, hwatched⟩ := hend.watched hrest hall.2.2 (fun hstarts => by
        rcases ht with ht | ht <;> simp [juxtaposed, ht, hstarts]) w
      exact ⟨w', hsettled, (hwatched.first rfl hall.1 hall.2.1).weaken fun hend' => .jump ht hend'⟩
  | @def_ t name opening closing n ts us rest ht hname hopening hparams hclosing hlimit _ ih =>
      intro _ w _
      let w₁ : Watch := ⟨.def_, false, w.blocks, false, false⟩
      obtain ⟨w₂, hafter, -, hcomma, hwatched⟩ :=
        hparams.watched ((w₁.after .ident).after .lparen) (.inl rfl)
      obtain ⟨w', hended, hbody⟩ := ih (w₂.after .rparen)
      have hclose : Watched (d.lenient = false) w₂ (closing :: us) w' rest _ :=
        .inline hclosing (by decide) (fun hstrict => Watch.sees_rparen fun hprev => by
          cases (hcomma hstrict hprev).1) hbody
      have hhead : Watched (d.lenient = false) w₁ (name :: opening :: ts) w' rest _ :=
        .inline hname (by decide) (fun _ => Watch.sees_of_ne (by decide) (by decide)
          (juxtaposed_of_quiet (by decide : Quiet .def_))) (.inline hopening (by decide) (fun _ =>
            Watch.sees_of_ne (by decide) (by decide)
              (by decide : juxtaposed .ident .lparen = false))
            (hwatched.trans hclose id))
      rw [hafter] at hended
      exact ⟨w', hended.settled_of rfl rfl, (hhead.firstKeyword ht (.inr ⟨rfl, by decide⟩)).weaken
        fun ⟨_, _, hparams', _, hbody'⟩ => .def_ ht hname hopening hparams' hclosing hlimit hbody'⟩
  | while_ ht he _ ih =>
      intro _ w _
      obtain ⟨w₁, w', hblocks, hheader, hended, hwatched⟩ :=
        watched_headed (w := ⟨.while_, false, w.blocks, false, false⟩) he ih
          (by decide : Quiet .while_)
      exact ⟨w', hended.settled_of hheader hblocks, (hwatched.firstKeyword ht
        (.inr ⟨rfl, by decide⟩)).weaken fun ⟨he', hbody'⟩ => .while_ ht he' hbody'⟩
  | @for_ t var in_ e ts us rest ht hvar hin he _ ih =>
      intro _ w _
      let w₀ : Watch := ⟨.for_, false, w.blocks, false, false⟩
      obtain ⟨w₁, w', hblocks, hheader, hended, hwatched⟩ :=
        watched_headed (w := (w₀.after .ident).after .in_) he ih (by decide : Quiet .in_)
      have hhead : Watched (d.lenient = false) w₀ (var :: in_ :: ts) w' rest _ :=
        .inline hvar (by decide) (fun _ => Watch.sees_of_ne (by decide) (by decide)
          (juxtaposed_of_quiet (by decide : Quiet .for_))) (.inline hin (by decide) (fun _ =>
            Watch.sees_of_ne (by decide) (by decide) (juxtaposed_of_notMem (by decide))) hwatched)
      exact ⟨w', hended.settled_of hheader hblocks, (hhead.firstKeyword ht
        (.inr ⟨rfl, by decide⟩)).weaken fun ⟨_, _, he', hbody'⟩ => .for_ ht hvar hin he' hbody'⟩
  | @if_ t ts rest ht _ ih =>
      intro _ w hw
      rcases ht with ht | ⟨hlenient, ht⟩
      · obtain ⟨w', hsettled, hwatched⟩ := ih ⟨.if_, true, w.blocks, false, false⟩ rfl
          (by decide : Quiet .if_)
        exact ⟨w', ⟨hsettled.blocks, hsettled.closed, hsettled.line, hsettled.opened⟩,
          (hwatched.firstKeyword ht (.inl ⟨rfl, rfl⟩)).weaken
            fun hbranches => .if_ (.inl ht) hbranches⟩
      · -- A statement that begins with elif is seen, as no block has just been closed.
        obtain ⟨w', hsettled, hwatched⟩ := ih ⟨.elif, true, w.blocks, false, false⟩ rfl
          (by decide : Quiet .elif)
        have hclosed : w.closed = false := Bool.eq_false_iff.mpr fun h => hw h ht
        refine ⟨w', ⟨hsettled.blocks, hsettled.closed, hsettled.line, hsettled.opened⟩,
          Watched.weaken (Watched.keyword ht (.inl ⟨rfl, .inr rfl⟩) (fun hplain => ?_)
            (hwatched.restrict And.left)) fun ⟨hsees, _⟩ => ?_⟩
        · rw [hplain.1] at hlenient
          cases hlenient
        · exact absurd hsees (by simp [Watch.sees, hclosed])
  | ifOnly he _ helif helse ih => exact .ifOnly he ih helif helse
  | ifElse he _ hvs ht _ ihbody ihelse => exact .ifElse he ihbody hvs ht ihelse
  | ifElif he _ hvs ht _ ihbody ihelif => exact .ifElif he ihbody hvs ht ihelif
  | body hcolon hline hindent _ hempty hlimit hend ih =>
      exact .body hcolon hline hindent hempty hlimit hend ih
  | nil hends =>
      intro w _
      exact ⟨w, fun _ => rfl, fun _ => rfl, fun _ hn => absurd hn (Nat.lt_irrefl 0),
        Watched.refl.weaken fun _ => .nil hends⟩
  | cons _ hmore ihstmt ihmore => exact .cons hmore ihstmt ihmore

/-! ## Programs -/

/-- What the watch makes of a program. -/
theorem Program.watched {tokens : List Token} (hprogram : Program d tokens) :
    (d.lenient = false → ¬ TakesLiberty tokens) ∧
      (¬ TakesLiberty tokens → Program { d with lenient := false } tokens) := by
  obtain ⟨n, rest, hparses, hlimit⟩ := hprogram
  obtain ⟨w₁, hw₁, hskip⟩ := watched_skipLines .start tokens
  have hfields : w₁.closed = false ∧ w₁.opened = false ∧ Quiet w₁.prev := by
    rcases hw₁ with ⟨rfl, -⟩ | rfl <;> exact ⟨rfl, rfl, (by decide : Quiet .newline)⟩
  obtain ⟨hclosed, hopened, hquiet⟩ := hfields
  obtain ⟨w₂, -, hzero, hpos, hwatched⟩ := hparses.watched w₁ fun h => by rw [hclosed] at h; cases h
  obtain ⟨seen, halarm, hseen, hstrict⟩ := (hskip.restrict fun _ => trivial).trans
    (hwatched.restrict fun h => ⟨h, juxtaposed_of_quiet hquiet⟩) id
  have heof : nextType rest = .eof := hparses.ends.resolve_right nofun
  rw [Watch.alarm_eof heof] at halarm
  refine ⟨fun h => ?_, fun h => ⟨n, rest, (hstrict (Bool.eq_false_iff.mpr h)).2, hlimit⟩⟩
  have hopened₂ : w₂.opened = false := by
    rcases Nat.eq_zero_or_pos n with rfl | hn
    · rw [hzero rfl, hopened]
    · exact (hpos h hn).1
  rw [TakesLiberty, halarm, hseen h, hopened₂]
  decide

/-- The programs of the language are those with the liberties in which none is taken. -/
theorem documented_iff {tokens : List Token} :
    Documented tokens ↔ Accepted tokens ∧ ¬ TakesLiberty tokens :=
  ⟨fun hdocumented => ⟨hdocumented.accepted, (Program.watched hdocumented).1 rfl⟩,
    fun ⟨haccepted, hliberty⟩ => (Program.watched haccepted).2 hliberty⟩

/-- `gk_parse` succeeds exactly on the programs with the liberties. -/
theorem gkParse_iff_accepted {tokens : List Token} (hclosed : Closed tokens)
    (hlimits : WithinLimits tokens) :
    (∃ root s, gkParse tokens = .ok root s) ↔ Accepted tokens :=
  ⟨fun ⟨_, _, hparse⟩ => gkParse_accepted hparse,
    fun haccepted => gkParse_of_program hclosed (hlimits haccepted)⟩

/-- On what the lexer hands over, `gk_parse` agrees with the grammar of the language exactly where
the program does not need a liberty. -/
theorem gkParse_iff_documented {error src : Text} {lexer : Lexer}
    (hlex : gkLex error src = (true, lexer)) (hlimits : WithinLimits lexer.tokens) :
    ((∃ root s, gkParse lexer.tokens = .ok root s) ↔ Documented lexer.tokens) ↔
      ¬ (Accepted lexer.tokens ∧ TakesLiberty lexer.tokens) := by
  rw [gkParse_iff_accepted (gkLex_closed hlex) hlimits, documented_iff]
  constructor
  · exact fun hiff ⟨haccepted, hliberty⟩ => (hiff.mp haccepted).2 hliberty
  · exact fun hnone => ⟨fun haccepted => ⟨haccepted, fun hliberty => hnone ⟨haccepted, hliberty⟩⟩,
      And.left⟩

/-- An integer is an expression. -/
theorem derives_int (ht : t.type = .int) : Derives d (.expr 0 (.int t.intVal)) (t :: rest) rest :=
  .lift (by decide) (.lift (by decide) (.lift (by decide) (.lift (by decide)
    (.lift (by decide) (.int ht)))))

/-- A program of one line, on which they agree. -/
theorem gkParse_iff_documented_assignment :
    let tokens := (gkLex [] (ascii "x = 1")).2.tokens
    gkLex [] (ascii "x = 1") = (true, ⟨tokens, []⟩) ∧ WithinLimits tokens ∧
      (((∃ root s, gkParse tokens = .ok root s) ↔ Documented tokens) ↔
        ¬ (Accepted tokens ∧ TakesLiberty tokens)) := by
  have hlex : gkLex [] (ascii "x = 1") = (true, ⟨[⟨.ident, 0, ascii "x", 1⟩, ⟨.assign, 0, [], 1⟩,
      ⟨.int, 1, [], 1⟩, ⟨.newline, 0, [], 1⟩, ⟨.eof, 0, [], 1⟩], []⟩) := by decide +kernel
  have hlimits : WithinLimits (gkLex [] (ascii "x = 1")).2.tokens := by
    rw [hlex]
    exact fun _ => ⟨1, _, .cons (.assign rfl rfl (derives_int rfl)
      (fun _ => stopsAt_of_notMem (by decide)) (.inl ⟨_, rfl, rfl⟩)) (.nil (.inl rfl)), by decide⟩
  have hlex' : gkLex [] (ascii "x = 1") = (true, ⟨(gkLex [] (ascii "x = 1")).2.tokens, []⟩) := by
    rw [hlex]
  exact ⟨hlex', hlimits, gkParse_iff_documented hlex' hlimits⟩

/-- Two statements on a line are parsed. -/
theorem gkParse_not_iff_documented : ¬ ∀ (error src : Text) (lexer : Lexer),
    gkLex error src = (true, lexer) → WithinLimits lexer.tokens →
      ((∃ root s, gkParse lexer.tokens = .ok root s) ↔ Documented lexer.tokens) := by
  intro hall
  have hlex : gkLex [] (ascii "x = 1 y = 2") = (true, ⟨[⟨.ident, 0, ascii "x", 1⟩,
      ⟨.assign, 0, [], 1⟩, ⟨.int, 1, [], 1⟩, ⟨.ident, 0, ascii "y", 1⟩, ⟨.assign, 0, [], 1⟩,
      ⟨.int, 2, [], 1⟩, ⟨.newline, 0, [], 1⟩, ⟨.eof, 0, [], 1⟩], []⟩) := by decide +kernel
  have hlimited : Program .limited [⟨.ident, 0, ascii "x", 1⟩, ⟨.assign, 0, [], 1⟩,
      ⟨.int, 1, [], 1⟩, ⟨.ident, 0, ascii "y", 1⟩, ⟨.assign, 0, [], 1⟩, ⟨.int, 2, [], 1⟩,
      ⟨.newline, 0, [], 1⟩, ⟨.eof, 0, [], 1⟩] :=
    ⟨2, _, .cons (.assign rfl rfl (derives_int rfl) (fun _ => stopsAt_of_notMem (by decide))
      (.inr ⟨rfl, .inr ⟨rfl, by decide⟩⟩)) (.cons (.assign rfl rfl (derives_int rfl)
        (fun _ => stopsAt_of_notMem (by decide)) (.inl ⟨_, rfl, rfl⟩)) (.nil (.inl rfl))),
    by decide⟩
  have hparsed := gkParse_of_program (gkLex_closed hlex) hlimited
  have hdocumented := (hall _ _ _ hlex fun _ => hlimited).mp hparsed
  exact absurd ((documented_iff.mp hdocumented).2) (not_not_intro (by decide +kernel))

end GeckoOS.Gk
