/-
# The parser stays before EOF

`tok_pos` is moved by `advance` only, which does not pass an EOF, and the only look ahead
goes past a name.  So a parser that is given tokens that end in EOF does not come behind it,
and what is in the array behind it makes no difference.  The parser also ends: each round
of a loop and each call of a parse function inside itself has passed a token before.

All of this holds of every outcome, also of a parse that fails.  It is shown with one
statement for a text from a state, `Confined`, which follows the text.
-/

import GeckoOS.Gk.StmtParsing
import GeckoOS.Math.TwoRuns

namespace GeckoOS.Gk

open GeckoOS.Math

/-- The texts of the parser's errors. -/
def parserErrors : List String :=
  ["too many AST nodes", "too many arguments", "expected ')' after arguments", "expected ')'",
    "unexpected token in expression", "block too large", "expected indented block",
    "expected parameter name", "expected function name after 'def'",
    "expected '(' after function name", "expected ')' after parameters",
    "expected ':' after def", "expected ':' after if condition", "expected ':' after else",
    "expected ':' after while condition", "expected variable name after 'for'",
    "expected 'in' after for variable", "expected ':' after for iterable",
    "too many top-level statements"]

/-- The parser has entered an error. -/
def Failure.Reported (e : Failure) : Prop := ∃ text ∈ parserErrors, e = .error (ascii text)

/-- The state with more tokens behind the last one. -/
def Parser.append (s : Parser) (more : List Token) : Parser := { s with rest := s.rest ++ more }

/-- The outcome with more tokens behind the last one. -/
def appended {α : Type} (more : List Token) :
    EStateM.Result Failure Parser α → EStateM.Result Failure Parser α
  | .ok a s => .ok a (s.append more)
  | .error e s => .error e (s.append more)

/-- There is an EOF ahead. -/
def HasEof (tokens : List Token) : Prop := ∃ t ∈ tokens, t.type = .eof

/-- Tokens behind an EOF make no difference; no EOF is passed; and the text ends, with an error
that it has entered or as `post` says. -/
structure Confined {α : Type} (x : Parse α) (s : Parser) (post : α → Parser → Prop) : Prop where
  behind : HasEof s.rest → ∀ more, x (s.append more) = appended more (x s)
  ok : ∀ a s', x s = .ok a s' → Consumes s.rest s'.rest ∧ post a s'
  error : ∀ e s', x s = .error e s' → Consumes s.rest s'.rest ∧ e.Reported

/-- A parse function that passes a token whenever it returns, given this bound. -/
def Progresses (fuel : Nat) (x : Parse Nat) : Prop :=
  ∀ s, s.rest.length < fuel → Confined x s fun _ s' => s'.rest.length < s.rest.length

section

variable {α β : Type} {x : Parse α} {f : α → Parse β} {s s' : Parser} {post post' : α → Parser → Prop}
  {result : β → Parser → Prop}

theorem HasEof.consumes {ts rest : List Token} (heof : HasEof ts) (hconsumes : Consumes ts rest) :
    HasEof rest := by
  obtain ⟨t, ht, htype⟩ := heof
  obtain ⟨front, rfl, hfront⟩ := hconsumes
  rcases List.mem_append.mp ht with hmem | hmem
  · exact absurd htype (hfront t hmem)
  · exact ⟨t, hmem, htype⟩

theorem Consumes.length {ts rest : List Token} (hconsumes : Consumes ts rest) :
    rest.length ≤ ts.length := by
  obtain ⟨front, rfl, -⟩ := hconsumes
  rw [List.length_append]
  omega

theorem Confined.mono (hx : Confined x s post) (hpost : ∀ a s', post a s' → post' a s') :
    Confined x s post' :=
  ⟨hx.behind, fun a s' hrun => (hx.ok a s' hrun).imp_right (hpost a s'), hx.error⟩

theorem confined_pure {a : α} (hpost : post a s) : Confined (pure a) s post := by
  refine ⟨fun _ _ => rfl, fun b s' hrun => ?_, fun e s' hrun => nomatch hrun⟩
  cases hrun
  exact ⟨.refl _, hpost⟩

theorem confined_fail {text : String} (htext : text ∈ parserErrors) :
    Confined (fail text : Parse α) s post := by
  refine ⟨fun _ _ => rfl, fun b s' hrun => ?_, fun e s' hrun => ?_⟩
  · cases hrun
  · cases hrun
    exact ⟨.refl _, text, htext, rfl⟩

theorem confined_bind (hx : Confined x s post)
    (hf : ∀ a s', Consumes s.rest s'.rest → post a s' → Confined (f a) s' result) :
    Confined (x >>= f) s result := by
  cases hrun : x s with
  | ok a s' =>
      obtain ⟨hconsumes, hpost⟩ := hx.ok a s' hrun
      have hrest := hf a s' hconsumes hpost
      refine ⟨fun heof more => ?_, fun b s'' hrun' => ?_, fun e s'' hrun' => ?_⟩
      · have happended := hx.behind heof more
        rw [hrun] at happended
        rw [bind_run happended, bind_run hrun]
        exact hrest.behind (heof.consumes hconsumes) more
      · rw [bind_run hrun] at hrun'
        exact (hrest.ok b s'' hrun').imp_left hconsumes.trans
      · rw [bind_run hrun] at hrun'
        exact (hrest.error e s'' hrun').imp_left hconsumes.trans
  | error e s' =>
      refine ⟨fun heof more => ?_, fun b s'' hrun' => ?_, fun e' s'' hrun' => ?_⟩
      · have happended := hx.behind heof more
        rw [hrun] at happended
        rw [bind_error happended, bind_error hrun]
        rfl
      · rw [bind_error hrun] at hrun'
        cases hrun'
      · rw [bind_error hrun] at hrun'
        cases hrun'
        exact hx.error e s' hrun

/-- An error ends the text. -/
theorem confined_failBind {text : String} (htext : text ∈ parserErrors) :
    Confined ((fail text : Parse α) >>= f) s result :=
  confined_bind (@confined_fail _ s (fun _ _ => False) _ htext) fun _ _ _ hfalse => hfalse.elim

theorem confined_ite {c : Prop} [Decidable c] {y : Parse α} (hx : c → Confined x s post)
    (hy : ¬ c → Confined y s post) : Confined (if c then x else y) s post := by
  by_cases hc : c
  · rw [if_pos hc]
    exact hx hc
  · rw [if_neg hc]
    exact hy hc

/-- A text with one outcome, which does not depend on the tokens behind EOF. -/
theorem confined_run {a : α} (hrun : x s = .ok a s')
    (hbehind : HasEof s.rest → ∀ more, x (s.append more) = .ok a (s'.append more))
    (hconsumes : Consumes s.rest s'.rest) (hpost : post a s') : Confined x s post := by
  refine ⟨fun heof more => ?_, fun b s'' hrun' => ?_, fun e s'' hrun' => ?_⟩
  · rw [hbehind heof more, hrun]
    rfl
  · rw [hrun] at hrun'
    cases hrun'
    exact ⟨hconsumes, hpost⟩
  · rw [hrun] at hrun'
    cases hrun'

/-! ## Tokens -/

theorem Parser.head_append (heof : HasEof s.rest) (more : List Token) :
    (s.append more).head = s.head := by
  rw [Parser.head, Parser.head, Parser.append]
  cases hrest : s.rest with
  | nil =>
      obtain ⟨t, ht, -⟩ := heof
      exact absurd (hrest ▸ ht) List.not_mem_nil
  | cons t rest => rfl

theorem Parser.next_append (heof : HasEof s.rest) (more : List Token) :
    (s.append more).next = s.next.append more := by
  rw [Parser.next, Parser.next, Parser.head_append heof]
  split_ifs
  · rfl
  · rw [Parser.append, Parser.append]
    cases hrest : s.rest with
    | nil =>
        obtain ⟨t, ht, -⟩ := heof
        exact absurd (hrest ▸ ht) List.not_mem_nil
    | cons t rest => rfl

theorem Parser.skip_append (heof : HasEof s.rest) (more : List Token) :
    (s.append more).skip = s.skip.append more := by
  obtain ⟨t, ht, -⟩ := heof.consumes (consumes_skipLines s.rest)
  have hsome : ¬ (skipLines s.rest).isEmpty = true := by
    rw [List.isEmpty_iff]
    exact List.ne_nil_of_mem ht
  have hrest : (s.rest ++ more).dropWhile (fun t => t.type = .newline) =
      skipLines s.rest ++ more := by
    rw [List.dropWhile_append]
    exact if_neg hsome
  exact congrArg (Parser.mk · s.nodes) hrest

theorem consumes_next (s : Parser) : Consumes s.rest s.next.rest := by
  by_cases heof : s.head.type = .eof
  · rw [Parser.next, if_pos heof]
    exact .refl _
  · rw [Parser.rest_of_head heof]
    exact .token heof

theorem confined_peek {f : Token → Parse β} (hf : Confined (f s.head) s result) :
    Confined (peek >>= f) s result := by
  have hpeek : Confined peek s fun t s' => t = s.head ∧ s' = s := by
    refine confined_run peek_run (fun heof more => ?_) (.refl _) ⟨rfl, rfl⟩
    rw [peek_run, Parser.head_append heof]
  refine confined_bind hpeek fun t s' _ hpost => ?_
  obtain ⟨rfl, rfl⟩ := hpost
  exact hf

theorem confined_advance {f : Unit → Parse β} (hf : Confined (f ()) s.next result) :
    Confined (advance >>= f) s result := by
  have hadvance : Confined advance s fun _ s' => s' = s.next := by
    refine confined_run advance_run (fun heof more => ?_) (consumes_next s) rfl
    rw [advance_run, Parser.next_append heof]
  refine confined_bind hadvance fun _ s' _ hpost => ?_
  subst hpost
  exact hf

theorem confined_check {type : TokenType} {f : Bool → Parse β}
    (hf : Confined (f (decide (s.head.type = type))) s result) :
    Confined (check type >>= f) s result := by
  have hcheck : Confined (check type) s fun b s' => b = decide (s.head.type = type) ∧ s' = s := by
    refine confined_run check_run (fun heof more => ?_) (.refl _) ⟨rfl, rfl⟩
    rw [check_run, Parser.head_append heof]
  refine confined_bind hcheck fun t s' _ hpost => ?_
  obtain ⟨rfl, rfl⟩ := hpost
  exact hf

/-- An optional token. -/
theorem confined_matchToken {type : TokenType} {f : Bool → Parse β}
    (hmatch : s.head.type = type → Confined (f true) s.next result)
    (hother : s.head.type ≠ type → Confined (f false) s result) :
    Confined (matchToken type >>= f) s result := by
  have htoken : Confined (matchToken type) s fun b s' =>
      b = true ∧ s.head.type = type ∧ s' = s.next ∨ b = false ∧ s.head.type ≠ type ∧ s' = s := by
    refine confined_check (confined_ite (fun htype => ?_) fun htype => ?_)
    · exact confined_advance (confined_pure (.inl ⟨rfl, by simpa using htype, rfl⟩))
    · exact confined_pure (.inr ⟨rfl, by simpa using htype, rfl⟩)
  refine confined_bind htoken fun b s' _ hpost => ?_
  rcases hpost with ⟨rfl, htype, rfl⟩ | ⟨rfl, htype, rfl⟩
  · exact hmatch htype
  · exact hother htype

theorem confined_expect {type : TokenType} {text : String} {f : Unit → Parse β}
    (htext : text ∈ parserErrors) (hf : s.head.type = type → Confined (f ()) s.next result) :
    Confined (expect type text >>= f) s result := by
  have hexpect : Confined (expect type text) s fun _ s' => s.head.type = type ∧ s' = s.next :=
    confined_matchToken (fun htype => confined_pure ⟨htype, rfl⟩) fun _ => confined_fail htext
  refine confined_bind hexpect fun _ s' _ hpost => ?_
  obtain ⟨htype, rfl⟩ := hpost
  exact hf htype

theorem confined_skipNewlines {f : Unit → Parse β} (hf : Confined (f ()) s.skip result) :
    Confined (skipNewlines >>= f) s result := by
  have hskip : Confined skipNewlines s fun _ s' => s' = s.skip := by
    refine confined_run skipNewlines_run (fun heof more => ?_) (consumes_skipLines _) rfl
    rw [skipNewlines_run, Parser.skip_append heof]
  refine confined_bind hskip fun _ s' _ hpost => ?_
  subst hpost
  exact hf

/-! ## Nodes -/

/-- A text that only works on the nodes. -/
def NodesOnly (x : Parse α) : Prop :=
  ∀ nodes, (∃ a nodes', ∀ rest, x ⟨rest, nodes⟩ = .ok a ⟨rest, nodes'⟩) ∨
    ∃ text ∈ parserErrors, ∀ rest, x ⟨rest, nodes⟩ = .error (.error (ascii text)) ⟨rest, nodes⟩

theorem NodesOnly.confined (hx : NodesOnly x) : Confined x s fun _ s' => s'.rest = s.rest := by
  rcases hx s.nodes with ⟨a, nodes', hrun⟩ | ⟨text, htext, hrun⟩
  · exact confined_run (hrun s.rest) (fun _ more => hrun _) (.refl _) rfl
  · refine ⟨fun _ more => ?_, fun a s' hrun' => ?_, fun e s' hrun' => ?_⟩
    · rw [show x s = _ from hrun s.rest]
      exact hrun _
    · rw [show x s = _ from hrun s.rest] at hrun'
      cases hrun'
    · rw [show x s = _ from hrun s.rest] at hrun'
      cases hrun'
      exact ⟨.refl _, text, htext, rfl⟩

theorem confined_nodes (hx : NodesOnly x)
    (hf : ∀ a s', s'.rest = s.rest → Confined (f a) s' result) : Confined (x >>= f) s result :=
  confined_bind hx.confined fun a s' _ hrest => hf a s' hrest

theorem nodesOnly_newNode (type : NodeType) (line : Nat) : NodesOnly (newNode type line) := by
  intro nodes
  by_cases hfull : maxNodes ≤ nodes.length
  · refine .inr ⟨_, List.mem_cons_self, fun rest => ?_⟩
    rw [newNode, bind_run (rfl : (get : Parse Parser) ⟨rest, nodes⟩ = .ok _ _), if_pos hfull]
    rfl
  · refine .inl ⟨nodes.length, nodes ++ [blankNode type line], fun rest => ?_⟩
    rw [newNode, bind_run (rfl : (get : Parse Parser) ⟨rest, nodes⟩ = .ok _ _), if_neg hfull]
    rfl

theorem nodesOnly_setNode (n : Nat) (write : Node → Node) : NodesOnly (setNode n write) :=
  fun _ => .inl ⟨_, _, fun _ => rfl⟩

theorem nodesOnly_childCount (n : Nat) : NodesOnly (childCount n) :=
  fun nodes => .inl ⟨(nodes[n]?.map fun node => node.child.length).getD 0, nodes, fun _ => rfl⟩

theorem nodesOnly_writtenNode (type : NodeType) (line : Nat) (write : Node → Node) :
    NodesOnly (writtenNode type line write) := by
  intro nodes
  rcases nodesOnly_newNode type line nodes with ⟨n, nodes', hrun⟩ | ⟨text, htext, hrun⟩
  · exact .inl ⟨n, nodes'.modify n write, fun rest => by rw [writtenNode, bind_run (hrun rest)]; rfl⟩
  · exact .inr ⟨text, htext, fun rest => by rw [writtenNode, bind_error (hrun rest)]⟩

end

/-! ## Progress -/

section

variable {α : Type} {s : Parser} {expr stmt operand : Parse Nat} {fuel bound : Nat}

theorem Parser.next_length (htype : s.head.type ≠ .eof) :
    s.next.rest.length < s.rest.length := by
  rw [Parser.rest_of_head htype, List.length_cons]
  exact Nat.lt_succ_self _

/-- A text whose first part makes progress. -/
theorem confined_progress {β : Type} {x : Parse α} {f : α → Parse β}
    (hx : Confined x s fun _ s' => s'.rest.length < s.rest.length)
    (hf : ∀ a s', s'.rest.length < s.rest.length → Confined (f a) s' fun _ _ => True) :
    Confined (x >>= f) s fun _ s' => s'.rest.length < s.rest.length := by
  refine confined_bind hx fun a s' _ hlt => ?_
  have hrest := hf a s' hlt
  refine ⟨hrest.behind, fun b s'' hrun => ?_, hrest.error⟩
  obtain ⟨hconsumes, -⟩ := hrest.ok b s'' hrun
  exact ⟨hconsumes, hconsumes.length.trans_lt hlt⟩

/-- A text that begins with passing a token. -/
theorem confined_pass {f : Unit → Parse α} (htype : s.head.type ≠ .eof)
    (hf : s.next.rest.length < s.rest.length → Confined (f ()) s.next fun _ _ => True) :
    Confined (advance >>= f) s fun _ s' => s'.rest.length < s.rest.length := by
  have hlt := Parser.next_length htype
  have hrest := hf hlt
  refine confined_advance ⟨hrest.behind, fun a s' hrun => ?_, hrest.error⟩
  obtain ⟨hconsumes, -⟩ := hrest.ok a s' hrun
  exact ⟨hconsumes, hconsumes.length.trans_lt hlt⟩

theorem Confined.weaken {x : Parse α} {post : α → Parser → Prop} (hx : Confined x s post) :
    Confined x s fun _ _ => True := hx.mono fun _ _ _ => trivial

/-- The optional token at the end. -/
theorem confined_lastToken {type : TokenType} {a : α} :
    Confined (matchToken type >>= fun _ => pure a) s fun _ _ => True :=
  confined_matchToken (fun _ => confined_pure trivial) fun _ => confined_pure trivial

/-! ## Expressions -/

theorem parseArgs_confined (hexpr : Progresses bound expr) (n : Nat) (hfuel : s.rest.length < fuel)
    (hbound : s.rest.length < bound) :
    Confined (parseArgs expr n fuel) s fun _ _ => True := by
  induction fuel generalizing s with
  | zero => exact absurd hfuel (Nat.not_lt_zero _)
  | succ fuel ih =>
      rw [parseArgs]
      refine confined_check (confined_check (confined_ite (fun _ => confined_pure trivial)
        fun _ => confined_bind (hexpr s hbound) fun arg s₁ _ hlt => ?_))
      refine confined_nodes (nodesOnly_childCount n) fun count s₂ hrest => ?_
      refine confined_ite (fun _ => confined_failBind (by decide)) fun _ => ?_
      refine confined_nodes (nodesOnly_setNode n _) fun _ s₃ hrest' => ?_
      refine confined_matchToken (fun hcomma => ?_) fun _ => confined_pure trivial
      have hnext := Parser.next_length (s := s₃) (by rw [hcomma]; decide)
      rw [hrest', hrest] at hnext
      exact ih (by omega) (by omega)

theorem parsePrimary_confined (hexpr : Progresses bound expr) (hfuel : s.rest.length ≤ fuel)
    (hbound : s.rest.length ≤ bound) :
    Confined (parsePrimary expr fuel) s fun _ s' => s'.rest.length < s.rest.length := by
  have hleaf : ∀ (type : NodeType) (line : Nat) (write : Node → Node), s.head.type ≠ .eof →
      Confined (advance >>= fun _ => writtenNode type line write) s
        fun _ s' => s'.rest.length < s.rest.length :=
    fun type line write htype => confined_pass htype fun _ =>
      (nodesOnly_writtenNode type line write).confined.weaken
  refine confined_peek ?_
  split
  case h_5 htype =>
    refine confined_pass (by rw [htype]; decide) fun hlt => ?_
    refine confined_check (confined_ite (fun _ => ?_) fun _ =>
      (nodesOnly_writtenNode _ _ _).confined.weaken)
    refine confined_advance (confined_nodes (nodesOnly_writtenNode _ _ _) fun n s₁ hrest => ?_)
    have hle := (consumes_next s.next).length
    rw [← hrest] at hle
    refine confined_bind (parseArgs_confined hexpr n (by omega) (by omega)) fun _ s₂ _ _ => ?_
    exact confined_expect (by decide) fun _ => confined_pure trivial
  case h_6 htype =>
    refine confined_pass (by rw [htype]; decide) fun hlt => ?_
    refine confined_bind (hexpr s.next (by omega)) fun n s₁ _ _ => ?_
    exact confined_expect (by decide) fun _ => confined_pure trivial
  case h_7 => exact confined_fail (by decide)
  all_goals exact hleaf _ _ _ (by simp [*])

theorem parseUnary_confined (hexpr : Progresses bound expr) {depth : Nat}
    (hdepth : s.rest.length < depth) (hfuel : s.rest.length ≤ fuel)
    (hbound : s.rest.length ≤ bound) :
    Confined (parseUnary expr fuel depth) s fun _ s' => s'.rest.length < s.rest.length := by
  induction depth generalizing s with
  | zero => exact absurd hdepth (Nat.not_lt_zero _)
  | succ depth ih =>
      refine confined_peek (confined_ite (fun hop => ?_) fun _ =>
        parsePrimary_confined hexpr hfuel hbound)
      have htype : s.head.type ≠ .eof := by
        rcases hop with hop | hop
        · rw [hop]; decide
        · rw [hop]; decide
      refine confined_pass htype fun hlt => ?_
      refine confined_bind (ih (s := s.next) (by omega) (by omega) (by omega)) fun _ _ _ _ => ?_
      exact (nodesOnly_writtenNode _ _ _).confined.weaken

theorem parseOperators_confined (hoperand : Progresses bound operand) {ops : List TokenType}
    (hops : .eof ∉ ops) (left : Nat) (hfuel : s.rest.length < fuel)
    (hbound : s.rest.length ≤ bound) :
    Confined (parseOperators operand ops fuel left) s fun _ _ => True := by
  induction fuel generalizing s left with
  | zero => exact absurd hfuel (Nat.not_lt_zero _)
  | succ fuel ih =>
      refine confined_peek (confined_ite (fun hop => ?_) fun _ => confined_pure trivial)
      have hlt := Parser.next_length (s := s) fun heof => hops (heof ▸ hop)
      refine confined_advance ?_
      refine confined_bind (hoperand s.next (by omega)) fun right s₁ _ hlt₁ => ?_
      refine confined_nodes (nodesOnly_writtenNode _ _ _) fun n s₂ hrest => ?_
      rw [← hrest] at hlt₁
      exact ih n (by omega) (by omega)

theorem parseBinary_progresses (hoperand : Progresses bound operand) (ops : List TokenType)
    (hops : .eof ∉ ops) : Progresses bound (parseBinary operand ops bound) := by
  intro s hs
  exact confined_progress (hoperand s hs) fun left s₁ hlt =>
    parseOperators_confined hoperand hops left (by omega) (by omega)

theorem parseExpr_progresses (fuel : Nat) : Progresses fuel (parseExpr fuel) := by
  induction fuel with
  | zero => exact fun s hs => absurd hs (Nat.not_lt_zero _)
  | succ fuel ih =>
      have hunary : Progresses (fuel + 1) (parseUnary (parseExpr fuel) (fuel + 1) (fuel + 1)) :=
        fun s hs => parseUnary_confined ih hs (by omega) (by omega)
      have hmul := parseBinary_progresses hunary [.star, .slash, .percent] (by decide)
      have hadd := parseBinary_progresses hmul [.plus, .minus] (by decide)
      have hcmp := parseBinary_progresses hadd [.eq, .neq, .lt, .le, .gt, .ge] (by decide)
      have hand := parseBinary_progresses hcmp [.and] (by decide)
      exact parseBinary_progresses hand [.or] (by decide)

/-! ## Statements -/

theorem parseStmts_confined (hstmt : Progresses bound stmt) {ends : List TokenType} {full : String}
    (hfull : full ∈ parserErrors) (block : Nat) (hfuel : s.rest.length < fuel)
    (hbound : s.rest.length < bound) :
    Confined (parseStmts stmt ends full block fuel) s fun _ _ => True := by
  induction fuel generalizing s with
  | zero => exact absurd hfuel (Nat.not_lt_zero _)
  | succ fuel ih =>
      refine confined_peek (confined_ite (fun _ => confined_pure trivial) fun _ => ?_)
      refine confined_bind (hstmt s hbound) fun st s₁ _ hlt => ?_
      refine confined_nodes (nodesOnly_childCount block) fun count s₂ hrest => ?_
      refine confined_ite (fun _ => confined_failBind hfull) fun _ => ?_
      refine confined_nodes (nodesOnly_setNode block _) fun _ s₃ hrest' => ?_
      have hle := (consumes_skipLines s₃.rest).length
      rw [hrest', hrest] at hle
      refine confined_skipNewlines (ih ?_ ?_)
      all_goals
        rw [Parser.skip_rest]
        rw [hrest', hrest]
        omega

theorem parseBlock_confined (hstmt : Progresses bound stmt) (hfuel : s.rest.length ≤ fuel)
    (hbound : s.rest.length ≤ bound) :
    Confined (parseBlock stmt fuel) s fun _ _ => True := by
  refine confined_peek (confined_expect (by decide) fun hindent => ?_)
  have hlt := Parser.next_length (s := s) (by rw [hindent]; decide)
  refine confined_nodes (nodesOnly_newNode _ _) fun block s₁ hrest => ?_
  have hle := (consumes_skipLines s₁.rest).length
  rw [hrest] at hle
  refine confined_skipNewlines (confined_bind (parseStmts_confined hstmt (by decide) block ?_ ?_)
    fun _ s₂ _ _ => confined_lastToken)
  all_goals
    rw [Parser.skip_rest, hrest]
    omega

theorem parseParams_confined (n : Nat) (hfuel : s.rest.length < fuel) :
    Confined (parseParams n fuel) s fun _ _ => True := by
  induction fuel generalizing s with
  | zero => exact absurd hfuel (Nat.not_lt_zero _)
  | succ fuel ih =>
      refine confined_check (confined_check (confined_ite (fun _ => confined_pure trivial)
        fun _ => confined_peek ?_))
      refine confined_ite (fun _ => confined_failBind (by decide)) fun hident => ?_
      have hlt := Parser.next_length (s := s) (by rw [not_not.mp hident]; decide)
      refine confined_advance (confined_nodes (nodesOnly_writtenNode _ _ _) fun pn s₁ hrest => ?_)
      refine confined_nodes (nodesOnly_setNode n _) fun _ s₂ hrest' => ?_
      refine confined_matchToken (fun hcomma => ?_) fun _ => confined_pure trivial
      have hnext := Parser.next_length (s := s₂) (by rw [hcomma]; decide)
      rw [hrest', hrest] at hnext
      exact ih (by omega)

theorem parseBody_confined (hstmt : Progresses bound stmt) {text : String}
    (htext : text ∈ parserErrors) (hfuel : s.rest.length ≤ fuel) (hbound : s.rest.length ≤ bound) :
    Confined (parseBody stmt fuel text) s fun _ _ => True := by
  refine confined_expect htext fun _ => ?_
  have hle := (consumes_next s).length
  have hle' := (consumes_next s.next).length
  exact confined_matchToken (fun _ => parseBlock_confined hstmt (by omega) (by omega))
    fun _ => parseBlock_confined hstmt (by omega) (by omega)

theorem parseReturn_confined (hexpr : Progresses bound expr) (hhead : s.head.type = .return_)
    (hbound : s.rest.length ≤ bound) :
    Confined (parseReturn expr) s fun _ s' => s'.rest.length < s.rest.length := by
  refine confined_peek (confined_pass (by rw [hhead]; decide) fun hlt => ?_)
  refine confined_nodes (nodesOnly_newNode _ _) fun n s₁ hrest => ?_
  refine confined_check (confined_check (confined_ite (fun _ => ?_) fun _ => confined_lastToken))
  rw [← hrest] at hlt
  refine confined_bind (hexpr s₁ (by omega)) fun value s₂ _ _ => ?_
  exact confined_nodes (nodesOnly_setNode n _) fun _ _ _ => confined_lastToken

theorem parseJump_confined (type : NodeType) (hhead : s.head.type ≠ .eof) :
    Confined (parseJump type) s fun _ s' => s'.rest.length < s.rest.length := by
  refine confined_peek (confined_pass hhead fun _ => ?_)
  have hnode := fun s₁ : Parser => (@NodesOnly.confined _ _ s₁
    (nodesOnly_newNode type s.head.line)).weaken
  exact confined_matchToken (fun _ => hnode _) fun _ => hnode _

theorem parseDef_confined (hstmt : Progresses bound stmt) (hhead : s.head.type = .def_)
    (hfuel : s.rest.length ≤ fuel) (hbound : s.rest.length ≤ bound) :
    Confined (parseDef stmt fuel) s fun _ s' => s'.rest.length < s.rest.length := by
  refine confined_peek (confined_pass (by rw [hhead]; decide) fun hlt => confined_peek ?_)
  refine confined_ite (fun _ => confined_failBind (by decide)) fun _ => ?_
  refine confined_advance (confined_nodes (nodesOnly_writtenNode _ _ _) fun n s₁ hrest => ?_)
  have hle := (consumes_next s.next).length
  rw [← hrest] at hle
  refine confined_expect (by decide) fun _ => ?_
  have hle₁ := (consumes_next s₁).length
  refine confined_bind (parseParams_confined n (by omega)) fun _ s₂ hconsumes _ => ?_
  have hle₂ := hconsumes.length
  have hle₃ := (consumes_next s₂).length
  refine confined_expect (by decide) fun _ => ?_
  refine confined_bind (parseBody_confined hstmt (by decide) (by omega) (by omega))
    fun body s₃ _ _ => ?_
  exact confined_nodes (nodesOnly_setNode n _) fun _ _ _ => confined_pure trivial

/-- A condition or an iterable, and the body. -/
theorem confined_headed {α : Type} {text : String} {f : Nat → Nat → Parse α}
    (hexpr : Progresses (bound + 1) expr) (hstmt : Progresses bound stmt)
    (htext : text ∈ parserErrors) (hfuel : s.rest.length ≤ fuel) (hbound : s.rest.length ≤ bound)
    (hf : ∀ cond body s', s'.rest.length < s.rest.length →
      Confined (f cond body) s' fun _ _ => True) :
    Confined (expr >>= fun cond => parseBody stmt fuel text >>= f cond) s fun _ _ => True := by
  refine confined_bind (hexpr s (by omega)) fun cond s₁ _ hlt => ?_
  refine confined_bind (parseBody_confined hstmt htext (by omega) (by omega))
    fun body s₂ hconsumes _ => hf cond body s₂ ?_
  have hle := hconsumes.length
  omega

theorem parseIf_confined (hexpr : Progresses (bound + 1) expr) (hstmt : Progresses bound stmt)
    (hhead : s.head.type ≠ .eof) (hfuel : s.rest.length ≤ fuel) (hbound : s.rest.length ≤ bound) :
    Confined (parseIf expr stmt fuel) s fun _ s' => s'.rest.length < s.rest.length := by
  refine confined_peek (confined_pass hhead fun hlt => ?_)
  refine confined_nodes (nodesOnly_newNode _ _) fun n s₁ hrest => ?_
  rw [← hrest] at hlt
  refine confined_headed hexpr hstmt (by decide) (by omega) (by omega) fun cond body s₂ hlt₂ => ?_
  refine confined_nodes (nodesOnly_setNode n _) fun _ s₃ hrest' => ?_
  have hle := (consumes_skipLines s₃.rest).length
  rw [← Parser.skip_rest] at hle
  rw [← hrest'] at hlt₂
  refine confined_skipNewlines (confined_check (confined_ite (fun _ => ?_) fun _ =>
    confined_check (confined_ite (fun _ => ?_) fun _ => confined_pure trivial)))
  · refine confined_bind (hstmt s₃.skip (by omega)) fun elif s₄ _ _ => ?_
    exact confined_nodes (nodesOnly_setNode n _) fun _ _ _ => confined_pure trivial
  · have hle' := (consumes_next s₃.skip).length
    refine confined_advance (confined_bind (parseBody_confined hstmt (by decide) (by omega)
      (by omega)) fun elseBody s₄ _ _ => ?_)
    exact confined_nodes (nodesOnly_setNode n _) fun _ _ _ => confined_pure trivial

theorem parseWhile_confined (hexpr : Progresses (bound + 1) expr) (hstmt : Progresses bound stmt)
    (hhead : s.head.type ≠ .eof) (hfuel : s.rest.length ≤ fuel) (hbound : s.rest.length ≤ bound) :
    Confined (parseWhile expr stmt fuel) s fun _ s' => s'.rest.length < s.rest.length := by
  refine confined_peek (confined_pass hhead fun hlt => ?_)
  refine confined_nodes (nodesOnly_newNode _ _) fun n s₁ hrest => ?_
  rw [← hrest] at hlt
  refine confined_headed hexpr hstmt (by decide) (by omega) (by omega) fun cond body s₂ _ => ?_
  exact confined_nodes (nodesOnly_setNode n _) fun _ _ _ => confined_pure trivial

theorem parseFor_confined (hexpr : Progresses (bound + 1) expr) (hstmt : Progresses bound stmt)
    (hhead : s.head.type ≠ .eof) (hfuel : s.rest.length ≤ fuel) (hbound : s.rest.length ≤ bound) :
    Confined (parseFor expr stmt fuel) s fun _ s' => s'.rest.length < s.rest.length := by
  refine confined_peek (confined_pass hhead fun hlt => confined_peek ?_)
  refine confined_ite (fun _ => confined_failBind (by decide)) fun _ => ?_
  refine confined_advance (confined_expect (by decide) fun _ => ?_)
  have hle := (consumes_next s.next).length
  have hle' := (consumes_next s.next.next).length
  refine confined_nodes (nodesOnly_writtenNode _ _ _) fun n s₁ hrest => ?_
  rw [← hrest] at hle'
  refine confined_headed hexpr hstmt (by decide) (by omega) (by omega) fun iter body s₂ _ => ?_
  exact confined_nodes (nodesOnly_setNode n _) fun _ _ _ => confined_pure trivial

theorem parseAssign_confined (hexpr : Progresses bound expr) (hhead : s.head.type ≠ .eof)
    (hbound : s.rest.length ≤ bound) :
    Confined (parseAssign expr) s fun _ s' => s'.rest.length < s.rest.length := by
  refine confined_peek (confined_pass hhead fun hlt => confined_advance ?_)
  have hle := (consumes_next s.next).length
  refine confined_nodes (nodesOnly_writtenNode _ _ _) fun n s₁ hrest => ?_
  rw [← hrest] at hle
  refine confined_bind (hexpr s₁ (by omega)) fun value s₂ _ _ => ?_
  exact confined_nodes (nodesOnly_setNode n _) fun _ _ _ => confined_lastToken

theorem assigns_append {ts : List Token} (heof : HasEof ts) (more : List Token) :
    assigns (ts ++ more) = assigns ts := by
  obtain ⟨t, ht, htype⟩ := heof
  rcases ts with _ | ⟨t', _ | ⟨next, ts⟩⟩
  · exact absurd ht List.not_mem_nil
  · obtain rfl := List.mem_singleton.mp ht
    cases more with
    | nil => rfl
    | cons next more => simp [assigns, htype]
  · rfl

/-- The look ahead. -/
theorem confined_atAssign {f : Bool → Parse Nat} {post : Nat → Parser → Prop}
    (hf : Confined (f (assigns s.rest)) s post) : Confined (atAssign >>= f) s post := by
  have hrun : Confined atAssign s fun seen s' => seen = assigns s.rest ∧ s' = s := by
    refine confined_run (atAssign_eq s) (fun heof more => ?_) (.refl _) ⟨rfl, rfl⟩
    rw [atAssign_eq]
    exact congrArg (EStateM.Result.ok · (s.append more)) (assigns_append heof more)
  refine confined_bind hrun fun seen s' _ hpost => ?_
  obtain ⟨rfl, rfl⟩ := hpost
  exact hf

theorem parseStmtWith_progresses (hexpr : Progresses (bound + 1) expr)
    (hstmt : Progresses bound stmt) : Progresses (bound + 1) (parseStmtWith expr stmt (bound + 1)) := by
  intro s hs
  refine confined_peek ?_
  split
  · exact parseReturn_confined hexpr (by assumption) (by omega)
  · exact parseJump_confined _ (by simp [*])
  · exact parseJump_confined _ (by simp [*])
  · exact parseDef_confined hstmt (by assumption) (by omega) (by omega)
  · exact parseIf_confined hexpr hstmt (by simp [*]) (by omega) (by omega)
  · exact parseIf_confined hexpr hstmt (by simp [*]) (by omega) (by omega)
  · exact parseWhile_confined hexpr hstmt (by simp [*]) (by omega) (by omega)
  · exact parseFor_confined hexpr hstmt (by simp [*]) (by omega) (by omega)
  · refine confined_atAssign (confined_ite (fun hassigns => ?_) fun _ => ?_)
    · exact parseAssign_confined hexpr (by rw [head_of_assigns hassigns]; decide) (by omega)
    · exact confined_progress (hexpr s hs) fun _ _ _ => confined_lastToken

theorem parseStmt_progresses (fuel : Nat) : Progresses fuel (parseStmt fuel) := by
  induction fuel with
  | zero => exact fun s hs => absurd hs (Nat.not_lt_zero _)
  | succ fuel ih => exact parseStmtWith_progresses (parseExpr_progresses (fuel + 1)) ih

theorem parseProgram_confined (hfuel : s.rest.length < fuel) :
    Confined (parseProgram fuel) s fun _ _ => True := by
  refine confined_nodes (nodesOnly_newNode _ _) fun root s₁ hrest => ?_
  have hle := (consumes_skipLines s₁.rest).length
  rw [← Parser.skip_rest, hrest] at hle
  exact confined_skipNewlines (confined_bind (parseStmts_confined (parseStmt_progresses fuel)
    (by decide) root (by omega) (by omega)) fun _ _ _ _ => confined_pure trivial)

end

/-! ## The whole parse -/

/-- The last token is an EOF, and no other one is. -/
def EndsInEof (tokens : List Token) : Prop :=
  ∃ front eof, tokens = front ++ [eof] ∧ eof.type = .eof ∧ ∀ t ∈ front, t.type ≠ .eof

/-- From this state the text ends within its bound, it does not pass the EOF, whatever its
outcome is, and the tokens behind make no difference. -/
structure StaysBefore {α : Type} (x : Parse α) (s : Parser) : Prop where
  ends : ∀ s', x s ≠ .error .outOfFuel s'
  before : EndsInEof (lastState (x s)).rest ∧ (lastState (x s)).rest <:+ s.rest
  behind : ∀ more, x (s.append more) = appended more (x s)

section

variable {α : Type} {x : Parse α} {s : Parser} {post : α → Parser → Prop} {ts rest : List Token}

theorem EndsInEof.hasEof (hends : EndsInEof ts) : HasEof ts := by
  obtain ⟨front, eof, rfl, heof, -⟩ := hends
  exact ⟨eof, by simp, heof⟩

/-- The EOF that is not passed is the last token. -/
theorem EndsInEof.consumes (hends : EndsInEof ts) (hconsumes : Consumes ts rest) :
    EndsInEof rest := by
  obtain ⟨t, hmem, htype⟩ := hends.hasEof.consumes hconsumes
  obtain ⟨front, eof, hts, heof, hfront⟩ := hends
  obtain ⟨passed, hsplit, -⟩ := hconsumes
  have hne : rest ≠ [] := List.ne_nil_of_mem hmem
  obtain ⟨left, last, rfl⟩ : ∃ left last, rest = left ++ [last] :=
    ⟨rest.dropLast, rest.getLast hne, (List.dropLast_append_getLast hne).symm⟩
  have hboth : front ++ [eof] = (passed ++ left) ++ [last] := by
    rw [← hts, hsplit, List.append_assoc]
  obtain ⟨hfronts, hlast⟩ := List.append_inj' hboth rfl
  refine ⟨left, last, rfl, ?_, fun t' ht' => hfront t' ?_⟩
  · rw [← (List.cons.inj hlast).1]
    exact heof
  · rw [hfronts]
    exact List.mem_append_right _ ht'

theorem Confined.staysBefore (hx : Confined x s post) (hends : EndsInEof s.rest) :
    StaysBefore x s := by
  have hconsumes : Consumes s.rest (lastState (x s)).rest := by
    cases hrun : x s with
    | ok a s' => exact (hx.ok a s' hrun).1
    | error e s' => exact (hx.error e s' hrun).1
  refine ⟨fun s' hrun => ?_, ⟨hends.consumes hconsumes, ?_⟩, hx.behind hends.hasEof⟩
  · obtain ⟨-, text, -, htext⟩ := hx.error _ s' hrun
    cases htext
  · obtain ⟨passed, hsplit, -⟩ := hconsumes
    exact ⟨passed, hsplit.symm⟩

/-- **The parser stays before EOF.**  On tokens that end in their only EOF it terminates, with
every bound that is larger than their number, it does not pass the EOF, and what is behind it
in the array makes no difference.  The same holds of every statement and expression on the
way, and one that is parsed has passed a token. -/
theorem gkParse_staysBefore {tokens : List Token} (htokens : EndsInEof tokens) :
    (∀ p, gkParse tokens ≠ .error .outOfFuel p) ∧
      (∀ fuel, tokens.length < fuel → StaysBefore (parseProgram fuel) ⟨tokens, []⟩) ∧
      ∀ (fuel : Nat) (s : Parser), EndsInEof s.rest → s.rest.length < fuel →
        ∀ x ∈ [parseStmt fuel, parseExpr fuel], StaysBefore x s ∧
          ∀ n s', x s = .ok n s' → s'.rest.length < s.rest.length := by
  have hstays : ∀ fuel, tokens.length < fuel → StaysBefore (parseProgram fuel) ⟨tokens, []⟩ :=
    fun fuel hfuel => (parseProgram_confined hfuel).staysBefore htokens
  refine ⟨(hstays _ (Nat.lt_succ_self _)).ends, hstays, fun fuel s hends hfuel => ?_⟩
  have hparses : ∀ x, Progresses fuel x → StaysBefore x s ∧
      ∀ n s', x s = .ok n s' → s'.rest.length < s.rest.length := fun x hprogresses =>
    ⟨(hprogresses s hfuel).staysBefore hends,
      fun n s' hrun => ((hprogresses s hfuel).ok n s' hrun).2⟩
  intro x hx
  rcases List.mem_cons.mp hx with rfl | hx
  · exact hparses _ (parseStmt_progresses fuel)
  · obtain rfl := List.mem_singleton.mp hx
    exact hparses _ (parseExpr_progresses fuel)

/-- The tokens of a call that is not closed. -/
def unclosedCall : List Token :=
  [⟨.ident, 0, ascii "f", 1⟩, ⟨.lparen, 0, [], 1⟩, ⟨.int, 1, [], 1⟩, ⟨.eof, 0, [], 1⟩]

theorem endsInEof_unclosedCall : EndsInEof unclosedCall :=
  ⟨unclosedCall.dropLast, ⟨.eof, 0, [], 1⟩, rfl, rfl, by decide⟩

theorem gkParse_staysBefore_unclosedCall : EndsInEof unclosedCall ∧
    StaysBefore (parseProgram 5) ⟨unclosedCall, []⟩ :=
  ⟨endsInEof_unclosedCall, (gkParse_staysBefore endsInEof_unclosedCall).2.1 5 (by decide)⟩

end

end GeckoOS.Gk
