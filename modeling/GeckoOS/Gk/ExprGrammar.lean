/-
# The grammar of expressions

The precedence table of the language, as a grammar: six levels, the binary operators of
the lower ones left-associative, then the unary operators and what stands for itself.  A
derivation relates the tokens from some point on to the tokens that are left behind the
expression, together with its tree.

One thing the grammar of the language does not have is a comma behind the last argument of
a call; the parser accepts it, so it is a liberty that the relation can be given.
-/

import GeckoOS.Gk.Parser
import Mathlib.Tactic.IntervalCases

namespace GeckoOS.Gk

/-! ## Trees -/

/-- Expressions. -/
inductive Expr
  | int (v : Int32)
  | str (s : Text)
  | bool (b : Bool)
  | var (name : Text)
  | unop (op : TokenType) (operand : Expr)
  | binop (op : TokenType) (l r : Expr)
  | call (name : Text) (args : List Expr)

mutual

/-- The node `n` of the pool and those below it are this tree, with no node before `lo`. -/
def Denotes (nodes : List Node) (lo : Nat) : Expr → Nat → Prop
  | .int v, n => lo ≤ n ∧ ∃ node, nodes[n]? = some node ∧ node.type = .int ∧ node.intVal = v
  | .str s, n => lo ≤ n ∧ ∃ node, nodes[n]? = some node ∧ node.type = .str ∧ node.strVal = s
  | .bool b, n => lo ≤ n ∧ ∃ node, nodes[n]? = some node ∧ node.type = .bool ∧
      node.intVal = if b then 1 else 0
  | .var name, n => lo ≤ n ∧ ∃ node, nodes[n]? = some node ∧ node.type = .var ∧
      node.strVal = name
  | .unop op e, n => lo ≤ n ∧ ∃ node i, nodes[n]? = some node ∧ node.type = .unop ∧
      node.op = some op ∧ node.child = [i] ∧ Denotes nodes lo e i
  | .binop op l r, n => lo ≤ n ∧ ∃ node i j, nodes[n]? = some node ∧ node.type = .binop ∧
      node.op = some op ∧ node.child = [i, j] ∧ Denotes nodes lo l i ∧ Denotes nodes lo r j
  | .call name args, n => lo ≤ n ∧ ∃ node, nodes[n]? = some node ∧ node.type = callType name ∧
      node.strVal = name ∧ DenotesAll nodes (n + 1) args node.child

/-- The same for a list of nodes. -/
def DenotesAll (nodes : List Node) (lo : Nat) : List Expr → List Nat → Prop
  | [], ids => ids = []
  | e :: es, ids => ∃ i more, ids = i :: more ∧ Denotes nodes lo e i ∧ DenotesAll nodes lo es more

end

/-! ## The grammar -/

/-- The binary operators of a level, from the loosest on. -/
def opsAt : Nat → List TokenType
  | 0 => [.or]
  | 1 => [.and]
  | 2 => [.eq, .neq, .lt, .le, .gt, .ge]
  | 3 => [.plus, .minus]
  | 4 => [.star, .slash, .percent]
  | _ => []

/-- How the grammar is read: with the liberties the parser takes, and with its limits. -/
structure Dialect where
  lenient : Bool
  bounded : Bool

/-- The grammar of the language. -/
def Dialect.documented : Dialect := ⟨false, false⟩

/-- The grammar the parser goes by. -/
def Dialect.accepted : Dialect := ⟨true, false⟩

/-- The type of the next token; past the end it is EOF. -/
def nextType (tokens : List Token) : TokenType := (tokens.headD ⟨.eof, 0, [], 0⟩).type

/-- An expression that binds at least as tightly as a level, or the arguments of a call. -/
inductive ExprSym
  | expr (level : Nat) (e : Expr)
  | args (es : List Expr)

/-- From these tokens on there is this, and those tokens are left behind it. -/
inductive Derives (d : Dialect) : ExprSym → List Token → List Token → Prop
  | int {t : Token} {rest : List Token} (ht : t.type = .int) :
      Derives d (.expr 5 (.int t.intVal)) (t :: rest) rest
  | str {t : Token} {rest : List Token} (ht : t.type = .str) :
      Derives d (.expr 5 (.str t.strVal)) (t :: rest) rest
  | true_ {t : Token} {rest : List Token} (ht : t.type = .true) :
      Derives d (.expr 5 (.bool true)) (t :: rest) rest
  | false_ {t : Token} {rest : List Token} (ht : t.type = .false) :
      Derives d (.expr 5 (.bool false)) (t :: rest) rest
  | var {t : Token} {rest : List Token} (ht : t.type = .ident) (hnext : nextType rest ≠ .lparen) :
      Derives d (.expr 5 (.var t.strVal)) (t :: rest) rest
  | call {t opening closing : Token} {args : List Expr} {ts rest : List Token}
      (ht : t.type = .ident) (hopening : opening.type = .lparen)
      (hargs : Derives d (.args args) ts (closing :: rest)) (hclosing : closing.type = .rparen)
      (hlimit : d.bounded → args.length ≤ maxChildren) :
      Derives d (.expr 5 (.call t.strVal args)) (t :: opening :: ts) rest
  | paren {opening closing : Token} {e : Expr} {ts rest : List Token}
      (hopening : opening.type = .lparen) (he : Derives d (.expr 0 e) ts (closing :: rest))
      (hclosing : closing.type = .rparen) : Derives d (.expr 5 e) (opening :: ts) rest
  | unop {t : Token} {e : Expr} {ts rest : List Token} (ht : t.type = .minus ∨ t.type = .not)
      (he : Derives d (.expr 5 e) ts rest) : Derives d (.expr 5 (.unop t.type e)) (t :: ts) rest
  | lift {level : Nat} {e : Expr} {ts rest : List Token} (hlevel : level < 5)
      (he : Derives d (.expr (level + 1) e) ts rest) : Derives d (.expr level e) ts rest
  | binop {level : Nat} {l r : Expr} {op : Token} {ts us rest : List Token} (hlevel : level < 5)
      (hl : Derives d (.expr level l) ts (op :: us)) (hop : op.type ∈ opsAt level)
      (hr : Derives d (.expr (level + 1) r) us rest) :
      Derives d (.expr level (.binop op.type l r)) ts rest
  | nil {ts : List Token} (hnext : nextType ts = .rparen) : Derives d (.args []) ts ts
  | last {e : Expr} {ts rest : List Token} (he : Derives d (.expr 0 e) ts rest)
      (hnext : nextType rest = .rparen) : Derives d (.args [e]) ts rest
  | cons {e : Expr} {es : List Expr} {comma : Token} {ts us rest : List Token}
      (he : Derives d (.expr 0 e) ts (comma :: us)) (hcomma : comma.type = .comma)
      (hes : es = [] → d.lenient) (hrest : Derives d (.args es) us rest) :
      Derives d (.args (e :: es)) ts rest

/-! ## Trees in a growing pool -/

mutual

/-- Only the nodes from `lo` on matter. -/
theorem Denotes.congr {nodes nodes' : List Node} {lo lo' : Nat} (hlo : lo' ≤ lo)
    (hsame : ∀ i, lo ≤ i → i < nodes.length → nodes'[i]? = nodes[i]?) :
    ∀ (e : Expr) (n : Nat), Denotes nodes lo e n → Denotes nodes' lo' e n
  | .int _, n, ⟨hn, node, hnode, h⟩ =>
      ⟨hlo.trans hn, node, (hsame n hn (List.getElem?_eq_some_iff.mp hnode).1).trans hnode, h⟩
  | .str _, n, ⟨hn, node, hnode, h⟩ =>
      ⟨hlo.trans hn, node, (hsame n hn (List.getElem?_eq_some_iff.mp hnode).1).trans hnode, h⟩
  | .bool _, n, ⟨hn, node, hnode, h⟩ =>
      ⟨hlo.trans hn, node, (hsame n hn (List.getElem?_eq_some_iff.mp hnode).1).trans hnode, h⟩
  | .var _, n, ⟨hn, node, hnode, h⟩ =>
      ⟨hlo.trans hn, node, (hsame n hn (List.getElem?_eq_some_iff.mp hnode).1).trans hnode, h⟩
  | .unop _ e, n, ⟨hn, node, i, hnode, htype, hop, hchild, he⟩ =>
      ⟨hlo.trans hn, node, i, (hsame n hn (List.getElem?_eq_some_iff.mp hnode).1).trans hnode,
        htype, hop, hchild, Denotes.congr hlo hsame e i he⟩
  | .binop _ l r, n, ⟨hn, node, i, j, hnode, htype, hop, hchild, hl, hr⟩ =>
      ⟨hlo.trans hn, node, i, j, (hsame n hn (List.getElem?_eq_some_iff.mp hnode).1).trans hnode,
        htype, hop, hchild, Denotes.congr hlo hsame l i hl, Denotes.congr hlo hsame r j hr⟩
  | .call _ args, n, ⟨hn, node, hnode, htype, hname, hargs⟩ =>
      ⟨hlo.trans hn, node, (hsame n hn (List.getElem?_eq_some_iff.mp hnode).1).trans hnode, htype,
        hname, DenotesAll.congr le_rfl
          (fun i hi => hsame i (hn.trans (Nat.le_of_succ_le hi))) args node.child hargs⟩

@[inherit_doc Denotes.congr]
theorem DenotesAll.congr {nodes nodes' : List Node} {lo lo' : Nat} (hlo : lo' ≤ lo)
    (hsame : ∀ i, lo ≤ i → i < nodes.length → nodes'[i]? = nodes[i]?) :
    ∀ (es : List Expr) (ids : List Nat), DenotesAll nodes lo es ids → DenotesAll nodes' lo' es ids
  | [], _, h => h
  | e :: es, _, ⟨i, more, hids, he, hes⟩ =>
      ⟨i, more, hids, Denotes.congr hlo hsame e i he, DenotesAll.congr hlo hsame es more hes⟩

end

/-! ## A node is one tree -/

/-- The type of the node of an expression. -/
def Expr.nodeType : Expr → NodeType
  | .int _ => .int
  | .str _ => .str
  | .bool _ => .bool
  | .var _ => .var
  | .unop _ _ => .unop
  | .binop _ _ _ => .binop
  | .call name _ => callType name

theorem callType_mem (name : Text) :
    callType name ∈ [NodeType.print, .range, .input, .intCast, .call] := by
  rw [callType]
  split_ifs <;> decide

theorem Denotes.node {nodes : List Node} {lo n : Nat} {e : Expr} (hdenotes : Denotes nodes lo e n) :
    ∃ node, nodes[n]? = some node ∧ node.type = e.nodeType := by
  cases e with
  | int | str | bool | var | call =>
      obtain ⟨-, node, hnode, htype, -⟩ := hdenotes
      exact ⟨node, hnode, htype⟩
  | unop =>
      obtain ⟨-, node, _, hnode, htype, -⟩ := hdenotes
      exact ⟨node, hnode, htype⟩
  | binop =>
      obtain ⟨-, node, _, _, hnode, htype, -⟩ := hdenotes
      exact ⟨node, hnode, htype⟩

/-- Only calls have nodes of calls, and otherwise the type of the node tells expressions apart. -/
theorem Expr.nodeType_call {name : Text} {e : Expr} (htype : e.nodeType = callType name) :
    ∃ name' args, e = .call name' args := by
  have hmem := callType_mem name
  rw [← htype] at hmem
  cases e with
  | call name' args => exact ⟨name', args, rfl⟩
  | _ => simp [Expr.nodeType] at hmem

theorem Denotes.sameType {nodes : List Node} {lo lo' n : Nat} {e e' : Expr}
    (hdenotes : Denotes nodes lo e n) (hdenotes' : Denotes nodes lo' e' n) :
    e.nodeType = e'.nodeType := by
  obtain ⟨node, hnode, htype⟩ := hdenotes.node
  obtain ⟨node', hnode', htype'⟩ := hdenotes'.node
  rw [← htype, ← htype', Option.some.inj (hnode.symm.trans hnode')]

mutual

/-- A node is one tree at most. -/
theorem Denotes.unique {nodes : List Node} {lo lo' : Nat} : ∀ (e e' : Expr) (n : Nat),
    Denotes nodes lo e n → Denotes nodes lo' e' n → e = e'
  | .int _, e', n, hdenotes, hdenotes' => by
      have htype := hdenotes.sameType hdenotes'
      obtain ⟨-, node, hnode, -, rfl⟩ := hdenotes
      cases e' with
      | int =>
          obtain ⟨-, node', hnode', -, rfl⟩ := hdenotes'
          rw [Option.some.inj (hnode.symm.trans hnode')]
      | call => exact absurd (Expr.nodeType_call htype) (by simp)
      | _ => simp [Expr.nodeType] at htype
  | .str _, e', n, hdenotes, hdenotes' => by
      have htype := hdenotes.sameType hdenotes'
      obtain ⟨-, node, hnode, -, rfl⟩ := hdenotes
      cases e' with
      | str =>
          obtain ⟨-, node', hnode', -, rfl⟩ := hdenotes'
          rw [Option.some.inj (hnode.symm.trans hnode')]
      | call => exact absurd (Expr.nodeType_call htype) (by simp)
      | _ => simp [Expr.nodeType] at htype
  | .bool b, e', n, hdenotes, hdenotes' => by
      have htype := hdenotes.sameType hdenotes'
      obtain ⟨-, node, hnode, -, hval⟩ := hdenotes
      cases e' with
      | bool b' =>
          obtain ⟨-, node', hnode', -, hval'⟩ := hdenotes'
          rw [Option.some.inj (hnode.symm.trans hnode'), hval'] at hval
          cases b <;> cases b' <;> first | rfl | exact absurd hval (by decide)
      | call => exact absurd (Expr.nodeType_call htype) (by simp)
      | _ => simp [Expr.nodeType] at htype
  | .var _, e', n, hdenotes, hdenotes' => by
      have htype := hdenotes.sameType hdenotes'
      obtain ⟨-, node, hnode, -, rfl⟩ := hdenotes
      cases e' with
      | var =>
          obtain ⟨-, node', hnode', -, rfl⟩ := hdenotes'
          rw [Option.some.inj (hnode.symm.trans hnode')]
      | call => exact absurd (Expr.nodeType_call htype) (by simp)
      | _ => simp [Expr.nodeType] at htype
  | .unop op e, e', n, hdenotes, hdenotes' => by
      have htype := hdenotes.sameType hdenotes'
      obtain ⟨-, node, i, hnode, -, hop, hchild, he⟩ := hdenotes
      cases e' with
      | unop op' e' =>
          obtain ⟨-, node', i', hnode', -, hop', hchild', he'⟩ := hdenotes'
          obtain rfl := Option.some.inj (hnode.symm.trans hnode')
          obtain ⟨rfl, -⟩ := List.cons.inj (hchild.symm.trans hchild')
          rw [Option.some.inj (hop.symm.trans hop'), Denotes.unique e e' i he he']
      | call => exact absurd (Expr.nodeType_call htype) (by simp)
      | _ => simp [Expr.nodeType] at htype
  | .binop op l r, e', n, hdenotes, hdenotes' => by
      have htype := hdenotes.sameType hdenotes'
      obtain ⟨-, node, i, j, hnode, -, hop, hchild, hl, hr⟩ := hdenotes
      cases e' with
      | binop op' l' r' =>
          obtain ⟨-, node', i', j', hnode', -, hop', hchild', hl', hr'⟩ := hdenotes'
          obtain rfl := Option.some.inj (hnode.symm.trans hnode')
          obtain ⟨rfl, hmore⟩ := List.cons.inj (hchild.symm.trans hchild')
          obtain ⟨rfl, -⟩ := List.cons.inj hmore
          rw [Option.some.inj (hop.symm.trans hop'), Denotes.unique l l' i hl hl',
            Denotes.unique r r' j hr hr']
      | call => exact absurd (Expr.nodeType_call htype) (by simp)
      | _ => simp [Expr.nodeType] at htype
  | .call name args, e', n, hdenotes, hdenotes' => by
      obtain ⟨name', args', rfl⟩ := Expr.nodeType_call (hdenotes.sameType hdenotes').symm
      obtain ⟨-, node, hnode, -, rfl, hargs⟩ := hdenotes
      obtain ⟨-, node', hnode', -, rfl, hargs'⟩ := hdenotes'
      obtain rfl := Option.some.inj (hnode.symm.trans hnode')
      rw [DenotesAll.unique args args' node.child hargs hargs']

@[inherit_doc Denotes.unique]
theorem DenotesAll.unique {nodes : List Node} {lo lo' : Nat} : ∀ (es es' : List Expr)
    (ids : List Nat), DenotesAll nodes lo es ids → DenotesAll nodes lo' es' ids → es = es'
  | [], es', ids, hall, hall' => by
      rw [DenotesAll] at hall
      subst hall
      cases es' with
      | nil => rfl
      | cons e' es' =>
          obtain ⟨_, _, hids, -⟩ := hall'
          exact absurd hids (by simp)
  | e :: es, es', ids, hall, hall' => by
      obtain ⟨i, more, rfl, he, hes⟩ := hall
      cases es' with
      | nil => exact absurd hall' (by simp [DenotesAll])
      | cons e' es' =>
          obtain ⟨i', more', hids, he', hes'⟩ := hall'
          obtain ⟨rfl, rfl⟩ := List.cons.inj hids
          rw [Denotes.unique e e' i he he', DenotesAll.unique es es' more hes hes']

end

/-! ## What is derived -/

variable {ts us rest : List Token} {d : Dialect} {e : Expr} {level : Nat}

/-- No operator of the level or of a tighter one comes next. -/
def StopsAt (level : Nat) (tokens : List Token) : Prop :=
  ∀ j, level ≤ j → nextType tokens ∉ opsAt j

theorem StopsAt.mono {level' : Nat} (hstops : StopsAt level rest) (hle : level ≤ level') :
    StopsAt level' rest :=
  fun j hj => hstops j (hle.trans hj)

theorem stopsAt_five : StopsAt 5 rest := by
  intro j hj
  obtain ⟨k, rfl⟩ := Nat.exists_eq_add_of_le' hj
  exact List.not_mem_nil

theorem opsAt_lt {type : TokenType} (htype : type ∈ opsAt level) : level < 5 := by
  by_contra hge
  obtain ⟨m, rfl⟩ := Nat.exists_eq_add_of_le' (Nat.not_lt.mp hge)
  exact List.not_mem_nil htype

/-- An operator belongs to one level. -/
theorem opsAt_disjoint {type : TokenType} {j : Nat} (hlevel : type ∈ opsAt level)
    (hj : type ∈ opsAt j) : level = j := by
  have hlevel' := opsAt_lt hlevel
  have hj' := opsAt_lt hj
  interval_cases level <;> interval_cases j <;> revert type <;> decide

/-- The binary operators. -/
def binaryOps : List TokenType :=
  [.or, .and, .eq, .neq, .lt, .le, .gt, .ge, .plus, .minus, .star, .slash, .percent]

theorem mem_binaryOps {type : TokenType} (htype : type ∈ opsAt level) : type ∈ binaryOps := by
  have hlevel := opsAt_lt htype
  interval_cases level <;> revert type <;> decide

theorem opsAt_ne_eof {type : TokenType} (htype : type ∈ opsAt level) : type ≠ .eof := by
  have hmem := mem_binaryOps htype
  rintro rfl
  exact absurd hmem (by decide)

/-- A token that is no operator stops every expression. -/
theorem stopsAt_of_notMem (hnext : nextType rest ∉ binaryOps) : StopsAt level rest :=
  fun _ _ hmem => hnext (mem_binaryOps hmem)

/-- An expression takes a token at least. -/
theorem Derives.length {sym : ExprSym} (hderives : Derives d sym ts rest) :
    rest.length ≤ ts.length ∧ ∀ level e, sym = .expr level e → rest.length < ts.length := by
  induction hderives with
  | int | str | true_ | false_ | var => simp
  | call _ _ _ _ _ ih | paren _ _ _ ih => simp at ih ⊢; omega
  | unop _ _ ih => simp at ih ⊢; omega
  | lift _ _ ih => simp at ih ⊢; omega
  | binop _ _ _ _ ihl ihr => simp at ihl ihr ⊢; omega
  | nil => simp
  | last _ _ ih => simp at ih ⊢; omega
  | cons _ _ _ _ ihe ihes => simp at ihe ihes ⊢; omega

/-- No expression begins like this. -/
theorem Derives.head {sym : ExprSym} (hderives : Derives d sym ts rest) :
    ∀ level e, sym = .expr level e → nextType ts ≠ .rparen ∧ nextType ts ≠ .eof := by
  induction hderives with
  | int ht | str ht | true_ ht | false_ ht | var ht => simp [nextType, ht]
  | call ht => simp [nextType, ht]
  | paren hopening => simp [nextType, hopening]
  | unop ht => rcases ht with ht | ht <;> simp [nextType, ht]
  | lift _ _ ih => exact fun _ _ _ => ih _ _ rfl
  | binop _ _ _ _ ih => exact fun _ _ _ => ih _ _ rfl
  | nil | last | cons => nofun

end GeckoOS.Gk
