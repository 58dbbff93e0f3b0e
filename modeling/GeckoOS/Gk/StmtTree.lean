/-
# Trees of statements

A program is a tree of statements over the trees of its expressions.  The nodes that the parser
makes for it are related to it node by node, and so are its tokens: the grammar of the language,
read with the tree of what is derived.

A block has a node of its own.  What stands behind the body of an if is a block, for else, or
another if, for elif.
-/

import GeckoOS.Gk.StmtParsing
import Mathlib.Data.List.Forall2

namespace GeckoOS.Gk

/-! ## Trees -/

/-- Statements. -/
inductive Stmt
  | expr (e : Expr)
  | assign (name : Text) (e : Expr)
  | return_ (value : Option Expr)
  | break_
  | continue_
  | def_ (name : Text) (params : List Text) (body : Stmt)
  | if_ (cond : Expr) (body : Stmt)
  | ifElse (cond : Expr) (body other : Stmt)
  | while_ (cond : Expr) (body : Stmt)
  | for_ (name : Text) (iter : Expr) (body : Stmt)
  | block (stmts : List Stmt)

/-- At `n`, and not before `lo`, there is a node with these fields. -/
def NodeAt (nodes : List Node) (lo n : Nat) (type : NodeType) (name : Text) (child : List Nat) :
    Prop :=
  lo ≤ n ∧ ∃ node, nodes[n]? = some node ∧ node.type = type ∧ node.strVal = name ∧
    node.child = child

/-- The nodes of parameters. -/
def AreParams (nodes : List Node) (lo : Nat) : List Text → List Nat → Prop :=
  List.Forall₂ fun param n => NodeAt nodes lo n .var param []

mutual

/-- The node `n` and those below it are this statement, with no node before `lo`. -/
def IsStmt (nodes : List Node) (lo : Nat) : Stmt → Nat → Prop
  | .expr e, n => Denotes nodes lo e n
  | .assign name e, n => ∃ i, NodeAt nodes lo n .assign name [i] ∧ Denotes nodes (n + 1) e i
  | .return_ none, n => NodeAt nodes lo n .return_ [] []
  | .return_ (some e), n => ∃ i, NodeAt nodes lo n .return_ [] [i] ∧ Denotes nodes (n + 1) e i
  | .break_, n => NodeAt nodes lo n .break_ [] []
  | .continue_, n => NodeAt nodes lo n .continue_ [] []
  | .def_ name params body, n => ∃ ids j, NodeAt nodes lo n .def_ name (ids ++ [j]) ∧
      AreParams nodes (n + 1) params ids ∧ IsStmt nodes (n + 1) body j
  | .if_ cond body, n => ∃ i j, NodeAt nodes lo n .if_ [] [i, j] ∧
      Denotes nodes (n + 1) cond i ∧ IsStmt nodes (n + 1) body j
  | .ifElse cond body other, n => ∃ i j k, NodeAt nodes lo n .if_ [] [i, j, k] ∧
      Denotes nodes (n + 1) cond i ∧ IsStmt nodes (n + 1) body j ∧ IsStmt nodes (n + 1) other k
  | .while_ cond body, n => ∃ i j, NodeAt nodes lo n .while_ [] [i, j] ∧
      Denotes nodes (n + 1) cond i ∧ IsStmt nodes (n + 1) body j
  | .for_ name iter body, n => ∃ i j, NodeAt nodes lo n .for_ name [i, j] ∧
      Denotes nodes (n + 1) iter i ∧ IsStmt nodes (n + 1) body j
  | .block stmts, n => ∃ ids, NodeAt nodes lo n .block [] ids ∧ AreStmts nodes (n + 1) stmts ids

/-- The same for a list of nodes. -/
def AreStmts (nodes : List Node) (lo : Nat) : List Stmt → List Nat → Prop
  | [], ids => ids = []
  | st :: sts, ids => ∃ i more, ids = i :: more ∧ IsStmt nodes lo st i ∧ AreStmts nodes lo sts more

end

/-! ## Trees in a growing pool -/

variable {nodes nodes' : List Node} {lo lo' n : Nat} {type : NodeType} {name : Text}
  {child : List Nat}

theorem NodeAt.congr (hlo : lo' ≤ lo)
    (hsame : ∀ i, lo ≤ i → i < nodes.length → nodes'[i]? = nodes[i]?)
    (hnode : NodeAt nodes lo n type name child) : NodeAt nodes' lo' n type name child := by
  obtain ⟨hn, node, hget, hfields⟩ := hnode
  exact ⟨hlo.trans hn, node,
    (hsame n hn (List.getElem?_eq_some_iff.mp hget).1).trans hget, hfields⟩

theorem AreParams.congr (hlo : lo' ≤ lo)
    (hsame : ∀ i, lo ≤ i → i < nodes.length → nodes'[i]? = nodes[i]?) {params : List Text}
    {ids : List Nat} (hparams : AreParams nodes lo params ids) :
    AreParams nodes' lo' params ids :=
  List.Forall₂.imp (fun _ _ hnode => hnode.congr hlo hsame) hparams

/-- What lies behind a node lies behind what is before it. -/
theorem NodeAt.behind (hnode : NodeAt nodes lo n type name child)
    (hsame : ∀ i, lo ≤ i → i < nodes.length → nodes'[i]? = nodes[i]?) :
    ∀ i, n + 1 ≤ i → i < nodes.length → nodes'[i]? = nodes[i]? :=
  fun i hi => hsame i (hnode.1.trans (Nat.le_of_succ_le hi))

mutual

/-- Only the nodes from `lo` on matter. -/
theorem IsStmt.congr {nodes nodes' : List Node} {lo lo' : Nat} (hlo : lo' ≤ lo)
    (hsame : ∀ i, lo ≤ i → i < nodes.length → nodes'[i]? = nodes[i]?) :
    ∀ (st : Stmt) (n : Nat), IsStmt nodes lo st n → IsStmt nodes' lo' st n
  | .expr e, n, he => Denotes.congr hlo hsame e n he
  | .assign _ e, _, ⟨i, hnode, he⟩ =>
      ⟨i, hnode.congr hlo hsame, Denotes.congr le_rfl (hnode.behind hsame) e i he⟩
  | .return_ none, _, hnode => NodeAt.congr hlo hsame hnode
  | .return_ (some e), _, ⟨i, hnode, he⟩ =>
      ⟨i, hnode.congr hlo hsame, Denotes.congr le_rfl (hnode.behind hsame) e i he⟩
  | .break_, _, hnode => NodeAt.congr hlo hsame hnode
  | .continue_, _, hnode => NodeAt.congr hlo hsame hnode
  | .def_ _ _ body, _, ⟨ids, j, hnode, hparams, hbody⟩ =>
      ⟨ids, j, hnode.congr hlo hsame, hparams.congr le_rfl (hnode.behind hsame),
        IsStmt.congr le_rfl (hnode.behind hsame) body j hbody⟩
  | .if_ cond body, _, ⟨i, j, hnode, hcond, hbody⟩ =>
      ⟨i, j, hnode.congr hlo hsame, Denotes.congr le_rfl (hnode.behind hsame) cond i hcond,
        IsStmt.congr le_rfl (hnode.behind hsame) body j hbody⟩
  | .ifElse cond body other, _, ⟨i, j, k, hnode, hcond, hbody, hother⟩ =>
      ⟨i, j, k, hnode.congr hlo hsame, Denotes.congr le_rfl (hnode.behind hsame) cond i hcond,
        IsStmt.congr le_rfl (hnode.behind hsame) body j hbody,
        IsStmt.congr le_rfl (hnode.behind hsame) other k hother⟩
  | .while_ cond body, _, ⟨i, j, hnode, hcond, hbody⟩ =>
      ⟨i, j, hnode.congr hlo hsame, Denotes.congr le_rfl (hnode.behind hsame) cond i hcond,
        IsStmt.congr le_rfl (hnode.behind hsame) body j hbody⟩
  | .for_ _ iter body, _, ⟨i, j, hnode, hiter, hbody⟩ =>
      ⟨i, j, hnode.congr hlo hsame, Denotes.congr le_rfl (hnode.behind hsame) iter i hiter,
        IsStmt.congr le_rfl (hnode.behind hsame) body j hbody⟩
  | .block stmts, _, ⟨ids, hnode, hstmts⟩ =>
      ⟨ids, hnode.congr hlo hsame, AreStmts.congr le_rfl (hnode.behind hsame) stmts ids hstmts⟩

@[inherit_doc IsStmt.congr]
theorem AreStmts.congr {nodes nodes' : List Node} {lo lo' : Nat} (hlo : lo' ≤ lo)
    (hsame : ∀ i, lo ≤ i → i < nodes.length → nodes'[i]? = nodes[i]?) :
    ∀ (sts : List Stmt) (ids : List Nat), AreStmts nodes lo sts ids → AreStmts nodes' lo' sts ids
  | [], _, hids => hids
  | st :: sts, _, ⟨i, more, hids, hst, hsts⟩ =>
      ⟨i, more, hids, IsStmt.congr hlo hsame st i hst, AreStmts.congr hlo hsame sts more hsts⟩

end

/-! ## The grammar, with its trees -/

/-- The grammar of the language within the limits of the parser. -/
def Dialect.strict : Dialect := ⟨false, true⟩

/-- Parameters, with the commas between them. -/
inductive SpellsParams : List Text → List Token → List Token → Prop
  | nil {ts : List Token} (hnext : nextType ts = .rparen) : SpellsParams [] ts ts
  | last {t : Token} {rest : List Token} (ht : t.type = .ident) (hnext : nextType rest = .rparen) :
      SpellsParams [t.strVal] (t :: rest) rest
  | cons {t comma : Token} {params : List Text} {ts rest : List Token} (ht : t.type = .ident)
      (hcomma : comma.type = .comma) (hrest : SpellsParams params ts rest) :
      SpellsParams (t.strVal :: params) (t :: comma :: ts) rest

/-- A statement, what stands behind the keyword of an if or elif, the colon and the block of a
compound statement, or statements one after the other. -/
inductive TreeSym
  | stmt (st : Stmt)
  | branches (st : Stmt)
  | body (st : Stmt)
  | stmts (sts : List Stmt)

/-- From these tokens on there is this, and those tokens are left behind it. -/
inductive Spells : TreeSym → List Token → List Token → Prop
  | expr {e : Expr} {nl : Token} {ts rest : List Token}
      (he : Derives .strict (.expr 0 e) ts (nl :: rest)) (hnl : nl.type = .newline) :
      Spells (.stmt (.expr e)) ts rest
  | assign {t op nl : Token} {e : Expr} {ts rest : List Token} (ht : t.type = .ident)
      (hop : op.type = .assign) (he : Derives .strict (.expr 0 e) ts (nl :: rest))
      (hnl : nl.type = .newline) : Spells (.stmt (.assign t.strVal e)) (t :: op :: ts) rest
  | bareReturn {t nl : Token} {rest : List Token} (ht : t.type = .return_)
      (hnl : nl.type = .newline) : Spells (.stmt (.return_ none)) (t :: nl :: rest) rest
  | return_ {t nl : Token} {e : Expr} {ts rest : List Token} (ht : t.type = .return_)
      (he : Derives .strict (.expr 0 e) ts (nl :: rest)) (hnl : nl.type = .newline) :
      Spells (.stmt (.return_ (some e))) (t :: ts) rest
  | break_ {t nl : Token} {rest : List Token} (ht : t.type = .break_) (hnl : nl.type = .newline) :
      Spells (.stmt .break_) (t :: nl :: rest) rest
  | continue_ {t nl : Token} {rest : List Token} (ht : t.type = .continue_)
      (hnl : nl.type = .newline) : Spells (.stmt .continue_) (t :: nl :: rest) rest
  | def_ {t name opening closing : Token} {params : List Text} {body : Stmt}
      {ts us rest : List Token} (ht : t.type = .def_) (hname : name.type = .ident)
      (hopening : opening.type = .lparen) (hparams : SpellsParams params ts (closing :: us))
      (hclosing : closing.type = .rparen) (hbody : Spells (.body body) us rest) :
      Spells (.stmt (.def_ name.strVal params body)) (t :: name :: opening :: ts) rest
  | while_ {t : Token} {e : Expr} {body : Stmt} {ts us rest : List Token} (ht : t.type = .while_)
      (he : Derives .strict (.expr 0 e) ts us) (hbody : Spells (.body body) us rest) :
      Spells (.stmt (.while_ e body)) (t :: ts) rest
  | for_ {t var in_ : Token} {e : Expr} {body : Stmt} {ts us rest : List Token}
      (ht : t.type = .for_) (hvar : var.type = .ident) (hin : in_.type = .in_)
      (he : Derives .strict (.expr 0 e) ts us) (hbody : Spells (.body body) us rest) :
      Spells (.stmt (.for_ var.strVal e body)) (t :: var :: in_ :: ts) rest
  | if_ {t : Token} {st : Stmt} {ts rest : List Token} (ht : t.type = .if_)
      (hbranches : Spells (.branches st) ts rest) : Spells (.stmt st) (t :: ts) rest
  | ifOnly {e : Expr} {body : Stmt} {ts us rest : List Token}
      (he : Derives .strict (.expr 0 e) ts us) (hbody : Spells (.body body) us rest)
      (hrest : nextType rest ∉ [.newline, .elif, .else_]) :
      Spells (.branches (.if_ e body)) ts rest
  | ifElse {e : Expr} {body other : Stmt} {t : Token} {ts us vs rest : List Token}
      (he : Derives .strict (.expr 0 e) ts us) (hbody : Spells (.body body) us (t :: vs))
      (ht : t.type = .else_) (helse : Spells (.body other) vs rest) :
      Spells (.branches (.ifElse e body other)) ts rest
  | ifElif {e : Expr} {body other : Stmt} {t : Token} {ts us vs rest : List Token}
      (he : Derives .strict (.expr 0 e) ts us) (hbody : Spells (.body body) us (t :: vs))
      (ht : t.type = .elif) (helif : Spells (.branches other) vs rest) :
      Spells (.branches (.ifElse e body other)) ts rest
  | body {colon nl indent dedent : Token} {sts : List Stmt} {ts rest : List Token}
      (hcolon : colon.type = .colon) (hnl : nl.type = .newline) (hindent : indent.type = .indent)
      (hstmts : Spells (.stmts sts) ts (dedent :: rest)) (hdedent : dedent.type = .dedent)
      (hlimit : sts.length ≤ maxChildren) :
      Spells (.body (.block sts)) (colon :: nl :: indent :: ts) rest
  | nil {ts : List Token} (hnext : nextType ts = .dedent ∨ nextType ts = .eof) :
      Spells (.stmts []) ts ts
  | cons {st : Stmt} {sts : List Stmt} {ts us rest : List Token}
      (hstmt : Spells (.stmt st) ts us) (hmore : Spells (.stmts sts) us rest) :
      Spells (.stmts (st :: sts)) ts rest

variable {sym : TreeSym} {params : List Text} {ts us rest : List Token}

theorem SpellsParams.length (hparams : SpellsParams params ts rest) : rest.length ≤ ts.length := by
  induction hparams with
  | nil => exact le_rfl
  | last => exact Nat.le_succ _
  | cons _ _ _ ih => exact ih.trans (Nat.le_add_right _ 2)

/-- Nothing is put back, and a statement takes a token at least. -/
theorem Spells.length (hspells : Spells sym ts rest) :
    rest.length ≤ ts.length ∧ ∀ st, sym = .stmt st → rest.length < ts.length := by
  induction hspells with
  | expr he | assign _ _ he | return_ _ he =>
      have hless := he.length.2 _ _ rfl
      simp only [List.length_cons] at hless ⊢
      exact ⟨by omega, fun _ _ => by omega⟩
  | bareReturn | break_ | continue_ =>
      simp only [List.length_cons]
      exact ⟨by omega, fun _ _ => by omega⟩
  | def_ _ _ _ hparams _ _ ih =>
      have hless := hparams.length
      simp only [List.length_cons] at hless ⊢
      exact ⟨by omega, fun _ _ => by omega⟩
  | while_ _ he _ ih | for_ _ _ _ he _ ih =>
      have hless := he.length.2 _ _ rfl
      simp only [List.length_cons]
      exact ⟨by omega, fun _ _ => by omega⟩
  | if_ _ _ ih =>
      simp only [List.length_cons]
      exact ⟨by omega, fun _ _ => by omega⟩
  | ifOnly he _ _ ih =>
      have hless := he.length.2 _ _ rfl
      exact ⟨by omega, nofun⟩
  | ifElse he _ _ _ ihbody ihmore | ifElif he _ _ _ ihbody ihmore =>
      have hless := he.length.2 _ _ rfl
      have hbody := ihbody.1
      rw [List.length_cons] at hbody
      exact ⟨by omega, nofun⟩
  | body _ _ _ _ _ _ ih =>
      have hless := ih.1
      simp only [List.length_cons] at hless ⊢
      exact ⟨by omega, nofun⟩
  | nil => exact ⟨le_rfl, nofun⟩
  | cons _ _ ihstmt ihmore => exact ⟨ihmore.1.trans ihstmt.1, nofun⟩

theorem Spells.starts {st : Stmt} (hspells : Spells (.stmt st) ts rest) :
    nextType ts ∈ stmtStarts := by
  cases hspells with
  | expr he => exact List.mem_append_left _ (he.starts _ _ rfl)
  | assign ht | bareReturn ht | return_ ht | break_ ht | continue_ ht | def_ ht | while_ ht
  | for_ ht | if_ ht =>
      rw [nextType_cons, ht]
      decide

theorem Spells.colon {st : Stmt} (hspells : Spells (.body st) ts rest) : nextType ts = .colon := by
  cases hspells with
  | body hcolon => exact hcolon

/-- Statements begin with a statement, or with what ends them. -/
theorem Spells.next {sts : List Stmt} (hspells : Spells (.stmts sts) ts rest) :
    nextType ts ∈ .dedent :: .eof :: stmtStarts := by
  cases hspells with
  | nil hnext => rcases hnext with hnext | hnext <;> simp [hnext]
  | cons hstmt => exact List.mem_cons_of_mem _ (List.mem_cons_of_mem _ hstmt.starts)

end GeckoOS.Gk
