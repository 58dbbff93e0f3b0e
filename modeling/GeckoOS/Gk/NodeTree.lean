/-
# The tree in the node pool

A parse function makes the nodes of what it has read next to each other in the pool, the
node of an operator behind its operands and the node of any other construct before its
parts.  So the nodes that are new when it returns are one tree, with the node it returns at
the top, and the nodes that were there before are as they were.

In this tree every node has the children that its type asks for.
-/

import GeckoOS.Gk.Interp
import GeckoOS.Gk.NodePool
import GeckoOS.Math.Forest

namespace GeckoOS.Gk

open GeckoOS.Math

/-- The types of the nodes that have no children. -/
def NodeType.isLeaf : NodeType → Bool
  | .int | .str | .bool | .var | .break_ | .continue_ => true
  | _ => false

/-- The types of the nodes of calls. -/
def NodeType.isCall : NodeType → Bool
  | .print | .range | .input | .intCast | .call => true
  | _ => false

/-- The types of the children that a node of a type may have. -/
inductive Shape : NodeType → List NodeType → Prop
  | leaf {type : NodeType} (htype : type.isLeaf) : Shape type []
  | binop {l r : NodeType} (hl : l.isExpr) (hr : r.isExpr) : Shape .binop [l, r]
  | unop {operand : NodeType} (hoperand : operand.isExpr) : Shape .unop [operand]
  | call {type : NodeType} {args : List NodeType} (htype : type.isCall)
      (hargs : ∀ arg ∈ args, arg.isExpr) : Shape type args
  | assign {value : NodeType} (hvalue : value.isExpr) : Shape .assign [value]
  | bareReturn : Shape .return_ []
  | return_ {value : NodeType} (hvalue : value.isExpr) : Shape .return_ [value]
  | if_ {cond : NodeType} (hcond : cond.isExpr) : Shape .if_ [cond, .block]
  | ifElse {cond other : NodeType} (hcond : cond.isExpr) : Shape .if_ [cond, .block, other]
  | while_ {cond : NodeType} (hcond : cond.isExpr) : Shape .while_ [cond, .block]
  | for_ {iter : NodeType} (hiter : iter.isExpr) : Shape .for_ [iter, .block]
  | def_ {params : List NodeType} (hparams : ∀ param ∈ params, param = .var) :
      Shape .def_ (params ++ [.block])
  | block {stmts : List NodeType} : Shape .block stmts

/-- From `lo` on, the pool is the trees with these roots. -/
abbrev Trees (lo : Nat) (nodes : List Node) (roots : List Nat) (types : List NodeType) : Prop :=
  Planted Node.child Node.type Shape lo nodes roots types

/-- A tree has been made, with a node of this type at the top. -/
structure Plants (nodes nodes' : List Node) (n : Nat) (type : NodeType) : Prop where
  old : ∀ i < nodes.length, nodes'[i]? = nodes[i]?
  tree : Trees nodes.length nodes' [n] [type]

/-- Since there were only the nodes `nodes`, the node `node` has been made and, behind it, the
trees that are to be below it. -/
structure Grows (nodes : List Node) (node : Node) (roots : List Nat) (types : List NodeType)
    (nodes' : List Node) : Prop where
  old : ∀ i < nodes.length, nodes'[i]? = nodes[i]?
  found : nodes'[nodes.length]? = some node
  below : Trees (nodes.length + 1) nodes' roots types

/-- A parse function that makes the tree of an expression. -/
def PlantsExpr (x : Parse Nat) : Prop :=
  ∀ s, Ensures x s fun n s' => ∃ type : NodeType, type.isExpr ∧ Plants s.nodes s'.nodes n type

/-- A parse function that makes the tree of a statement. -/
def PlantsStmt (x : Parse Nat) : Prop :=
  ∀ s, Ensures x s fun n s' => ∃ type, Plants s.nodes s'.nodes n type

/-- A parse function that makes the tree of a block. -/
def PlantsBlock (x : Parse Nat) : Prop :=
  ∀ s, Ensures x s fun n s' => Plants s.nodes s'.nodes n .block

variable {nodes nodes' nodes'' : List Node} {node : Node} {roots : List Nat}
  {types : List NodeType} {type : NodeType} {n : Nat} {expr stmt : Parse Nat} {s : Parser}

/-! ## Trees -/

theorem Plants.le (hplants : Plants nodes nodes' n type) : nodes.length ≤ nodes'.length :=
  hplants.tree.le

/-- A new node without children. -/
theorem Plants.leaf (nodes : List Node) (hchild : node.child = []) (htype : node.type = type)
    (hleaf : type.isLeaf) : Plants nodes (nodes ++ [node]) nodes.length type := by
  subst htype
  refine ⟨fun i hi => List.getElem?_append_left hi, Planted.graft ?_ (.leaf hleaf)⟩
  rw [hchild]
  exact .nil nodes

/-- A new node on top of a tree. -/
theorem Plants.unop (hplants : Plants nodes nodes' n type) (hexpr : type.isExpr)
    (hnode : node.child = [n]) (htype : node.type = .unop) :
    Plants nodes (nodes' ++ [node]) nodes'.length .unop := by
  have hle := hplants.le
  refine ⟨fun i hi => ?_, ?_⟩
  · rw [List.getElem?_append_left (by omega)]
    exact hplants.old i hi
  · rw [← htype]
    refine Planted.graft (hnode ▸ hplants.tree) ?_
    rw [htype]
    exact .unop hexpr

/-- A new node on top of two trees. -/
theorem Plants.binop {l r : Nat} {type' : NodeType} (hl : Plants nodes nodes' l type)
    (hexpr : type.isExpr) (hr : Plants nodes' nodes'' r type') (hexpr' : type'.isExpr)
    (hnode : node.child = [l, r]) (htype : node.type = .binop) :
    Plants nodes (nodes'' ++ [node]) nodes''.length .binop := by
  have hle := hl.le
  have hle' := hr.le
  refine ⟨fun i hi => ?_, ?_⟩
  · rw [List.getElem?_append_left (by omega), hr.old i (by omega)]
    exact hl.old i hi
  · have hchildren : Trees nodes.length nodes'' node.child [type, type'] := by
      rw [hnode]
      exact hl.tree.append hr.tree hr.old
    rw [← htype]
    refine hchildren.graft ?_
    rw [htype]
    exact .binop hexpr hexpr'

theorem Grows.lt (hgrows : Grows nodes node roots types nodes') : nodes.length < nodes'.length :=
  hgrows.below.le

/-- A node is made. -/
theorem Grows.push (nodes : List Node) (node : Node) : Grows nodes node [] [] (nodes ++ [node]) := by
  refine ⟨fun i hi => List.getElem?_append_left hi, by simp, ?_⟩
  have hlength : (nodes ++ [node]).length = nodes.length + 1 := by simp
  exact hlength ▸ Planted.nil (nodes ++ [node])

/-- Another tree is made. -/
theorem Grows.plant (hgrows : Grows nodes node roots types nodes')
    (hplants : Plants nodes' nodes'' n type) :
    Grows nodes node (roots ++ [n]) (types ++ [type]) nodes'' := by
  have hlt := hgrows.lt
  refine ⟨fun i hi => ?_, ?_, hgrows.below.append hplants.tree hplants.old⟩
  · rw [hplants.old i (by omega)]
    exact hgrows.old i hi
  · rw [hplants.old _ hlt]
    exact hgrows.found

/-- The node is written into. -/
theorem Grows.write (hgrows : Grows nodes node roots types nodes') (change : Node → Node) :
    Grows nodes (change node) roots types (nodes'.modify nodes.length change) := by
  have hother : ∀ i, i ≠ nodes.length → (nodes'.modify nodes.length change)[i]? = nodes'[i]? :=
    fun i hi => List.getElem?_modify_ne _ nodes' (Ne.symm hi)
  refine ⟨fun i hi => ?_, ?_, hgrows.below.congr (by simp) fun i hi => hother i (by omega)⟩
  · rw [hother i (by omega)]
    exact hgrows.old i hi
  · rw [List.getElem?_modify_eq, hgrows.found]
    rfl

/-- It has got its children. -/
theorem Grows.close (hgrows : Grows nodes node roots types nodes') (htype : node.type = type)
    (hchild : node.child = roots) (hshape : Shape type types) :
    Plants nodes nodes' nodes.length type := by
  subst htype
  exact ⟨hgrows.old, Planted.crown hgrows.found (hchild ▸ hgrows.below) hshape⟩

/-- So far the node has children of these types. -/
def Open (nodes : List Node) (type : NodeType) (types : List NodeType) (nodes' : List Node) :
    Prop :=
  ∃ node, Grows nodes node node.child types nodes' ∧ node.type = type

theorem Open.push (nodes : List Node) (hchild : node.child = []) (htype : node.type = type) :
    Open nodes type [] (nodes ++ [node]) :=
  ⟨node, hchild ▸ Grows.push nodes node, htype⟩

/-- It gets another child. -/
theorem Open.add {kind : NodeType} (hopen : Open nodes type types nodes')
    (hplants : Plants nodes' nodes'' n kind) :
    Open nodes type (types ++ [kind]) (nodes''.modify nodes.length fun node =>
      { node with child := node.child ++ [n] }) := by
  obtain ⟨node, hgrows, htype⟩ := hopen
  exact ⟨_, (hgrows.plant hplants).write fun node => { node with child := node.child ++ [n] },
    htype⟩

theorem Open.close (hopen : Open nodes type types nodes') (hshape : Shape type types) :
    Plants nodes nodes' nodes.length type := by
  obtain ⟨node, hgrows, htype⟩ := hopen
  exact hgrows.close htype rfl hshape

/-! ## Expressions -/

/-- The arguments of a call. -/
theorem parseArgs_opens (hexpr : PlantsExpr expr) (fuel : Nat)
    (hopen : Open nodes type types s.nodes) (htypes : ∀ arg ∈ types, arg.isExpr) :
    Ensures (parseArgs expr nodes.length fuel) s fun _ s' => ∃ types',
      Open nodes type types' s'.nodes ∧ ∀ arg ∈ types', arg.isExpr := by
  induction fuel generalizing s types with
  | zero => exact ensures_throw _
  | succ fuel ih =>
      simp only [parseArgs, ensures_bind, ensures_check, ensures_ite, ensures_pure,
        ensures_childCount, ensures_fail, ensures_addChild, ensures_matchToken]
      refine ⟨fun _ => ⟨types, hopen, htypes⟩, fun _ => ?_⟩
      refine (hexpr s).mono fun arg s' hplanted => ?_
      obtain ⟨kind, hisExpr, hplants⟩ := hplanted
      have hadded := hopen.add hplants
      have htypes' : ∀ arg ∈ types ++ [kind], arg.isExpr := by
        intro arg harg
        rcases List.mem_append.mp harg with hold | hnew
        · exact htypes arg hold
        · exact List.mem_singleton.mp hnew ▸ hisExpr
      refine ⟨fun _ => trivial, fun _ => ⟨fun _ => ⟨fun _ => ?_, fun h => absurd trivial h⟩,
        fun _ => ⟨fun h => absurd h Bool.false_ne_true, fun _ => ⟨_, hadded, htypes'⟩⟩⟩⟩
      refine ih ?_ htypes'
      rw [Parser.next_nodes]
      exact hadded

theorem callType_isCall (name : Text) : (callType name).isCall := by
  rw [callType]
  split_ifs <;> rfl

theorem parsePrimary_plants (hexpr : PlantsExpr expr) (fuel : Nat) :
    PlantsExpr (parsePrimary expr fuel) := by
  intro s
  have hleaf : ∀ node : Node, node.child = [] → node.type.isExpr → node.type.isLeaf →
      ∃ type : NodeType, type.isExpr ∧
        Plants s.nodes (s.next.push node).nodes s.nodes.length type := by
    intro node hchild his hleaf
    rw [Parser.push_nodes, Parser.next_nodes]
    exact ⟨_, his, .leaf s.nodes hchild rfl hleaf⟩
  rw [parsePrimary, ensures_bind, ensures_peek]
  split
  case h_5 =>
    simp only [ensures_bind, ensures_advance, ensures_check, ensures_ite, ensures_writtenNode,
      ensures_expect, ensures_pure, Parser.next_nodes]
    refine ⟨fun _ _ => ?_, fun _ _ => ?_⟩
    · have hopen := @Open.push { blankNode (callType s.head.strVal) s.head.line with
        strVal := s.head.strVal } _ s.nodes rfl rfl
      refine (@parseArgs_opens _ _ _ _ (s.next.next.push _) hexpr fuel (by simpa using hopen)
        (by simp)).mono fun _ s' hargs _ => ?_
      obtain ⟨types, hopen', htypes⟩ := hargs
      exact ⟨_, callType_isExpr _, hopen'.close (.call (callType_isCall _) htypes)⟩
    · exact hleaf _ rfl rfl rfl
  case h_6 =>
    simp only [ensures_bind, ensures_advance, ensures_expect, ensures_pure]
    refine (hexpr s.next).mono fun n s' hplanted _ => ?_
    rw [Parser.next_nodes] at hplanted ⊢
    exact hplanted
  case h_7 => exact ensures_fail _
  all_goals
    simp only [ensures_bind, ensures_advance, ensures_writtenNode, Parser.next_nodes]
    exact fun _ => hleaf _ rfl rfl rfl

theorem parseUnary_plants (hexpr : PlantsExpr expr) (fuel depth : Nat) :
    PlantsExpr (parseUnary expr fuel depth) := by
  induction depth with
  | zero => exact fun _ => ensures_throw _
  | succ depth ih =>
      intro s
      rw [parseUnary, ensures_bind, ensures_peek, ensures_ite]
      refine ⟨fun _ => ?_, fun _ => parsePrimary_plants hexpr fuel s⟩
      simp only [ensures_bind, ensures_advance, ensures_writtenNode]
      refine (ih s.next).mono fun operand s' hplanted _ => ?_
      obtain ⟨type, hisExpr, hplants⟩ := hplanted
      rw [Parser.next_nodes] at hplants
      exact ⟨.unop, rfl, hplants.unop hisExpr rfl rfl⟩

/-- The loop of a level, with the tree of the left operand made since `nodes`. -/
theorem parseOperators_plants {operand : Parse Nat} (hoperand : PlantsExpr operand)
    (ops : List TokenType) (fuel left : Nat) (hleft : Plants nodes s.nodes left type)
    (hexpr : type.isExpr) :
    Ensures (parseOperators operand ops fuel left) s fun n s' =>
      ∃ type : NodeType, type.isExpr ∧ Plants nodes s'.nodes n type := by
  induction fuel generalizing left s type with
  | zero => exact ensures_throw _
  | succ fuel ih =>
      rw [parseOperators, ensures_bind, ensures_peek, ensures_ite, ensures_pure]
      refine ⟨fun _ => ?_, fun _ => ⟨type, hexpr, hleft⟩⟩
      simp only [ensures_bind, ensures_advance, ensures_writtenNode]
      refine (hoperand s.next).mono fun right s' hplanted _ => ?_
      obtain ⟨type', hexpr', hright⟩ := hplanted
      rw [Parser.next_nodes] at hright
      exact ih _ (hleft.binop hexpr hright hexpr' rfl rfl) rfl

theorem parseBinary_plants {operand : Parse Nat} (hoperand : PlantsExpr operand)
    (ops : List TokenType) (fuel : Nat) : PlantsExpr (parseBinary operand ops fuel) := by
  intro s
  rw [parseBinary, ensures_bind]
  refine (hoperand s).mono fun left s' hplanted => ?_
  obtain ⟨type, hexpr, hleft⟩ := hplanted
  exact parseOperators_plants hoperand ops fuel left hleft hexpr

theorem parseExpr_plants (fuel : Nat) : PlantsExpr (parseExpr fuel) := by
  induction fuel with
  | zero => exact fun _ => ensures_throw _
  | succ fuel ih =>
      have hunary := parseUnary_plants ih (fuel + 1) (fuel + 1)
      have hmul := parseBinary_plants hunary [.star, .slash, .percent] (fuel + 1)
      have hadd := parseBinary_plants hmul [.plus, .minus] (fuel + 1)
      have hcmp := parseBinary_plants hadd [.eq, .neq, .lt, .le, .gt, .ge] (fuel + 1)
      have hand := parseBinary_plants hcmp [.and] (fuel + 1)
      exact parseBinary_plants hand [.or] (fuel + 1)

/-! ## Statements -/

/-- The statements of a block, or of the program. -/
theorem parseStmts_opens (hstmt : PlantsStmt stmt) (ends : List TokenType) (full : String)
    (fuel : Nat) (hopen : Open nodes .block types s.nodes) :
    Ensures (parseStmts stmt ends full nodes.length fuel) s fun _ s' => ∃ types',
      Open nodes .block types' s'.nodes := by
  induction fuel generalizing s types with
  | zero => exact ensures_throw _
  | succ fuel ih =>
      simp only [parseStmts, ensures_bind, ensures_peek, ensures_ite, ensures_pure,
        ensures_childCount, ensures_fail, ensures_addChild, ensures_skipNewlines]
      refine ⟨fun _ => ⟨types, hopen⟩, fun _ => (hstmt s).mono fun st s' hplanted => ?_⟩
      obtain ⟨kind, hplants⟩ := hplanted
      have hadded := hopen.add hplants
      refine ⟨fun _ => trivial, fun _ => @ih (types ++ [kind]) _ ?_⟩
      rw [Parser.skip_nodes]
      exact hadded

theorem parseBlock_plants (hstmt : PlantsStmt stmt) (fuel : Nat) :
    PlantsBlock (parseBlock stmt fuel) := by
  intro s
  simp only [parseBlock, ensures_bind, ensures_peek, ensures_expect, ensures_newNode,
    ensures_skipNewlines, ensures_matchToken, ensures_pure, Parser.next_nodes]
  intro _ _
  have hopen := @Open.push (blankNode .block s.head.line) .block s.nodes rfl rfl
  refine (@parseStmts_opens _ _ _ (s.next.push _).skip hstmt _ _ fuel
    (by simpa using hopen)).mono fun _ s' hstmts => ?_
  obtain ⟨types, hopen'⟩ := hstmts
  exact ⟨fun _ => hopen'.close .block, fun _ => hopen'.close .block⟩

/-- The parameters of a definition. -/
theorem parseParams_opens (fuel : Nat) (hopen : Open nodes .def_ types s.nodes)
    (htypes : ∀ param ∈ types, param = .var) :
    Ensures (parseParams nodes.length fuel) s fun _ s' => ∃ types',
      Open nodes .def_ types' s'.nodes ∧ ∀ param ∈ types', param = .var := by
  induction fuel generalizing s types with
  | zero => exact ensures_throw _
  | succ fuel ih =>
      simp only [parseParams, ensures_bind, ensures_check, ensures_ite, ensures_pure, ensures_peek,
        ensures_fail, ensures_advance, ensures_writtenNode, ensures_addChild, ensures_matchToken,
        Parser.next_nodes]
      refine ⟨fun _ => ⟨types, hopen, htypes⟩, fun _ => ⟨fun _ => trivial, fun _ _ => ?_⟩⟩
      have hadded := hopen.add (@Plants.leaf { blankNode .var s.head.line with
        strVal := s.head.strVal } .var s.nodes rfl rfl rfl)
      have htypes' : ∀ param ∈ types ++ [.var], param = NodeType.var := by
        intro param hparam
        rcases List.mem_append.mp hparam with hold | hnew
        · exact htypes param hold
        · exact List.mem_singleton.mp hnew
      refine ⟨fun _ => ⟨fun _ => ih ?_ htypes', fun h => absurd trivial h⟩,
        fun _ => ⟨fun h => absurd h Bool.false_ne_true, fun _ => ⟨_, ?_, htypes'⟩⟩⟩
      · simpa using hadded
      · simpa using hadded

theorem parseBody_plants (hstmt : PlantsStmt stmt) (fuel : Nat) (text : String) :
    PlantsBlock (parseBody stmt fuel text) := by
  intro s
  simp only [parseBody, ensures_bind, ensures_expect, ensures_matchToken]
  refine fun _ => ⟨fun _ => ?_, fun _ => ?_⟩
  · have hblock := parseBlock_plants hstmt fuel s.next.next
    rwa [Parser.next_nodes, Parser.next_nodes] at hblock
  · have hblock := parseBlock_plants hstmt fuel s.next
    rwa [Parser.next_nodes] at hblock

theorem parseReturn_plants (hexpr : PlantsExpr expr) : PlantsStmt (parseReturn expr) := by
  intro s
  simp only [parseReturn, ensures_bind, ensures_peek, ensures_advance, ensures_newNode,
    ensures_check, ensures_ite, ensures_setNode, ensures_matchToken, ensures_pure,
    Parser.next_nodes]
  have hgrows := Grows.push s.nodes (blankNode .return_ s.head.line)
  refine fun _ => ⟨fun _ => (hexpr _).mono fun value s' hplanted => ?_, fun _ => ?_⟩
  · obtain ⟨type, hisExpr, hplants⟩ := hplanted
    rw [Parser.push_nodes, Parser.next_nodes] at hplants
    have hset := (hgrows.plant hplants).write fun node => { node with child := [value] }
    have hclosed := hset.close rfl rfl (.return_ hisExpr)
    exact ⟨fun _ => ⟨_, hclosed⟩, fun _ => ⟨_, hclosed⟩⟩
  · rw [Parser.push_nodes, Parser.next_nodes]
    have hclosed := hgrows.close rfl rfl .bareReturn
    exact ⟨fun _ => ⟨_, hclosed⟩, fun _ => ⟨_, hclosed⟩⟩

theorem parseJump_plants (hleaf : type.isLeaf) : PlantsStmt (parseJump type) := by
  intro s
  simp only [parseJump, ensures_bind, ensures_peek, ensures_advance, ensures_matchToken,
    ensures_newNode, Parser.next_nodes, Parser.push_nodes]
  have hplants := @Plants.leaf (blankNode type s.head.line) type s.nodes rfl rfl hleaf
  exact ⟨fun _ _ => ⟨_, hplants⟩, fun _ _ => ⟨_, hplants⟩⟩

theorem parseDef_plants (hstmt : PlantsStmt stmt) (fuel : Nat) :
    PlantsStmt (parseDef stmt fuel) := by
  intro s
  simp only [parseDef, ensures_bind, ensures_peek, ensures_advance, ensures_ite, ensures_fail,
    ensures_writtenNode, ensures_expect, ensures_addChild, ensures_pure, Parser.next_nodes]
  refine ⟨fun _ => trivial, fun _ _ _ => ?_⟩
  have hopen := @Open.push { blankNode .def_ s.head.line with strVal := s.next.head.strVal } .def_
    s.nodes rfl rfl
  refine (@parseParams_opens _ _ (s.next.next.push _).next fuel (by simpa using hopen)
    (by simp)).mono fun _ s' hparams _ => ?_
  obtain ⟨types, hopen', htypes⟩ := hparams
  refine (parseBody_plants hstmt fuel _ s'.next).mono fun body s'' hbody => ?_
  rw [Parser.next_nodes] at hbody
  exact ⟨_, (hopen'.add hbody).close (.def_ htypes)⟩

theorem parseIf_plants (hexpr : PlantsExpr expr) (hstmt : PlantsStmt stmt) (fuel : Nat) :
    PlantsStmt (parseIf expr stmt fuel) := by
  intro s
  simp only [parseIf, ensures_bind, ensures_peek, ensures_advance, ensures_newNode,
    ensures_setNode, ensures_skipNewlines, ensures_check, ensures_ite, ensures_pure,
    Parser.next_nodes]
  refine fun _ => (hexpr _).mono fun cond s₁ hcond => ?_
  obtain ⟨type, hisExpr, hcond⟩ := hcond
  rw [Parser.push_nodes, Parser.next_nodes] at hcond
  refine (parseBody_plants hstmt fuel _ _).mono fun body s₂ hbody => ?_
  have hset := (((Grows.push s.nodes (blankNode .if_ s.head.line)).plant hcond).plant hbody).write
    fun node => { node with child := [cond, body] }
  refine ⟨fun _ => (hstmt _).mono fun elif s₃ helif => ?_, fun _ => ⟨fun _ => ?_, fun _ => ?_⟩⟩
  · obtain ⟨type', helif⟩ := helif
    rw [Parser.skip_nodes] at helif
    have hall := (hset.plant helif).write fun node => { node with child := [cond, body, elif] }
    exact ⟨_, hall.close rfl rfl (.ifElse hisExpr)⟩
  · refine (parseBody_plants hstmt fuel _ _).mono fun elseBody s₃ helse => ?_
    rw [Parser.next_nodes, Parser.skip_nodes] at helse
    have hall := (hset.plant helse).write fun node => { node with child := [cond, body, elseBody] }
    exact ⟨_, hall.close rfl rfl (.ifElse hisExpr)⟩
  · rw [Parser.skip_nodes]
    exact ⟨_, hset.close rfl rfl (.if_ hisExpr)⟩

theorem parseWhile_plants (hexpr : PlantsExpr expr) (hstmt : PlantsStmt stmt) (fuel : Nat) :
    PlantsStmt (parseWhile expr stmt fuel) := by
  intro s
  simp only [parseWhile, ensures_bind, ensures_peek, ensures_advance, ensures_newNode,
    ensures_setNode, ensures_pure, Parser.next_nodes]
  refine fun _ => (hexpr _).mono fun cond s₁ hcond => ?_
  obtain ⟨type, hisExpr, hcond⟩ := hcond
  rw [Parser.push_nodes, Parser.next_nodes] at hcond
  refine (parseBody_plants hstmt fuel _ _).mono fun body s₂ hbody => ?_
  have hset := (((Grows.push s.nodes (blankNode .while_ s.head.line)).plant hcond).plant
    hbody).write fun node => { node with child := [cond, body] }
  exact ⟨_, hset.close rfl rfl (.while_ hisExpr)⟩

theorem parseFor_plants (hexpr : PlantsExpr expr) (hstmt : PlantsStmt stmt) (fuel : Nat) :
    PlantsStmt (parseFor expr stmt fuel) := by
  intro s
  simp only [parseFor, ensures_bind, ensures_peek, ensures_advance, ensures_ite, ensures_fail,
    ensures_expect, ensures_writtenNode, ensures_setNode, ensures_pure, Parser.next_nodes]
  refine ⟨fun _ => trivial, fun _ _ _ => (hexpr _).mono fun iter s₁ hiter => ?_⟩
  obtain ⟨type, hisExpr, hiter⟩ := hiter
  rw [Parser.push_nodes, Parser.next_nodes, Parser.next_nodes, Parser.next_nodes] at hiter
  refine (parseBody_plants hstmt fuel _ _).mono fun body s₂ hbody => ?_
  have hset := (((Grows.push s.nodes { blankNode .for_ s.head.line with
    strVal := s.next.head.strVal }).plant hiter).plant hbody).write
      fun node => { node with child := [iter, body] }
  exact ⟨_, hset.close rfl rfl (.for_ hisExpr)⟩

theorem parseAssign_plants (hexpr : PlantsExpr expr) : PlantsStmt (parseAssign expr) := by
  intro s
  simp only [parseAssign, ensures_bind, ensures_peek, ensures_advance, ensures_writtenNode,
    ensures_setNode, ensures_matchToken, ensures_pure, Parser.next_nodes]
  refine fun _ => (hexpr _).mono fun value s' hplanted => ?_
  obtain ⟨type, hisExpr, hplants⟩ := hplanted
  rw [Parser.push_nodes, Parser.next_nodes, Parser.next_nodes] at hplants
  have hset := ((Grows.push s.nodes { blankNode .assign s.head.line with
    strVal := s.head.strVal }).plant hplants).write fun node => { node with child := [value] }
  have hclosed := hset.close rfl rfl (.assign hisExpr)
  exact ⟨fun _ => ⟨_, hclosed⟩, fun _ => ⟨_, hclosed⟩⟩

theorem parseExprStmt_plants (hexpr : PlantsExpr expr) : PlantsStmt (parseExprStmt expr) := by
  intro s
  simp only [parseExprStmt, ensures_bind, ensures_matchToken, ensures_pure, Parser.next_nodes]
  refine (hexpr s).mono fun n s' hplanted => ?_
  obtain ⟨type, -, hplants⟩ := hplanted
  exact ⟨fun _ => ⟨type, hplants⟩, fun _ => ⟨type, hplants⟩⟩

theorem parseStmtWith_plants (hexpr : PlantsExpr expr) (hstmt : PlantsStmt stmt) (fuel : Nat) :
    PlantsStmt (parseStmtWith expr stmt fuel) := by
  intro s
  rw [parseStmtWith, ensures_bind, ensures_peek]
  split
  · exact parseReturn_plants hexpr s
  · exact parseJump_plants rfl s
  · exact parseJump_plants rfl s
  · exact parseDef_plants hstmt fuel s
  · exact parseIf_plants hexpr hstmt fuel s
  · exact parseIf_plants hexpr hstmt fuel s
  · exact parseWhile_plants hexpr hstmt fuel s
  · exact parseFor_plants hexpr hstmt fuel s
  · obtain ⟨seen, hseen⟩ := atAssign_run s
    rw [ensures_bind, ensures_of_run hseen, ensures_ite]
    exact ⟨fun _ => parseAssign_plants hexpr s, fun _ => parseExprStmt_plants hexpr s⟩

theorem parseStmt_plants (fuel : Nat) : PlantsStmt (parseStmt fuel) := by
  induction fuel with
  | zero => exact fun _ => ensures_throw _
  | succ fuel ih => exact parseStmtWith_plants (parseExpr_plants (fuel + 1)) ih (fuel + 1)

theorem parseProgram_plants (hstmt : PlantsStmt stmt) (fuel : Nat) :
    PlantsBlock (do
      let root ← newNode .block 0
      skipNewlines
      parseStmts stmt [.eof] "too many top-level statements" root fuel
      return root) := by
  intro s
  simp only [ensures_bind, ensures_newNode, ensures_skipNewlines, ensures_pure]
  have hopen := @Open.push (blankNode .block 0) .block s.nodes rfl rfl
  refine fun _ => (@parseStmts_opens _ _ _ (s.push _).skip hstmt _ _ fuel
    (by simpa using hopen)).mono fun _ s' hstmts => ?_
  obtain ⟨types, hopen'⟩ := hstmts
  exact hopen'.close .block

/-! ## The pool of a program -/

theorem gkParse_tree {tokens : List Token} {root : Nat}
    (hparse : gkParse tokens = .ok root s) : Trees 0 s.nodes [root] [.block] :=
  (parseProgram_plants (parseStmt_plants _) _ ⟨tokens, []⟩ root s hparse).tree

/-- A node of the pool has the children that its type asks for. -/
theorem Trees.shape (htrees : Trees 0 nodes roots types) (hnode : nodes[n]? = some node) :
    ∃ types, node.child.map (typeAt nodes) = types.map some ∧ Shape node.type types := by
  obtain ⟨members, hforest, hperm⟩ := htrees.forest
  have hlt : n < nodes.length := (List.getElem?_eq_some_iff.mp hnode).1
  have hmem : n ∈ members := by
    rw [hperm.mem_iff, List.mem_range'_1]
    omega
  obtain ⟨node', types, hnode', htypes, hshape⟩ := hforest.shape_of_mem hmem
  obtain rfl := Option.some.inj (hnode.symm.trans hnode')
  exact ⟨types, htypes, hshape⟩

theorem Shape.first_isExpr {kind : NodeType} (hshape : Shape type types) (hdef : type ≠ .def_)
    (hblock : type ≠ .block) (hkind : types.head? = some kind) : kind.isExpr := by
  cases hshape with
  | leaf => cases hkind
  | bareReturn => cases hkind
  | call _ hargs => exact hargs kind (List.mem_of_head? hkind)
  | def_ => exact absurd rfl hdef
  | block => exact absurd rfl hblock
  | _ =>
      obtain rfl := Option.some.inj hkind
      assumption

/-- What comes first below a node is an expression, except below blocks and definitions. -/
theorem Trees.firstChild (htrees : Trees 0 nodes roots types) (hnode : nodes[n]? = some node)
    (hdef : node.type ≠ .def_) (hblock : node.type ≠ .block) :
    node.childAt 0 < 0 ∨ ExprAt nodes (node.childAt 0).toNat := by
  obtain ⟨kinds, htypes, hshape⟩ := htrees.shape hnode
  cases hchild : node.child with
  | nil =>
      rw [Node.childAt, hchild]
      exact .inl (by decide)
  | cons c more =>
      rw [Node.childAt, hchild]
      refine .inr ?_
      rw [hchild] at htypes
      cases kinds with
      | nil => cases htypes
      | cons kind kinds => exact ⟨kind, (List.cons.inj htypes).1, hshape.first_isExpr hdef hblock rfl⟩

end GeckoOS.Gk
