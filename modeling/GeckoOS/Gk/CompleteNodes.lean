/-
# The nodes that the parser leaves

While a statement is parsed its node has no children yet.  When `gk_parse` has returned,
every node is complete: its children are nodes of the pool, its text is short enough for the
buffers of the interpreter, a for loop and a definition have children, and those of a
definition but its body are the names of its parameters.

A parse function leaves the nodes that are there alone, except for the one that it appends
children to, and those that it makes are complete.
-/

import GeckoOS.Gk.LexerSteps
import GeckoOS.Gk.NodePool
import GeckoOS.Gk.StmtParsing

namespace GeckoOS.Gk

open GeckoOS.Math

/-- The text fits into the 64 bytes of a name, or into a string. -/
def Token.Short (t : Token) : Prop :=
  t.strVal.length ≤ 63 ∨ t.type = .str ∧ t.strVal.length ≤ maxStr - 1

@[inherit_doc Token.Short]
def Node.Short (node : Node) : Prop :=
  node.strVal.length ≤ 63 ∨ node.type = .str ∧ node.strVal.length ≤ maxStr - 1

/-- The statements whose node has a child wherever `eval` looks at it. -/
def NodeType.isHeaded : NodeType → Bool
  | .for_ | .def_ => true
  | _ => false

/-- A node of this pool when the parser is done with it. -/
structure Complete (nodes : List Node) (node : Node) : Prop where
  text : node.Short
  child : ∀ c ∈ node.child, c < nodes.length
  headed : node.type.isHeaded → node.child ≠ []
  params : node.type = .def_ → ∀ c ∈ node.child.dropLast, typeAt nodes c = some .var

/-- The tokens ahead are short. -/
def Parser.Ready (s : Parser) : Prop := ∀ t ∈ s.rest, t.Short

/-- Only nodes of the kind `but` are written into, and the new nodes are complete. -/
structure MadeBut (but : Nat → Prop) (s s' : Parser) : Prop where
  inside : ∀ i, but i → i < s.nodes.length
  length : s.nodes.length ≤ s'.nodes.length
  room : s.nodes.length ≤ maxNodes → s'.nodes.length ≤ maxNodes
  ready : s.Ready → s'.Ready
  old : ∀ i < s.nodes.length, ¬ but i → s'.nodes[i]? = s.nodes[i]?
  types : ∀ c type, typeAt s.nodes c = some type → typeAt s'.nodes c = some type
  new : ∀ i, s.nodes.length ≤ i → ∀ node, s'.nodes[i]? = some node → Complete s'.nodes node

/-- No node is written into. -/
abbrev Made : Parser → Parser → Prop := MadeBut fun _ => False

/-- A parse function that returns a node. -/
def Makes (x : Parse Nat) : Prop :=
  ∀ s : Parser, s.Ready → Ensures x s fun n s' => Made s s' ∧ n < s'.nodes.length

/-- Since `s` the node `node` has been made, and it has these children by now. -/
structure Unfinished (s : Parser) (node : Node) (children : List Nat) (s' : Parser) : Prop where
  made : MadeBut (· = s.nodes.length) (s.push node) s'
  found : s'.nodes[s.nodes.length]? = some { node with child := children }
  children : ∀ c ∈ children, c < s'.nodes.length

variable {s s' s'' : Parser} {n c : Nat} {node : Node} {but : Nat → Prop} {expr stmt : Parse Nat}
  {children : List Nat}

/-! ## Short tokens -/

theorem lexString_length (quote : UInt8) (stored : Nat) (text : Text)
    (hstored : stored ≤ maxStr - 2) :
    stored + (lexString quote stored text).1.length ≤ maxStr - 1 := by
  have hmax : maxStr = 256 := rfl
  fun_induction lexString quote stored text with
  | case1 stored => exact hstored.trans (Nat.sub_le_sub_left one_le_two _)
  | case2 stored rest => exact hstored.trans (Nat.sub_le_sub_left one_le_two _)
  | case3 stored d rest hfull =>
      change stored + 1 ≤ maxStr - 1
      omega
  | case4 stored d rest hroom bytes stop hrest _ ih =>
      rw [hrest] at ih
      rw [List.length_cons]
      have hlength := ih (by omega)
      dsimp only at hlength
      omega
  | case5 stored c rest _ hfull =>
      change stored + 1 ≤ maxStr - 1
      omega
  | case6 stored c rest _ hroom bytes stop hrest _ ih =>
      rw [hrest] at ih
      rw [List.length_cons]
      have hlength := ih (by omega)
      dsimp only at hlength
      omega

/-- The tokens emitted so far are short. -/
def Lexer.Short (lexer : Lexer) : Prop := ∀ t ∈ lexer.tokens, t.Short

section

variable {lexer lexer' : Lexer} {line : Nat} {type : TokenType} {intVal : Int32} {strVal : Text}

theorem Lexer.Short.emit (hlexer : lexer.Short)
    (hshort : (⟨type, intVal, strVal, line⟩ : Token).Short) {ok : Bool}
    (hrun : lexer.emit type intVal strVal line = (ok, lexer')) : lexer'.Short := by
  rw [Lexer.emit] at hrun
  split_ifs at hrun
  · cases hrun
    exact hlexer
  · cases hrun
    intro t ht
    rcases List.mem_append.mp ht with hold | hnew
    · exact hlexer t hold
    · exact List.mem_singleton.mp hnew ▸ hshort

/-- A token without a text. -/
theorem Lexer.Short.emitPlain (hlexer : lexer.Short) {ok : Bool}
    (hrun : lexer.emit type intVal [] line = (ok, lexer')) : lexer'.Short :=
  hlexer.emit (.inl (Nat.zero_le _)) hrun

theorem lexToken_short (hlexer : lexer.Short) {c : UInt8} {rest rest' : Text}
    (hrun : lexToken lexer line c rest = .inr (lexer', rest')) : lexer'.Short := by
  rw [lexToken] at hrun
  split_ifs at hrun
  · cases hrun
    exact hlexer
  · cases hrun
    exact hlexer
  · split at hrun
    · rename_i hemit
      cases hrun
      exact hlexer.emitPlain hemit
    · cases hrun
  · dsimp only at hrun
    split at hrun
    · rename_i hemit
      cases hrun
      refine hlexer.emit (.inr ⟨rfl, ?_⟩) hemit
      have hlength := lexString_length c 0 rest (Nat.zero_le _)
      rwa [Nat.zero_add] at hlength
    · cases hrun
  · dsimp only at hrun
    split at hrun
    · rename_i hemit
      cases hrun
      exact hlexer.emit (.inl (List.length_take_le 63 _)) hemit
    · cases hrun
  · split at hrun
    · cases hrun
      exact hlexer.emitPlain rfl
    · split at hrun
      · cases hrun
        exact hlexer.emitPlain rfl
      · cases hrun

theorem lexLine_short {fuel : Nat} (hlexer : lexer.Short) {text rest : Text}
    (hrun : lexLine line fuel lexer text = .inr (lexer', rest)) : lexer'.Short := by
  induction fuel generalizing lexer text with
  | zero =>
      cases hrun
      exact hlexer
  | succ fuel ih =>
      cases text with
      | nil =>
          cases hrun
          exact hlexer
      | cons c text =>
          rw [lexLine] at hrun
          split_ifs at hrun
          · cases hrun
            exact hlexer
          · split at hrun
            · cases hrun
            · rename_i htoken
              exact ih (lexToken_short hlexer htoken) hrun

theorem closeBlocks_short {indent : Nat} {indents : Indents} (hlexer : lexer.Short) :
    (closeBlocks indent line lexer indents).2.1.Short := by
  induction indents generalizing lexer with
  | nil => exact hlexer
  | cons width widths ih =>
      rw [closeBlocks]
      split_ifs
      · split
        · rename_i hrun
          exact ih (hlexer.emitPlain hrun)
        · rename_i hrun
          exact hlexer.emitPlain hrun
      · exact hlexer

theorem lexIndent_short {indent : Nat} {indents : Indents} (hlexer : lexer.Short) :
    (lexIndent lexer indents indent line).2.1.Short := by
  rw [lexIndent]
  split_ifs
  · split <;> rename_i hrun <;> exact hlexer.emitPlain hrun
  · exact closeBlocks_short hlexer

theorem lexEnd_short {indents : Indents} {ok : Bool} (hlexer : lexer.Short)
    (hrun : lexEnd lexer indents line = (ok, lexer')) : lexer'.Short := by
  have hclose := @closeBlocks_short lexer line 0 indents hlexer
  rw [lexEnd] at hrun
  split at hrun <;> rename_i hstep <;> rw [hstep] at hclose
  · cases hrun
    exact hclose
  · exact hclose.emitPlain hrun

theorem lexLines_short {fuel : Nat} {indents : Indents} {text : Text} (hlexer : lexer.Short)
    (hrun : lexLines fuel lexer indents line text = (true, lexer')) : lexer'.Short := by
  induction fuel generalizing lexer indents line text with
  | zero => exact lexEnd_short hlexer hrun
  | succ fuel ih =>
      rw [lexLines] at hrun
      split_ifs at hrun
      · exact lexEnd_short hlexer hrun
      · dsimp only at hrun
        have hindent := @lexIndent_short lexer line (indentation text).1 indents hlexer
        split at hrun
        · exact ih hlexer hrun
        · split at hrun
          · cases hrun
          · rename_i hstep
            rw [hstep] at hindent
            split at hrun
            · cases hrun
            · rename_i hline
              have hshort := lexLine_short hindent hline
              split at hrun
              · cases hrun
              · rename_i hemit
                exact ih (hshort.emitPlain hemit) hrun

/-- What `gk_lex` reads a program into fits into the buffers of the nodes. -/
theorem gkLex_short {error src : Text} (hrun : gkLex error src = (true, lexer')) :
    ∀ t ∈ lexer'.tokens, t.Short :=
  lexLines_short (fun _ ht => absurd ht List.not_mem_nil) hrun

end

/-! ## Pools that grow -/

theorem lt_of_typeAt {nodes : List Node} {type : NodeType} (htype : typeAt nodes c = some type) :
    c < nodes.length := by
  obtain ⟨node, hnode, -⟩ := Option.map_eq_some_iff.mp htype
  exact (List.getElem?_eq_some_iff.mp hnode).1

theorem Complete.mono {nodes nodes' : List Node} (hnode : Complete nodes node)
    (hlength : nodes.length ≤ nodes'.length)
    (htypes : ∀ c type, typeAt nodes c = some type → typeAt nodes' c = some type) :
    Complete nodes' node :=
  ⟨hnode.text, fun _ hc => (hnode.child _ hc).trans_le hlength, hnode.headed,
    fun hdef c hc => htypes c _ (hnode.params hdef c hc)⟩

theorem MadeBut.refl (hinside : ∀ i, but i → i < s.nodes.length) : MadeBut but s s :=
  ⟨hinside, le_rfl, id, id, fun _ _ _ => rfl, fun _ _ => id, fun _ hi _ hnode =>
    absurd (List.getElem?_eq_some_iff.mp hnode).1 (Nat.not_lt.mpr hi)⟩

theorem MadeBut.trans (hfirst : MadeBut but s s') (hsecond : MadeBut but s' s'') :
    MadeBut but s s'' where
  inside := hfirst.inside
  length := hfirst.length.trans hsecond.length
  room h := hsecond.room (hfirst.room h)
  ready h := hsecond.ready (hfirst.ready h)
  old i hi hbut := (hsecond.old i (hi.trans_le hfirst.length) hbut).trans (hfirst.old i hi hbut)
  types c type htype := hsecond.types c type (hfirst.types c type htype)
  new i hi node hnode := by
    rcases Nat.lt_or_ge i s'.nodes.length with hlt | hge
    · rw [hsecond.old i hlt fun hbut => absurd (hfirst.inside i hbut) (Nat.not_lt.mpr hi)] at hnode
      exact (hfirst.new i hi node hnode).mono hsecond.length hsecond.types
    · exact hsecond.new i hge node hnode

/-- What leaves all nodes alone leaves more than all but some alone. -/
theorem MadeBut.weaken (hmade : Made s s') (hinside : ∀ i, but i → i < s.nodes.length) :
    MadeBut but s s' :=
  { hmade with inside := hinside, old := fun i hi _ => hmade.old i hi id }

theorem Made.of_nodes (hnodes : s'.nodes = s.nodes) (hrest : ∀ t ∈ s'.rest, t ∈ s.rest) :
    Made s s' where
  inside _ := False.elim
  length := (congrArg List.length hnodes).ge
  room h := (congrArg List.length hnodes).trans_le h
  ready h t ht := h t (hrest t ht)
  old _ _ _ := by rw [hnodes]
  types _ _ h := hnodes ▸ h
  new i hi node hnode := by
    rw [hnodes] at hnode
    exact absurd (List.getElem?_eq_some_iff.mp hnode).1 (Nat.not_lt.mpr hi)

theorem Made.next (s : Parser) : Made s s.next := by
  refine .of_nodes s.next_nodes fun t ht => ?_
  rw [Parser.next] at ht
  split_ifs at ht
  · exact ht
  · exact List.mem_of_mem_tail ht

theorem Made.skip (s : Parser) : Made s s.skip :=
  .of_nodes rfl fun _ ht => (List.dropWhile_sublist _).subset ht

theorem Parser.Ready.next (hready : s.Ready) : s.next.Ready := (Made.next s).ready hready

theorem Parser.Ready.skip (hready : s.Ready) : s.skip.Ready := (Made.skip s).ready hready

theorem Parser.Ready.push (hready : s.Ready) (node : Node) : (s.push node).Ready := hready

theorem Parser.Ready.write (hready : s.Ready) (n : Nat) (change : Node → Node) :
    (s.write n change).Ready := hready

/-- A node is made that is complete at once. -/
theorem Made.push (hroom : s.nodes.length < maxNodes)
    (hnode : Complete (s.push node).nodes node) :
    Made s (s.push node) where
  inside _ := False.elim
  length := by simp
  room _ := by
    rw [Parser.push_nodes, List.length_append]
    exact hroom
  ready := id
  old i hi _ := List.getElem?_append_left hi
  types _ _ := typeAt_append node
  new i hi node' hnode' := by
    rw [Parser.push_nodes, List.getElem?_append_right hi] at hnode'
    obtain rfl := List.mem_singleton.mp (List.mem_of_getElem? hnode')
    exact hnode

/-- The node `n` is written into. -/
theorem MadeBut.write {change : Node → Node} (hn : n < s.nodes.length)
    (htype : ∀ node, (change node).type = node.type) : MadeBut (· = n) s (s.write n change) where
  inside i hi := hi ▸ hn
  length := by rw [Parser.write_nodes, List.length_modify]
  room h := by rwa [Parser.write_nodes, List.length_modify]
  ready := id
  old i hi hbut := by
    rw [Parser.write_nodes, List.getElem?_modify_ne _ _ (Ne.symm hbut)]
  types c type h := (typeAt_modify s.nodes htype).trans h
  new i hi node hnode := by
    have hlt := (List.getElem?_eq_some_iff.mp hnode).1
    rw [Parser.write_nodes, List.length_modify] at hlt
    exact absurd hlt (Nat.not_lt.mpr hi)

/-- A new node is written into until it is complete. -/
theorem Made.close (hroom : s.nodes.length < maxNodes)
    (hbut : MadeBut (· = s.nodes.length) (s.push node) s')
    (hnode : ∀ node', s'.nodes[s.nodes.length]? = some node' → Complete s'.nodes node') :
    Made s s' := by
  have hlength : (s.push node).nodes.length = s.nodes.length + 1 := by simp
  refine ⟨fun _ => False.elim, ?_, fun _ => hbut.room (hlength.trans_le hroom), hbut.ready,
    fun i hi _ => ?_, fun c type htype => hbut.types c type (typeAt_append node htype),
    fun i hi node' hnode' => ?_⟩
  · exact (Nat.le_succ _).trans (hlength.symm.trans_le hbut.length)
  · have hkept := hbut.old i (by omega) (by omega)
    rw [hkept]
    exact List.getElem?_append_left hi
  · rcases hi.eq_or_lt with rfl | hlt
    · exact hnode node' hnode'
    · exact hbut.new i (by omega) node' hnode'

/-! ## Unfinished nodes -/

theorem Unfinished.push (hchildren : ∀ c ∈ node.child, c < s.nodes.length) :
    Unfinished s node node.child (s.push node) := by
  have hlt : s.nodes.length < (s.push node).nodes.length := by simp
  refine ⟨.refl fun _ hi => hi ▸ hlt, ?_, fun c hc => (hchildren c hc).trans hlt⟩
  rw [Parser.push_nodes, List.getElem?_concat_length]

theorem Unfinished.lt (hopen : Unfinished s node children s') : s.nodes.length < s'.nodes.length :=
  (List.getElem?_eq_some_iff.mp hopen.found).1

/-- Other nodes are made. -/
theorem Unfinished.step (hopen : Unfinished s node children s') (hmade : Made s' s'') :
    Unfinished s node children s'' where
  made := hopen.made.trans (hmade.weaken fun _ hi => hi ▸ hopen.lt)
  found := (hmade.old _ hopen.lt id).trans hopen.found
  children c hc := (hopen.children c hc).trans_le hmade.length

/-- It is written into. -/
theorem Unfinished.write (hopen : Unfinished s node children s') {change : Node → Node}
    {children' : List Nat} (hchildren : ∀ c ∈ children', c < s'.nodes.length)
    (hchange : change { node with child := children } = { node with child := children' })
    (htype : ∀ node, (change node).type = node.type) :
    Unfinished s node children' (s'.write s.nodes.length change) where
  made := hopen.made.trans (.write hopen.lt htype)
  found := by
    rw [Parser.write_nodes, getElem?_modify_node, hopen.found, Option.map_some, if_pos rfl, hchange]
  children c hc := by
    rw [Parser.write_nodes, List.length_modify]
    exact hchildren c hc

theorem Unfinished.set (hopen : Unfinished s node children s') (children' : List Nat)
    (hchildren : ∀ c ∈ children', c < s'.nodes.length) :
    Unfinished s node children' (s'.write s.nodes.length fun node =>
      { node with child := children' }) :=
  hopen.write hchildren rfl fun _ => rfl

theorem Unfinished.add (hopen : Unfinished s node children s') (hc : c < s'.nodes.length) :
    Unfinished s node (children ++ [c]) (s'.write s.nodes.length fun node =>
      { node with child := node.child ++ [c] }) := by
  refine hopen.write (fun c' hc' => ?_) rfl fun _ => rfl
  rcases List.mem_append.mp hc' with hold | hnew
  · exact hopen.children c' hold
  · obtain rfl := List.mem_singleton.mp hnew
    exact hc

/-- It gets another parameter. -/
theorem Unfinished.addVar (hopen : Unfinished s node children s')
    (hvars : ∀ c ∈ children, typeAt s'.nodes c = some .var) (hc : typeAt s'.nodes c = some .var) :
    Unfinished s node (children ++ [c]) (s'.write s.nodes.length fun node =>
        { node with child := node.child ++ [c] }) ∧
      ∀ c' ∈ children ++ [c], typeAt (s'.write s.nodes.length fun node =>
        { node with child := node.child ++ [c] }).nodes c' = some .var := by
  refine ⟨hopen.add (lt_of_typeAt hc), fun c' hc' => ?_⟩
  refine (@typeAt_modify _ _ (fun node => { node with child := node.child ++ [c] }) s'.nodes
    fun _ => rfl).trans ?_
  rcases List.mem_append.mp hc' with hold | hnew
  · exact hvars c' hold
  · exact List.mem_singleton.mp hnew ▸ hc

/-- It is complete now. -/
theorem Unfinished.close (hopen : Unfinished s node children s') (hroom : s.nodes.length < maxNodes)
    (htext : node.Short)
    (hheaded : node.type.isHeaded → children ≠ [])
    (hparams : node.type = .def_ → ∀ c ∈ children.dropLast, typeAt s'.nodes c = some .var) :
    Made s s' ∧ s.nodes.length < s'.nodes.length := by
  refine ⟨.close hroom hopen.made fun node' hnode' => ?_, hopen.lt⟩
  obtain rfl := Option.some.inj (hopen.found.symm.trans hnode')
  exact ⟨htext, hopen.children, hheaded, hparams⟩

/-- The node of neither a for loop nor a definition, made behind `s`. -/
theorem Unfinished.closeOther {s₁ : Parser} (hopen : Unfinished s₁ node children s')
    (hbefore : Made s s₁) (hroom : s₁.nodes.length < maxNodes) (htext : node.Short)
    (htype : node.type.isHeaded = false) : Made s s' ∧ s₁.nodes.length < s'.nodes.length := by
  obtain ⟨hmade, hlt⟩ := hopen.close hroom htext
    (fun h => absurd (htype.symm.trans h) Bool.false_ne_true) fun hdef => by
      rw [hdef] at htype
      cases htype
  exact ⟨hbefore.trans hmade, hlt⟩

/-- A new node that is complete at once. -/
theorem made_push (hbefore : Made s s') (hroom : s'.nodes.length < maxNodes)
    (hchildren : ∀ c ∈ node.child, c < s'.nodes.length) (htext : node.Short)
    (htype : node.type.isHeaded = false) :
    Made s (s'.push node) ∧ s'.nodes.length < (s'.push node).nodes.length :=
  (Unfinished.push hchildren).closeOther hbefore hroom htext htype

/-! ## Expressions -/

theorem Parser.head_short (hready : s.Ready) : s.head.Short := by
  rw [Parser.head]
  cases hrest : s.rest with
  | nil => exact .inl (Nat.zero_le _)
  | cons t rest => exact hready t (hrest ▸ List.mem_cons_self)

/-- A word is short, since it is no string. -/
theorem Token.Short.word {t : Token} (hshort : t.Short) (htype : t.type ≠ .str) :
    t.strVal.length ≤ 63 :=
  hshort.resolve_right fun hstr => htype hstr.1

theorem parseArgs_made {s₀ : Parser} (hexpr : Makes expr) (fuel : Nat)
    (hopen : Unfinished s₀ node children s) (hready : s.Ready) :
    Ensures (parseArgs expr s₀.nodes.length fuel) s fun _ s' =>
      ∃ children', Unfinished s₀ node children' s' := by
  induction fuel generalizing s children with
  | zero => exact ensures_throw _
  | succ fuel ih =>
      simp only [parseArgs, ensures_bind, ensures_check, ensures_ite, ensures_pure,
        ensures_childCount, ensures_fail, ensures_addChild, ensures_matchToken]
      refine ⟨fun _ => ⟨children, hopen⟩, fun _ => (hexpr s hready).mono fun arg s' hparsed => ?_⟩
      have hadded := (hopen.step hparsed.1).add hparsed.2
      refine ⟨fun _ => trivial, fun _ => ⟨fun _ => ⟨fun _ => ?_, fun h => absurd trivial h⟩,
        fun _ => ⟨fun h => absurd h Bool.false_ne_true, fun _ => ⟨_, hadded⟩⟩⟩⟩
      exact ih (hadded.step (Made.next _)) ((hparsed.1.ready hready).write _ _).next

theorem callType_isHeaded (name : Text) : (callType name).isHeaded = false := by
  rw [callType]
  split_ifs <;> rfl

theorem parsePrimary_makes (hexpr : Makes expr) (fuel : Nat) : Makes (parsePrimary expr fuel) := by
  intro s hready
  have hnext := Made.next s
  have hhead := Parser.head_short hready
  have hleaf : ∀ node : Node, s.next.nodes.length < maxNodes → node.child = [] → node.Short →
      node.type.isHeaded = false →
      Made s (s.next.push node) ∧ s.next.nodes.length < (s.next.push node).nodes.length := by
    intro node hroom hchild htext htype
    exact made_push hnext hroom (fun _ hc => absurd (hchild ▸ hc) List.not_mem_nil) htext htype
  rw [parsePrimary, ensures_bind, ensures_peek]
  split
  case h_2 htype =>
    simp only [ensures_bind, ensures_advance, ensures_writtenNode]
    exact fun hroom => hleaf _ hroom rfl (hhead.imp_right fun hstr => ⟨rfl, hstr.2⟩)
      rfl
  case h_5 htype =>
    have hword : s.head.strVal.length ≤ 63 := hhead.word (by rw [htype]; decide)
    simp only [ensures_bind, ensures_advance, ensures_check, ensures_ite, ensures_writtenNode,
      ensures_expect, ensures_pure]
    refine ⟨fun _ hroom => ?_, fun _ hroom => ?_⟩
    · have hpushed := @Unfinished.push s.next.next
        { blankNode (callType s.head.strVal) s.head.line with strVal := s.head.strVal }
        fun _ hc => absurd hc List.not_mem_nil
      have hargs := parseArgs_made hexpr fuel hpushed (hready.next.next.push _)
      refine hargs.mono fun _ s' hargs _ => ?_
      obtain ⟨children, hopen⟩ := hargs
      exact (hopen.step (Made.next s')).closeOther (hnext.trans (Made.next s.next)) hroom
        (.inl hword) (callType_isHeaded _)
    · exact hleaf _ hroom rfl (.inl hword) rfl
  case h_6 =>
    simp only [ensures_bind, ensures_advance, ensures_expect, ensures_pure]
    exact (hexpr _ hready.next).mono fun n s' hparsed _ =>
      ⟨(hnext.trans hparsed.1).trans (Made.next s'), by rw [Parser.next_nodes]; exact hparsed.2⟩
  case h_7 => exact ensures_fail _
  all_goals
    simp only [ensures_bind, ensures_advance, ensures_writtenNode]
    exact fun hroom => hleaf _ hroom rfl (.inl (Nat.zero_le _)) rfl

theorem parseUnary_makes (hexpr : Makes expr) (fuel depth : Nat) :
    Makes (parseUnary expr fuel depth) := by
  induction depth with
  | zero => exact fun _ _ => ensures_throw _
  | succ depth ih =>
      intro s hready
      rw [parseUnary, ensures_bind, ensures_peek, ensures_ite]
      refine ⟨fun _ => ?_, fun _ => parsePrimary_makes hexpr fuel s hready⟩
      simp only [ensures_bind, ensures_advance, ensures_writtenNode]
      have hnext := Made.next s
      refine (ih s.next hready.next).mono fun operand s' hparsed hroom => ?_
      obtain ⟨hmade, hlt⟩ := hparsed
      exact made_push (hnext.trans hmade) hroom (List.forall_mem_singleton.mpr hlt)
        (.inl (Nat.zero_le _)) rfl

theorem parseOperators_made {operand : Parse Nat} (hoperand : Makes operand)
    (ops : List TokenType) (fuel left : Nat) (s : Parser) (hready : s.Ready)
    (hleft : left < s.nodes.length) :
    Ensures (parseOperators operand ops fuel left) s fun n s' =>
      Made s s' ∧ n < s'.nodes.length := by
  induction fuel generalizing left s with
  | zero => exact ensures_throw _
  | succ fuel ih =>
      rw [parseOperators, ensures_bind, ensures_peek, ensures_ite, ensures_pure]
      refine ⟨fun _ => ?_, fun _ => ⟨.refl fun _ => False.elim, hleft⟩⟩
      simp only [ensures_bind, ensures_advance, ensures_writtenNode]
      have hnext := Made.next s
      refine (hoperand s.next hready.next).mono fun right s' hparsed hroom => ?_
      obtain ⟨hmade, hright⟩ := hparsed
      have hsofar := hnext.trans hmade
      have hchildren : ∀ c ∈ [left, right], c < s'.nodes.length :=
        List.forall_mem_cons.mpr ⟨hleft.trans_le hsofar.length,
          List.forall_mem_singleton.mpr hright⟩
      obtain ⟨hall, hlt⟩ := @made_push s s'
        { blankNode .binop s.head.line with op := some s.head.type, child := [left, right] } hsofar
        hroom hchildren (.inl (Nat.zero_le _)) rfl
      exact (ih _ _ (hall.ready hready) hlt).mono fun n s'' hrest =>
        ⟨hall.trans hrest.1, hrest.2⟩

theorem parseBinary_makes {operand : Parse Nat} (hoperand : Makes operand)
    (ops : List TokenType) (fuel : Nat) : Makes (parseBinary operand ops fuel) := by
  intro s hready
  rw [parseBinary, ensures_bind]
  refine (hoperand s hready).mono fun left s' hparsed => ?_
  obtain ⟨hmade, hleft⟩ := hparsed
  exact (parseOperators_made hoperand ops fuel left s' (hmade.ready hready) hleft).mono
    fun n s'' hrest => ⟨hmade.trans hrest.1, hrest.2⟩

theorem parseExpr_makes (fuel : Nat) : Makes (parseExpr fuel) := by
  induction fuel with
  | zero => exact fun _ _ => ensures_throw _
  | succ fuel ih =>
      have hunary := parseUnary_makes ih (fuel + 1) (fuel + 1)
      have hmul := parseBinary_makes hunary [.star, .slash, .percent] (fuel + 1)
      have hadd := parseBinary_makes hmul [.plus, .minus] (fuel + 1)
      have hcmp := parseBinary_makes hadd [.eq, .neq, .lt, .le, .gt, .ge] (fuel + 1)
      have hand := parseBinary_makes hcmp [.and] (fuel + 1)
      exact parseBinary_makes hand [.or] (fuel + 1)

/-! ## Statements -/

theorem parseStmts_made {s₀ : Parser} (hstmt : Makes stmt) (ends : List TokenType) (full : String)
    (fuel : Nat) (hopen : Unfinished s₀ node children s) (hready : s.Ready) :
    Ensures (parseStmts stmt ends full s₀.nodes.length fuel) s fun _ s' =>
      (∃ children', Unfinished s₀ node children' s') := by
  induction fuel generalizing s children with
  | zero => exact ensures_throw _
  | succ fuel ih =>
      simp only [parseStmts, ensures_bind, ensures_peek, ensures_ite, ensures_pure,
        ensures_childCount, ensures_fail, ensures_addChild, ensures_skipNewlines]
      refine ⟨fun _ => ⟨children, hopen⟩, fun _ => (hstmt s hready).mono fun st s' hparsed => ?_⟩
      have hadded := (hopen.step hparsed.1).add hparsed.2
      refine ⟨fun _ => trivial, fun _ => ?_⟩
      exact ih (hadded.step (Made.skip _)) ((hparsed.1.ready hready).write _ _).skip

theorem parseBlock_makes (hstmt : Makes stmt) (fuel : Nat) : Makes (parseBlock stmt fuel) := by
  intro s hready
  simp only [parseBlock, ensures_bind, ensures_peek, ensures_expect, ensures_newNode,
    ensures_skipNewlines, ensures_matchToken, ensures_pure]
  intro _ hroom
  have hnext := Made.next s
  have hpushed := @Unfinished.push s.next (blankNode .block s.head.line)
    fun _ hc => absurd hc List.not_mem_nil
  have hstmts := parseStmts_made hstmt [.dedent, .eof] "block too large" fuel
    (hpushed.step (Made.skip _)) (hready.next.push _).skip
  refine hstmts.mono fun _ s' hrest => ?_
  obtain ⟨children, hopen⟩ := hrest
  have hclose : ∀ s'', Unfinished s.next (blankNode .block s.head.line) children s'' →
      Made s s'' ∧ s.next.nodes.length < s''.nodes.length :=
    fun s'' hopen => hopen.closeOther hnext hroom (.inl (Nat.zero_le _)) rfl
  exact ⟨fun _ => hclose _ (hopen.step (Made.next s')), fun _ => hclose _ hopen⟩

/-- The parameters of a definition. -/
theorem parseParams_made {s₀ : Parser} (fuel : Nat) (hopen : Unfinished s₀ node children s)
    (hready : s.Ready) (hvars : ∀ c ∈ children, typeAt s.nodes c = some .var) :
    Ensures (parseParams s₀.nodes.length fuel) s fun _ s' => ∃ children',
      Unfinished s₀ node children' s' ∧ ∀ c ∈ children', typeAt s'.nodes c = some .var := by
  induction fuel generalizing s children with
  | zero => exact ensures_throw _
  | succ fuel ih =>
      simp only [parseParams, ensures_bind, ensures_check, ensures_ite, ensures_pure, ensures_peek,
        ensures_fail, ensures_advance, ensures_writtenNode, ensures_addChild, ensures_matchToken]
      refine ⟨fun _ => ⟨children, hopen, hvars⟩, fun _ =>
        ⟨fun _ => trivial, fun hident hroom => ?_⟩⟩
      have hword := (Parser.head_short hready).word (by rw [not_not.mp hident]; decide)
      obtain ⟨hmade, -⟩ := @made_push s s.next
        { blankNode .var s.head.line with strVal := s.head.strVal } (Made.next s) hroom
        (fun _ hc => absurd hc List.not_mem_nil) (.inl hword) rfl
      obtain ⟨hadded, hvars'⟩ := (hopen.step hmade).addVar
        (fun c hc => hmade.types c _ (hvars c hc)) (typeAt_append_length _ _)
      refine ⟨fun _ => ⟨fun _ => ?_, fun h => absurd trivial h⟩,
        fun _ => ⟨fun h => absurd h Bool.false_ne_true, fun _ => ⟨_, hadded, hvars'⟩⟩⟩
      exact ih (hadded.step (Made.next _)) ((hmade.ready hready).write _ _).next
        fun c hc => (Made.next _).types c _ (hvars' c hc)

theorem parseBody_makes (hstmt : Makes stmt) (fuel : Nat) (text : String) :
    Makes (parseBody stmt fuel text) := by
  intro s hready
  simp only [parseBody, ensures_bind, ensures_expect, ensures_matchToken]
  have hnext := Made.next s
  have hnext₂ := hnext.trans (Made.next s.next)
  refine fun _ => ⟨fun _ => ?_, fun _ => ?_⟩
  · exact (parseBlock_makes hstmt fuel _ hready.next.next).mono fun _ _ hparsed =>
      ⟨hnext₂.trans hparsed.1, hparsed.2⟩
  · exact (parseBlock_makes hstmt fuel _ hready.next).mono fun _ _ hparsed =>
      ⟨hnext.trans hparsed.1, hparsed.2⟩

theorem parseReturn_makes (hexpr : Makes expr) : Makes (parseReturn expr) := by
  intro s hready
  have hnext := Made.next s
  have hpushed := @Unfinished.push s.next (blankNode .return_ s.head.line)
    fun _ hc => absurd hc List.not_mem_nil
  have hclose : ∀ children s', s.next.nodes.length < maxNodes →
      Unfinished s.next (blankNode .return_ s.head.line) children s' →
      Made s s' ∧ s.next.nodes.length < s'.nodes.length :=
    fun _ _ hroom hopen => hopen.closeOther hnext hroom (.inl (Nat.zero_le _)) rfl
  simp only [parseReturn, ensures_bind, ensures_peek, ensures_advance, ensures_newNode,
    ensures_check, ensures_ite, ensures_setNode, ensures_matchToken, ensures_pure]
  refine fun hroom => ⟨fun _ => ?_, fun _ => ⟨fun _ => ?_, fun _ => hclose _ _ hroom hpushed⟩⟩
  · refine (hexpr _ (hready.next.push _)).mono fun value s' hparsed => ?_
    have hset := (hpushed.step hparsed.1).set [value] (List.forall_mem_singleton.mpr hparsed.2)
    exact ⟨fun _ => hclose _ _ hroom (hset.step (Made.next _)), fun _ => hclose _ _ hroom hset⟩
  · exact hclose _ _ hroom (hpushed.step (Made.next _))

theorem parseJump_makes {type : NodeType} (htype : type.isHeaded = false) :
    Makes (parseJump type) := by
  intro s hready
  have hnext := Made.next s
  simp only [parseJump, ensures_bind, ensures_peek, ensures_advance, ensures_matchToken,
    ensures_newNode]
  refine ⟨fun _ hroom => ?_, fun _ hroom => ?_⟩
  · exact made_push (hnext.trans (Made.next _)) hroom (fun _ hc => absurd hc List.not_mem_nil)
      (.inl (Nat.zero_le _)) htype
  · exact made_push hnext hroom (fun _ hc => absurd hc List.not_mem_nil) (.inl (Nat.zero_le _))
      htype

theorem parseDef_makes (hstmt : Makes stmt) (fuel : Nat) : Makes (parseDef stmt fuel) := by
  intro s hready
  simp only [parseDef, ensures_bind, ensures_peek, ensures_advance, ensures_ite, ensures_fail,
    ensures_writtenNode, ensures_expect, ensures_addChild, ensures_pure]
  refine ⟨fun _ => trivial, fun hident hroom _ => ?_⟩
  have hword := (Parser.head_short hready.next).word (by rw [not_not.mp hident]; decide)
  have hpushed := @Unfinished.push s.next.next
    { blankNode .def_ s.head.line with strVal := s.next.head.strVal }
    fun _ hc => absurd hc List.not_mem_nil
  have hparams := parseParams_made fuel (hpushed.step (Made.next _))
    (hready.next.next.push _).next fun _ hc => absurd hc List.not_mem_nil
  refine hparams.mono fun _ s' hparsed _ => ?_
  obtain ⟨children, hopen, hvars⟩ := hparsed
  have hready' := (hopen.made.ready (hready.next.next.push _)).next
  refine (parseBody_makes hstmt fuel _ _ hready').mono fun body s'' hbody => ?_
  have hpassed := (Made.next s').trans hbody.1
  have hadded := (hopen.step hpassed).add hbody.2
  obtain ⟨hmade, hlt⟩ := hadded.close hroom (.inl hword) (fun _ => by simp) fun _ c hc => by
    rw [List.dropLast_concat] at hc
    exact (@typeAt_modify _ _ (fun node => { node with child := node.child ++ [body] }) s''.nodes
      fun _ => rfl).trans (hpassed.types c _ (hvars c hc))
  exact ⟨((Made.next s).trans (Made.next _)).trans hmade, hlt⟩

/-- A header's node of a compound statement gets its children at the end. -/
theorem Unfinished.finish {s₁ : Parser} {children' : List Nat}
    (hopen : Unfinished s₁ node children s') (hbefore : Made s s₁)
    (hroom : s₁.nodes.length < maxNodes) (htext : node.Short) (hnotDef : node.type ≠ .def_)
    (hne : children' ≠ []) (hchildren : ∀ c ∈ children', c < s'.nodes.length) :
    Made s (s'.write s₁.nodes.length fun node => { node with child := children' }) ∧
      s₁.nodes.length <
        (s'.write s₁.nodes.length fun node => { node with child := children' }).nodes.length := by
  obtain ⟨hmade, hlt⟩ := (hopen.set children' hchildren).close hroom htext (fun _ => hne)
    fun hdef => absurd hdef hnotDef
  exact ⟨hbefore.trans hmade, hlt⟩

theorem parseIf_makes (hexpr : Makes expr) (hstmt : Makes stmt) (fuel : Nat) :
    Makes (parseIf expr stmt fuel) := by
  intro s hready
  have hnext := Made.next s
  have hpushed := @Unfinished.push s.next (blankNode .if_ s.head.line)
    fun _ hc => absurd hc List.not_mem_nil
  simp only [parseIf, ensures_bind, ensures_peek, ensures_advance, ensures_newNode,
    ensures_setNode, ensures_skipNewlines, ensures_check, ensures_ite, ensures_pure]
  refine fun hroom => (hexpr _ (hready.next.push _)).mono fun cond s₁ hcond => ?_
  have hready₁ := hcond.1.ready (hready.next.push _)
  refine (parseBody_makes hstmt fuel _ s₁ hready₁).mono fun body s₂ hbody => ?_
  have hready₂ := (hbody.1.ready hready₁)
  have hboth : ∀ c ∈ [cond, body], c < s₂.nodes.length :=
    List.forall_mem_cons.mpr ⟨hcond.2.trans_le hbody.1.length,
      List.forall_mem_singleton.mpr hbody.2⟩
  have hopen := (((hpushed.step hcond.1).step hbody.1).set [cond, body] hboth).step (Made.skip _)
  have hready₃ := (hready₂.write s.next.nodes.length
    fun node => { node with child := [cond, body] }).skip
  have hlast : ∀ s₃ other, Unfinished s.next (blankNode .if_ s.head.line) [cond, body] s₃ →
      other < s₃.nodes.length →
      Made s (s₃.write s.next.nodes.length fun node => { node with child := [cond, body, other] }) ∧
        s.next.nodes.length < (s₃.write s.next.nodes.length fun node =>
          { node with child := [cond, body, other] }).nodes.length := fun s₃ other hthen hother =>
    hthen.finish hnext hroom (.inl (Nat.zero_le _)) (by simp [blankNode]) (by simp)
      (List.forall_mem_append.mpr ⟨hthen.children, List.forall_mem_singleton.mpr hother⟩)
  refine ⟨fun _ => ?_, fun _ => ⟨fun _ => ?_, fun _ => ?_⟩⟩
  · exact (hstmt _ hready₃).mono fun elif s₃ helif => hlast s₃ elif (hopen.step helif.1) helif.2
  · exact (parseBody_makes hstmt fuel _ _ hready₃.next).mono fun elseBody s₃ helse =>
      hlast s₃ elseBody ((hopen.step (Made.next _)).step helse.1) helse.2
  · exact hopen.closeOther hnext hroom (.inl (Nat.zero_le _)) rfl

theorem parseWhile_makes (hexpr : Makes expr) (hstmt : Makes stmt) (fuel : Nat) :
    Makes (parseWhile expr stmt fuel) := by
  intro s hready
  have hpushed := @Unfinished.push s.next (blankNode .while_ s.head.line)
    fun _ hc => absurd hc List.not_mem_nil
  simp only [parseWhile, ensures_bind, ensures_peek, ensures_advance, ensures_newNode,
    ensures_setNode, ensures_pure]
  refine fun hroom => (hexpr _ (hready.next.push _)).mono fun cond s₁ hcond => ?_
  refine (parseBody_makes hstmt fuel _ s₁ (hcond.1.ready (hready.next.push _))).mono
    fun body s₂ hbody => ?_
  have hopen := (hpushed.step hcond.1).step hbody.1
  exact hopen.finish (Made.next s) hroom (.inl (Nat.zero_le _)) (by simp [blankNode]) (by simp)
    (List.forall_mem_cons.mpr ⟨hcond.2.trans_le hbody.1.length,
      List.forall_mem_singleton.mpr hbody.2⟩)

theorem parseFor_makes (hexpr : Makes expr) (hstmt : Makes stmt) (fuel : Nat) :
    Makes (parseFor expr stmt fuel) := by
  intro s hready
  simp only [parseFor, ensures_bind, ensures_peek, ensures_advance, ensures_ite, ensures_fail,
    ensures_expect, ensures_writtenNode, ensures_setNode, ensures_pure]
  refine ⟨fun _ => trivial, fun hident _ hroom => ?_⟩
  have hword := (Parser.head_short hready.next).word (by rw [not_not.mp hident]; decide)
  have hready' := hready.next.next.next
  have hpushed := @Unfinished.push s.next.next.next
    { blankNode .for_ s.head.line with strVal := s.next.head.strVal }
    fun _ hc => absurd hc List.not_mem_nil
  refine (hexpr _ (hready'.push _)).mono fun iter s₁ hiter => ?_
  refine (parseBody_makes hstmt fuel _ s₁ (hiter.1.ready (hready'.push _))).mono
    fun body s₂ hbody => ?_
  have hopen := (hpushed.step hiter.1).step hbody.1
  have hbefore := ((Made.next s).trans (Made.next _)).trans (Made.next _)
  exact hopen.finish hbefore hroom (.inl hword) (by simp [blankNode]) (by simp)
    (List.forall_mem_cons.mpr ⟨hiter.2.trans_le hbody.1.length,
      List.forall_mem_singleton.mpr hbody.2⟩)

theorem parseAssign_made (hexpr : Makes expr) (hready : s.Ready) (hassigns : assigns s.rest) :
    Ensures (parseAssign expr) s fun n s' => Made s s' ∧ n < s'.nodes.length := by
  have hword := (Parser.head_short hready).word (by rw [head_of_assigns hassigns]; decide)
  have hpushed := @Unfinished.push s.next.next
    { blankNode .assign s.head.line with strVal := s.head.strVal }
    fun _ hc => absurd hc List.not_mem_nil
  have hbefore := (Made.next s).trans (Made.next _)
  simp only [parseAssign, ensures_bind, ensures_peek, ensures_advance, ensures_writtenNode,
    ensures_setNode, ensures_matchToken, ensures_pure]
  refine fun hroom => (hexpr _ (hready.next.next.push _)).mono fun value s' hparsed => ?_
  have hset := (hpushed.step hparsed.1).set [value] (List.forall_mem_singleton.mpr hparsed.2)
  refine ⟨fun _ => ?_, fun _ => ?_⟩
  · exact (hset.step (Made.next _)).closeOther hbefore hroom (.inl hword) rfl
  · exact hset.closeOther hbefore hroom (.inl hword) rfl

theorem parseExprStmt_makes (hexpr : Makes expr) : Makes (parseExprStmt expr) := by
  intro s hready
  simp only [parseExprStmt, ensures_bind, ensures_matchToken, ensures_pure]
  refine (hexpr s hready).mono fun n s' hparsed => ⟨fun _ => ⟨?_, ?_⟩, fun _ => hparsed⟩
  · exact hparsed.1.trans (Made.next s')
  · rw [Parser.next_nodes]
    exact hparsed.2

theorem parseStmtWith_makes (hexpr : Makes expr) (hstmt : Makes stmt) (fuel : Nat) :
    Makes (parseStmtWith expr stmt fuel) := by
  intro s hready
  rw [parseStmtWith, ensures_bind, ensures_peek]
  split
  · exact parseReturn_makes hexpr s hready
  · exact parseJump_makes rfl s hready
  · exact parseJump_makes rfl s hready
  · exact parseDef_makes hstmt fuel s hready
  · exact parseIf_makes hexpr hstmt fuel s hready
  · exact parseIf_makes hexpr hstmt fuel s hready
  · exact parseWhile_makes hexpr hstmt fuel s hready
  · exact parseFor_makes hexpr hstmt fuel s hready
  · rw [ensures_bind, ensures_of_run (atAssign_eq s), ensures_ite]
    exact ⟨parseAssign_made hexpr hready, fun _ => parseExprStmt_makes hexpr s hready⟩

theorem parseStmt_makes (fuel : Nat) : Makes (parseStmt fuel) := by
  induction fuel with
  | zero => exact fun _ _ => ensures_throw _
  | succ fuel ih => exact parseStmtWith_makes (parseExpr_makes (fuel + 1)) ih (fuel + 1)

theorem parseProgram_makes (fuel : Nat) : Makes (parseProgram fuel) := by
  intro s hready
  simp only [parseProgram, ensures_bind, ensures_newNode, ensures_skipNewlines, ensures_pure]
  intro hroom
  have hpushed := @Unfinished.push s (blankNode .block 0) fun _ hc => absurd hc List.not_mem_nil
  have hstmts := parseStmts_made (parseStmt_makes fuel) [.eof] "too many top-level statements" fuel
    (hpushed.step (Made.skip _)) (hready.push _).skip
  refine hstmts.mono fun _ s' hparsed => ?_
  obtain ⟨children, hopen⟩ := hparsed
  exact hopen.closeOther (.refl fun _ => False.elim) hroom (.inl (Nat.zero_le _)) rfl

/-- What `gk_parse` builds of short tokens. -/
structure Pool (nodes : List Node) (root : Nat) : Prop where
  root : root < nodes.length
  room : nodes.length ≤ maxNodes
  complete : ∀ node ∈ nodes, Complete nodes node

theorem gkParse_pool {tokens : List Token} {root : Nat} (hshort : ∀ t ∈ tokens, t.Short)
    (hparse : gkParse tokens = .ok root s) : Pool s.nodes root := by
  obtain ⟨hmade, hroot⟩ := parseProgram_makes (tokens.length + 1) ⟨tokens, []⟩ hshort root s hparse
  refine ⟨hroot, hmade.room (Nat.zero_le _), fun node hnode => ?_⟩
  obtain ⟨i, hi⟩ := List.mem_iff_getElem?.mp hnode
  exact hmade.new i (Nat.zero_le _) node hi

end GeckoOS.Gk
