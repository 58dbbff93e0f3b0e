/-
# Every index lies in its array

The interpreter checks hardly any index.  That it stays inside of its arrays rests on what
is true elsewhere: the lexer cuts words and strings, `strcat_s` cuts what it appends, the
parser leaves complete nodes, and a call is made with as many arguments as there are
parameters, of which a definition keeps eight at most.

All of this is one invariant of the state, and each part of the interpreter keeps it and
uses only indices that it makes safe.
-/

import GeckoOS.Gk.CompleteNodes
import GeckoOS.Gk.FirstError
import Mathlib.Data.Nat.Digits.Lemmas

namespace GeckoOS.Gk

open GeckoOS.Math

/-- An index that is used lies in its array. -/
def Event.Inside : Event → Prop
  | .access buffer index => 0 ≤ index ∧ index < buffer.size
  | _ => True

@[inherit_doc Event.Inside]
def InBounds (_ : GkState) (e : Event) : Prop := e.Inside

/-- A text fits into a string. -/
def Value.Short (v : Value) : Prop := ∀ text, v = .str text → text.length ≤ maxStr - 1

/-- The variable fits into its buffers. -/
structure Var.Short (v : Var) : Prop where
  name : v.name.length ≤ 63
  val : v.val.Short

/-- The pool that is run: what the parser leaves, and no node has too many children. -/
structure Runnable (nodes : List Node) : Prop where
  room : nodes.length ≤ maxNodes
  complete : ∀ node ∈ nodes, Complete nodes node
  children : ∀ node ∈ nodes, node.child.length ≤ maxChildren

/-- A definition that can be called. -/
structure FuncDef.Short (nodes : List Node) (f : FuncDef) : Prop where
  name : f.name.length ≤ 63
  paramCount : f.params.length ≤ maxParams
  params : ∀ param ∈ f.params, param.length ≤ 63
  body : f.bodyNode < nodes.length

/-- The invariant of a run. -/
structure Sound (nodes : List Node) (s : GkState) : Prop where
  pool : s.nodes = nodes
  varCount : s.vars.length ≤ maxVars
  vars : ∀ v ∈ s.vars, v.Short
  funcCount : s.funcs.length ≤ maxFuncs
  funcs : ∀ f ∈ s.funcs, f.Short nodes
  returnVal : s.returnVal.Short
  error : s.error.length ≤ maxStr - 1

/-- A computation uses safe indices, keeps the invariant and returns a value as `post` says. -/
def Guarded {α : Type} (nodes : List Node) (x : Traced α) (s : GkState) (post : α → Prop) : Prop :=
  Emits Event.apply InBounds x s fun a s' => post a ∧ Sound nodes s'

/-! ## Lengths -/

theorem common_le (a b : Text) : Traced.common a b ≤ a.length ∧ Traced.common a b ≤ b.length := by
  induction a generalizing b with
  | nil => exact ⟨Nat.zero_le _, Nat.zero_le _⟩
  | cons c a ih =>
      cases b with
      | nil => exact ⟨Nat.zero_le _, le_rfl⟩
      | cons d b =>
          rw [Traced.common]
          split_ifs
          · exact ⟨Nat.succ_le_succ (ih b).1, Nat.succ_le_succ (ih b).2⟩
          · exact ⟨Nat.zero_le _, Nat.zero_le _⟩

theorem strcat_length {dst : Text} (hdst : dst.length ≤ maxStr - 1) (src : Text) :
    (strcat dst src).length ≤ maxStr - 1 := by
  rw [strcat, List.length_append, List.length_take]
  omega

/-- A sign and ten digits. -/
theorem intToStr_length (v : Int32) : (intToStr v).length ≤ 11 := by
  have hdigits : ∀ m : Int32, (Nat.digits 10 m.toInt.toNat).length ≤ 10 := fun m => by
    have hlt := m.toInt_lt
    exact (Nat.digits_length_le_iff (by decide) _).mpr (by omega)
  rw [intToStr]
  split_ifs with hzero hneg
  · decide
  · rw [List.length_reverse, List.length_append, List.length_map]
    exact Nat.add_le_add (hdigits _) (show (ascii "-").length ≤ 1 by decide)
  · dsimp only
    rw [List.length_reverse, List.append_nil, List.length_map]
    exact (hdigits _).trans (by decide)

theorem valToStr_length {v : Value} (hv : v.Short) : (valToStr v).length ≤ maxStr - 1 := by
  cases v with
  | int v => exact (intToStr_length v).trans (by decide)
  | str text => exact hv text rfl
  | bool v => cases v <;> decide
  | none => decide

theorem scanned_le (text : Text) : Traced.scanned text ≤ text.length := by
  have hsign : (if text.head? = some 45 then 1 else 0) ≤ text.length := by
    cases text with
    | nil => decide
    | cons c text =>
        rw [List.length_cons]
        split_ifs <;> omega
  rw [Traced.scanned]
  refine (Nat.add_le_add_left (List.takeWhile_sublist _).length_le _).trans ?_
  rw [List.length_drop, Nat.add_sub_of_le hsign]

/-! ## Indices -/

section

variable {α : Type} {s : GkState} {buffer : Buffer} {n : Nat} {text : Text}

theorem inBounds_access (hn : n < buffer.size) : InBounds s (.access buffer n) :=
  ⟨Int.natCast_nonneg n, Int.ofNat_lt.mpr hn⟩

theorem allows_of_lt (hn : n < buffer.size) : Allows InBounds s buffer n :=
  fun _ hi => inBounds_access (hi.trans_lt hn)

/-- A text in a string. -/
theorem allows_str (htext : text.length ≤ maxStr - 1) : Allows InBounds s .str text.length :=
  allows_of_lt (Nat.lt_succ_of_le htext)

/-- A name where there is room for one. -/
theorem allows_name (htext : text.length ≤ 63) (hbuffer : 64 ≤ buffer.size) :
    Allows InBounds s buffer text.length :=
  allows_of_lt ((Nat.lt_succ_of_le htext).trans_le hbuffer)

/-- What a name and a text have in common, in the buffer of either. -/
theorem allows_common {a b : Text} (ha : a.length ≤ 63) (hbuffer : 64 ≤ buffer.size) :
    Allows InBounds s buffer (Traced.common a b) :=
  allows_of_lt (((common_le a b).1.trans_lt (Nat.lt_succ_of_le ha)).trans_le hbuffer)

theorem Sound.apply {nodes : List Node} {e : Event} (hs : Sound nodes s)
    (hsame : (e.apply s).nodes = s.nodes ∧ (e.apply s).vars = s.vars ∧
      (e.apply s).funcs = s.funcs ∧ (e.apply s).returnVal = s.returnVal ∧
        (e.apply s).error = s.error) : Sound nodes (e.apply s) := by
  obtain ⟨hpool, hvars, hfuncs, hreturn, herror⟩ := hsame
  constructor
  · exact hpool.trans hs.pool
  · exact hvars ▸ hs.varCount
  · exact hvars ▸ hs.vars
  · exact hfuncs ▸ hs.funcCount
  · exact hfuncs ▸ hs.funcs
  · exact hreturn ▸ hs.returnVal
  · exact herror ▸ hs.error

end

/-! ## The parts of the interpreter -/

section

variable {α β : Type} {nodes : List Node} {s : GkState} {x : Traced α} {f : α → Traced β}
  {post : α → Prop} {result : β → Prop}

theorem guarded_pure {a : α} (hs : Sound nodes s) (ha : post a) : Guarded nodes (pure a) s post :=
  emits_pure ⟨ha, hs⟩

theorem guarded_bind (hx : Guarded nodes x s post)
    (hf : ∀ a s', post a → Sound nodes s' → Guarded nodes (f a) s' result) :
    Guarded nodes (x >>= f) s result :=
  emits_bind hx fun a s' ha => hf a s' ha.1 ha.2

theorem inBounds_failed (s : GkState) : InBounds s (.access .error 0) := by
  exact ⟨le_rfl, by decide⟩

theorem guarded_unlessFailed {early : α} {more : Traced α} (hs : Sound nodes s)
    (hearly : post early)
    (hmore : Guarded nodes more s post) :
    Guarded nodes (Traced.failed >>= fun stop => if stop then pure early else more) s post :=
  emits_unlessFailed (inBounds_failed s) (fun _ => ⟨hearly, hs⟩) fun _ => hmore

theorem short_none : Value.none.Short := fun _ h => by cases h

theorem short_int (v : Int32) : (Value.int v).Short := fun _ h => by cases h

theorem short_bool (v : Bool) : (Value.bool v).Short := fun _ h => by cases h

theorem short_str {text : Text} (htext : text.length ≤ maxStr - 1) : (Value.str text).Short :=
  fun _ h => by cases h; exact htext

theorem guarded_setError {text : Text} (hs : Sound nodes s) (htext : text.length ≤ maxStr - 1) :
    Guarded nodes (Traced.setError text) s fun _ => True :=
  emits_setError (allows_of_lt (Nat.lt_succ_of_le htext)) trivial
    ⟨trivial, hs.pool, hs.varCount, hs.vars, hs.funcCount, hs.funcs, hs.returnVal, htext⟩

theorem guarded_failWith {text : Text} (hs : Sound nodes s) (htext : text.length ≤ maxStr - 1) :
    Guarded nodes (Traced.failWith text) s Value.Short :=
  guarded_bind (guarded_setError hs htext) fun _ _ _ hs' => guarded_pure hs' short_none

theorem guarded_failWithName {text name : Text} (hs : Sound nodes s)
    (htext : text.length ≤ maxStr - 1) (hname : name.length ≤ maxStr - 1) :
    Guarded nodes (Traced.failWithName text name) s Value.Short := by
  have hall := strcat_length htext name
  refine emits_touchToBind (allows_of_lt (Nat.lt_succ_of_le htext)) (emits_strcat ?_ ?_ ?_ ?_)
  · exact allows_of_lt (Nat.lt_succ_of_le htext)
  · exact allows_str ((List.length_take_le' _ _).trans hname)
  · exact allows_of_lt (Nat.lt_succ_of_le hall)
  · exact emits_emitBind trivial (guarded_pure
      ⟨hs.pool, hs.varCount, hs.vars, hs.funcCount, hs.funcs, hs.returnVal, hall⟩ short_none)

/-- The value of a variable is replaced. -/
theorem updateVar_short {depth : Int} {name : Text} {val : Value} (hval : val.Short)
    {vars vars' : List Var} (hvars : ∀ v ∈ vars, v.Short)
    (hupdate : updateVar depth name val vars = some vars') :
    vars'.length = vars.length ∧ ∀ v ∈ vars', v.Short := by
  induction vars generalizing vars' with
  | nil => cases hupdate
  | cons v older ih =>
      have hv := hvars v List.mem_cons_self
      have holder := fun v' hv' => hvars v' (List.mem_cons_of_mem _ hv')
      rw [updateVar] at hupdate
      split_ifs at hupdate
      · cases hupdate
        exact ⟨rfl, List.forall_mem_cons.mpr ⟨⟨hv.name, hval⟩, holder⟩⟩
      · obtain ⟨older', hrest, rfl⟩ := Option.map_eq_some_iff.mp hupdate
        obtain ⟨hlength, hshort⟩ := ih holder hrest
        exact ⟨congrArg (· + 1) hlength, List.forall_mem_cons.mpr ⟨hv, hshort⟩⟩

theorem Sound.setVars {vars : List Var} (hs : Sound nodes s) (hcount : vars.length ≤ maxVars)
    (hvars : ∀ v ∈ vars, v.Short) : Sound nodes { s with vars := vars } :=
  ⟨hs.pool, hcount, hvars, hs.funcCount, hs.funcs, hs.returnVal, hs.error⟩

theorem guarded_setVar {src : Buffer} (hsrc : 64 ≤ src.size) {name : Text} {val : Value}
    (hs : Sound nodes s) (hname : name.length ≤ 63) (hval : val.Short) :
    Guarded nodes (Traced.setVar src name val) s fun _ => True := by
  refine emits_look (emits_keepBind (emits_findOwn val (fun i hi => ?_) fun v hv => ⟨?_, ?_⟩) ?_)
  · exact inBounds_access (hi.trans_le hs.varCount)
  · exact allows_common (hs.vars v hv).name le_rfl
  · exact allows_common (hs.vars v hv).name hsrc
  · refine emits_ite (fun hfound => ?_) fun _ => emits_ite (fun _ => ?_) fun hroom => ?_
    · obtain ⟨vars, hupdate⟩ := Option.isSome_iff_exists.mp hfound
      obtain ⟨hlength, hshort⟩ := updateVar_short hval hs.vars hupdate
      refine emits_emitBind trivial (guarded_pure ?_ trivial)
      rw [Event.apply, hupdate, Option.getD_some]
      exact hs.setVars (hlength.trans_le hs.varCount) hshort
    · exact guarded_bind (guarded_setError hs (by decide)) fun _ _ _ hs' => guarded_pure hs' trivial
    · have hlt := Nat.not_le.mp hroom
      refine emits_touch (inBounds_access hlt) (emits_strcpy (allows_name hname hsrc)
        (allows_name hname le_rfl) (emits_emitBind trivial (guarded_pure ?_ trivial)))
      exact hs.setVars hlt (List.forall_mem_cons.mpr ⟨⟨hname, hval⟩, hs.vars⟩)

theorem guarded_popScope (hs : Sound nodes s) : Guarded nodes Traced.popScope s fun _ => True := by
  refine emits_look ((emits_popVars rfl (fun _ => trivial) fun _ i hi => ?_).mono
    fun _ s' hs' => ?_)
  · exact inBounds_access (hi.trans_le hs.varCount)
  · subst hs'
    have hsub := List.dropWhile_sublist (l := s.vars) fun v => s.callDepth ≤ v.scope
    exact ⟨trivial, hs.setVars (hsub.length_le.trans hs.varCount) fun v hv =>
      hs.vars v (hsub.subset hv)⟩

theorem guarded_bindParams {i : Nat} {params : List Text} {args : List Value} (hs : Sound nodes s)
    (hcount : i + params.length ≤ maxParams) (hparams : ∀ param ∈ params, param.length ≤ 63)
    (hargs : ∀ arg ∈ args, arg.Short) :
    Guarded nodes (Traced.bindParams i params args) s fun _ => True := by
  induction params generalizing i args s with
  | nil => exact guarded_pure hs trivial
  | cons param params ih =>
      cases args with
      | nil => exact guarded_pure hs trivial
      | cons arg args =>
          rw [List.length_cons] at hcount
          have hi : i < maxParams := by omega
          refine emits_touch (inBounds_access hi) (emits_touch (inBounds_access hi) ?_)
          refine guarded_bind (guarded_setVar le_rfl hs (hparams _ List.mem_cons_self)
            (hargs _ List.mem_cons_self)) fun ok s' _ hs' => ?_
          refine emits_ite (fun _ => ?_) fun _ => guarded_pure hs' trivial
          exact ih hs' (by omega) (fun param' h => hparams param' (List.mem_cons_of_mem _ h))
            fun arg' h => hargs arg' (List.mem_cons_of_mem _ h)

theorem guarded_afterRound (hs : Sound nodes s) :
    Guarded nodes Traced.afterRound s fun _ => True := by
  have hflag : ∀ flag, Sound nodes (Event.apply (.breaking flag) s) ∧
      Sound nodes (Event.apply (.continuing flag) s) := fun flag =>
    ⟨hs.apply ⟨rfl, rfl, rfl, rfl, rfl⟩, hs.apply ⟨rfl, rfl, rfl, rfl, rfl⟩⟩
  refine emits_touch (inBounds_failed s) (emits_look (emits_ite (fun _ => guarded_pure hs trivial)
    fun _ => emits_ite (fun _ => ?_) fun _ => ?_))
  · exact emits_emitBind trivial (guarded_pure (hflag false).1 trivial)
  · exact emits_emitBind trivial (guarded_pure (hflag false).2 trivial)

/-- What a call does behind its body. -/
theorem guarded_leaveCall {result : Value} (hs : Sound nodes s) (hresult : result.Short) :
    Guarded nodes (do
      let s ← look
      if s.returning then Traced.event .returned
      Traced.popScope
      Traced.event (.depth (-1))
      return if s.returning then s.returnVal else result) s Value.Short := by
  have hpop : ∀ (v : Value) s, Sound nodes s → v.Short → Guarded nodes (do
      Traced.popScope
      Traced.event (.depth (-1))
      return v) s Value.Short := fun v s hs hv =>
    guarded_bind (guarded_popScope hs) fun _ s' _ hs' => emits_emitBind trivial
      (guarded_pure (hs'.apply ⟨rfl, rfl, rfl, rfl, rfl⟩) hv)
  have hvalue : (if s.returning then s.returnVal else result).Short := by
    split_ifs
    · exact hs.returnVal
    · exact hresult
  refine emits_look (emits_ite (fun _ => ?_) fun _ => hpop _ s hs hvalue)
  exact emits_emitBind trivial (hpop _ _ (hs.apply ⟨rfl, rfl, rfl, rfl, rfl⟩) hvalue)

theorem guarded_valToStr {v : Value} (hv : v.Short) {f : Text → Traced α}
    (hf : Guarded nodes (f (valToStr v)) s post) :
    Guarded nodes (Traced.valToStr v >>= f) s post := by
  refine emits_valToStr (fun n _ => ?_) (allows_str (valToStr_length hv)) hf
  exact allows_of_lt ((Nat.sub_le _ _).trans_lt ((intToStr_length n).trans_lt (by decide)))

theorem guarded_binopTexts (op : Option TokenType) {l r : Value} (hs : Sound nodes s)
    (hl : l.Short) (hr : r.Short) :
    Guarded nodes (Traced.binopTexts op l r) s fun _ => True := by
  have hlast : ∀ n : Nat, n ≤ maxStr - 1 →
      Guarded nodes (Traced.touchTo .str n) s fun _ => True := fun n hn =>
    (emits_touchTo (allows_of_lt (Nat.lt_succ_of_le hn))).mono fun _ s' hkept =>
      ⟨trivial, hkept ▸ hs⟩
  have hstreq : ∀ a b : Text, a.length ≤ maxStr - 1 →
      Guarded nodes (Traced.streq .str .str a b) s fun _ => True := by
    intro a b ha
    have hcommon := (common_le a b).1.trans ha
    exact emits_touchToBind (allows_of_lt (Nat.lt_succ_of_le hcommon)) (hlast _ hcommon)
  unfold Traced.binopTexts
  split
  · rename_i text
    have htext := hl text rfl
    have hall := strcat_length htext (valToStr r)
    refine emits_strcpy (allows_str htext) (allows_str htext) (guarded_valToStr hr ?_)
    refine emits_strcat (allows_str htext) ?_ (allows_str hall) ?_
    · exact allows_str ((List.length_take_le' _ _).trans (valToStr_length hr))
    · exact emits_touchToBind (allows_str hall) (hlast _ hall)
  · exact hstreq _ _ (hl _ rfl)
  · exact hstreq _ _ (hl _ rfl)
  · exact guarded_pure hs trivial

/-- An operator makes a short value, or it enters a short error. -/
def ShortOperator (x : Eval Value) : Prop :=
  (∃ v, v.Short ∧ x = pure v) ∨ ∃ text, text.length ≤ maxStr - 1 ∧ x = failWith text

theorem evalBinop_short (op : Option TokenType) {l r : Value} (hl : l.Short) :
    ShortOperator (evalBinop op l r) := by
  have hdiv : ∀ (c : Prop) [Decidable c] (text : Text) (v : Int32), text.length ≤ maxStr - 1 →
      ShortOperator (if c then failWith text else pure (.int v)) := by
    intro c _ text v htext
    by_cases hc : c
    · rw [if_pos hc]
      exact .inr ⟨text, htext, rfl⟩
    · rw [if_neg hc]
      exact .inl ⟨_, short_int v, rfl⟩
  unfold evalBinop
  split
  · exact .inl ⟨_, short_str (strcat_length (hl _ rfl) _), rfl⟩
  all_goals
    first
      | exact .inl ⟨_, short_bool _, rfl⟩
      | exact .inl ⟨_, short_int _, rfl⟩
      | exact .inr ⟨_, by decide, rfl⟩
      | exact hdiv _ _ _ (by decide)

theorem evalUnop_short (op : Option TokenType) (operand : Value) :
    ShortOperator (evalUnop op operand) := by
  unfold evalUnop
  split
  · exact .inl ⟨_, short_int _, rfl⟩
  · exact .inr ⟨_, by decide, rfl⟩
  · exact .inl ⟨_, short_bool _, rfl⟩
  · exact .inl ⟨_, short_none, rfl⟩

theorem guarded_operate {x : Eval Value} (hx : ShortOperator x) (hs : Sound nodes s) :
    Guarded nodes (Traced.operate x) s Value.Short := by
  refine emits_look ?_
  obtain ⟨v, hv, rfl⟩ | ⟨text, htext, rfl⟩ := hx
  · change Guarded nodes (do
      if s.error ≠ [] then Traced.setError s.error
      return v) s Value.Short
    refine emits_ite (fun _ => ?_) fun _ => guarded_pure hs hv
    exact guarded_bind (guarded_setError hs hs.error) fun _ _ _ hs' => guarded_pure hs' hv
  · change Guarded nodes (do
      if text ≠ [] then Traced.setError text
      return Value.none) s Value.Short
    refine emits_ite (fun _ => ?_) fun _ => guarded_pure hs short_none
    exact guarded_failWith hs htext

theorem Complete.childAt_lt {node : Node} (hnode : Complete nodes node) (i : Nat) :
    node.childAt i < nodes.length := by
  rw [Node.childAt]
  cases hc : node.child[i]? with
  | none => exact (by decide : (-1 : Int) < 0).trans_le (Int.natCast_nonneg _)
  | some c => exact Int.ofNat_lt.mpr (hnode.child c (List.mem_of_getElem? hc))

/-- The text of a node is not too long for a string. -/
theorem Node.Short.length {node : Node} (hnode : node.Short) :
    node.strVal.length ≤ maxStr - 1 := by
  rcases hnode with hword | ⟨-, hstr⟩
  · exact hword.trans (by decide)
  · exact hstr

/-- And that of another node than a string is not too long for a name. -/
theorem Node.Short.word {node : Node} (hnode : node.Short) (htype : node.type ≠ .str) :
    node.strVal.length ≤ 63 :=
  hnode.resolve_right fun hstr => htype hstr.1

/-- The node of an index in the pool. -/
theorem Runnable.fetch (hnodes : Runnable nodes) (hs : Sound nodes s) {c : Nat}
    (hc : c < nodes.length) : InBounds s (.access .nodes c) ∧
      ∃ node, s.nodes.getD c (blankNode .int 0) = node ∧ nodes[c]? = some node ∧ node ∈ nodes := by
  refine ⟨inBounds_access (hc.trans_le hnodes.room), nodes[c], ?_, ?_, List.getElem_mem hc⟩
  · rw [hs.pool, List.getD_eq_getElem?_getD, List.getElem?_eq_getElem hc, Option.getD_some]
  · exact List.getElem?_eq_getElem hc

theorem guarded_evalDef (hnodes : Runnable nodes) {node : Node} (hmem : node ∈ nodes)
    (htype : node.type = .def_) (hs : Sound nodes s) :
    Guarded nodes (Traced.evalDef node) s Value.Short := by
  have hnode := hnodes.complete node hmem
  have hword := hnode.text.word (by rw [htype]; decide)
  have hne := List.length_pos_of_ne_nil (hnode.headed (by rw [htype]; rfl))
  have hchildren := hnodes.children node hmem
  have htake : (node.child.dropLast.take maxParams).length ≤ maxParams := List.length_take_le _ _
  have hdrop : (node.child.dropLast.take maxParams).length ≤ node.child.length - 1 :=
    (List.length_take_le' _ _).trans (List.length_dropLast ▸ le_rfl)
  have hparam : ∀ pn ∈ node.child.dropLast.take maxParams, pn < nodes.length ∧
      (s.nodes.getD pn (blankNode .int 0)).strVal.length ≤ 63 := by
    intro pn hpn
    have hvar := hnode.params htype pn (List.mem_of_mem_take hpn)
    obtain ⟨-, param, hget, hfound, hparam⟩ := hnodes.fetch hs (lt_of_typeAt hvar)
    rw [typeAt, hfound, Option.map_some, Option.some.injEq] at hvar
    rw [hget]
    exact ⟨lt_of_typeAt (hnode.params htype pn (List.mem_of_mem_take hpn)),
      (hnodes.complete param hparam).text.word (by rw [hvar]; decide)⟩
  refine emits_look (emits_ite (fun _ => guarded_failWith hs (by decide)) fun hroom => ?_)
  have hlt := Nat.not_le.mp hroom
  refine emits_touch (inBounds_access hlt) (emits_strcpy (allows_str hnode.text.length)
    (allows_name hword le_rfl) ?_)
  refine emits_keepBind (emits_copyParams (fun j hj => ⟨?_, ?_⟩) fun pn hpn => ⟨?_, ?_, ?_⟩) ?_
  · exact inBounds_access (show j < maxChildren by omega)
  · exact inBounds_access (show j < maxParams by omega)
  · exact inBounds_access ((hparam pn hpn).1.trans_le hnodes.room)
  · exact allows_name (hparam pn hpn).2 (by decide)
  · exact allows_name (hparam pn hpn).2 le_rfl
  · refine emits_touch ?_ (emits_emitBind trivial (guarded_pure ?_ short_none))
    · change (0 : Int) ≤ _ ∧ _ < ((maxChildren : Nat) : Int)
      omega
    · refine ⟨hs.pool, hs.varCount, hs.vars, ?_, ?_, hs.returnVal, hs.error⟩
      · change (s.funcs ++ [_]).length ≤ maxFuncs
        rw [List.length_append]
        exact hlt
      · refine List.forall_mem_append.mpr ⟨hs.funcs, List.forall_mem_singleton.mpr
          ⟨hword, ?_, ?_, ?_⟩⟩
        · exact (List.length_map _).trans_le htake
        · exact List.forall_mem_map.mpr fun pn hpn => (hparam pn hpn).2
        · exact hnode.childAt_lt _

/-- An evaluation of any node of the pool, or of none. -/
def Evaluates (nodes : List Node) (evalNode : Int → Traced Value) : Prop :=
  ∀ (c : Int) s, c < nodes.length → Sound nodes s → Guarded nodes (evalNode c) s Value.Short

end

section

variable {α : Type} {nodes : List Node} {s : GkState} {node : Node} {evalNode : Int → Traced Value}
  {post : α → Prop} (heval : Evaluates nodes evalNode)

include heval

/-- A child is evaluated. -/
theorem guarded_child (hnode : Complete nodes node) {i : Nat} (hi : i < maxChildren)
    (hs : Sound nodes s) {f : Value → Traced α}
    (hf : ∀ v s, v.Short → Sound nodes s → Guarded nodes (f v) s post) :
    Guarded nodes (Traced.childAt node i >>= fun c => evalNode c >>= f) s post :=
  emits_childAt (inBounds_access hi) (guarded_bind (heval _ s (hnode.childAt_lt i) hs) hf)

theorem guarded_evalLogic (hnode : Complete nodes node) (hs : Sound nodes s) (stop : Bool) :
    Guarded nodes (Traced.evalLogic evalNode stop node) s Value.Short :=
  guarded_child heval hnode (by decide) hs fun _ _ _ hs => emits_ite
    (fun _ => guarded_pure hs (short_bool _)) fun _ =>
      guarded_child heval hnode (by decide) hs fun _ _ _ hs => guarded_pure hs (short_bool _)

theorem guarded_evalPrint {i : Nat} {children : List Nat} (hs : Sound nodes s)
    (hcount : i + children.length ≤ maxChildren) (hchildren : ∀ c ∈ children, c < nodes.length) :
    Guarded nodes (Traced.evalPrint evalNode i children) s Value.Short := by
  induction children generalizing i s with
  | nil =>
      exact emits_emitBind trivial (guarded_pure (hs.apply ⟨rfl, rfl, rfl, rfl, rfl⟩) short_none)
  | cons c more ih =>
      rw [List.length_cons] at hcount
      have hc := Int.ofNat_lt.mpr (hchildren c List.mem_cons_self)
      have hmore := fun c' hc' => hchildren c' (List.mem_cons_of_mem _ hc')
      refine emits_touch (inBounds_access (show i < maxChildren by omega))
        (guarded_bind (heval c s hc hs) fun v s hv hs => guarded_unlessFailed hs short_none ?_)
      have hprinted := hs.apply (e := .print (valToStr v)) ⟨rfl, rfl, rfl, rfl, rfl⟩
      refine guarded_valToStr hv (emits_emitBind trivial (emits_ite (fun _ => ?_) fun _ => ?_))
      · exact emits_emitBind trivial
          (ih (hprinted.apply ⟨rfl, rfl, rfl, rfl, rfl⟩) (by omega) hmore)
      · exact ih hprinted (by omega) hmore

theorem guarded_evalInput (hnode : Complete nodes node) (hs : Sound nodes s) :
    Guarded nodes (Traced.evalInput evalNode node) s Value.Short := by
  have hread : ∀ s : GkState, Sound nodes s → Guarded nodes (do
      let line ← Traced.readLine (maxStr - 2)
      Traced.gkPrint (ascii "\n")
      Traced.strcpy .str .str line
      return Value.str line) s Value.Short := by
    intro s hs
    have hline : Guarded nodes (Traced.readLine (maxStr - 2)) s fun line =>
        line.length ≤ maxStr - 1 := by
      have hlength : ((s.typed.headD []).take (maxStr - 2)).length ≤ maxStr - 1 :=
        (List.length_take_le _ _).trans (by decide)
      refine emits_touch ⟨le_rfl, by decide⟩ (emits_look (emits_emitBind trivial ?_))
      exact emits_touchToBind (allows_str hlength)
        (guarded_pure (hs.apply ⟨rfl, rfl, rfl, rfl, rfl⟩) hlength)
    refine guarded_bind hline fun line s hlength hs => emits_emitBind trivial ?_
    exact emits_strcpy (allows_str hlength) (allows_str hlength)
      (guarded_pure (hs.apply ⟨rfl, rfl, rfl, rfl, rfl⟩) (short_str hlength))
  refine emits_ite (fun _ => ?_) fun _ => hread s hs
  refine guarded_child heval hnode (by decide) hs fun prompt s hprompt hs =>
    guarded_unlessFailed hs short_none (guarded_valToStr hprompt ?_)
  exact emits_emitBind trivial (hread _ (hs.apply ⟨rfl, rfl, rfl, rfl, rfl⟩))

theorem guarded_evalIntCast (hnode : Complete nodes node) (hs : Sound nodes s) :
    Guarded nodes (Traced.evalIntCast evalNode node) s Value.Short := by
  refine emits_ite (fun _ => guarded_failWith hs (by decide)) fun _ => ?_
  refine guarded_child heval hnode (by decide) hs fun v s hv hs =>
    guarded_unlessFailed hs short_none ?_
  cases v with
  | int v => exact guarded_pure hs (short_int v)
  | str text =>
      refine emits_touchToBind (allows_of_lt ?_) ?_
      · exact Nat.lt_succ_of_le ((scanned_le text).trans (hv text rfl))
      · cases intOfText text with
        | none => exact guarded_failWith hs (by decide)
        | some v => exact guarded_pure hs (short_int v)
  | bool v => exact guarded_failWith hs (by decide)
  | none => exact guarded_failWith hs (by decide)

theorem guarded_evalBlock {i : Nat} {children : List Nat} {last : Value} (hs : Sound nodes s)
    (hcount : i + children.length ≤ maxChildren) (hchildren : ∀ c ∈ children, c < nodes.length)
    (hlast : last.Short) :
    Guarded nodes (Traced.evalBlock evalNode i children last) s Value.Short := by
  induction children generalizing i last s with
  | nil => exact guarded_pure hs hlast
  | cons c more ih =>
      rw [List.length_cons] at hcount
      refine emits_touch (inBounds_access (show i < maxChildren by omega)) ?_
      refine guarded_bind (heval c s (Int.ofNat_lt.mpr (hchildren c List.mem_cons_self)) hs)
        fun last s hlast hs => emits_touch (inBounds_failed s) (emits_look ?_)
      refine emits_ite (fun _ => guarded_pure hs hlast) fun _ => ?_
      exact ih hs (by omega) (fun c' hc' => hchildren c' (List.mem_cons_of_mem _ hc')) hlast

/-- A round of a loop's body, and what comes behind it. -/
theorem guarded_round (hnode : Complete nodes node) (hs : Sound nodes s)
    {more : Value → Traced Value} (hmore : ∀ result s, result.Short → Sound nodes s →
      Guarded nodes (more result) s Value.Short) :
    Guarded nodes (do
      let result ← evalNode (← Traced.childAt node 1)
      if ← Traced.afterRound then more result else return result) s Value.Short :=
  guarded_child heval hnode (by decide) hs fun result _ hresult hs =>
    guarded_bind (guarded_afterRound hs) fun _ _ _ hs =>
      emits_ite (fun _ => hmore result _ hresult hs) fun _ => guarded_pure hs hresult

theorem guarded_evalWhile (hnode : Complete nodes node) {fuel : Nat} {result : Value}
    (hs : Sound nodes s) (hresult : result.Short) :
    Guarded nodes (Traced.evalWhile evalNode node fuel result) s Value.Short := by
  induction fuel generalizing result s with
  | zero => exact emits_throw _
  | succ fuel ih =>
      refine guarded_child heval hnode (by decide) hs fun cond s _ hs =>
        emits_failed (inBounds_failed s) (emits_ite (fun _ => guarded_pure hs hresult) fun _ => ?_)
      exact guarded_round heval hnode hs fun _ _ hresult hs => ih hs hresult

theorem guarded_evalRounds (hnode : Complete nodes node) (hword : node.strVal.length ≤ 63)
    {left : Nat} {i : Int32} {result : Value} (hs : Sound nodes s) (hresult : result.Short) :
    Guarded nodes (Traced.evalRounds evalNode node left i result) s Value.Short := by
  induction left generalizing i result s with
  | zero => exact guarded_pure hs hresult
  | succ left ih =>
      refine guarded_bind (guarded_setVar (by decide) hs hword (short_int i)) fun _ s _ hs => ?_
      refine emits_ite (fun _ => guarded_pure hs short_none) fun _ => ?_
      exact guarded_round heval hnode hs fun _ _ hresult hs => ih hs hresult

theorem guarded_evalFor (hnodes : Runnable nodes) (hmem : node ∈ nodes) (htype : node.type = .for_)
    (hs : Sound nodes s) : Guarded nodes (Traced.evalFor evalNode node) s Value.Short := by
  have hnode := hnodes.complete node hmem
  have hword := hnode.text.word (by rw [htype]; decide)
  obtain ⟨c, more, hchild⟩ := List.exists_cons_of_ne_nil (hnode.headed (by rw [htype]; rfl))
  have hat : node.childAt 0 = (c : Int) := by
    rw [Node.childAt, hchild]
    rfl
  have hc := hnode.child c (hchild ▸ List.mem_cons_self)
  obtain ⟨hinside, iter, hget, -, hiter⟩ := hnodes.fetch hs hc
  refine emits_childAt (inBounds_access (show 0 < maxChildren by decide)) ?_
  rw [hat]
  refine emits_nodeAt hinside ?_
  rw [Int.toNat_natCast, hget]
  refine emits_ite (fun _ => guarded_failWith hs (by decide)) fun _ => ?_
  have hiterNode := hnodes.complete iter hiter
  split_ifs
  all_goals
    refine guarded_child heval (by assumption) (by decide) hs fun v s hv hs => ?_
    refine guarded_unlessFailed hs short_none ?_
    cases v with
    | int limit => exact guarded_evalRounds heval hnode hword hs short_none
    | str text => exact guarded_failWith hs (by decide)
    | bool v => exact guarded_failWith hs (by decide)
    | none => exact guarded_failWith hs (by decide)

theorem guarded_evalArgs {i : Nat} {children : List Nat} (hs : Sound nodes s)
    (hcount : i + children.length ≤ maxParams) (hchildren : ∀ c ∈ children, c < nodes.length) :
    Guarded nodes (Traced.evalArgs evalNode i children) s fun found =>
      ∀ args, found = some args → ∀ arg ∈ args, arg.Short := by
  induction children generalizing i s with
  | nil =>
      refine guarded_pure hs fun args hargs => ?_
      cases hargs
      exact fun _ harg => absurd harg List.not_mem_nil
  | cons c more ih =>
      rw [List.length_cons] at hcount
      have hi : i < maxParams := by omega
      refine emits_touch (inBounds_access (hi.trans (by decide))) ?_
      refine guarded_bind (heval c s (Int.ofNat_lt.mpr (hchildren c List.mem_cons_self)) hs)
        fun v s hv hs => emits_touch (inBounds_access hi) ?_
      refine guarded_unlessFailed hs (fun _ hnone => by cases hnone) ?_
      refine guarded_bind (ih hs (by omega) fun c' hc' => hchildren c' (List.mem_cons_of_mem _ hc'))
        fun found s hfound hs => guarded_pure hs fun args hargs => ?_
      obtain ⟨rest, hrest, rfl⟩ := Option.map_eq_some_iff.mp hargs
      exact List.forall_mem_cons.mpr ⟨hv, hfound rest hrest⟩

theorem guarded_evalCall (hnode : Complete nodes node) (hword : node.strVal.length ≤ 63)
    (hs : Sound nodes s) : Guarded nodes (Traced.evalCall evalNode node) s Value.Short := by
  refine emits_look (emits_keepBind (emits_findFunc (fun j hj => ?_) fun f hf => ⟨?_, ?_⟩) ?_)
  · rw [Nat.zero_add] at hj
    exact inBounds_access (hj.trans_le hs.funcCount)
  · exact allows_common (hs.funcs f hf).name le_rfl
  · exact allows_common (hs.funcs f hf).name (by decide)
  · cases hfound : findFunc s.funcs node.strVal with
    | none => exact guarded_failWithName hs (by decide) (hword.trans (by decide))
    | some f =>
        have hf := hs.funcs f (List.mem_of_find?_eq_some hfound)
        refine emits_ite (fun _ => guarded_failWith hs (by decide)) fun hcount =>
          emits_ite (fun _ => guarded_failWith hs (by decide)) fun _ => ?_
        have hargs : 0 + node.child.length ≤ maxParams := by
          rw [Nat.zero_add, not_not.mp hcount]
          exact hf.paramCount
        refine guarded_bind (guarded_evalArgs heval hs hargs hnode.child)
          fun found s hshort hs => ?_
        cases found with
        | none => exact guarded_pure hs short_none
        | some args =>
            refine emits_emitBind trivial ?_
            have hdeeper := hs.apply (e := .depth 1) ⟨rfl, rfl, rfl, rfl, rfl⟩
            refine guarded_bind (guarded_bindParams hdeeper
              ((Nat.zero_add _).trans_le hf.paramCount)
              hf.params (hshort args rfl)) fun ok s _ hs => emits_ite (fun _ => ?_) fun _ => ?_
            · exact emits_emitBind trivial
                (guarded_pure (hs.apply ⟨rfl, rfl, rfl, rfl, rfl⟩) short_none)
            · exact guarded_bind (heval f.bodyNode s hf.body hs) fun result s hresult hs =>
                guarded_leaveCall hs hresult

theorem guarded_evalCases (hnodes : Runnable nodes) (hmem : node ∈ nodes) (fuel : Nat)
    (hs : Sound nodes s) : Guarded nodes (Traced.evalCases evalNode fuel node) s Value.Short := by
  have hnode := hnodes.complete node hmem
  have hcount : 0 + node.child.length ≤ maxChildren :=
    (Nat.zero_add _).trans_le (hnodes.children node hmem)
  have hword := @Node.Short.word node hnode.text
  have hflag : ∀ e : Event, (e.apply s).nodes = s.nodes ∧ (e.apply s).vars = s.vars ∧
      (e.apply s).funcs = s.funcs ∧ (e.apply s).returnVal = s.returnVal ∧
      (e.apply s).error = s.error → e.Inside → Guarded nodes (do
        Traced.event e
        return Value.none) s Value.Short :=
    fun e hsame hinside => emits_emitBind hinside (guarded_pure (hs.apply hsame) short_none)
  unfold Traced.evalCases
  cases htype : node.type with
  | int => exact guarded_pure hs (short_int _)
  | str =>
      exact emits_strcpy (allows_str hnode.text.length) (allows_str hnode.text.length)
        (guarded_pure hs (short_str hnode.text.length))
  | bool => exact guarded_pure hs (short_bool _)
  | var =>
      refine emits_look (emits_keepBind (emits_findVar (fun i hi => ?_) fun v hv => ⟨?_, ?_⟩) ?_)
      · exact inBounds_access (hi.trans_le hs.varCount)
      · exact allows_common (hs.vars v hv).name le_rfl
      · exact allows_common (hs.vars v hv).name (by decide)
      · cases hfound : findVar s.vars node.strVal with
        | none => exact guarded_failWithName hs (by decide) hnode.text.length
        | some v => exact guarded_pure hs (hs.vars v (List.mem_of_find?_eq_some hfound)).val
  | assign =>
      refine guarded_child heval hnode (by decide) hs fun val s hval hs =>
        guarded_unlessFailed hs short_none ?_
      refine guarded_bind (guarded_setVar (by decide) hs (hword (by rw [htype]; decide)) hval)
        fun _ s _ hs => ?_
      exact emits_ite (fun _ => guarded_pure hs hval) fun _ => guarded_pure hs short_none
  | unop =>
      exact guarded_child heval hnode (by decide) hs fun v s _ hs =>
        guarded_unlessFailed hs short_none (guarded_operate (evalUnop_short _ v) hs)
  | binop =>
      refine emits_ite (fun _ => guarded_evalLogic heval hnode hs _) fun _ =>
        emits_ite (fun _ => guarded_evalLogic heval hnode hs _) fun _ => ?_
      refine guarded_child heval hnode (by decide) hs fun l s hl hs =>
        guarded_unlessFailed hs short_none ?_
      refine guarded_child heval hnode (by decide) hs fun r s hr hs =>
        guarded_unlessFailed hs short_none ?_
      exact guarded_bind (guarded_binopTexts _ hs hl hr) fun _ s _ hs =>
        guarded_operate (evalBinop_short _ hl) hs
  | print => exact guarded_evalPrint heval hs hcount hnode.child
  | input => exact guarded_evalInput heval hnode hs
  | intCast => exact guarded_evalIntCast heval hnode hs
  | block => exact guarded_evalBlock heval hs hcount hnode.child short_none
  | if_ =>
      have hlast : ∀ i < maxChildren, ∀ s, Sound nodes s →
          Guarded nodes (Traced.childAt node i >>= evalNode) s Value.Short := fun i hi s hs =>
        emits_childAt (inBounds_access hi) (heval _ s (hnode.childAt_lt i) hs)
      refine guarded_child heval hnode (by decide) hs fun cond s _ hs =>
        guarded_unlessFailed hs short_none ?_
      refine emits_ite (fun _ => hlast 1 (by decide) s hs) fun _ => ?_
      exact emits_ite (fun _ => hlast 2 (by decide) s hs) fun _ => guarded_pure hs short_none
  | while_ => exact guarded_evalWhile heval hnode hs short_none
  | for_ => exact guarded_evalFor heval hnodes hmem htype hs
  | def_ => exact guarded_evalDef hnodes hmem htype hs
  | call => exact guarded_evalCall heval hnode (hword (by rw [htype]; decide)) hs
  | return_ =>
      have hreturn : ∀ (v : Value) s, v.Short → Sound nodes s → Guarded nodes (do
          Traced.event (.return_ v)
          return v) s Value.Short := fun v s hv hs => emits_emitBind trivial
        (guarded_pure ⟨hs.pool, hs.varCount, hs.vars, hs.funcCount, hs.funcs, hv, hs.error⟩ hv)
      refine emits_ite (fun _ => hreturn .none s short_none hs) fun _ => ?_
      exact guarded_child heval hnode (by decide) hs fun v s hv hs =>
        guarded_unlessFailed hs short_none (hreturn v s hv hs)
  | break_ => exact hflag _ ⟨rfl, rfl, rfl, rfl, rfl⟩ trivial
  | continue_ => exact hflag _ ⟨rfl, rfl, rfl, rfl, rfl⟩ trivial
  | range => exact guarded_failWith hs (by decide)

end

theorem evaluates_eval {nodes : List Node} (hnodes : Runnable nodes) (fuel : Nat) :
    Evaluates nodes (Traced.eval fuel) := by
  induction fuel with
  | zero => exact fun _ _ _ _ => emits_throw _
  | succ fuel ih =>
      intro c s hc hs
      refine emits_ite (fun _ => guarded_pure hs short_none) fun hnonneg =>
        guarded_unlessFailed hs short_none ?_
      obtain ⟨n, rfl⟩ := Int.eq_ofNat_of_zero_le (Int.not_lt.mp hnonneg)
      obtain ⟨hinside, node, hget, -, hmem⟩ := hnodes.fetch hs (Int.ofNat_lt.mp hc)
      refine emits_nodeAt hinside ?_
      rw [Int.toNat_natCast, hget]
      exact guarded_evalCases ih hnodes hmem fuel hs

/-! ## Runs -/

theorem sound_start {nodes : List Node} (typed : List Text) : Sound nodes (.start nodes typed) where
  pool := rfl
  varCount := Nat.zero_le _
  vars _ hv := absurd hv List.not_mem_nil
  funcCount := Nat.zero_le _
  funcs _ hf := absurd hf List.not_mem_nil
  returnVal := short_none
  error := Nat.zero_le _

/-- **Memory safety.**  If no node that the parser has made of a program has too many children,
then every index that a run uses lies in its array. -/
theorem run_inBounds {error src : Text} {lexer : Lexer} {root : Nat} {parser : Parser}
    (hlex : gkLex error src = (true, lexer)) (hparse : gkParse lexer.tokens = .ok root parser)
    (hchildren : ∀ node ∈ parser.nodes, node.child.length ≤ maxChildren) :
    root < parser.nodes.length ∧ ∀ (typed : List Text) (fuel : Nat) (c : Int),
      c < parser.nodes.length → ∀ buffer index,
        .access buffer index ∈ (runLog (.start parser.nodes typed) fuel c).events →
          0 ≤ index ∧ index < buffer.size := by
  obtain ⟨hroot, hroom, hcomplete⟩ := gkParse_pool (gkLex_short hlex) hparse
  refine ⟨hroot, fun typed fuel c hc buffer index hmem => ?_⟩
  have hrun := evaluates_eval ⟨hroom, hcomplete, hchildren⟩ fuel c _ hc (sound_start typed)
  obtain ⟨later, earlier, hevents⟩ := List.append_of_mem hmem
  exact (runLog_every hrun).fits later _ earlier hevents

/-- The parser has succeeded, and its nodes do not have too many children. -/
def fewChildren : EStateM.Result Failure Parser Nat → Bool
  | .ok _ parser => parser.nodes.all fun node => node.child.length ≤ maxChildren
  | .error _ _ => false

/-- A script that joins texts in a loop. -/
def joining : Text :=
  ascii "def f(x, y):\n    return x + y\ns = 'a'\nfor i in 9:\n    s = f(s, s)\n"

theorem run_inBounds_joining : ∃ lexer root parser, gkLex [] joining = (true, lexer) ∧
    gkParse lexer.tokens = .ok root parser ∧ root < parser.nodes.length ∧
      ∀ (typed : List Text) (fuel : Nat) (c : Int), c < parser.nodes.length → ∀ buffer index,
        .access buffer index ∈ (runLog (.start parser.nodes typed) fuel c).events →
          0 ≤ index ∧ index < buffer.size := by
  have hok : (gkLex [] joining).1 = true := by decide +kernel
  have hfew : fewChildren (gkParse (gkLex [] joining).2.tokens) = true := by decide +kernel
  cases hlex : gkLex [] joining with
  | mk ok lexer =>
      rw [hlex] at hok hfew
      obtain rfl : ok = true := hok
      cases hparse : gkParse lexer.tokens with
      | ok root parser =>
          rw [hparse, fewChildren, List.all_eq_true] at hfew
          exact ⟨lexer, root, parser, rfl, hparse, run_inBounds hlex hparse fun node hnode =>
            of_decide_eq_true (hfew node hnode)⟩
      | error e parser =>
          rw [hparse] at hfew
          cases hfew

end GeckoOS.Gk
