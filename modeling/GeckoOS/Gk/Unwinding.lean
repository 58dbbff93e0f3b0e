/-
# What a run leaves on the stack

An error stops the evaluation from the inside out, and on the way every call lowers the depth
and drops its variables again, except for a call whose parameters do not all fit on the stack:
it lowers the depth and leaves those it has bound.  The call around it drops them with its
own, but around a call at depth 0 there is none.

So a run leaves only global variables behind if every call at depth 0 finds room for all of
its parameters, or not even for the first one.
-/

import GeckoOS.Gk.CallFrame
import GeckoOS.Gk.Run
import Mathlib.Data.Finset.Card

namespace GeckoOS.Gk

open GeckoOS.Math

/-- All variables are global ones. -/
def GkState.Global (s : GkState) : Prop := ∀ v ∈ s.vars, v.scope = 0

/-- What every evaluation over these nodes keeps, also when it fails. -/
structure KeepsStack (nodes : List Node) (s s' : GkState) : Prop where
  pool : s.nodes = nodes → s'.nodes = nodes
  depth : s.nodes = nodes → s'.callDepth = s.callDepth
  below : s.nodes = nodes → varsBelow s.callDepth s'.vars = varsBelow s.callDepth s.vars
  global : s.nodes = nodes → s.callDepth = 0 → s.Global → s'.Global

/-- The parameters of a call that is made at depth 0 are bound all, or none of them is. -/
def bindsAllOrNone : Monitor :=
  { Monitor.all with
    bind := fun s f _ => s.callDepth ≠ 0 || maxVars ≤ s.vars.length ||
      s.vars.length + f.params.dedup.length ≤ maxVars }

variable {nodes : List Node} {s s' : GkState} {node : Node} {inLoop : Bool} {fuel : Nat}

instance : IsPreorder GkState (KeepsStack nodes) where
  refl _ := ⟨id, fun _ => rfl, fun _ => rfl, fun _ _ hglobal => hglobal⟩
  trans _ _ _ hfirst hsecond := by
    refine ⟨fun h => hsecond.pool (hfirst.pool h), fun h => ?_, fun h => ?_,
      fun h hdepth hglobal => ?_⟩
    · exact (hsecond.depth (hfirst.pool h)).trans (hfirst.depth h)
    · have hbelow := hsecond.below (hfirst.pool h)
      rw [hfirst.depth h] at hbelow
      exact hbelow.trans (hfirst.below h)
    · exact hsecond.global (hfirst.pool h) ((hfirst.depth h).trans hdepth)
        (hfirst.global h hdepth hglobal)

/-- Only runs over these nodes matter. -/
theorem KeepsStack.of_nodes (hkeeps : s.nodes = nodes → KeepsStack nodes s s') :
    KeepsStack nodes s s' :=
  ⟨fun h => (hkeeps h).pool h, fun h => (hkeeps h).depth h, fun h => (hkeeps h).below h,
    fun h => (hkeeps h).global h⟩

/-- Steps that change neither the variables nor the depth. -/
theorem KeepsStack.of_same (hnodes : s'.nodes = s.nodes) (hdepth : s'.callDepth = s.callDepth)
    (hvars : s'.vars = s.vars) : KeepsStack nodes s s' := by
  refine ⟨hnodes.trans, fun _ => hdepth, fun _ => by rw [hvars], fun _ _ hglobal => ?_⟩
  rw [GkState.Global, hvars]
  exact hglobal

/-! ## Variables -/

theorem keepsStack_setVar (name : Text) (val : Value) :
    Keeps (KeepsStack nodes) (setVar name val) := by
  intro s
  rw [setVar, ensures_bind, ensures_get]
  cases hupdate : updateVar s.callDepth name val s.vars with
  | some vars =>
      simp only [ensures_bind, ensures_set, ensures_pure]
      obtain ⟨hbelow, hscopes⟩ := updateVar_eq_some hupdate
      refine ⟨id, fun _ => rfl, fun _ => hbelow, fun _ _ hglobal v hv => ?_⟩
      obtain ⟨old, hold, hscope⟩ := List.mem_map.mp (hscopes ▸ List.mem_map_of_mem hv)
      exact hscope.symm.trans (hglobal old hold)
  | none =>
      simp only [ensures_bind, ensures_ite, ensures_set, ensures_pure]
      refine ⟨fun _ => ?_, fun _ => ⟨id, fun _ => rfl, fun _ => varsBelow_cons le_rfl _,
        fun _ hdepth hglobal v hv => ?_⟩⟩
      · rw [setError, ensures_modify]
        exact .of_same rfl rfl rfl
      · rcases List.mem_cons.mp hv with rfl | hv
        · exact hdepth
        · exact hglobal v hv

instance : KeptByStmts (KeepsStack nodes) where
  console _ _ _ := .of_same rfl rfl rfl
  fail _ _ _ := .of_same rfl rfl rfl
  define _ _ := .of_same rfl rfl rfl
  return_ _ _ := .of_same rfl rfl rfl
  jump _ _ _ := .of_same rfl rfl rfl
  set := keepsStack_setVar

/-! ## Parameters -/

/-- A variable of the current call is found by its name. -/
theorem updateVar_known {depth : Int} {name : Text} {val : Value} {fresh : List Var}
    (hfresh : ∀ v ∈ fresh, v.scope = depth) (hmem : name ∈ fresh.map (·.name)) :
    ∃ fresh', updateVar depth name val fresh = some fresh' ∧
      fresh'.map (·.name) = fresh.map (·.name) ∧ ∀ v ∈ fresh', v.scope = depth := by
  induction fresh with
  | nil => exact absurd hmem List.not_mem_nil
  | cons v fresh ih =>
      have hscope := hfresh v List.mem_cons_self
      have hrest : ∀ w ∈ fresh, w.scope = depth := fun w hw => hfresh w (List.mem_cons_of_mem _ hw)
      rw [updateVar, if_neg (not_lt.mpr hscope.ge)]
      by_cases hname : v.name = name
      · rw [if_pos hname]
        refine ⟨_, rfl, rfl, fun w hw => ?_⟩
        rcases List.mem_cons.mp hw with rfl | hw
        · exact hscope
        · exact hrest w hw
      · rw [if_neg hname]
        have hmem' := (List.mem_cons.mp hmem).resolve_left (Ne.symm hname)
        obtain ⟨fresh', hupdate, hnames, hscopes⟩ := ih hrest hmem'
        refine ⟨v :: fresh', by rw [hupdate, Option.map_some],
          by rw [List.map_cons, List.map_cons, hnames], fun w hw => ?_⟩
        rcases List.mem_cons.mp hw with rfl | hw
        · exact hscope
        · exact hscopes w hw

theorem updateVar_new {depth : Int} {name : Text} {val : Value} {vars : List Var}
    (hnew : name ∉ vars.map (·.name)) : updateVar depth name val vars = none := by
  induction vars with
  | nil => rfl
  | cons v older ih =>
      rw [List.map_cons, List.mem_cons, not_or] at hnew
      rw [updateVar, if_neg (Ne.symm hnew.1), ih hnew.2, Option.map_none, ite_self]

/-- The variables of the callers are not searched. -/
theorem updateVar_stop {depth : Int} {name : Text} {val : Value} {vars : List Var}
    (hbelow : ∀ v ∈ vars, v.scope < depth) : updateVar depth name val vars = none :=
  updateVar_append hbelow []

/-- Where the stack is full, no parameter is bound. -/
theorem bindParams_full (params : List Text) (args : List Value)
    (hbelow : ∀ v ∈ s.vars, v.scope < s.callDepth) (hfull : maxVars ≤ s.vars.length) :
    Ensures (bindParams params args) s fun _ s' => s'.vars = s.vars := by
  cases params with
  | nil => exact (ensures_pure _).mpr rfl
  | cons param params =>
      cases args with
      | nil => exact (ensures_pure _).mpr rfl
      | cons arg args =>
          rw [bindParams, ensures_bind, setVar, ensures_bind, ensures_get, updateVar_stop hbelow]
          simp only [if_pos hfull, setError, ensures_bind, ensures_modify, ensures_pure,
            Bool.false_eq_true, if_false]

/-- Where there is room for all of them, all are bound. -/
theorem bindParams_fit (params : List Text) (args : List Value) (fresh old : List Var)
    (hvars : s.vars = fresh ++ old) (hfresh : ∀ v ∈ fresh, v.scope = s.callDepth)
    (hold : ∀ v ∈ old, v.scope < s.callDepth) (hnodup : (fresh.map (·.name)).Nodup)
    (hroom : (fresh.map (·.name) ++ params).toFinset.card + old.length ≤ maxVars) :
    Ensures (bindParams params args) s fun ok _ => ok = true := by
  induction params generalizing s args fresh with
  | nil => exact (ensures_pure _).mpr rfl
  | cons param params ih =>
      cases args with
      | nil => exact (ensures_pure _).mpr rfl
      | cons arg args =>
          rw [bindParams, ensures_bind, setVar, ensures_bind, ensures_get, hvars,
            updateVar_append hold]
          by_cases hmem : param ∈ fresh.map (·.name)
          · obtain ⟨fresh', hupdate, hnames, hscopes⟩ := @updateVar_known _ _ arg _ hfresh hmem
            simp only [hupdate, Option.map_some, ensures_bind, ensures_set, ensures_pure, if_true]
            refine ih args fresh' rfl hscopes hold (hnames ▸ hnodup) ?_
            rw [hnames]
            refine le_trans (Nat.add_le_add_right (Finset.card_le_card ?_) _) hroom
            intro name hname
            simp only [List.mem_toFinset, List.mem_append, List.mem_cons] at hname ⊢
            exact hname.imp_right .inr
          · have hcount : (fresh.map (·.name)).length + 1 ≤
                (fresh.map (·.name) ++ param :: params).toFinset.card := by
              have hcons : (param :: fresh.map (·.name)).Nodup := List.nodup_cons.mpr ⟨hmem, hnodup⟩
              rw [← List.length_cons (a := param), ← List.toFinset_card_of_nodup hcons]
              refine Finset.card_le_card fun name hname => ?_
              simp only [List.mem_toFinset, List.mem_append, List.mem_cons] at hname ⊢
              tauto
            rw [List.length_map] at hcount
            have hspace : ¬ maxVars ≤ (fresh ++ old).length := by
              rw [List.length_append]
              omega
            simp only [updateVar_new hmem, Option.map_none, if_neg hspace, ensures_bind, ensures_set,
              ensures_pure, if_true]
            refine ih args (⟨param, arg, s.callDepth⟩ :: fresh) rfl (fun v hv => ?_) hold
              (List.nodup_cons.mpr ⟨hmem, hnodup⟩) ?_
            · rcases List.mem_cons.mp hv with rfl | hv
              · rfl
              · exact hfresh v hv
            · refine le_trans (Nat.add_le_add_right (Finset.card_le_card ?_) _) hroom
              intro name hname
              simp only [List.map_cons, List.mem_toFinset, List.mem_append, List.mem_cons] at hname ⊢
              tauto

/-! ## Calls -/

/-- What is below a depth is below what is below a larger one. -/
theorem varsBelow_varsBelow {depth : Int} (vars : List Var) :
    varsBelow depth (varsBelow (depth + 1) vars) = varsBelow depth vars := by
  induction vars with
  | nil => rfl
  | cons v older ih =>
      by_cases hdeep : depth + 1 ≤ v.scope
      · rw [varsBelow_cons hdeep, ih, varsBelow_cons (by omega)]
      · rw [varsBelow_stop (not_le.mp hdeep)]

theorem varsBelow_congr {depth : Int} {vars vars' : List Var}
    (hsame : varsBelow (depth + 1) vars' = varsBelow (depth + 1) vars) :
    varsBelow depth vars' = varsBelow depth vars := by
  rw [← varsBelow_varsBelow, hsame, varsBelow_varsBelow]

/-- A call at depth 0 that cannot bind its parameters has bound none of them. -/
theorem bindParams_none {f : FuncDef} {args : List Value} (hpass : bindsAllOrNone.bind s f args)
    (hdepth : s.callDepth = 0) (hglobal : s.Global)
    (hbind : bindParams f.params args { s with callDepth := s.callDepth + 1 } = .ok false s') :
    s'.vars = s.vars := by
  have hbelow : ∀ v ∈ s.vars, v.scope < s.callDepth + 1 := by
    intro v hv
    rw [hglobal v hv, hdepth]
    exact Int.zero_lt_one
  simp only [bindsAllOrNone, hdepth, ne_eq, not_true, decide_false, Bool.false_or, Bool.or_eq_true,
    decide_eq_true_eq] at hpass
  rcases hpass with hfull | hroom
  · exact @bindParams_full { s with callDepth := s.callDepth + 1 } f.params args hbelow hfull false
      s' hbind
  · have hcard : (([] : List Var).map (·.name) ++ f.params).toFinset.card + s.vars.length ≤
        maxVars := by
      rw [List.map_nil, List.nil_append, List.card_toFinset]
      omega
    have hfit := @bindParams_fit { s with callDepth := s.callDepth + 1 } f.params args [] s.vars rfl
      (by simp) hbelow List.nodup_nil hcard
    exact absurd (hfit false s' hbind) Bool.false_ne_true

/-- A call lowers the depth and drops what belongs to it; where it does not, nothing belongs to
it, or there is a call around it. -/
theorem callWith_keepsStack {evalNode : Int → Eval Value}
    (hbody : ∀ c, Keeps (KeepsStack nodes) (evalNode c)) (f : FuncDef) (args : List Value)
    (hpass : bindsAllOrNone.bind s f args) :
    Ensures (callWith evalNode f args) s fun _ s' => KeepsStack nodes s s' := by
  refine fun v s' hrun => .of_nodes fun hnodes => ?_
  have hdeeper : addDepth 1 s = .ok () { s with callDepth := s.callDepth + 1 } := rfl
  rw [callWith, bind_run hdeeper, bind_eq_ok] at hrun
  obtain ⟨ok, s₁, hbind, hrun⟩ := hrun
  have hbound := @keeps_bindParams (KeepsStack nodes) _ keepsStack_setVar _ _ _ ok s₁ hbind
  cases ok with
  | false =>
      cases hrun
      have hdepth₁ : s₁.callDepth = s.callDepth + 1 := hbound.depth hnodes
      refine ⟨hbound.pool, fun _ => ?_, fun h => varsBelow_congr (hbound.below h),
        fun _ hdepth hglobal => ?_⟩
      · change s₁.callDepth + -1 = s.callDepth
        omega
      · change GkState.Global { s₁ with callDepth := s₁.callDepth + -1 }
        rw [GkState.Global, bindParams_none hpass hdepth hglobal hbind]
        exact hglobal
  | true =>
      obtain ⟨result, s₂, hbody₂, hleave⟩ := bind_eq_ok.mp hrun
      have hinside := trans_of (KeepsStack nodes) hbound (hbody _ s₁ result s₂ hbody₂)
      have hdepth₂ : s₂.callDepth = s.callDepth + 1 := hinside.depth hnodes
      have hbelow : varsBelow s₂.callDepth s₂.vars = varsBelow (s.callDepth + 1) s.vars := by
        rw [hdepth₂]
        exact hinside.below hnodes
      rw [leaveCall_run] at hleave
      cases hleave
      refine ⟨hinside.pool, fun _ => ?_, fun _ => ?_, fun _ _ hglobal v hv => ?_⟩
      · change s₂.callDepth + -1 = s.callDepth
        omega
      · change varsBelow s.callDepth (varsBelow s₂.callDepth s₂.vars) = _
        rw [hbelow, varsBelow_varsBelow]
      · change v ∈ varsBelow s₂.callDepth s₂.vars at hv
        rw [hbelow] at hv
        exact hglobal v ((List.dropWhile_sublist _).mem hv)

/-! ## All nodes -/

/-- Whatever is evaluated in a watched run keeps the stack. -/
theorem evalMonitored_keepsStack (hclosed : ExprsClosed nodes) (fuel : Nat) (inLoop : Bool)
    (c : Int) : Keeps (KeepsStack nodes) (evalMonitored bindsAllOrNone fuel inLoop c) := by
  induction fuel generalizing inLoop c with
  | zero => exact keeps_throw _
  | succ fuel ih =>
      have hexprs : ∀ inLoop,
          ExprsKept (KeepsStack nodes) nodes (evalMonitored bindsAllOrNone fuel inLoop) :=
        fun inLoop c _ => ih inLoop c
      have hcases : ∀ node : Node, (∀ c ∈ node.child, ExprAt nodes c) → node.type.isExpr →
          Keeps (KeepsStack nodes)
            (monitorCases bindsAllOrNone (evalMonitored bindsAllOrNone fuel) fuel inLoop node) :=
        fun node hchild hexpr => keeps_monitorCases_expr _ (hexprs inLoop) hchild fuel hexpr
          fun _ => keeps_monitorCall _ (hexprs inLoop) hchild fun f args s hpass =>
            callWith_keepsStack (ih false) f args hpass
      intro s
      rw [evalMonitored, ensures_bind, ensures_get, ensures_ite, ensures_pure]
      refine ⟨fun _ => refl_of (KeepsStack nodes) s, fun _ => ?_⟩
      by_cases hpool : s.nodes = nodes
      · rw [hpool, List.getD_eq_getElem?_getD]
        cases hnode : nodes[c.toNat]? with
        | none => exact hcases _ (fun _ hc => absurd hc List.not_mem_nil) rfl s
        | some node =>
            rw [Option.getD_some]
            cases hexpr : node.type.isExpr with
            | true => exact hcases node (hclosed node (List.mem_of_getElem? hnode) hexpr) hexpr s
            | false => exact keeps_monitorCases_stmt _ ih fuel hexpr s
      · exact fun _ _ _ => .of_nodes fun h => absurd h hpool

/-! ## Whole runs -/

/-- The stack between two runs. -/
structure GkState.Unwound (s : GkState) : Prop where
  depth : s.callDepth = 0
  global : s.Global

theorem GkState.Unwound.congr (hunwound : s.Unwound) (hdepth : s'.callDepth = s.callDepth)
    (hvars : s'.vars = s.vars) : s'.Unwound := by
  refine ⟨hdepth.trans hunwound.depth, ?_⟩
  rw [GkState.Global, hvars]
  exact hunwound.global

theorem complain_unwound (label : String) (hunwound : s.Unwound) :
    Ensures (complain label) s fun _ s' => s'.Unwound := by
  simp only [complain, gkPrint, ensures_bind, ensures_get, ensures_modify, ensures_pure]
  exact hunwound.congr rfl rfl

/-- A run leaves the stack unwound if the evaluation of its root does. -/
theorem gkRunWith_unwound {evalRoot : Nat → Eval Value} {src : Text} (hunwound : s.Unwound)
    (hroot : ∀ tokens root p s, gkParse tokens = .ok root p → s.nodes = p.nodes → s.Unwound →
      Ensures (evalRoot root) s fun _ s' => s'.Unwound) :
    Ensures (gkRunWith evalRoot src) s fun _ s' => s'.Unwound := by
  simp only [gkRunWith, setError, ensures_bind, ensures_modify, ensures_ite]
  refine ⟨fun _ => complain_unwound _ (hunwound.congr rfl rfl), fun _ => ?_⟩
  cases hparse : gkParse (gkLex [] src).2.tokens with
  | error e p =>
      cases e with
      | error text =>
          simp only [ensures_bind, ensures_modify]
          exact complain_unwound _ (hunwound.congr rfl rfl)
      | outOfFuel => exact ensures_throw _
  | ok root p =>
      simp only [failed, ensures_bind, ensures_modify, ensures_get, ensures_pure, ensures_ite]
      refine ⟨fun _ => complain_unwound _ (hunwound.congr rfl rfl), fun _ => ?_⟩
      refine Ensures.mono (hroot _ root p _ hparse rfl (hunwound.congr rfl rfl)) fun _ s₁ hdone => ?_
      exact ⟨fun _ => complain_unwound _ hdone, fun _ => hdone⟩

/-- **A run leaves no local variable behind**, whether it succeeds or fails and wherever it fails,
if every call at depth 0 finds room for all of its parameters or not even for one. -/
theorem gkRun_unwinds {src : Text} {ok : Bool} (hdepth : s.callDepth = 0)
    (hglobal : ∀ v ∈ s.vars, v.scope = 0)
    (hrun : gkRunMonitored bindsAllOrNone fuel src s = .ok ok s') :
    gkRun fuel src s = .ok ok s' ∧ s'.callDepth = 0 ∧ ∀ v ∈ s'.vars, v.scope = 0 := by
  have hunwinds : Ensures (gkRunMonitored bindsAllOrNone fuel src) s fun _ s' => s'.Unwound := by
    refine gkRunWith_unwound ⟨hdepth, hglobal⟩ fun tokens root p s hparse hnodes hunwound => ?_
    have hkeeps := evalMonitored_keepsStack (gkParse_exprsClosed hparse) fuel false root
    refine (hkeeps s).mono fun _ s' hkept => ?_
    exact ⟨(hkept.depth hnodes).trans hunwound.depth,
      hkept.global hnodes hunwound.depth hunwound.global⟩
  obtain ⟨hdepth', hglobal'⟩ := hunwinds ok s' hrun
  exact ⟨refines_gkRunMonitored bindsAllOrNone fuel src s ok s' hrun, hdepth', hglobal'⟩

/-- A program that fails in a call inside a call. -/
def failingDeep : Text :=
  ascii "def f(x):\n    return 1 / x\ndef g(y, z):\n    return f(y) + z\na = 0\ng(a, 1)\n"

theorem gkRun_unwinds_failingDeep : ∃ s', gkRun 12 failingDeep (.start [] []) = .ok false s' ∧
    s'.callDepth = 0 ∧ ∀ v ∈ s'.vars, v.scope = 0 := by
  have hrun : gkRunMonitored bindsAllOrNone 12 failingDeep (.start [] []) = .ok false _ :=
    eq_ok_of_endValue (by decide +kernel)
  exact ⟨_, gkRun_unwinds rfl (fun v hv => absurd hv List.not_mem_nil) hrun⟩

/-- The state after a run that has set 127 variables. -/
def crowded : GkState :=
  { GkState.start [] [] with
    vars := (List.range 127).map fun i => ⟨[97 + UInt8.ofNat (i / 16), 97 + UInt8.ofNat (i % 16)],
      .int 0, 0⟩ }

/-- A program with a call of a function that has two parameters. -/
def pairing : Text := ascii "def f(x, y):\n    return x\nf(1, 2)\n"

/-- There is room for the first parameter only, and it stays on the stack. -/
theorem gkRun_leaves_pairing : crowded.callDepth = 0 ∧ (∀ v ∈ crowded.vars, v.scope = 0) ∧
    endValue (gkRun 9 pairing crowded) = some false ∧
    ∃ v ∈ (lastState (gkRun 9 pairing crowded)).vars, v.scope = 1 := by
  decide +kernel

end GeckoOS.Gk
