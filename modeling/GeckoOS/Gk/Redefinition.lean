/-
# Functions that are defined again

A definition is a statement like any other.  Whenever one is executed, the function is appended to
the table of functions, which `find_func` searches from the front.  So the first definition of a
name is the one that calls see, and each later one only takes another of the 64 places.

The table is at the same time the history of the definitions: nothing else changes it.  What
happens at the nodes of a run is looked at with a run that stops where a node does not pass.
-/

import GeckoOS.Gk.Run
import GeckoOS.Math.SlotTable

namespace GeckoOS.Gk

open GeckoOS.Math

/-! ## What is watched -/

/-- The definition of a name that was executed last. -/
def lastFunc (funcs : List FuncDef) (name : Text) : Option FuncDef := findFunc funcs.reverse name

/-- The definition is executed and takes no place in the table. -/
def takesNoPlace (s : GkState) (node : Node) : Bool :=
  match evalDef node s with
  | .ok _ s' => s'.error = [] ∧ s'.funcs.length = s.funcs.length
  | .error _ _ => false

/-- A call sees the last definition of its name, and a definition of a name that has one takes no
place. -/
def latestCounts (s : GkState) (node : Node) : Bool :=
  match node.type with
  | .call => findFunc s.funcs node.strVal = lastFunc s.funcs node.strVal
  | .def_ => (lastFunc s.funcs node.strVal).isSome → takesNoPlace s node
  | _ => true

/-- A definition is of a name that has none. -/
def definesAnew (s : GkState) (node : Node) : Bool :=
  node.type = .def_ → (lastFunc s.funcs node.strVal).isNone

/-- `eval`, which stops at a node that does not pass. -/
def evalWatched (passes : GkState → Node → Bool) : Nat → Int → Eval Value
  | 0, _ => throw .outOfFuel
  | fuel + 1, nodeIdx => do
      let s ← get
      if nodeIdx < 0 ∨ s.error ≠ [] then return .none
      let node := s.nodes.getD nodeIdx.toNat (blankNode .int 0)
      require (passes s node)
      evalCases (evalWatched passes fuel) fuel node

/-- `gk_run`, which stops at a node that does not pass. -/
def gkRunWatched (passes : GkState → Node → Bool) (fuel : Nat) (src : Text) : Eval Bool :=
  gkRunWith (fun root => evalWatched passes fuel root) src

/-! ## The table -/

variable {funcs : List FuncDef} {name : Text} {f : FuncDef} {s : GkState} {node : Node}

/-- No name has two places. -/
def Distinct (s : GkState) : Prop := KeysUnique FuncDef.name some s.funcs

theorem findFunc_eq_slotLookup (funcs : List FuncDef) (name : Text) :
    findFunc funcs name = slotLookup FuncDef.name some funcs name := by
  rw [slotLookup, findFunc, Option.bind_fun_some]
  refine congrArg (fun test => funcs.find? test) (funext fun f => ?_)
  by_cases hname : f.name = name <;> simp [hname]

/-- If no name has two places, the first definition is the last. -/
theorem Distinct.findFunc_eq (hdistinct : Distinct s) (name : Text) :
    findFunc s.funcs name = lastFunc s.funcs name := by
  rw [lastFunc, findFunc_eq_slotLookup, findFunc_eq_slotLookup, hdistinct.slotLookup_reverse]

theorem Distinct.define (hdistinct : Distinct s) (hnew : lastFunc s.funcs f.name = none) :
    Distinct { s with funcs := s.funcs ++ [f] } := by
  rw [← hdistinct.findFunc_eq, findFunc_eq_slotLookup] at hnew
  exact KeysUnique.concat hdistinct hnew

/-- A definition is refused, or it takes the next place. -/
theorem evalDef_cases (node : Node) (s : GkState) :
    evalDef node s = .ok .none { s with error := ascii "too many function definitions" } ∨
      ∃ f : FuncDef, f.name = node.strVal ∧
        evalDef node s = .ok .none { s with funcs := s.funcs ++ [f] } := by
  by_cases hfull : maxFuncs ≤ s.funcs.length
  · left
    have hrun : evalDef node s = (if maxFuncs ≤ s.funcs.length then
        failWith (ascii "too many function definitions") else _ : Eval Value) s := rfl
    rw [hrun, if_pos hfull]
    rfl
  · right
    have hrun : evalDef node s = (if maxFuncs ≤ s.funcs.length then
        failWith (ascii "too many function definitions") else _ : Eval Value) s := rfl
    rw [hrun, if_neg hfull]
    exact ⟨_, rfl, rfl⟩

theorem takesNoPlace_false (s : GkState) (node : Node) : takesNoPlace s node = false := by
  rw [takesNoPlace]
  rcases evalDef_cases node s with hrun | ⟨f, -, hrun⟩
  · have herror : ascii "too many function definitions" ≠ [] := by decide
    rw [hrun]
    exact decide_eq_false fun htakes => herror htakes.1
  · rw [hrun]
    refine decide_eq_false fun htakes => ?_
    have hlength : (s.funcs ++ [f]).length = s.funcs.length := htakes.2
    rw [List.length_append, List.length_singleton] at hlength
    omega

/-- While no name has two places, the nodes that pass are the definitions of new names and the
nodes of other types. -/
theorem latestCounts_eq (hdistinct : Distinct s) (node : Node) :
    latestCounts s node = definesAnew s node := by
  cases htype : node.type with
  | call =>
      simp only [latestCounts, definesAnew, htype]
      rw [hdistinct.findFunc_eq]
      simp
  | def_ =>
      simp only [latestCounts, definesAnew, htype, takesNoPlace_false]
      cases lastFunc s.funcs node.strVal <;> simp
  | _ => simp [latestCounts, definesAnew, htype]

/-! ## Runs -/

/-- The functions are the same. -/
def SameFuncs (s s' : GkState) : Prop := s'.funcs = s.funcs

instance : KeptByParts SameFuncs where
  refl _ := rfl
  trans _ _ _ h h' := h'.trans h
  console _ _ _ := rfl
  fail _ _ _ := rfl
  flags _ _ _ _ _ := rfl
  vars _ _ := rfl
  depth _ _ := rfl

/-- From a table without a name in two places, both do the same and lead to such a table. -/
def Alongside (α : Type) (x x' : Eval α) : Prop :=
  ∀ s, Distinct s → x s = x' s ∧ ∀ a s', x s = .ok a s' → Distinct s'

theorem compares_alongside : Compares SameFuncs Alongside where
  refl := by
    intro α x hkeeps s hdistinct
    refine ⟨rfl, fun a s' hrun => ?_⟩
    have hsame : s'.funcs = s.funcs := hkeeps s a s' hrun
    rwa [Distinct, hsame]
  bind := by
    intro α β x x' f f' hx hf s hdistinct
    obtain ⟨hsame, hmid⟩ := hx s hdistinct
    cases hrun : x s with
    | ok a s₁ =>
        rw [bind_run hrun, bind_run (hsame ▸ hrun)]
        exact hf a s₁ (hmid a s₁ hrun)
    | error e s₁ =>
        rw [bind_error hrun, bind_error (hsame ▸ hrun)]
        exact ⟨rfl, fun b s' hend => by cases hend⟩

/-- A definition of a new name. -/
theorem alongside_evalDef (hdistinct : Distinct s) (hnew : lastFunc s.funcs node.strVal = none) :
    ∀ v s', evalDef node s = .ok v s' → Distinct s' := by
  intro v s' hrun
  rcases evalDef_cases node s with hrefused | ⟨f, hname, hdefined⟩
  · cases hrefused.symm.trans hrun
    exact hdistinct
  · cases hdefined.symm.trans hrun
    exact hdistinct.define (hname ▸ hnew)

theorem alongside_evalWatched (fuel : Nat) (c : Int) :
    Alongside Value (evalWatched latestCounts fuel c) (evalWatched definesAnew fuel c) := by
  induction fuel generalizing c with
  | zero => exact compares_alongside.refl (keeps_throw _)
  | succ fuel ih =>
      intro s hdistinct
      set node := s.nodes.getD c.toNat (blankNode .int 0) with hnode
      have hstep : ∀ passes : GkState → Node → Bool, evalWatched passes (fuel + 1) c s =
          (if c < 0 ∨ s.error ≠ [] then pure .none else require (passes s node) >>= fun _ =>
            evalCases (evalWatched passes fuel) fuel node : Eval Value) s := fun _ => rfl
      rw [hstep, hstep, latestCounts_eq hdistinct]
      by_cases hstop : c < 0 ∨ s.error ≠ []
      · rw [if_pos hstop, if_pos hstop]
        exact compares_alongside.pure _ s hdistinct
      · rw [if_neg hstop, if_neg hstop]
        cases hpass : definesAnew s node with
        | false => exact compares_alongside.refl (keeps_throw _) s hdistinct
        | true =>
            change (evalCases (evalWatched latestCounts fuel) fuel node s = _ ∧ _)
            by_cases hdef : node.type = .def_
            · have hcases : ∀ evalNode, evalCases evalNode fuel node = evalDef node := by
                intro evalNode
                simp only [evalCases, hdef]
              have hnew : lastFunc s.funcs node.strVal = none := by
                simpa [definesAnew, hdef] using hpass
              rw [hcases]
              refine ⟨congrFun (hcases _).symm s, alongside_evalDef hdistinct hnew⟩
            · exact compare_evalCases compares_alongside ih node (fun h => absurd h hdef) fuel s
                hdistinct

/-- What a watched evaluation returns is what `eval` returns. -/
theorem refines_evalWatched (passes : GkState → Node → Bool) (fuel : Nat) (c : Int) :
    Refines (evalWatched passes fuel c) (eval fuel c) := by
  induction fuel generalizing c with
  | zero => exact refines_refl _
  | succ fuel ih =>
      refine refines_bind (refines_refl _) fun s => refines_ite (fun _ => refines_refl _) fun _ => ?_
      exact refines_require _ (refines_evalCases ih _ fuel)

theorem alongside_gkRunWith {evalRoot evalRoot' : Nat → Eval Value}
    (hroot : ∀ root, Alongside Value (evalRoot root) (evalRoot' root)) (src : Text) :
    Alongside Bool (gkRunWith evalRoot src) (gkRunWith evalRoot' src) := by
  have hR := compares_alongside
  have hcomplain : ∀ label, Keeps SameFuncs (complain label) := by
    intro label
    refine keeps_bind keeps_get fun s => keeps_bind (keeps_gkPrint _) fun _ => ?_
    exact keeps_bind (keeps_gkPrint _) fun _ => keeps_bind (keeps_gkPrint _) fun _ => keeps_pure _
  refine hR.bind (hR.refl (keeps_modify fun _ => rfl)) fun _ =>
    hR.bind (hR.refl (keeps_modify fun _ => rfl)) fun _ => ?_
  refine compare_ite (fun _ => hR.refl (hcomplain _)) fun _ => ?_
  cases gkParse (gkLex [] src).2.tokens with
  | error e p =>
      cases e with
      | error text =>
          exact hR.refl (keeps_bind (keeps_modify fun _ => rfl) fun _ => hcomplain _)
      | outOfFuel => exact hR.refl (keeps_throw _)
  | ok root p =>
      refine hR.bind (hR.refl (keeps_modify fun _ => rfl)) fun _ =>
        hR.bind (hR.refl keeps_failed) fun _ => ?_
      refine compare_ite (fun _ => hR.refl (hcomplain _)) fun _ => hR.bind (hroot root) fun _ => ?_
      exact hR.bind (hR.refl keeps_failed) fun _ =>
        compare_ite (fun _ => hR.refl (hcomplain _)) fun _ => hR.pure _

/-- A function that is defined twice. -/
def definedTwice : Text :=
  ascii "def f():\n    return 1\ndef f():\n    return 2\nprint(f())\n"

/-- A function that is defined in a loop. -/
def definedOften : Text :=
  ascii "for i in range(65):\n    def g():\n        return 3\n"

end GeckoOS.Gk
