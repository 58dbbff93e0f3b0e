/-
# A run of a program

`gk_run` reads the text of a program, parses it and evaluates the root, each only if there
was no error before, and prints the error there is.  It clears the error and the flags first;
the variables, the functions and the depth of the calls are those the last run has left.
-/

import GeckoOS.Gk.Lexer
import GeckoOS.Gk.Monitored

namespace GeckoOS.Gk

open GeckoOS.Math

/-- Print the error that ends a run. -/
def complain (label : String) : Eval Bool := do
  let s ← get
  gkPrint (ascii label)
  gkPrint s.error
  gkPrint (ascii "\n")
  return false

/-- `gk_run`, with this evaluation of the root. -/
def gkRunWith (evalRoot : Nat → Eval Value) (src : Text) : Eval Bool := do
  modify fun s =>
    { s with error := [], returning := false, breaking := false, continuing := false }
  let lexed := gkLex [] src
  setError lexed.2.error
  if !lexed.1 then complain "gk lex error: "
  else
    match gkParse lexed.2.tokens with
    | .error (.error text) p => do
        modify fun s => { s with nodes := p.nodes, error := text }
        complain "gk parse error: "
    -- The parser does not need more than its bound.
    | .error .outOfFuel _ => throw .outOfFuel
    | .ok root p => do
        modify fun s => { s with nodes := p.nodes }
        if ← failed then complain "gk parse error: "
        else
          let _ ← evalRoot root
          if ← failed then complain "gk runtime error: " else return true

/-- `gk_run`. -/
def gkRun (fuel : Nat) (src : Text) : Eval Bool := gkRunWith (fun root => eval fuel root) src

/-- A watched run. -/
def gkRunMonitored (m : Monitor) (fuel : Nat) (src : Text) : Eval Bool :=
  gkRunWith (fun root => evalMonitored m fuel false root) src

theorem refines_gkRunWith {evalRoot evalRoot' : Nat → Eval Value}
    (hroot : ∀ root, Refines (evalRoot root) (evalRoot' root)) (src : Text) :
    Refines (gkRunWith evalRoot src) (gkRunWith evalRoot' src) := by
  refine refines_bind (refines_refl _) fun _ => refines_bind (refines_refl _) fun _ => ?_
  refine refines_ite (fun _ => refines_refl _) fun _ => ?_
  cases gkParse (gkLex [] src).2.tokens with
  | error e p =>
      cases e with
      | error text => exact refines_refl _
      | outOfFuel => exact refines_refl _
  | ok root p =>
      refine refines_bind (refines_refl _) fun _ => refines_bind (refines_refl _) fun _ => ?_
      exact refines_ite (fun _ => refines_refl _) fun _ =>
        refines_bind (hroot root) fun _ => refines_refl _

/-- What a watched run returns is what `gk_run` returns. -/
theorem refines_gkRunMonitored (m : Monitor) (fuel : Nat) (src : Text) :
    Refines (gkRunMonitored m fuel src) (gkRun fuel src) :=
  refines_gkRunWith (fun root => refines_evalMonitored m fuel false root) src

/-- The state that running the definition at node 1 of a program leads to. -/
def afterDefinition (tokens : List Token) : GkState :=
  lastState (eval 9 1 (.start (lastState (gkParse tokens)).nodes []))

end GeckoOS.Gk
