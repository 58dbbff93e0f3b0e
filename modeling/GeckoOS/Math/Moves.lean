/-
# Moves, one after another

A program that copies a block copies it cell by cell.  When the source and the destination
overlap, a cell may be written that is still to be read, and then the result is not the copy of
what was there at first.

A list of moves is in order when no move writes a cell that a later one reads or writes.  Done
one after another, moves in order have the effect of all of them at once.
-/

import Mathlib.Data.List.Pairwise
import Mathlib.Logic.Function.Basic

namespace GeckoOS.Math

variable {κ α : Type*}

/-- The cell `target` is to hold what is in `source`. -/
structure Move (κ : Type*) where
  target : κ
  source : κ

namespace Move

/-- One move. -/
def perform [DecidableEq κ] (mem : κ → α) (move : Move κ) : κ → α :=
  Function.update mem move.target (mem move.source)

/-- The move writes no cell that the later one reads or writes. -/
def Spares (move later : Move κ) : Prop :=
  move.target ≠ later.source ∧ move.target ≠ later.target

/-- `new` is `old` with all of the moves made at once. -/
structure AllAtOnce (moves : List (Move κ)) (old new : κ → α) : Prop where
  moved : ∀ move ∈ moves, new move.target = old move.source
  kept : ∀ cell, (∀ move ∈ moves, move.target ≠ cell) → new cell = old cell

variable [DecidableEq κ] {moves : List (Move κ)} {move : Move κ} {mem : κ → α}

theorem perform_of_ne {cell : κ} (hne : move.target ≠ cell) :
    perform mem move cell = mem cell :=
  Function.update_of_ne (Ne.symm hne) _ mem

/-- A cell that no move writes stays as it is. -/
theorem foldl_perform_of_ne {cell : κ} (hne : ∀ move ∈ moves, move.target ≠ cell) :
    moves.foldl perform mem cell = mem cell := by
  induction moves generalizing mem with
  | nil => rfl
  | cons move moves ih =>
      rw [List.forall_mem_cons] at hne
      rw [List.foldl_cons, ih hne.2]
      exact perform_of_ne hne.1

/-- Moves in order have the effect of all of them at once. -/
theorem allAtOnce_foldl (horder : moves.Pairwise Spares) (mem : κ → α) :
    AllAtOnce moves mem (moves.foldl perform mem) := by
  refine ⟨?_, fun cell => foldl_perform_of_ne⟩
  induction horder generalizing mem with
  | nil => exact fun move hmove => absurd hmove List.not_mem_nil
  | @cons move moves hspares _ ih =>
      rw [List.forall_mem_cons, List.foldl_cons]
      constructor
      · -- what the first move has written is not written again
        rw [foldl_perform_of_ne fun later hlater => Ne.symm (hspares later hlater).2]
        exact Function.update_self _ _ mem
      · intro later hlater
        rw [ih (perform mem move) later hlater]
        exact perform_of_ne (hspares later hlater).1

end Move

end GeckoOS.Math
