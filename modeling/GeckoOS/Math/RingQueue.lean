/-
# A queue in a ring of slots

A ring has one slot more than it may hold entries.  `head` is the slot of the first entry and
`tail` the slot that the next one is put into, so that the ring is empty when the two are equal,
and full when `tail` has come to the slot before `head`.

What is in the ring is the list of the slots from `head` up to `tail`.  An entry that is put in
comes last in this list, and the one that is taken out was its first.
-/

import Mathlib.Algebra.Group.Fin.Basic
import Mathlib.Data.List.Range
import Mathlib.Logic.Function.Basic

namespace GeckoOS.Math

variable {n : Nat} {α : Type*}

/-! ## Slots -/

/-- The slots go around after the last one. -/
theorem succ_eq_zero_iff (i : Fin (n + 1)) : i + 1 = 0 ↔ i = Fin.last n := by
  constructor
  · intro hzero
    by_contra hne
    have hval := Fin.val_add_one i
    rw [hzero, if_neg hne, Fin.val_zero] at hval
    exact absurd hval.symm (Nat.succ_ne_zero _)
  · intro hlast
    rw [hlast]
    exact Fin.last_add_one n

theorem val_succ_of_ne {i : Fin (n + 1)} (hne : i + 1 ≠ 0) : (i + 1).val = i.val + 1 := by
  rw [Fin.val_add_one, if_neg (mt (succ_eq_zero_iff i).mpr hne)]

/-! ## Contents -/

variable {data : Fin (n + 1) → α} {head tail : Fin (n + 1)}

/-- The entries from `head` up to `tail`. -/
def ringContents (data : Fin (n + 1) → α) (head tail : Fin (n + 1)) : List α :=
  (List.range (tail - head).val).map fun i => data (head + Fin.ofNat (n + 1) i)

theorem length_ringContents (data : Fin (n + 1) → α) (head tail : Fin (n + 1)) :
    (ringContents data head tail).length = (tail - head).val := by
  rw [ringContents, List.length_map, List.length_range]

theorem ringContents_self (data : Fin (n + 1) → α) (head : Fin (n + 1)) :
    ringContents data head head = [] := by
  rw [ringContents, sub_self]
  rfl

/-- The ring is full when it holds an entry for every slot but one. -/
theorem ring_full_iff : tail + 1 = head ↔ (ringContents data head tail).length = n := by
  rw [length_ringContents, ← sub_eq_zero, add_sub_right_comm, succ_eq_zero_iff, Fin.ext_iff,
    Fin.val_last]

/-- What is put in comes last. -/
theorem ringContents_push (hroom : tail + 1 ≠ head) (v : α) :
    ringContents (Function.update data tail v) head (tail + 1) =
      ringContents data head tail ++ [v] := by
  have hcount : (tail + 1 - head).val = (tail - head).val + 1 := by
    rw [← sub_ne_zero, add_sub_right_comm] at hroom
    rw [add_sub_right_comm, val_succ_of_ne hroom]
  have hlast : head + Fin.ofNat (n + 1) (tail - head).val = tail := by
    rw [Fin.ofNat_val_eq_self, add_sub_cancel]
  rw [ringContents, hcount, List.range_succ, List.map_append, List.map_singleton, hlast,
    Function.update_self, ringContents]
  congr 1
  apply List.map_congr_left
  intro i hi
  apply Function.update_of_ne
  intro hsame
  have hlt := List.mem_range.mp hi
  rw [← hsame, add_sub_cancel_left, Fin.val_ofNat] at hlt
  exact absurd hlt (Nat.not_lt.mpr (Nat.mod_le i (n + 1)))

/-- What is taken out was first. -/
theorem ringContents_pop (hne : head ≠ tail) :
    ringContents data head tail = data head :: ringContents data (head + 1) tail := by
  have hcount : (tail - head).val = (tail - (head + 1)).val + 1 := by
    have hsucc : tail - head = tail - (head + 1) + 1 := by
      rw [sub_add_eq_sub_sub, sub_add_cancel]
    rw [hsucc]
    apply val_succ_of_ne
    rw [← hsucc, sub_ne_zero]
    exact hne.symm
  rw [ringContents, hcount, List.range_succ_eq_map, List.map_cons, List.map_map, ringContents]
  congr 1
  · rw [Fin.ofNat_zero, add_zero]
  · apply List.map_congr_left
    intro i _
    have hnext : Fin.ofNat (n + 1) (i + 1) = 1 + Fin.ofNat (n + 1) i := by
      apply Fin.ext
      rw [Fin.val_add, Fin.val_ofNat, Fin.val_ofNat, Fin.val_one', ← Nat.add_mod, Nat.add_comm]
    rw [Function.comp_apply, Nat.succ_eq_add_one, hnext, add_assoc]

end GeckoOS.Math
