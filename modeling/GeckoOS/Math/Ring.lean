/-
# Rings of slots

A ring of `n` slots is filled and emptied in order.  Numbering the entries by how
many came before them, entry `i` lies in slot `i % n`, and as long as no more than
`n` entries are in use at a time, no two of them share a slot.
-/

import Mathlib.Data.Nat.ModEq
import Mathlib.Logic.Function.Basic

namespace GeckoOS.Math

variable {n lo i j : Nat} {α : Type}

/-- The slot after the one of entry `i` is the one of entry `i + 1`. -/
theorem slot_succ (n i : Nat) : (i % n + 1) % n = (i + 1) % n := Nat.mod_add_mod i n 1

/-- Entries of one window of `n` lie in different slots. -/
theorem slot_inj (hi : lo ≤ i) (hi' : i < lo + n) (hj : lo ≤ j) (hj' : j < lo + n)
    (hslot : i % n = j % n) : i = j := by
  rcases Nat.le_total i j with hle | hle
  · have hzero := Nat.sub_mod_eq_zero_of_mod_eq hslot.symm
    have hlt : j - i < n := by omega
    rw [Nat.mod_eq_of_lt hlt] at hzero
    omega
  · have hzero := Nat.sub_mod_eq_zero_of_mod_eq hslot
    have hlt : i - j < n := by omega
    rw [Nat.mod_eq_of_lt hlt] at hzero
    omega

/-- Writing the slot of one entry leaves those of the others in the window. -/
theorem update_slot_ne (f : Nat → α) (v : α) (hi : lo ≤ i) (hi' : i < lo + n) (hj : lo ≤ j)
    (hj' : j < lo + n) (hne : j ≠ i) : Function.update f (i % n) v (j % n) = f (j % n) :=
  Function.update_of_ne (fun hslot => hne (slot_inj hj hj' hi hi' hslot)) v f

end GeckoOS.Math
