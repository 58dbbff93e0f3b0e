/-
# Numbers of 32 bits and their sign

The operations on such numbers are exact as long as the result can be represented, and else
they are not.  A quotient can be represented unless the least number is divided by -1, and
then a processor that computes quotient and remainder together cannot compute the remainder
either.
-/

import Mathlib.Data.Int.Order.Basic
import Mathlib.Tactic.Ring

namespace GeckoOS.Math

/-- There is a number of 32 bits for it. -/
def FitsInt (n : Int) : Prop := -2147483648 ≤ n ∧ n ≤ 2147483647

instance (n : Int) : Decidable (FitsInt n) := inferInstanceAs (Decidable (_ ∧ _))

/-- The instruction for the quotient and the remainder traps. -/
def DivideFault (a b : Int32) : Prop := b = 0 ∨ ¬ FitsInt (a.toInt.tdiv b.toInt)

variable {a b v : Int32} {n : Int}

theorem fitsInt_toInt (a : Int32) : FitsInt a.toInt :=
  ⟨a.le_toInt, Int.le_of_lt_add_one a.toInt_lt⟩

/-- What is computed modulo 2 ^ 32 is exact if and only if there is a number for the result. -/
theorem toInt_eq_iff (hwrap : v.toInt = n.bmod (2 ^ 32)) : v.toInt = n ↔ FitsInt n := by
  constructor
  · rintro rfl
    exact fitsInt_toInt v
  · rintro ⟨hle, hge⟩
    rw [hwrap]
    exact Int.bmod_eq_of_le hle (Int.lt_add_one_of_le hge)

theorem toInt_add_iff : (a + b).toInt = a.toInt + b.toInt ↔ FitsInt (a.toInt + b.toInt) :=
  toInt_eq_iff (Int32.toInt_add a b)

theorem toInt_sub_iff : (a - b).toInt = a.toInt - b.toInt ↔ FitsInt (a.toInt - b.toInt) :=
  toInt_eq_iff (Int32.toInt_sub a b)

theorem toInt_mul_iff : (a * b).toInt = a.toInt * b.toInt ↔ FitsInt (a.toInt * b.toInt) :=
  toInt_eq_iff (Int32.toInt_mul a b)

/-- Only the least number has no negation. -/
theorem toInt_neg_iff : (-a).toInt = -a.toInt ↔ a ≠ Int32.minValue := by
  rw [toInt_eq_iff (Int32.toInt_neg a)]
  have hrange := fitsInt_toInt a
  rw [Ne, ← Int32.toInt_inj, Int32.toInt_minValue]
  simp only [FitsInt] at hrange ⊢
  omega

/-- Only the least number has no quotient by -1. -/
theorem fitsInt_tdiv (hb : b ≠ 0) :
    FitsInt (a.toInt.tdiv b.toInt) ↔ ¬ (a = Int32.minValue ∧ b = -1) := by
  constructor
  · rintro hrange ⟨rfl, rfl⟩
    exact absurd hrange (by decide)
  · intro hnot
    rcases not_and_or.mp hnot with ha | hb
    · rw [← Int32.toInt_div_of_ne_left a b ha]
      exact fitsInt_toInt _
    · rw [← Int32.toInt_div_of_ne_right a b hb]
      exact fitsInt_toInt _

theorem divideFault_iff (hb : b ≠ 0) : DivideFault a b ↔ a = Int32.minValue ∧ b = -1 := by
  rw [DivideFault, or_iff_right hb, fitsInt_tdiv hb, not_not]

theorem toInt_div_iff (hb : b ≠ 0) :
    (a / b).toInt = a.toInt.tdiv b.toInt ↔ ¬ (a = Int32.minValue ∧ b = -1) := by
  rw [toInt_eq_iff (Int32.toInt_div a b), fitsInt_tdiv hb]

/-! ## The same bits with and without a sign -/

theorem toInt_toInt32 (a : UInt32) : a.toInt32.toInt = (a.toNat : Int).bmod (2 ^ 32) :=
  BitVec.toInt_eq_toNat_bmod _

theorem toNat_ofInt (i : Int) : (UInt32.ofInt i).toNat = (i % 2 ^ 32).toNat := by
  have hsize : UInt32.size = 2 ^ 32 := rfl
  rw [UInt32.ofInt]
  exact UInt32.toNat_ofNat_of_lt' (by omega)

end GeckoOS.Math
