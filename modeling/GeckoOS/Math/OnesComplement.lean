/-
# Internet checksums

A checksum adds up a byte string two bytes at a time, folds the carries back in
until sixteen bits are left, and complements the result.  How the two bytes of a
pair make a number differs between implementations: some read the pairs in
network order, some in the order of the machine.  The sums are kept generic in
that choice.

Folding keeps a sum's residue modulo `2 ^ 16 - 1` and never turns a positive sum
into zero.  So a string is *valid*, that is its sum folds to all ones, exactly
when the sum is a positive multiple of `2 ^ 16 - 1`, and writing the complement
into a field that held zero makes it valid.

A flipped bit moves the sum by a power of two, which is coprime to `2 ^ 16 - 1`.  So
no string with one bit flipped is valid when the string itself is.
-/

import Mathlib.Data.Nat.Bitwise
import Mathlib.Data.Nat.ModEq
import Mathlib.Data.Nat.Prime.Basic
import GeckoOS.Math.ByteMap

namespace GeckoOS.Math

open ByteMap

/-- Fold the carries of a sum back in until sixteen bits are left. -/
def foldCarries (sum : Nat) : Nat :=
  if sum < 2 ^ 16 then sum else foldCarries (sum % 2 ^ 16 + sum / 2 ^ 16)

theorem foldCarries_of_lt {sum : Nat} (hsum : sum < 2 ^ 16) : foldCarries sum = sum := by
  rw [foldCarries, if_pos hsum]

theorem foldCarries_spec (sum : Nat) :
    foldCarries sum < 2 ^ 16 ∧ foldCarries sum ≡ sum [MOD 65535] ∧
      (foldCarries sum = 0 → sum = 0) := by
  induction sum using foldCarries.induct with
  | case1 sum hsum =>
      rw [foldCarries_of_lt hsum]
      exact ⟨hsum, rfl, id⟩
  | case2 sum hsum ih =>
      rw [foldCarries, if_neg hsum]
      obtain ⟨hlt, hmod, hzero⟩ := ih
      refine ⟨hlt, hmod.trans ?_, fun h => ?_⟩
      · have hsplit := Nat.div_add_mod sum (2 ^ 16)
        unfold Nat.ModEq
        omega
      · have hsum' := hzero h
        omega

theorem foldCarries_lt (sum : Nat) : foldCarries sum < 2 ^ 16 := (foldCarries_spec sum).1

/-- A sum folds to all ones exactly when it is a positive multiple of `2 ^ 16 - 1`. -/
theorem foldCarries_eq_ones {sum : Nat} :
    foldCarries sum = 65535 ↔ 0 < sum ∧ 65535 ∣ sum := by
  obtain ⟨hlt, hmod, hzero⟩ := foldCarries_spec sum
  constructor
  · intro hones
    have hpos : 0 < sum := by
      by_contra hnone
      have hsum : sum = 0 := by omega
      rw [hsum, foldCarries_of_lt (by decide)] at hones
      cases hones
    refine ⟨hpos, (Nat.modEq_zero_iff_dvd).mp ?_⟩
    rw [hones] at hmod
    exact hmod.symm
  · rintro ⟨hpos, hdvd⟩
    have hdvd' : 65535 ∣ foldCarries sum := (hmod.dvd_iff dvd_rfl).mpr hdvd
    have hne : foldCarries sum ≠ 0 := fun h => Nat.ne_of_gt hpos (hzero h)
    omega

/-- Adding the complement of the folded sum makes the sum a multiple of `2 ^ 16 - 1`. -/
theorem dvd_add_complement (sum : Nat) : 65535 ∣ sum + (65535 - foldCarries sum) := by
  obtain ⟨hlt, hmod, -⟩ := foldCarries_spec sum
  unfold Nat.ModEq at hmod
  omega

/-! ## Sums over bytes -/

/-- The `length` bytes from `address`, added up in pairs; a last odd byte is
paired with zero. -/
def sumPairs (pair : UInt8 → UInt8 → Nat) (bytes : ByteMap) (address : Nat) : Nat → Nat
  | 0 => 0
  | 1 => pair (bytes address) 0
  | length + 2 =>
      pair (bytes address) (bytes (address + 1)) + sumPairs pair bytes (address + 2) length

/-- A pair in network order. -/
def networkPair (first second : UInt8) : Nat := 256 * first.toNat + second.toNat

/-- A pair in the order of a little-endian machine. -/
def machinePair (first second : UInt8) : Nat := first.toNat + 256 * second.toNat

section Sums

variable {pair : UInt8 → UInt8 → Nat} {bytes other : ByteMap} {address elsewhere : Nat}

theorem sumPairs_congr {length : Nat}
    (hagree : ∀ i < length, bytes (address + i) = other (elsewhere + i)) :
    sumPairs pair bytes address length = sumPairs pair other elsewhere length := by
  induction length using Nat.twoStepInduction generalizing address elsewhere with
  | zero => rfl
  | one => exact congrArg (pair · 0) (hagree 0 (by decide))
  | more length ih _ =>
      have hfirst := hagree 0 (by omega)
      have hsecond := hagree 1 (by omega)
      rw [Nat.add_zero, Nat.add_zero] at hfirst
      rw [sumPairs, sumPairs, hfirst, hsecond, ih]
      intro i hi
      have hnext := hagree (2 + i) (by omega)
      rwa [← Nat.add_assoc, ← Nat.add_assoc] at hnext

/-- An even prefix and the rest add up separately. -/
theorem sumPairs_add (address k length : Nat) :
    sumPairs pair bytes address (2 * k + length) =
      sumPairs pair bytes address (2 * k) + sumPairs pair bytes (address + 2 * k) length := by
  induction k generalizing address with
  | zero => simp [sumPairs]
  | succ k ih =>
      have hlen : 2 * (k + 1) + length = 2 * k + length + 2 := by ring
      have hposition : address + 2 * (k + 1) = address + 2 + 2 * k := by ring
      rw [hlen, hposition, Nat.mul_succ, sumPairs, sumPairs, ih]
      exact (Nat.add_assoc _ _ _).symm

/-- Changing one aligned pair changes the sum by the difference of the pairs. -/
theorem sumPairs_update {length k : Nat} (hk : 2 * k + 2 ≤ length)
    (hagree : ∀ i < length, i ≠ 2 * k → i ≠ 2 * k + 1 →
      bytes (address + i) = other (address + i)) :
    sumPairs pair bytes address length +
        pair (other (address + 2 * k)) (other (address + 2 * k + 1)) =
      sumPairs pair other address length +
        pair (bytes (address + 2 * k)) (bytes (address + 2 * k + 1)) := by
  induction k generalizing address length with
  | zero =>
      obtain ⟨rest, rfl⟩ := Nat.exists_eq_add_of_le' hk
      have htail : sumPairs pair bytes (address + 2) rest =
          sumPairs pair other (address + 2) rest := by
        apply sumPairs_congr
        intro i hi
        have hnext := hagree (2 + i) (by omega) (by omega) (by omega)
        rwa [← Nat.add_assoc] at hnext
      simp only [Nat.mul_zero, Nat.add_zero, sumPairs, htail]
      omega
  | succ k ih =>
      obtain ⟨rest, rfl⟩ := Nat.exists_eq_add_of_le' (show 2 ≤ length by omega)
      have hfirst := hagree 0 (by omega) (by omega) (by omega)
      have hsecond := hagree 1 (by omega) (by omega) (by omega)
      rw [Nat.add_zero] at hfirst
      have hrest := @ih (address + 2) rest (by omega) fun i hi hne hne' => by
        have hnext := hagree (2 + i) (by omega) (by omega) (by omega)
        rwa [← Nat.add_assoc] at hnext
      have hposition : address + 2 * (k + 1) = address + 2 + 2 * k := by ring
      rw [sumPairs, sumPairs, hfirst, hsecond, hposition]
      omega

/-- Storing into an aligned field that held zero adds the field's pair. -/
theorem sumPairs_store {length k value : Nat} (hk : 2 * k + 2 ≤ length)
    (hzero : load bytes (address + 2 * k) 2 = 0) (hpair : pair 0 0 = 0) :
    sumPairs pair (bytes.store (address + 2 * k) 2 value) address length =
      sumPairs pair bytes address length +
        pair (bytes.store (address + 2 * k) 2 value (address + 2 * k))
          (bytes.store (address + 2 * k) 2 value (address + 2 * k + 1)) := by
  have hbytes : bytes (address + 2 * k) = 0 ∧ bytes (address + 2 * k + 1) = 0 := by
    simp only [load, Nat.mul_zero, Nat.add_zero] at hzero
    exact ⟨UInt8.toNat_inj.mp (by simp; omega), UInt8.toNat_inj.mp (by simp; omega)⟩
  have hagree : ∀ i < length, i ≠ 2 * k → i ≠ 2 * k + 1 →
      bytes.store (address + 2 * k) 2 value (address + i) = bytes (address + i) := by
    intro i hi hne hne'
    rcases Nat.lt_or_gt_of_ne hne with hlt | hgt
    · exact store_apply_of_lt (by omega)
    · exact store_apply_of_le (by omega)
  have hupdate := @sumPairs_update pair _ bytes address length k hk hagree
  rw [hbytes.1, hbytes.2, hpair, Nat.add_zero] at hupdate
  exact hupdate

/-- Both orders agree on validity: the sums differ by a factor of `256`, whose
square is one modulo `2 ^ 16 - 1`. -/
theorem sumPairs_network_modEq (length : Nat) :
    sumPairs networkPair bytes address length ≡
      256 * sumPairs machinePair bytes address length [MOD 65535] := by
  induction length using Nat.twoStepInduction generalizing address with
  | zero => rfl
  | one => simp [sumPairs, networkPair, machinePair, Nat.ModEq]
  | more length ih _ =>
      have hrest := @ih (address + 2)
      have hpair : networkPair (bytes address) (bytes (address + 1)) ≡
          256 * machinePair (bytes address) (bytes (address + 1)) [MOD 65535] := by
        unfold Nat.ModEq networkPair machinePair
        omega
      rw [sumPairs, sumPairs, Nat.mul_add]
      exact hpair.add hrest

/-- A little-endian field of two bytes is its pair in machine order. -/
theorem load_two : load bytes address 2 = machinePair (bytes address) (bytes (address + 1)) := by
  simp [load, machinePair]

end Sums

/-! ## One flipped bit -/

/-- Flipping a bit adds or takes away its weight. -/
theorem xor_two_pow_cases (n k : Nat) :
    n ^^^ 2 ^ k = n + 2 ^ k ∨ n = (n ^^^ 2 ^ k) + 2 ^ k := by
  induction k generalizing n with
  | zero =>
      have hhalf : (n ^^^ 2 ^ 0) / 2 = n / 2 := by
        rw [Nat.xor_div_two]
        exact Nat.xor_zero _
      have hlow : (n ^^^ 2 ^ 0) % 2 = (n + 2 ^ 0) % 2 := Nat.xor_mod_two_eq
      omega
  | succ k ih =>
      have hhalf : (n ^^^ 2 ^ (k + 1)) / 2 = n / 2 ^^^ 2 ^ k := by
        rw [Nat.xor_div_two, Nat.pow_succ, Nat.mul_div_cancel _ (by decide)]
      have hlow : (n ^^^ 2 ^ (k + 1)) % 2 = (n + 2 ^ (k + 1)) % 2 := Nat.xor_mod_two_eq
      have hpow := Nat.pow_succ 2 k
      rcases ih (n / 2) with hset | hclear <;> omega

/-- No power of two is a multiple of `2 ^ 16 - 1`. -/
theorem not_dvd_two_pow (k : Nat) : ¬ 65535 ∣ 2 ^ k := by
  intro hdvd
  have hcoprime : Nat.Coprime 65535 (2 ^ k) := Nat.Coprime.pow_right k (by decide)
  exact absurd (Nat.Coprime.eq_one_of_dvd hcoprime hdvd) (by decide)

/-- Two sums that differ as a flipped bit makes them differ, at any place value, are not
both multiples of `2 ^ 16 - 1`. -/
theorem not_dvd_of_flip {sum sum' value j k : Nat}
    (hflip : sum' + 2 ^ j * value ≡ sum + 2 ^ j * (value ^^^ 2 ^ k) [MOD 65535])
    (hdvd : 65535 ∣ sum) : ¬ 65535 ∣ sum' := by
  intro hdvd'
  have hsum : sum ≡ 0 [MOD 65535] := Nat.modEq_zero_iff_dvd.mpr hdvd
  have hsum' : sum' ≡ 0 [MOD 65535] := Nat.modEq_zero_iff_dvd.mpr hdvd'
  have hvalues : 2 ^ j * value ≡ 2 ^ j * (value ^^^ 2 ^ k) [MOD 65535] :=
    Nat.ModEq.add_left_cancel (hsum'.trans hsum.symm) hflip
  refine not_dvd_two_pow (j + k) (Nat.modEq_zero_iff_dvd.mp ?_)
  rw [Nat.pow_add]
  rcases xor_two_pow_cases value k with hup | hdown
  · rw [hup, Nat.mul_add] at hvalues
    have hzero : 2 ^ j * value + 0 ≡ 2 ^ j * value + 2 ^ j * 2 ^ k [MOD 65535] := hvalues
    exact (Nat.ModEq.add_left_cancel' _ hzero).symm
  · have hsplit : 2 ^ j * value = 2 ^ j * (value ^^^ 2 ^ k) + 2 ^ j * 2 ^ k := by
      rw [← Nat.mul_add, ← hdown]
    rw [hsplit] at hvalues
    exact Nat.ModEq.add_left_cancel' (2 ^ j * (value ^^^ 2 ^ k)) hvalues

section FlippedBytes

variable {bytes other : ByteMap} {address : Nat}

/-- The exponent of the place value that a byte has within its pair, in network order. -/
def placeExponent (i : Nat) : Nat := if i % 2 = 0 then 8 else 0

/-- Changing one byte changes the sum by the difference of the bytes at their place value. -/
theorem sumPairs_changed {length i : Nat} (hi : i < length)
    (hagree : ∀ j < length, j ≠ i → bytes (address + j) = other (address + j)) :
    sumPairs networkPair bytes address length +
        2 ^ placeExponent i * (other (address + i)).toNat =
      sumPairs networkPair other address length +
        2 ^ placeExponent i * (bytes (address + i)).toNat := by
  induction length using Nat.twoStepInduction generalizing address i with
  | zero => omega
  | one =>
      obtain rfl : i = 0 := by omega
      simp only [sumPairs, networkPair, placeExponent, Nat.add_zero, ↓reduceIte]
      omega
  | more length ih _ =>
      have hrest : i < 2 → sumPairs networkPair bytes (address + 2) length =
          sumPairs networkPair other (address + 2) length := by
        intro hpair
        apply sumPairs_congr
        intro j hj
        have hnext := hagree (2 + j) (by omega) (by omega)
        rwa [← Nat.add_assoc] at hnext
      rcases i with _ | _ | i
      · have hsecond := hagree 1 (by omega) (by decide)
        rw [sumPairs, sumPairs, hrest (by decide), hsecond]
        simp only [networkPair, placeExponent, Nat.add_zero, Nat.zero_mod, ↓reduceIte]
        omega
      · have hfirst := hagree 0 (by omega) (by decide)
        rw [Nat.add_zero] at hfirst
        have hplace : placeExponent (0 + 1) = 0 := rfl
        rw [sumPairs, sumPairs, hrest (by decide), hfirst, hplace, networkPair, networkPair,
          Nat.zero_add]
        omega
      · have hfirst := hagree 0 (by omega) (by omega)
        have hsecond := hagree 1 (by omega) (by omega)
        rw [Nat.add_zero] at hfirst
        have hstep := @ih (address + 2) i (by omega) fun j hj hne => by
          have hnext := hagree (2 + j) (by omega) (by omega)
          rwa [← Nat.add_assoc] at hnext
        have hplace : placeExponent (i + 2) = placeExponent i := by
          rw [placeExponent, placeExponent, Nat.add_mod_right]
        have hposition : address + (i + 2) = address + 2 + i := by ring
        rw [sumPairs, sumPairs, hfirst, hsecond, hplace, hposition]
        omega

end FlippedBytes

/-- The one's-complement sum of a byte string in network order, folded. -/
def onesComplementSum (bytes : ByteMap) (address length : Nat) : Nat :=
  foldCarries (sumPairs networkPair bytes address length)

/-- Bytes that carry a correct checksum. -/
def ChecksumValid (bytes : ByteMap) (address length : Nat) : Prop :=
  onesComplementSum bytes address length = 65535

/-- Validity may be checked in machine order. -/
theorem checksumValid_iff_machine {bytes : ByteMap} {address length : Nat} :
    ChecksumValid bytes address length ↔
      0 < sumPairs networkPair bytes address length ∧
        65535 ∣ sumPairs machinePair bytes address length := by
  have hdvd : 65535 ∣ sumPairs networkPair bytes address length ↔
      65535 ∣ sumPairs machinePair bytes address length := by
    rw [((sumPairs_network_modEq length).dvd_iff dvd_rfl)]
    exact Nat.Coprime.dvd_mul_left (by decide)
  rw [ChecksumValid, onesComplementSum, foldCarries_eq_ones, hdvd]

end GeckoOS.Math
