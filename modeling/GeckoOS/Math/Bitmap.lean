/-
# Bitmaps in byte-addressed memory

A bitmap is an array of 32-bit little-endian words; bit `b` of the map is bit
`b % 32` of word `b / 32`.  Setting or clearing one bit rewrites one word, and
changes no other bit of the map, inside the array or past its end.

The second half is the search a bitmap is usually scanned with: rows of bits
within words.  A scan of `rows` words of `width` bits each is a scan of
`rows * width` consecutive bits, and finds the least one that qualifies.
-/

import Mathlib.Data.List.TakeWhile
import Mathlib.Data.Nat.Bitwise
import GeckoOS.Math.ByteMap

namespace GeckoOS.Math

open ByteMap

namespace Bitmap

/-- Word `i` of the map stored from `base`. -/
def word (bytes : ByteMap) (base i : Nat) : Nat := bytes.load (base + 4 * i) 4

/-- Bit `b` of the map stored from `base`. -/
def bit (bytes : ByteMap) (base b : Nat) : Bool := (word bytes base (b / 32)).testBit (b % 32)

/-- `map[b / 32] |= 1u << (b % 32)`. -/
def set (bytes : ByteMap) (base b : Nat) : ByteMap :=
  bytes.store (base + 4 * (b / 32)) 4 (word bytes base (b / 32) ||| 1 <<< (b % 32))

/-- `map[b / 32] &= ~(1u << (b % 32))`. -/
def clear (bytes : ByteMap) (base b : Nat) : ByteMap :=
  bytes.store (base + 4 * (b / 32)) 4
    (word bytes base (b / 32) &&& (0xFFFFFFFF ^^^ 1 <<< (b % 32)))

variable {bytes other : ByteMap} {base b c : Nat}

theorem word_store_ne {i j : Nat} (value : Nat) (hne : i ≠ j) :
    word (bytes.store (base + 4 * i) 4 value) base j = word bytes base j :=
  load_store_disjoint value (by omega)

theorem word_store_same (i value : Nat) :
    word (bytes.store (base + 4 * i) 4 value) base i = value % 2 ^ 32 :=
  load_store_same value

/-- The bits of a 32-bit word sit below position 32. -/
theorem testBit_mod_word {value j : Nat} (hj : j < 32) :
    (value % 2 ^ 32).testBit j = value.testBit j := by
  rw [Nat.testBit_mod_two_pow, decide_eq_true hj, Bool.true_and]

/-- An edit of one word decides the bits of that word only. -/
theorem bit_store (value : Nat) :
    bit (bytes.store (base + 4 * (b / 32)) 4 value) base c =
      if c / 32 = b / 32 then value.testBit (c % 32) else bit bytes base c := by
  have hlt : c % 32 < 32 := Nat.mod_lt _ (by decide)
  by_cases hword : c / 32 = b / 32
  · rw [if_pos hword, bit, hword, word_store_same, testBit_mod_word hlt]
  · rw [if_neg hword, bit, word_store_ne _ (Ne.symm hword), bit]

theorem bit_set : bit (set bytes base b) base c = (decide (c = b) || bit bytes base c) := by
  rw [set, bit_store]
  by_cases hword : c / 32 = b / 32
  · have heq : (b % 32 = c % 32) = (c = b) := propext (by omega)
    rw [if_pos hword, Nat.testBit_or, Nat.one_shiftLeft, Nat.testBit_two_pow, bit, hword,
      Bool.or_comm]
    simp only [heq]
  · have hne : c ≠ b := fun heq => hword (by rw [heq])
    simp [hword, hne]

theorem bit_clear : bit (clear bytes base b) base c = (!decide (c = b) && bit bytes base c) := by
  rw [clear, bit_store]
  have hlt : c % 32 < 32 := Nat.mod_lt _ (by decide)
  by_cases hword : c / 32 = b / 32
  · have heq : (b % 32 = c % 32) = (c = b) := propext (by omega)
    have hones : (0xFFFFFFFF : Nat).testBit (c % 32) = true := by
      simpa [hlt] using Nat.testBit_two_pow_sub_one 32 (c % 32)
    rw [if_pos hword, Nat.testBit_and, Nat.testBit_xor, hones, Nat.one_shiftLeft,
      Nat.testBit_two_pow, bit, hword, Bool.and_comm, Bool.true_xor]
    simp only [heq]
  · have hne : c ≠ b := fun heq => hword (by rw [heq])
    simp [hword, hne]

/-- A bit depends on the four bytes of its word only. -/
theorem bit_congr
    (hagree : ∀ i < 4, bytes (base + 4 * (b / 32) + i) = other (base + 4 * (b / 32) + i)) :
    bit bytes base b = bit other base b := by
  rw [bit, bit, word, word, load_congr hagree]

/-- The mask test a scan performs. -/
theorem and_shiftLeft_eq_zero {value j : Nat} :
    value &&& 1 <<< j = 0 ↔ value.testBit j = false := by
  rw [Nat.one_shiftLeft, Nat.and_two_pow]
  cases value.testBit j <;> simp

/-- All bits of a full word are set. -/
theorem testBit_full {j : Nat} (hj : j < 32) : (0xFFFFFFFF : Nat).testBit j = true := by
  simpa [hj] using Nat.testBit_two_pow_sub_one 32 j

/-- A field holds its bytes' bits in order. -/
theorem testBit_load {bytes : ByteMap} {address width j : Nat} (hj : j < 8 * width) :
    (load bytes address width).testBit j = (bytes (address + j / 8)).toNat.testBit (j % 8) := by
  induction width generalizing address j with
  | zero => omega
  | succ width ih =>
      have hbyte : (bytes address).toNat < 2 ^ 8 := (bytes address).toNat_lt
      have hsplit : load bytes address (width + 1) =
          2 ^ 8 * load bytes (address + 1) width + (bytes address).toNat := by
        rw [load]
        omega
      rw [hsplit, Nat.testBit_two_pow_mul_add _ hbyte]
      by_cases hlow : j < 8
      · have hzero : j / 8 = 0 := by omega
        have hmod : j % 8 = j := by omega
        rw [if_pos hlow, hzero, hmod, Nat.add_zero]
      · have hdiv : j / 8 = (j - 8) / 8 + 1 := by omega
        have hmod : j % 8 = (j - 8) % 8 := by omega
        have hposition : address + ((j - 8) / 8 + 1) = address + 1 + (j - 8) / 8 := by omega
        rw [if_neg hlow, ih (by omega), hdiv, hmod, hposition]

/-- A bit of the map is a bit of one byte. -/
theorem bit_eq_byte {bytes : ByteMap} {base b : Nat} :
    bit bytes base b = (bytes (base + b / 8)).toNat.testBit (b % 8) := by
  have hposition : base + 4 * (b / 32) + b % 32 / 8 = base + b / 8 := by omega
  have hbit : b % 32 % 8 = b % 8 := by omega
  rw [bit, word, testBit_load (by omega), hposition, hbit]

/-! ## Runs of edits -/

/-- Setting or clearing the bits `start, …, start + count - 1` in turn. -/
theorem bit_foldl_set (start count : Nat) :
    bit ((List.range count).foldl (fun bytes i => set bytes base (start + i)) bytes) base c =
      (decide (start ≤ c ∧ c < start + count) || bit bytes base c) := by
  induction count with
  | zero =>
      have hnone : ¬ (start ≤ c ∧ c < start + 0) := by omega
      rw [decide_eq_false hnone]
      rfl
  | succ count ih =>
      rw [List.range_succ, List.foldl_append, List.foldl_cons, List.foldl_nil, bit_set, ih]
      have hcases : (start ≤ c ∧ c < start + (count + 1)) ↔
          c = start + count ∨ (start ≤ c ∧ c < start + count) := by omega
      simp only [hcases, Bool.decide_or, Bool.or_assoc]

theorem bit_foldl_clear (start count : Nat) :
    bit ((List.range count).foldl (fun bytes i => clear bytes base (start + i)) bytes) base c =
      (!decide (start ≤ c ∧ c < start + count) && bit bytes base c) := by
  induction count with
  | zero =>
      have hnone : ¬ (start ≤ c ∧ c < start + 0) := by omega
      rw [decide_eq_false hnone]
      rfl
  | succ count ih =>
      rw [List.range_succ, List.foldl_append, List.foldl_cons, List.foldl_nil, bit_clear, ih]
      have hcases : (start ≤ c ∧ c < start + (count + 1)) ↔
          c = start + count ∨ (start ≤ c ∧ c < start + count) := by omega
      simp only [hcases, Bool.decide_or, Bool.not_or, Bool.and_assoc]

/-! ## Scans -/

theorem findSome?_congr {α β : Type} {items : List α} {f g : α → Option β}
    (hagree : ∀ a ∈ items, f a = g a) : items.findSome? f = items.findSome? g := by
  induction items with
  | nil => rfl
  | cons a items ih =>
      rw [List.findSome?_cons, List.findSome?_cons, hagree a List.mem_cons_self,
        ih fun b hb => hagree b (List.mem_cons_of_mem a hb)]

/-- A scan row by row is a scan of all positions in order. -/
theorem findSome?_rows (width rows : Nat) (p : Nat → Bool) :
    ((List.range rows).findSome? fun i => (List.range width).findSome? fun j =>
        if p (i * width + j) then some (i * width + j) else none) =
      (List.range (rows * width)).find? p := by
  induction rows with
  | zero => simp
  | succ rows ih =>
      rw [List.range_succ, List.findSome?_append, ih, Nat.succ_mul, List.range_add,
        List.find?_append, List.find?_map]
      congr 1
      simp only [List.findSome?_cons, List.findSome?_nil]
      generalize List.range width = columns
      induction columns with
      | nil => rfl
      | cons j columns ihColumns =>
          by_cases hj : p (rows * width + j)
          · simp [hj]
          · simpa [hj] using ihColumns

/-- The length of the leading stretch that satisfies `p` is the whole range
exactly when all of the range does. -/
theorem length_takeWhile_range_eq (count : Nat) (p : Nat → Bool) :
    ((List.range count).takeWhile p).length = count ↔ ∀ k < count, p k := by
  constructor
  · intro hlength k hk
    have hall : (List.range count).takeWhile p = List.range count :=
      (List.takeWhile_prefix p).eq_of_length (by rw [hlength, List.length_range])
    exact List.takeWhile_eq_self_iff.mp hall k (List.mem_range.mpr hk)
  · intro hall
    rw [List.takeWhile_eq_self_iff.mpr fun k hk => hall k (List.mem_range.mp hk),
      List.length_range]

end Bitmap

end GeckoOS.Math
