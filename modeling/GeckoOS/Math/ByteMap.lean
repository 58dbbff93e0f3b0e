/-
# Byte maps and little-endian fields

Main memory, a disk sector and a packet buffer are all read and written byte by
byte, and every record in them is a packed run of little-endian fields.  This
module keeps the one representation of such storage, a total map from positions
to bytes, with the field access every record layout is built from.

The central facts are the usual load and store laws: a load after a store of
the same field returns the stored number reduced to the field's width, and a
load of a disjoint field is untouched.  Nothing here mentions a particular
record.
-/

import Mathlib.Data.List.Basic
import Mathlib.Tactic.Ring

namespace GeckoOS.Math

/-- Storage addressed by byte position. -/
abbrev ByteMap := Nat → UInt8

namespace ByteMap

/-- The number held little-endian by the `width` bytes from `address`. -/
def load (bytes : ByteMap) (address : Nat) : Nat → Nat
  | 0 => 0
  | width + 1 => (bytes address).toNat + 256 * load bytes (address + 1) width

/-- Overwrite the `width` bytes from `address` with `value`, little-endian.
Digits of `value` above the field's width are dropped. -/
def store (bytes : ByteMap) (address width value : Nat) : ByteMap :=
  fun position =>
    if address ≤ position ∧ position < address + width then
      UInt8.ofNat (value / 256 ^ (position - address) % 256)
    else bytes position

/-- Overwrite the `count` bytes from `address` with the first bytes of `source`. -/
def blit (bytes : ByteMap) (address : Nat) (source : ByteMap) (count : Nat) : ByteMap :=
  fun position =>
    if address ≤ position ∧ position < address + count then source (position - address)
    else bytes position

/-- The `count` bytes from `address`, in order. -/
def slice (bytes : ByteMap) (address count : Nat) : List UInt8 :=
  (List.range count).map fun i => bytes (address + i)

/-- A byte string as storage, zero beyond its end. -/
def ofList (content : List UInt8) : ByteMap := fun position => content.getD position 0

variable {bytes other : ByteMap} {address width : Nat}

/-! ## Loads -/

/-- The same bytes at two places make the same field. -/
theorem load_shift {elsewhere : Nat}
    (hagree : ∀ i < width, bytes (address + i) = other (elsewhere + i)) :
    load bytes address width = load other elsewhere width := by
  induction width generalizing address elsewhere with
  | zero => rfl
  | succ width ih =>
      have hhead := hagree 0 (Nat.succ_pos _)
      have htail : load bytes (address + 1) width = load other (elsewhere + 1) width := by
        apply ih
        intro i hi
        have hnext := hagree (i + 1) (Nat.succ_lt_succ hi)
        rwa [Nat.add_comm i 1, ← Nat.add_assoc, ← Nat.add_assoc] at hnext
      simp only [load, htail]
      rw [Nat.add_zero, Nat.add_zero] at hhead
      rw [hhead]

theorem load_congr (hagree : ∀ i < width, bytes (address + i) = other (address + i)) :
    load bytes address width = load other address width :=
  load_shift hagree

theorem load_lt : load bytes address width < 256 ^ width := by
  induction width generalizing address with
  | zero => simp [load]
  | succ width ih =>
      have hbyte : (bytes address).toNat < 256 := (bytes address).toNat_lt
      have hrest := @ih (address + 1)
      rw [load, pow_succ]
      omega

/-- A field whose bytes are the digits of `value` holds `value`. -/
theorem load_eq_mod {value : Nat}
    (hdigits : ∀ i < width, bytes (address + i) = UInt8.ofNat (value / 256 ^ i % 256)) :
    load bytes address width = value % 256 ^ width := by
  induction width generalizing address value with
  | zero => simp [load, Nat.mod_one]
  | succ width ih =>
      have hhead : (bytes address).toNat = value % 256 := by
        have hzero := hdigits 0 (Nat.succ_pos _)
        rw [Nat.add_zero, pow_zero, Nat.div_one] at hzero
        rw [hzero, UInt8.toNat_ofNat']
        omega
      have htail : load bytes (address + 1) width = value / 256 % 256 ^ width := by
        apply ih
        intro i hi
        have hnext := hdigits (i + 1) (Nat.succ_lt_succ hi)
        rw [Nat.add_comm i 1, ← Nat.add_assoc] at hnext
        rw [hnext, Nat.div_div_eq_div_mul, ← pow_succ', Nat.add_comm 1 i]
      rw [load, hhead, htail, pow_succ', Nat.mod_mul]

/-- The bytes of a field are the digits of what it holds. -/
theorem load_digit {i : Nat} (hi : i < width) :
    load bytes address width / 256 ^ i % 256 = (bytes (address + i)).toNat := by
  induction width generalizing address i with
  | zero => exact absurd hi (Nat.not_lt_zero i)
  | succ width ih =>
      have hbyte : (bytes address).toNat < 256 := (bytes address).toNat_lt
      cases i with
      | zero =>
          rw [load, pow_zero, Nat.div_one, Nat.add_mul_mod_self_left, Nat.mod_eq_of_lt hbyte,
            Nat.add_zero]
      | succ i =>
          have hrest := @ih (address + 1) i (Nat.lt_of_succ_lt_succ hi)
          rw [load, pow_succ', ← Nat.div_div_eq_div_mul,
            Nat.add_mul_div_left _ _ (by decide : 0 < 256), Nat.div_eq_of_lt hbyte, Nat.zero_add,
            hrest, Nat.add_assoc, Nat.add_comm 1 i]

/-! ## Stores -/

@[simp]
theorem store_apply_of_lt {value position : Nat} (hbefore : position < address) :
    store bytes address width value position = bytes position := by
  simp [store, Nat.not_le.mpr hbefore]

@[simp]
theorem store_apply_of_le {value position : Nat} (hafter : address + width ≤ position) :
    store bytes address width value position = bytes position := by
  simp [store, Nat.not_lt.mpr hafter]

/-- A load of the field just stored returns the stored number at that width. -/
theorem load_store_same (value : Nat) :
    load (store bytes address width value) address width = value % 256 ^ width := by
  apply load_eq_mod
  intro i hi
  simp [store, hi]

/-- A store leaves every disjoint field alone. -/
theorem load_store_disjoint {elsewhere breadth : Nat} (value : Nat)
    (hapart : elsewhere + breadth ≤ address ∨ address + width ≤ elsewhere) :
    load (store bytes address width value) elsewhere breadth = load bytes elsewhere breadth := by
  apply load_congr
  intro i hi
  rcases hapart with hbefore | hafter
  · exact store_apply_of_lt (by omega)
  · exact store_apply_of_le (by omega)

/-! ## Blocks of bytes -/

theorem blit_apply_of_mem {source : ByteMap} {count i : Nat} (hi : i < count) :
    blit bytes address source count (address + i) = source i := by
  simp [blit, hi]

theorem blit_apply_of_not_mem {source : ByteMap} {count position : Nat}
    (hout : position < address ∨ address + count ≤ position) :
    blit bytes address source count position = bytes position := by
  rw [blit, if_neg]
  omega

theorem load_blit_disjoint {source : ByteMap} {count elsewhere breadth : Nat}
    (hapart : elsewhere + breadth ≤ address ∨ address + count ≤ elsewhere) :
    load (blit bytes address source count) elsewhere breadth = load bytes elsewhere breadth := by
  apply load_congr
  intro i hi
  exact blit_apply_of_not_mem (by omega)

/-- A load inside a copied block reads the source. -/
theorem load_blit_inside {source : ByteMap} {count offset breadth : Nat}
    (hinside : offset + breadth ≤ count) :
    load (blit bytes address source count) (address + offset) breadth =
      load source offset breadth := by
  induction breadth generalizing offset with
  | zero => rfl
  | succ breadth ih =>
      have hrest := @ih (offset + 1) (by omega)
      rw [load, load, blit_apply_of_mem (by omega), Nat.add_assoc, hrest]

/-- Writing back a block with one field changed stores that field. -/
theorem blit_store_window {base offset count value : Nat} (hinside : offset + width ≤ count) :
    blit bytes base (store (fun i => bytes (base + i)) offset width value) count =
      store bytes (base + offset) width value := by
  funext position
  by_cases hblock : base ≤ position ∧ position < base + count
  · have hposition : base + (position - base) = position := by omega
    simp only [blit, if_pos hblock, store, hposition]
    by_cases hfield : offset ≤ position - base ∧ position - base < offset + width
    · rw [if_pos hfield, if_pos (by omega), Nat.sub_sub]
    · rw [if_neg hfield, if_neg (by omega)]
  · simp only [blit, if_neg hblock, store]
    rw [if_neg (by omega)]

/-- Writing back a block with part of it replaced replaces that part. -/
theorem blit_blit_window {base offset count inner : Nat} {source : ByteMap}
    (hinside : offset + inner ≤ count) :
    blit bytes base (blit (fun i => bytes (base + i)) offset source inner) count =
      blit bytes (base + offset) source inner := by
  funext position
  by_cases hblock : base ≤ position ∧ position < base + count
  · have hposition : base + (position - base) = position := by omega
    simp only [blit, if_pos hblock, hposition]
    by_cases hpart : offset ≤ position - base ∧ position - base < offset + inner
    · rw [if_pos hpart, if_pos (by omega), Nat.sub_sub]
    · rw [if_neg hpart, if_neg (by omega)]
  · simp only [blit, if_neg hblock]
    rw [if_neg (by omega)]

/-- A field that is loaded at one place and stored at another is copied. -/
theorem store_load {elsewhere : Nat} :
    store bytes address width (load other elsewhere width) =
      blit bytes address (fun i => other (elsewhere + i)) width := by
  funext position
  rw [store, blit]
  split_ifs with hinside
  · rw [load_digit (by omega), UInt8.ofNat_toNat]
  · rfl

/-- Two adjacent blocks of one source make one block. -/
theorem blit_append {first second : Nat} {source head tail : ByteMap}
    (hhead : ∀ i < first, head i = source i) (htail : ∀ i < second, tail i = source (first + i)) :
    blit (blit bytes address head first) (address + first) tail second =
      blit bytes address source (first + second) := by
  funext position
  by_cases hsecond : address + first ≤ position ∧ position < address + first + second
  · simp only [blit, if_pos hsecond]
    rw [if_pos (by omega), htail _ (by omega)]
    congr 1
    omega
  · by_cases hfirst : address ≤ position ∧ position < address + first
    · simp only [blit, if_neg hsecond, if_pos hfirst]
      rw [if_pos (by omega), hhead _ (by omega)]
    · simp only [blit, if_neg hsecond, if_neg hfirst]
      rw [if_neg (by omega)]

theorem blit_congr {source source' : ByteMap} {count : Nat}
    (hagree : ∀ i < count, source i = source' i) :
    blit bytes address source count = blit bytes address source' count := by
  funext position
  by_cases hblock : address ≤ position ∧ position < address + count
  · simp only [blit, if_pos hblock]
    exact hagree _ (by omega)
  · simp only [blit, if_neg hblock]

@[simp]
theorem blit_zero {source : ByteMap} : blit bytes address source 0 = bytes := by
  funext position
  exact blit_apply_of_not_mem (by omega)

@[simp]
theorem length_slice (count : Nat) : (slice bytes address count).length = count := by
  simp [slice]

/-- The same bytes at two places make the same slice. -/
theorem slice_shift {elsewhere count : Nat}
    (hagree : ∀ i < count, bytes (address + i) = other (elsewhere + i)) :
    slice bytes address count = slice other elsewhere count := by
  apply List.map_congr_left
  intro i hi
  exact hagree i (List.mem_range.mp hi)

theorem slice_congr {count : Nat}
    (hagree : ∀ i < count, bytes (address + i) = other (address + i)) :
    slice bytes address count = slice other address count :=
  slice_shift hagree

theorem getElem?_slice {count i : Nat} (hi : i < count) :
    (slice bytes address count)[i]? = some (bytes (address + i)) := by
  simp [slice, hi]

theorem slice_add (first second : Nat) :
    slice bytes address (first + second) =
      slice bytes address first ++ slice bytes (address + first) second := by
  simp only [slice, List.range_add, List.map_append, List.map_map]
  congr 1
  apply List.map_congr_left
  intro i _
  simp [Nat.add_assoc]

/-- Equal slices hold equal bytes. -/
theorem apply_of_slice_eq {count i : Nat}
    (hslice : slice bytes address count = slice other address count) (hi : i < count) :
    bytes (address + i) = other (address + i) := by
  have hbyte := congrArg (·[i]?) hslice
  simpa only [getElem?_slice hi, Option.some.injEq] using hbyte

/-- A slice laid out from position zero holds the bytes it was taken from. -/
theorem ofList_slice {count i : Nat} (hi : i < count) :
    ofList (slice bytes address count) i = bytes (address + i) := by
  rw [ofList, List.getD_eq_getElem?_getD, getElem?_slice hi, Option.getD_some]

/-- Reading back a byte string laid out from position zero. -/
theorem slice_ofList (content : List UInt8) :
    slice (ofList content) 0 content.length = content := by
  apply List.ext_getElem
  · simp
  · intro i _ hi
    simp [slice, ofList, List.getElem?_eq_getElem hi]

end ByteMap

end GeckoOS.Math
