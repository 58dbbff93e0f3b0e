/-
# Copying bytes in place

`memmove` copies `n` bytes to a place that may overlap the one they come from.  It goes upwards
when the destination is below the source and downwards otherwise, so that a byte is read before
anything is written over it.

The two loops make the same moves in opposite orders, and each is in order for the case that
chooses it.
-/

import GeckoOS.Math.Moves
import Mathlib.Data.List.Range

namespace GeckoOS.Mem

open GeckoOS.Math

/-! ## The loops -/

/-- The bytes of the address space. -/
abbrev AddressSpace := UInt64 → UInt8

variable {d s n i : UInt64} {mem : AddressSpace}

theorem toNat_succ_of_lt (hi : i < n) : (i + 1).toNat = i.toNat + 1 := by
  rw [UInt64.lt_iff_toNat_lt] at hi
  have hn := n.toNat_lt
  rw [UInt64.toNat_add, UInt64.toNat_one, Nat.mod_eq_of_lt (by omega)]

theorem toNat_pred_of_pos (hi : 0 < i) : i.toNat = (i - 1).toNat + 1 := by
  rw [UInt64.lt_iff_toNat_lt, UInt64.toNat_zero] at hi
  rw [UInt64.toNat_sub_of_le _ _ (by rw [UInt64.le_iff_toNat_le, UInt64.toNat_one]; omega),
    UInt64.toNat_one]
  omega

/-- `d[i] = s[i]`. -/
def copyByte (d s i : UInt64) (mem : AddressSpace) : AddressSpace :=
  Function.update mem (d + i) (mem (s + i))

/-- The loop of `memmove` that goes upwards. -/
def copyUp (d s n i : UInt64) (mem : AddressSpace) : AddressSpace :=
  if i < n then copyUp d s n (i + 1) (copyByte d s i mem) else mem
termination_by n.toNat - i.toNat
decreasing_by
  rename_i hi
  have hlt := UInt64.lt_iff_toNat_lt.mp hi
  rw [toNat_succ_of_lt hi]
  omega

/-- The loop that goes downwards. -/
def copyDown (d s i : UInt64) (mem : AddressSpace) : AddressSpace :=
  if 0 < i then copyDown d s (i - 1) (copyByte d s (i - 1) mem) else mem
termination_by i.toNat
decreasing_by
  rename_i hi
  rw [toNat_pred_of_pos hi]
  exact Nat.lt_succ_self _

/-- `memmove`, with the memory that it leaves. -/
def memmove (dest src n : UInt64) (mem : AddressSpace) : UInt64 × AddressSpace :=
  if dest < src then (dest, copyUp dest src n 0 mem) else (dest, copyDown dest src n mem)

/-! ## The moves they make -/

/-- The move of one byte. -/
def byteMove (d s : UInt64) (i : Nat) : Move UInt64 :=
  ⟨d + UInt64.ofNat i, s + UInt64.ofNat i⟩

theorem copyByte_eq (d s i : UInt64) (mem : AddressSpace) :
    copyByte d s i mem = Move.perform mem (byteMove d s i.toNat) := by
  rw [copyByte, Move.perform, byteMove, UInt64.ofNat_toNat]

theorem copyUp_eq (d s n i : UInt64) (mem : AddressSpace) :
    copyUp d s n i mem =
      ((List.range' i.toNat (n.toNat - i.toNat)).map (byteMove d s)).foldl Move.perform mem := by
  induction i, mem using copyUp.induct d s n with
  | case1 i mem hi ih =>
      have hlt := UInt64.lt_iff_toNat_lt.mp hi
      have hmore : n.toNat - i.toNat = n.toNat - (i + 1).toNat + 1 := by
        rw [toNat_succ_of_lt hi]
        omega
      rw [copyUp, if_pos hi, ih, hmore, List.range'_succ, List.map_cons, List.foldl_cons,
        copyByte_eq, toNat_succ_of_lt hi]
  | case2 i mem hi =>
      have hle := Nat.not_lt.mp (mt UInt64.lt_iff_toNat_lt.mpr hi)
      rw [copyUp, if_neg hi, Nat.sub_eq_zero_of_le hle]
      rfl

theorem copyDown_eq (d s i : UInt64) (mem : AddressSpace) :
    copyDown d s i mem =
      ((List.range i.toNat).reverse.map (byteMove d s)).foldl Move.perform mem := by
  induction i, mem using copyDown.induct d s with
  | case1 i mem hi ih =>
      rw [copyDown, if_pos hi, ih, toNat_pred_of_pos hi, List.range_succ, List.reverse_append,
        List.reverse_singleton, List.singleton_append, List.map_cons, List.foldl_cons,
        copyByte_eq]
  | case2 i mem hi =>
      have hzero : i = 0 := by
        rw [UInt64.lt_iff_toNat_lt, UInt64.toNat_zero] at hi
        exact UInt64.toNat_inj.mp (Nat.eq_zero_of_not_pos hi)
      rw [copyDown, if_neg hi, hzero]
      rfl

/-! ## Their orders -/

/-- `n` bytes from an address, which do not wrap around the address space. -/
structure ByteRange (n : UInt64) where
  start : UInt64
  fits : start.toNat + n.toNat ≤ UInt64.size

theorem ByteRange.toNat_add (range : ByteRange n) {k : Nat} (hk : k < n.toNat) :
    (range.start + UInt64.ofNat k).toNat = range.start.toNat + k := by
  have hfits : range.start.toNat + n.toNat ≤ 2 ^ 64 := range.fits
  have hn := n.toNat_lt
  rw [UInt64.toNat_add, UInt64.toNat_ofNat', Nat.mod_eq_of_lt (by omega : k < 2 ^ 64),
    Nat.mod_eq_of_lt (by omega)]

/-- The move of a byte writes what the move of another one uses only if it writes its source. -/
theorem byteMove_spares (dest src : ByteRange n) {j k : Nat} (hj : j < n.toNat) (hk : k < n.toNat)
    (hne : j ≠ k) (hread : dest.start.toNat + j ≠ src.start.toNat + k) :
    (byteMove dest.start src.start j).Spares (byteMove dest.start src.start k) := by
  have hwritten : ∀ x, (byteMove dest.start src.start j).target = x →
      dest.start.toNat + j = x.toNat :=
    fun x hx => (dest.toNat_add hj).symm.trans (congrArg UInt64.toNat hx)
  constructor
  · exact fun hsame => hread ((hwritten _ hsame).trans (src.toNat_add hk))
  · exact fun hsame => hne (Nat.add_left_cancel ((hwritten _ hsame).trans (dest.toNat_add hk)))

/-- A lower byte that goes to a lower place does not write the source of a higher one. -/
theorem spares_of_lt (dest src : ByteRange n) (hbelow : dest.start < src.start) {j k : Nat}
    (hjk : j < k) (hk : k < n.toNat) :
    (byteMove dest.start src.start j).Spares (byteMove dest.start src.start k) := by
  have hlt := UInt64.lt_iff_toNat_lt.mp hbelow
  exact byteMove_spares dest src (hjk.trans hk) hk hjk.ne (Nat.add_lt_add hlt hjk).ne

/-- Nor does a higher byte that goes to a higher place write that of a lower one. -/
theorem spares_of_gt (dest src : ByteRange n) (habove : ¬dest.start < src.start) {j k : Nat}
    (hjk : j < k) (hk : k < n.toNat) :
    (byteMove dest.start src.start k).Spares (byteMove dest.start src.start j) := by
  have hle := Nat.not_lt.mp (mt UInt64.lt_iff_toNat_lt.mpr habove)
  exact byteMove_spares dest src hk (hjk.trans hk) hjk.ne' (Nat.add_lt_add_of_le_of_lt hle hjk).ne'

/-! ## The copy -/

/-- The `n` bytes from `dest` are what the `n` bytes from `src` were, and no other byte is
changed. -/
structure Copied (dest src n : UInt64) (old new : AddressSpace) : Prop where
  copied : ∀ i < n, new (dest + i) = old (src + i)
  kept : ∀ x, (∀ i < n, dest + i ≠ x) → new x = old x

/-- The moves of all the bytes, made at once in whatever order they are listed. -/
theorem Copied.of_allAtOnce {dest src : UInt64} {indices : List Nat} {new : AddressSpace}
    (hindices : ∀ k, k ∈ indices ↔ k < n.toNat)
    (hmoves : Move.AllAtOnce (indices.map (byteMove dest src)) mem new) :
    Copied dest src n mem new := by
  constructor
  · intro i hi
    have hmem := (hindices i.toNat).mpr (UInt64.lt_iff_toNat_lt.mp hi)
    have hmoved := hmoves.moved _ (List.mem_map_of_mem hmem)
    rwa [byteMove, UInt64.ofNat_toNat] at hmoved
  · intro x hx
    apply hmoves.kept
    rw [List.forall_mem_map]
    intro k hk
    have hlt := (hindices k).mp hk
    apply hx
    rw [UInt64.lt_iff_toNat_lt, UInt64.toNat_ofNat', Nat.mod_eq_of_lt (hlt.trans n.toNat_lt)]
    exact hlt

/-- `memmove` copies the bytes as they were, whatever the overlap. -/
theorem memmove_copies (dest src : ByteRange n) (mem : AddressSpace) :
    Copied dest.start src.start n mem (memmove dest.start src.start n mem).2 := by
  rw [memmove]
  split_ifs with hbelow
  · rw [copyUp_eq, UInt64.toNat_zero, Nat.sub_zero, ← List.range_eq_range']
    apply Copied.of_allAtOnce fun _ => List.mem_range
    apply Move.allAtOnce_foldl
    rw [List.pairwise_map]
    apply List.pairwise_lt_range.imp_of_mem
    intro j k _ hk hjk
    exact spares_of_lt dest src hbelow hjk (List.mem_range.mp hk)
  · rw [copyDown_eq]
    apply Copied.of_allAtOnce fun _ => List.mem_reverse.trans List.mem_range
    apply Move.allAtOnce_foldl
    rw [List.pairwise_map, List.pairwise_reverse]
    apply List.pairwise_lt_range.imp_of_mem
    intro j k _ hk hjk
    exact spares_of_gt dest src hbelow hjk (List.mem_range.mp hk)

end GeckoOS.Mem
