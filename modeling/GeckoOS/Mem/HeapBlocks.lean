/-
# What one allocator call does to the blocks

The free list keeps allocated blocks, is relinked at the head and may even be
cyclic, so nothing about disjointness can be read off it.  The invariant here
ignores the shape of the list.  It speaks of a set of blocks that tile the heap
between its start and `heap_ptr`, asks that every block the list can reach is
one of them, and that every live payload lies in a block marked used.

Each primitive edit, marking a block used, splitting it, creating one behind the
last, relinking a freed one and merging two neighbours, preserves the invariant
for a possibly different set of blocks.
-/

import Mathlib.Data.Set.Insert
import GeckoOS.Math.Path
import GeckoOS.Mem.Kmalloc

namespace GeckoOS.Mem

open GeckoOS.Math ByteMap

/-- A pointer as a list position: `NULL` is no position. -/
def pointer (p : Nat) : Option Nat := if p = 0 then none else some p

@[simp]
theorem pointer_zero : pointer 0 = none := rfl

@[simp]
theorem pointer_eq_none {p : Nat} : pointer p = none ↔ p = 0 := by
  simp [pointer]

@[simp]
theorem pointer_eq_some {p b : Nat} : pointer p = some b ↔ p ≠ 0 ∧ p = b := by
  simp [pointer]

/-- The list successor stored in a block. -/
def listNext (mem : ByteMap) (b : Nat) : Option Nat := pointer (blockNext mem b)

/-- The list of blocks from `free_list_head`. -/
abbrev Heap.ReachesBlock (heap : Heap) (b : Nat) : Prop :=
  Reach (listNext heap.mem) (pointer heap.freeListHead) b

theorem SameHeader.listNext_eq {mem other : ByteMap} {b : Nat} (hsame : SameHeader mem other b) :
    listNext mem b = listNext other b :=
  congrArg pointer hsame.blockNext_eq

/-! ## The search for a free block -/

/-- A block found by the search is listed, free and large enough. -/
theorem findFreeBlockFrom_spec {mem : ByteMap} {size p b : Nat}
    (hfind : findFreeBlockFrom mem size p = some b) (hb : b ≠ 0) :
    Reach (listNext mem) (pointer p) b ∧ blockFree mem b ≠ 0 ∧ size ≤ blockSize mem b := by
  revert hb
  refine loop_induct (motive := fun p b => b ≠ 0 →
    Reach (listNext mem) (pointer p) b ∧ blockFree mem b ≠ 0 ∧ size ≤ blockSize mem b) ?_ ?_ hfind
  · intro p b hleave hb
    rw [findFreeBlockRound] at hleave
    split_ifs at hleave with hp hfits
    · exact absurd (Sum.inl.inj hleave).symm hb
    · obtain rfl := Sum.inl.inj hleave
      exact ⟨.head (by simp [hp]), hfits⟩
  · intro p q b hround ih hb
    rw [findFreeBlockRound] at hround
    split_ifs at hround with hp hfits
    obtain rfl := Sum.inr.inj hround
    obtain ⟨hreach, hrest⟩ := ih hb
    have hstart : pointer p = some p := by simp [hp]
    exact ⟨hstart ▸ Reach.of_next hreach, hrest⟩

/-- Over a finite list the search returns the first block that fits, or `NULL`. -/
theorem findFreeBlockFrom_of_path {mem : ByteMap} {size p : Nat} {nodes : List Nat}
    (hpath : Path (listNext mem) (pointer p) nodes) :
    findFreeBlockFrom mem size p =
      some ((nodes.find? fun b => blockFree mem b ≠ 0 ∧ size ≤ blockSize mem b).getD 0) := by
  induction nodes generalizing p with
  | nil =>
      have hp : p = 0 := by simpa using hpath
      rw [findFreeBlockFrom_eq, if_pos hp]
      rfl
  | cons b nodes ih =>
      obtain ⟨hstart, htail⟩ := Path.cons_iff.mp hpath
      obtain ⟨hp, rfl⟩ := pointer_eq_some.mp hstart
      rw [findFreeBlockFrom_eq, if_neg hp]
      by_cases hfits : blockFree mem p ≠ 0 ∧ size ≤ blockSize mem p
      · rw [if_pos hfits, List.find?_cons_of_pos (by simpa using hfits)]
        rfl
      · rw [if_neg hfits, List.find?_cons_of_neg (by simpa using hfits)]
        exact ih htail

/-! ## Splitting a block -/

section Split

variable {mem : ByteMap} {b size : Nat}

theorem splitBlock_of_le (hfits : blockSize mem b ≤ (size + headerSize) % wordModulus) :
    splitBlock mem b size = mem := by
  rw [splitBlock, if_pos hfits]

/-- Everything a split writes: the two headers it leaves, and that no other
header changes. -/
structure SplitResult (mem result : ByteMap) (b size : Nat) : Prop where
  size_eq : blockSize result b = size
  free_eq : blockFree result b = blockFree mem b
  next_eq : blockNext result b = b + 16 + size
  size_new : blockSize result (b + 16 + size) = blockSize mem b - size - 16
  free_new : blockFree result (b + 16 + size) = 1
  next_new : blockNext result (b + 16 + size) = blockNext mem b
  same : ∀ c, (c + 16 ≤ b ∨ b + 16 ≤ c) →
    (c + 16 ≤ b + 16 + size ∨ b + 16 + size + 16 ≤ c) → SameHeader result mem c

/-- A block that is larger than the request and a header is cut in two.  The
block's size is a positive `int` and its end does not wrap. -/
theorem splitBlock_of_lt (hlarge : size + 16 < blockSize mem b)
    (hsmall : blockSize mem b < 2 ^ 31) (hend : b + 16 + blockSize mem b < 2 ^ 64) :
    SplitResult mem (splitBlock mem b size) b size := by
  have hnew : (b + 16 + size) % 2 ^ 64 = b + 16 + size := by omega
  have hrest : (blockSize mem b + 2 * 2 ^ 64 - size - 16) % 2 ^ 64 =
      blockSize mem b - size - 16 := by omega
  have hnext : blockNext mem b % 2 ^ 64 = blockNext mem b := Nat.mod_eq_of_lt load_lt
  simp only [splitBlock, headerSize, wordModulus]
  rw [if_neg (by omega), hnew, hrest]
  generalize hc : b + 16 + size = newBlock
  generalize hr : blockSize mem b - size - 16 = rest
  have hnewB : newBlock + 16 ≤ b ∨ b + 16 ≤ newBlock := by omega
  have hbNew : b + 16 ≤ newBlock ∨ newBlock + 16 ≤ b := hnewB.symm
  have hheader : ∀ next, SameHeader
      (setNext (setFree (setSize mem newBlock rest) newBlock 1) newBlock next) mem b :=
    fun next => ((SameHeader.setNext hnewB).trans (.setFree hnewB)).trans (.setSize hnewB)
  have hprior : blockNext (setFree (setSize mem newBlock rest) newBlock 1) b = blockNext mem b :=
    ((SameHeader.setFree hnewB).trans (.setSize hnewB)).blockNext_eq
  have hnewHeader : ∀ other : ByteMap, SameHeader
      (setNext (setSize other b size) b newBlock) other newBlock :=
    fun other => (SameHeader.setNext hbNew).trans (.setSize hbNew)
  rw [hprior]
  constructor
  case size_eq =>
    simp only [blockSize_setNext, blockSize_setSize]
    rw [Nat.mod_eq_of_lt (by omega), signExtend_of_lt (by omega)]
  case free_eq =>
    simp only [blockFree_setNext, blockFree_setSize, (hheader _).blockFree_eq]
  case next_eq =>
    rw [blockNext_setNext, hc, Nat.mod_eq_of_lt (by omega)]
  case size_new =>
    rw [hc, hr, (hnewHeader _).blockSize_eq, blockSize_setNext, blockSize_setFree,
      blockSize_setSize, Nat.mod_eq_of_lt (by omega), signExtend_of_lt (by omega)]
  case free_new =>
    rw [hc, (hnewHeader _).blockFree_eq, blockFree_setNext, blockFree_setFree]
    rfl
  case next_new =>
    rw [hc, (hnewHeader _).blockNext_eq, blockNext_setNext, hnext]
  case same =>
    intro c hcb hcnew
    have hb : b + 16 ≤ c ∨ c + 16 ≤ b := hcb.symm
    have hn : newBlock + 16 ≤ c ∨ c + 16 ≤ newBlock := by omega
    exact ((SameHeader.setNext hb).trans (.setSize hb)).trans
      (((SameHeader.setNext hn).trans (.setFree hn)).trans (.setSize hn))

end Split

end GeckoOS.Mem
