/-
# The kernel heap

`kmalloc` serves requests from a list of blocks, each a sixteen-byte header
followed by its payload, and grows the heap at `heap_ptr` when no listed block
fits.  The functions below follow `kernel/mem.c` statement by statement on a
byte-addressed memory, so headers are read back from the very bytes that the
last store, by the allocator or by a user, left there.

Pointers and `unsigned long` values are numbers below `2 ^ 64` and wrap.  The
two loops over the list have no bound in the source; here `none` means that the
loop never returns.
-/

import GeckoOS.Math.ByteMap
import GeckoOS.Math.Loop

namespace GeckoOS.Mem

open GeckoOS.Math ByteMap

/-- `unsigned long` and pointer arithmetic wraps here. -/
abbrev wordModulus : Nat := 2 ^ 64

/-- `ALIGN8`: round up to a multiple of eight by adding seven and clearing the
low three bits. -/
def align8 (size : Nat) : Nat := (size + 7) % wordModulus / 8 * 8

/-- The value of an `int` in an `unsigned long` expression. -/
def signExtend (value : Nat) : Nat :=
  if value < 2 ^ 31 then value else value + (wordModulus - 2 ^ 32)

/-- `sizeof(block)`: two `int` fields and a pointer. -/
abbrev headerSize : Nat := 16

/-- `b->size`, as it enters an `unsigned long` expression. -/
def blockSize (mem : ByteMap) (b : Nat) : Nat := signExtend (mem.load b 4)

/-- `b->free`. -/
def blockFree (mem : ByteMap) (b : Nat) : Nat := mem.load (b + 4) 4

/-- `b->next`. -/
def blockNext (mem : ByteMap) (b : Nat) : Nat := mem.load (b + 8) 8

/-- `b->size = value`. -/
def setSize (mem : ByteMap) (b value : Nat) : ByteMap := mem.store b 4 value

/-- `b->free = value`. -/
def setFree (mem : ByteMap) (b value : Nat) : ByteMap := mem.store (b + 4) 4 value

/-- `b->next = value`. -/
def setNext (mem : ByteMap) (b value : Nat) : ByteMap := mem.store (b + 8) 8 value

/-! ## Header fields after one store -/

section HeaderFields

variable (mem : ByteMap) (b value : Nat)

@[simp]
theorem signExtend_of_lt {value : Nat} (hsmall : value < 2 ^ 31) : signExtend value = value :=
  if_pos hsmall

@[simp]
theorem blockSize_setSize : blockSize (setSize mem b value) b = signExtend (value % 2 ^ 32) := by
  simp [blockSize, setSize, load_store_same]

@[simp]
theorem blockSize_setFree : blockSize (setFree mem b value) b = blockSize mem b := by
  simp [blockSize, setFree, load_store_disjoint]

@[simp]
theorem blockSize_setNext : blockSize (setNext mem b value) b = blockSize mem b := by
  simp [blockSize, setNext, load_store_disjoint]

@[simp]
theorem blockFree_setSize : blockFree (setSize mem b value) b = blockFree mem b := by
  simp [blockFree, setSize, load_store_disjoint]

@[simp]
theorem blockFree_setFree : blockFree (setFree mem b value) b = value % 2 ^ 32 := by
  simp [blockFree, setFree, load_store_same]

@[simp]
theorem blockFree_setNext : blockFree (setNext mem b value) b = blockFree mem b := by
  simp [blockFree, setNext, load_store_disjoint]

@[simp]
theorem blockNext_setSize : blockNext (setSize mem b value) b = blockNext mem b := by
  simp [blockNext, setSize, load_store_disjoint]

@[simp]
theorem blockNext_setFree : blockNext (setFree mem b value) b = blockNext mem b := by
  simp [blockNext, setFree, load_store_disjoint]

@[simp]
theorem blockNext_setNext : blockNext (setNext mem b value) b = value % 2 ^ 64 := by
  simp [blockNext, setNext, load_store_same]

theorem blockNext_lt : blockNext mem b < 2 ^ 64 := load_lt

end HeaderFields

/-- Two memories hold the same sixteen header bytes at `c`. -/
def SameHeader (mem other : ByteMap) (c : Nat) : Prop :=
  ∀ i < 16, mem (c + i) = other (c + i)

namespace SameHeader

variable {mem other third : ByteMap} {b c value : Nat}

theorem trans (hfirst : SameHeader mem other c) (hsecond : SameHeader other third c) :
    SameHeader mem third c :=
  fun i hi => (hfirst i hi).trans (hsecond i hi)

theorem blockSize_eq (hsame : SameHeader mem other c) : blockSize mem c = blockSize other c :=
  congrArg signExtend (load_congr fun i hi => hsame i (by omega))

theorem blockFree_eq (hsame : SameHeader mem other c) : blockFree mem c = blockFree other c := by
  apply load_congr
  intro i hi
  rw [Nat.add_assoc]
  exact hsame (4 + i) (by omega)

theorem blockNext_eq (hsame : SameHeader mem other c) : blockNext mem c = blockNext other c := by
  apply load_congr
  intro i hi
  rw [Nat.add_assoc]
  exact hsame (8 + i) (by omega)

/-- A store inside one header leaves every header apart from it alone. -/
theorem of_store {offset width : Nat} (hinside : offset + width ≤ 16)
    (hapart : b + 16 ≤ c ∨ c + 16 ≤ b) :
    SameHeader (mem.store (b + offset) width value) mem c := by
  intro i hi
  rcases hapart with hbefore | hafter
  · exact store_apply_of_le (by omega)
  · exact store_apply_of_lt (by omega)

theorem setSize (hapart : b + 16 ≤ c ∨ c + 16 ≤ b) :
    SameHeader (setSize mem b value) mem c :=
  @of_store _ _ _ _ 0 _ (by decide) hapart

theorem setFree (hapart : b + 16 ≤ c ∨ c + 16 ≤ b) :
    SameHeader (setFree mem b value) mem c :=
  of_store (by decide) hapart

theorem setNext (hapart : b + 16 ≤ c ∨ c + 16 ≤ b) :
    SameHeader (setNext mem b value) mem c :=
  of_store (by decide) hapart

end SameHeader

/-- The static variables of the allocator and the memory its headers live in. -/
structure Heap where
  /-- Main memory. -/
  mem : ByteMap
  /-- `heap_ptr`: where the next new block starts. -/
  heapPtr : Nat
  /-- `heap_end`. -/
  heapEnd : Nat
  /-- `free_list_head`. -/
  freeListHead : Nat

/-- Where `kalloc_init` puts `heap_ptr`. -/
abbrev heapStart : Nat := 0x200000

/-- Where `kalloc_init` puts `heap_end`. -/
abbrev heapLimit : Nat := 0x500000

/-- `kalloc_init`. -/
def kallocInit (mem : ByteMap) : Heap where
  mem := mem
  heapPtr := heapStart
  heapEnd := heapLimit
  freeListHead := 0

/-- One round of `find_free_block` at list position `p`. -/
def findFreeBlockRound (mem : ByteMap) (size p : Nat) : Nat ⊕ Nat :=
  if p = 0 then .inl 0
  else if blockFree mem p ≠ 0 ∧ size ≤ blockSize mem p then .inl p
  else .inr (blockNext mem p)

/-- The loop of `find_free_block` from list position `p`; the answer `0` is `NULL`. -/
noncomputable def findFreeBlockFrom (mem : ByteMap) (size p : Nat) : Option Nat :=
  loop (findFreeBlockRound mem size) p

theorem findFreeBlockFrom_eq (mem : ByteMap) (size p : Nat) :
    findFreeBlockFrom mem size p =
      if p = 0 then some 0
      else if blockFree mem p ≠ 0 ∧ size ≤ blockSize mem p then some p
      else findFreeBlockFrom mem size (blockNext mem p) := by
  conv_lhs => rw [findFreeBlockFrom, loop_eq, findFreeBlockRound]
  split_ifs <;> rfl

/-- `find_free_block`. -/
noncomputable def findFreeBlock (heap : Heap) (size : Nat) : Option Nat :=
  findFreeBlockFrom heap.mem size heap.freeListHead

/-- `create_block`: a new block at `heap_ptr`, or `none` for `NULL` when the
heap has no room left. -/
def createBlock (heap : Heap) (size : Nat) : Option (Nat × Heap) :=
  if heap.heapEnd < (heap.heapPtr + headerSize + size) % wordModulus then none
  else
    let b := heap.heapPtr
    let mem := setSize heap.mem b size
    let mem := setFree mem b 0
    let mem := setNext mem b 0
    some (b, { heap with
      mem := mem
      heapPtr := (heap.heapPtr + align8 ((headerSize + size) % wordModulus)) % wordModulus })

/-- `split_block`: cut what `size` does not need off block `b` into a free block
linked after it. -/
@[irreducible]
def splitBlock (mem : ByteMap) (b size : Nat) : ByteMap :=
  if blockSize mem b ≤ (size + headerSize) % wordModulus then mem
  else
    let newBlock := (b + headerSize + size) % wordModulus
    let mem := setSize mem newBlock
      ((blockSize mem b + 2 * wordModulus - size - headerSize) % wordModulus)
    let mem := setFree mem newBlock 1
    let mem := setNext mem newBlock (blockNext mem b)
    let mem := setSize mem b size
    setNext mem b newBlock

/-- `kmalloc`: the payload address, `0` for `NULL`, with the heap it leaves;
`none` when the walk over the list never ends. -/
noncomputable def kmalloc (heap : Heap) (size : Nat) : Option (Nat × Heap) :=
  let size := align8 size
  match findFreeBlock heap size with
  | none => none
  | some b =>
      if b ≠ 0 then
        let mem := setFree heap.mem b 0
        some (b + headerSize, { heap with mem := splitBlock mem b size })
      else
        match createBlock heap size with
        | none => some (0, heap)
        | some (b, heap) => some (b + headerSize, heap)

/-- `kfree`. -/
def kfree (heap : Heap) (ptr : Nat) : Heap :=
  if ptr = 0 then heap
  else
    let b := (ptr + wordModulus - headerSize) % wordModulus
    let mem := setFree heap.mem b 1
    let mem := setNext mem b heap.freeListHead
    { heap with mem := mem, freeListHead := b }

/-- One round of `combine_blocks` at list position `b`. -/
def combineBlocksRound (state : ByteMap × Nat) : ByteMap ⊕ ByteMap × Nat :=
  let (mem, b) := state
  if b ≠ 0 ∧ blockNext mem b ≠ 0 then
    let next := blockNext mem b
    if next = (b + headerSize + blockSize mem b) % wordModulus ∧ blockFree mem next ≠ 0 then
      let merged := setSize mem b
        ((blockSize mem b + headerSize + blockSize mem next) % wordModulus)
      .inr (setNext merged b (blockNext merged next), b)
    else .inr (mem, next)
  else .inl mem

/-- The loop of `combine_blocks` from list position `b`. -/
noncomputable def combineBlocksFrom (mem : ByteMap) (b : Nat) : Option ByteMap :=
  loop combineBlocksRound (mem, b)

theorem combineBlocksFrom_eq (mem : ByteMap) (b : Nat) :
    combineBlocksFrom mem b =
      if b ≠ 0 ∧ blockNext mem b ≠ 0 then
        if blockNext mem b = (b + headerSize + blockSize mem b) % wordModulus ∧
            blockFree mem (blockNext mem b) ≠ 0 then
          let merged := setSize mem b
            ((blockSize mem b + headerSize + blockSize mem (blockNext mem b)) % wordModulus)
          combineBlocksFrom (setNext merged b (blockNext merged (blockNext mem b))) b
        else combineBlocksFrom mem (blockNext mem b)
      else some mem := by
  simp only [combineBlocksFrom]
  conv_lhs => rw [loop_eq, combineBlocksRound]
  by_cases hgo : b ≠ 0 ∧ blockNext mem b ≠ 0
  · by_cases hmerge : blockNext mem b = (b + headerSize + blockSize mem b) % wordModulus ∧
        blockFree mem (blockNext mem b) ≠ 0
    · simp only [if_pos hgo, if_pos hmerge]
    · simp only [if_pos hgo, if_neg hmerge]
  · simp only [if_neg hgo]

/-- Induction along the rounds of a `combine_blocks` that returns. -/
theorem combineBlocksFrom_induct {motive : ByteMap → Nat → Prop} {mem result : ByteMap} {b : Nat}
    (hstop : ∀ mem b, ¬ (b ≠ 0 ∧ blockNext mem b ≠ 0) → motive mem b)
    (hmerge : ∀ mem b, b ≠ 0 → blockNext mem b ≠ 0 →
      motive (setNext (setSize mem b ((blockSize mem b + headerSize +
        blockSize mem (blockNext mem b)) % wordModulus)) b
          (blockNext (setSize mem b ((blockSize mem b + headerSize +
            blockSize mem (blockNext mem b)) % wordModulus)) (blockNext mem b))) b → motive mem b)
    (hskip : ∀ mem b, b ≠ 0 → blockNext mem b ≠ 0 → motive mem (blockNext mem b) → motive mem b)
    (hreturns : combineBlocksFrom mem b = some result) : motive mem b := by
  have hwalk : motive (mem, b).1 (mem, b).2 := by
    refine loop_induct (motive := fun state _ => motive state.1 state.2) ?_ ?_ hreturns
    · rintro ⟨mem, b⟩ last hleave
      by_cases hgo : b ≠ 0 ∧ blockNext mem b ≠ 0
      · by_cases hbehind : blockNext mem b = (b + headerSize + blockSize mem b) % wordModulus ∧
            blockFree mem (blockNext mem b) ≠ 0
        · simp only [combineBlocksRound, if_pos hgo, if_pos hbehind, reduceCtorEq] at hleave
        · simp only [combineBlocksRound, if_pos hgo, if_neg hbehind, reduceCtorEq] at hleave
      · exact hstop mem b hgo
    · rintro ⟨mem, b⟩ next last hround ih
      by_cases hgo : b ≠ 0 ∧ blockNext mem b ≠ 0
      · by_cases hbehind : blockNext mem b = (b + headerSize + blockSize mem b) % wordModulus ∧
            blockFree mem (blockNext mem b) ≠ 0
        · simp only [combineBlocksRound, if_pos hgo, if_pos hbehind, Sum.inr.injEq] at hround
          subst hround
          exact hmerge mem b hgo.1 hgo.2 ih
        · simp only [combineBlocksRound, if_pos hgo, if_neg hbehind, Sum.inr.injEq] at hround
          subst hround
          exact hskip mem b hgo.1 hgo.2 ih
      · rw [combineBlocksRound, if_neg hgo] at hround
        cases hround
  exact hwalk

/-- `combine_blocks`: merge each listed block with a free successor that lies
directly behind it in memory. -/
noncomputable def combineBlocks (heap : Heap) : Option Heap :=
  (combineBlocksFrom heap.mem heap.freeListHead).map fun mem => { heap with mem := mem }

end GeckoOS.Mem
