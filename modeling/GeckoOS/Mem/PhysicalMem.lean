/-
# The physical block allocator

`physical_mem.c` hands out runs of 4 KB blocks from a flat bitmap that lives in
main memory at an address its caller chooses.  A set bit is a used block.
`used_blocks` is kept beside the map and only ever adjusted, never recounted.

The scan of `find_first_free_blocks` stops at `max_blocks`, but the run it
measures from a free bit does not: it reads on through whatever words follow the
map.  The model keeps that, because it keeps the map inside main memory.
-/

import GeckoOS.Math.Bitmap
import GeckoOS.Mem.Kmalloc

namespace GeckoOS.Mem

open GeckoOS.Math ByteMap

/-- `BLOCK_SIZE`. -/
abbrev blockBytes : Nat := 4096

/-- The static variables of the allocator and the memory its map lives in. -/
structure PhysMem where
  /-- Main memory. -/
  mem : ByteMap
  /-- `memory_map`: where the bitmap starts. -/
  memoryMap : Nat
  /-- `max_blocks`. -/
  maxBlocks : Nat
  /-- `used_blocks`. -/
  usedBlocks : Nat

/-- The value of `(uint32_t)x`. -/
def toUint32 (x : Int) : Nat := (x % 2 ^ 32).toNat

/-- The value of `(int32_t)x`. -/
def toInt32 (x : Nat) : Int :=
  if x % 2 ^ 32 < 2 ^ 31 then (x % 2 ^ 32 : Nat) else (x % 2 ^ 32 : Nat) - 2 ^ 32

/-- `memory_map[i]`. -/
def mapWord (pm : PhysMem) (i : Nat) : Nat := Bitmap.word pm.mem pm.memoryMap i

/-- `set_block`. -/
def setBlock (pm : PhysMem) (bit : Nat) : PhysMem :=
  { pm with mem := Bitmap.set pm.mem pm.memoryMap bit }

/-- `unset_block`. -/
def unsetBlock (pm : PhysMem) (bit : Nat) : PhysMem :=
  { pm with mem := Bitmap.clear pm.mem pm.memoryMap bit }

/-- The mask test of the scan: bit `b` of the map, or of what follows it, is clear. -/
def blockClear (pm : PhysMem) (b : Nat) : Bool := mapWord pm (b / 32) &&& 1 <<< (b % 32) = 0

/-- `free_count` once the inner loop has left off: clear bits from `start`, at
most `numBlocks` of them. -/
def freeCount (pm : PhysMem) (start numBlocks : Nat) : Nat :=
  ((List.range numBlocks).takeWhile fun k => blockClear pm (start + k)).length

/-- `find_first_free_blocks`. -/
def findFirstFreeBlocks (pm : PhysMem) (numBlocks : Nat) : Int :=
  if numBlocks = 0 then -1
  else
    ((List.range (pm.maxBlocks / 32)).findSome? fun i =>
      if mapWord pm i = 0xFFFFFFFF then none
      else (List.range 32).findSome? fun j =>
        if mapWord pm i &&& 1 <<< j = 0 ∧ freeCount pm (i * 32 + j) numBlocks = numBlocks then
          some (toInt32 (i * 32 + j))
        else none).getD (-1)

/-- `initialize_memory_manager`. -/
def initializeMemoryManager (mem : ByteMap) (startAddress size : Nat) : PhysMem where
  mem := mem.blit startAddress (fun _ => 0xFF) (size / blockBytes / 8)
  memoryMap := startAddress
  maxBlocks := size / blockBytes
  usedBlocks := size / blockBytes

/-- `initialize_memory_region`. -/
def initializeMemoryRegion (pm : PhysMem) (baseAddress size : Nat) : PhysMem :=
  let pm := (List.range (size / blockBytes)).foldl
    (fun pm i => { unsetBlock pm ((baseAddress / blockBytes + i) % 2 ^ 32) with
      usedBlocks := (pm.usedBlocks + wordModulus - 1) % wordModulus }) pm
  setBlock pm 0

/-- `deinitialize_memory_region`. -/
def deinitializeMemoryRegion (pm : PhysMem) (baseAddress size : Nat) : PhysMem :=
  (List.range (size / blockBytes)).foldl
    (fun pm i => { setBlock pm ((baseAddress / blockBytes + i) % 2 ^ 32) with
      usedBlocks := (pm.usedBlocks + 1) % wordModulus }) pm

/-- `allocate_blocks`: the address of the run, `0` for `NULL`. -/
def allocateBlocks (pm : PhysMem) (numBlocks : Nat) : Nat × PhysMem :=
  if (pm.maxBlocks + wordModulus - pm.usedBlocks) % wordModulus ≤ numBlocks then (0, pm)
  else
    let start := findFirstFreeBlocks pm numBlocks
    if start = -1 then (0, pm)
    else
      let marked := (List.range numBlocks).foldl
        (fun pm i => setBlock pm ((toUint32 start + i) % 2 ^ 32)) pm
      ((start * blockBytes % wordModulus).toNat,
        { marked with usedBlocks := (pm.usedBlocks + numBlocks) % wordModulus })

/-- `free_blocks`. -/
def freeBlocks (pm : PhysMem) (address numBlocks : Nat) : PhysMem :=
  let start := toInt32 (address / blockBytes)
  let cleared := (List.range numBlocks).foldl
    (fun pm i => unsetBlock pm ((toUint32 start + i) % 2 ^ 32)) pm
  { cleared with usedBlocks := (pm.usedBlocks + wordModulus - numBlocks) % wordModulus }

/-- Block `b` is marked used. -/
def blockUsed (pm : PhysMem) (b : Nat) : Bool := Bitmap.bit pm.mem pm.memoryMap b

/-! ## What each loop does to the map -/

section Loops

variable {pm : PhysMem} {b start count : Nat}

theorem blockClear_eq (pm : PhysMem) (b : Nat) : blockClear pm b = !blockUsed pm b := by
  by_cases hbit : (mapWord pm (b / 32)).testBit (b % 32) = true
  · have hmask : ¬ mapWord pm (b / 32) &&& 1 <<< (b % 32) = 0 := by
      rw [Bitmap.and_shiftLeft_eq_zero, hbit]
      decide
    rw [blockClear, decide_eq_false hmask]
    exact (congrArg (!·) hbit).symm
  · have hclear : (mapWord pm (b / 32)).testBit (b % 32) = false := by simpa using hbit
    rw [blockClear, decide_eq_true (Bitmap.and_shiftLeft_eq_zero.mpr hclear)]
    exact (congrArg (!·) hclear).symm

theorem blockUsed_setBlock {c : Nat} :
    blockUsed (setBlock pm c) b = (decide (b = c) || blockUsed pm b) := Bitmap.bit_set

theorem toUint32_of_lt {x : Nat} (hx : x < 2 ^ 32) : toUint32 (x : Int) = x := by
  unfold toUint32
  omega

theorem toInt32_of_lt {x : Nat} (hx : x < 2 ^ 31) : toInt32 x = (x : Int) := by
  have hword : x % 2 ^ 32 = x := Nat.mod_eq_of_lt (by omega)
  rw [toInt32, hword, if_pos hx]

/-- Marking a run touches the map only. -/
theorem foldl_setBlock (pm : PhysMem) (hfits : start + count ≤ 2 ^ 32) :
    (List.range count).foldl (fun pm i => setBlock pm ((start + i) % 2 ^ 32)) pm =
      { pm with
        mem := (List.range count).foldl
          (fun bytes i => Bitmap.set bytes pm.memoryMap (start + i)) pm.mem } := by
  induction count with
  | zero => rfl
  | succ count ih =>
      rw [List.range_succ, List.foldl_append, List.foldl_append, ih (by omega)]
      simp only [List.foldl_cons, List.foldl_nil, setBlock]
      rw [Nat.mod_eq_of_lt (by omega)]

/-- Clearing a run touches the map only. -/
theorem foldl_unsetBlock (pm : PhysMem) (hfits : start + count ≤ 2 ^ 32) :
    (List.range count).foldl (fun pm i => unsetBlock pm ((start + i) % 2 ^ 32)) pm =
      { pm with
        mem := (List.range count).foldl
          (fun bytes i => Bitmap.clear bytes pm.memoryMap (start + i)) pm.mem } := by
  induction count with
  | zero => rfl
  | succ count ih =>
      rw [List.range_succ, List.foldl_append, List.foldl_append, ih (by omega)]
      simp only [List.foldl_cons, List.foldl_nil, unsetBlock]
      rw [Nat.mod_eq_of_lt (by omega)]

/-- The region loop clears its blocks and takes each off the count. -/
theorem foldl_unsetBlock_count (pm : PhysMem) (hfits : start + count ≤ 2 ^ 32)
    (hused : count ≤ pm.usedBlocks) (hword : pm.usedBlocks < 2 ^ 64) :
    (List.range count).foldl
        (fun pm i => { unsetBlock pm ((start + i) % 2 ^ 32) with
          usedBlocks := (pm.usedBlocks + 2 ^ 64 - 1) % 2 ^ 64 }) pm =
      { pm with
        mem := (List.range count).foldl
          (fun bytes i => Bitmap.clear bytes pm.memoryMap (start + i)) pm.mem
        usedBlocks := pm.usedBlocks - count } := by
  induction count with
  | zero => rfl
  | succ count ih =>
      rw [List.range_succ, List.foldl_append, List.foldl_append, ih (by omega) (by omega)]
      have hcount : (pm.usedBlocks - count + 2 ^ 64 - 1) % 2 ^ 64 =
          pm.usedBlocks - (count + 1) := by omega
      simp only [List.foldl_cons, List.foldl_nil, unsetBlock, hcount]
      rw [Nat.mod_eq_of_lt (by omega)]

end Loops

/-! ## First fit -/

section FirstFit

variable {pm : PhysMem} {numBlocks s : Nat}

/-- Every one of the `numBlocks` bits from `s` is clear, within the map or past it. -/
def RunClear (pm : PhysMem) (s numBlocks : Nat) : Prop :=
  ∀ k < numBlocks, blockUsed pm (s + k) = false

theorem freeCount_eq_iff : freeCount pm s numBlocks = numBlocks ↔ RunClear pm s numBlocks := by
  rw [freeCount, Bitmap.length_takeWhile_range_eq]
  simp [blockClear_eq, RunClear]

/-- The nested scan, word by word and bit by bit, as one scan over block numbers. -/
theorem findFirstFreeBlocks_eq (hpos : numBlocks ≠ 0) :
    findFirstFreeBlocks pm numBlocks =
      (((List.range (pm.maxBlocks / 32 * 32)).find? fun b =>
        decide (freeCount pm b numBlocks = numBlocks)).map toInt32).getD (-1) := by
  rw [findFirstFreeBlocks, if_neg hpos, ← Bitmap.findSome?_rows, List.map_findSome?]
  congr 2
  funext i
  have htest : ∀ j < 32,
      (mapWord pm i &&& 1 <<< j = 0 ↔ blockUsed pm (i * 32 + j) = false) := by
    intro j hj
    have hword : (i * 32 + j) / 32 = i := by omega
    have hbit : (i * 32 + j) % 32 = j := by omega
    rw [Bitmap.and_shiftLeft_eq_zero, blockUsed, Bitmap.bit, hword, hbit, mapWord]
  have hfirst : ∀ b, freeCount pm b numBlocks = numBlocks → blockUsed pm b = false := by
    intro b hrun
    exact freeCount_eq_iff.mp hrun 0 (Nat.pos_of_ne_zero hpos)
  have hrow : ∀ j ∈ List.range 32,
      (if mapWord pm i &&& 1 <<< j = 0 ∧ freeCount pm (i * 32 + j) numBlocks = numBlocks then
        some (toInt32 (i * 32 + j)) else none) =
      Option.map toInt32 (if decide (freeCount pm (i * 32 + j) numBlocks = numBlocks) then
        some (i * 32 + j) else none) := by
    intro j hj
    by_cases hrun : freeCount pm (i * 32 + j) numBlocks = numBlocks
    · have hmask := (htest j (List.mem_range.mp hj)).mpr (hfirst _ hrun)
      simp [hrun, hmask]
    · simp [hrun]
  -- A full word has no clear bit, so skipping it skips no candidate.
  by_cases hfull : mapWord pm i = 0xFFFFFFFF
  · rw [if_pos hfull, Function.comp_apply, List.findSome?_eq_none_iff.mpr]
    · rfl
    · intro j hj
      have hlt := List.mem_range.mp hj
      have hused : ¬ freeCount pm (i * 32 + j) numBlocks = numBlocks := by
        intro hrun
        have hclear := (htest j hlt).mpr (hfirst _ hrun)
        rw [Bitmap.and_shiftLeft_eq_zero, hfull, Bitmap.testBit_full hlt] at hclear
        cases hclear
      simp [hused]
  · rw [if_neg hfull, Function.comp_apply, List.map_findSome?]
    exact Bitmap.findSome?_congr hrow

/-- The least managed block that starts a clear run. -/
def FirstFit (pm : PhysMem) (numBlocks s : Nat) : Prop :=
  s < pm.maxBlocks ∧ RunClear pm s numBlocks ∧ ∀ r < s, ¬ RunClear pm r numBlocks

/-- The answer is the first fit as a signed word, if there is one. -/
theorem findFirstFreeBlocks_spec (hpos : numBlocks ≠ 0) (hmap : 32 ∣ pm.maxBlocks) :
    (∃ s, FirstFit pm numBlocks s ∧ findFirstFreeBlocks pm numBlocks = toInt32 s) ∨
    (findFirstFreeBlocks pm numBlocks = -1 ∧ ∀ s < pm.maxBlocks, ¬ RunClear pm s numBlocks) := by
  have hwords : pm.maxBlocks / 32 * 32 = pm.maxBlocks := Nat.div_mul_cancel hmap
  rw [findFirstFreeBlocks_eq hpos, hwords]
  cases hfind : (List.range pm.maxBlocks).find? fun b =>
      decide (freeCount pm b numBlocks = numBlocks) with
  | none =>
      refine .inr ⟨rfl, fun s hs hrun => ?_⟩
      have hnone := List.find?_eq_none.mp hfind s (List.mem_range.mpr hs)
      exact hnone (by simpa using freeCount_eq_iff.mpr hrun)
  | some s =>
      obtain ⟨hrun, hs, hleast⟩ := List.find?_range_eq_some.mp hfind
      refine .inl ⟨s, ⟨List.mem_range.mp hs, ?_, fun r hr hclear => ?_⟩, rfl⟩
      · exact freeCount_eq_iff.mp (by simpa using hrun)
      · have hnot := hleast r hr
        rw [decide_eq_true (freeCount_eq_iff.mpr hclear)] at hnot
        cases hnot

/-- In a map of less than `2 ^ 31` blocks, the sign does not matter. -/
theorem findFirstFreeBlocks_cases (hpos : numBlocks ≠ 0) (hmap : 32 ∣ pm.maxBlocks)
    (hmax : pm.maxBlocks < 2 ^ 31) :
    (∃ s < pm.maxBlocks, findFirstFreeBlocks pm numBlocks = (s : Int) ∧
      RunClear pm s numBlocks ∧ ∀ r < s, ¬ RunClear pm r numBlocks) ∨
    (findFirstFreeBlocks pm numBlocks = -1 ∧ ∀ s < pm.maxBlocks, ¬ RunClear pm s numBlocks) := by
  rcases findFirstFreeBlocks_spec hpos hmap with ⟨s, ⟨hs, hrun, hleast⟩, hfind⟩ | hnone
  · exact .inl ⟨s, hs, hfind.trans (toInt32_of_lt (hs.trans hmax)), hrun, hleast⟩
  · exact .inr hnone

/-- A least clear run is the one found. -/
theorem findFirstFreeBlocks_of_least (hpos : numBlocks ≠ 0) (hmap : 32 ∣ pm.maxBlocks)
    (hmax : pm.maxBlocks < 2 ^ 31) (hs : s < pm.maxBlocks) (hrun : RunClear pm s numBlocks)
    (hleast : ∀ r < s, ¬ RunClear pm r numBlocks) :
    findFirstFreeBlocks pm numBlocks = (s : Int) := by
  rcases findFirstFreeBlocks_cases hpos hmap hmax with ⟨t, -, hfind, hclear, hfirst⟩ | ⟨-, hnone⟩
  · rcases Nat.lt_trichotomy s t with hlt | rfl | hgt
    · exact absurd hrun (hfirst s hlt)
    · exact hfind
    · exact absurd hclear (hleast t hgt)
  · exact absurd hrun (hnone s hs)

end FirstFit

end GeckoOS.Mem
