/-
# Regions of blocks

After `initialize_memory_manager` all blocks are used.  `initialize_memory_region` is to free
the blocks that lie wholly inside a region of bytes, and `deinitialize_memory_region` to reserve
those that intersect one, and the counter is to follow.

Both round the base and the size down, each for itself, and both take as many blocks as the
size has, from the block of the base on.  So what is freed and what is reserved is right for
aligned regions, and for others at most by luck.  The counter is moved once for each block of
the loop, whatever the block was before, and block 0 is reserved again without counting.  The
theorem of this module says for which regions, in which states, all this makes no difference.
-/

import GeckoOS.Math.Runs
import GeckoOS.Mem.BlockPool

namespace GeckoOS.Mem

open GeckoOS.Math ByteMap

/-- A region of bytes below `limit`. -/
structure Region (limit : Nat) where
  base : Nat
  size : Nat
  fits : base + size ≤ limit

namespace Region

variable {limit : Nat} (region : Region limit)

/-- The block of the base. -/
def first : Nat := region.base / blockBytes

/-- The number of blocks that the loops take. -/
def count : Nat := region.size / blockBytes

/-- The block lies wholly inside the region. -/
def Covers (b : Nat) : Prop :=
  ∀ p, p / blockBytes = b → region.base ≤ p ∧ p < region.base + region.size

/-- The block and the region have a byte in common. -/
def Meets (b : Nat) : Prop :=
  ∃ p, p / blockBytes = b ∧ region.base ≤ p ∧ p < region.base + region.size

/-- The blocks that the loops go through, as the 32 bits of a block number name them. -/
def touched : Finset Nat := (Finset.range region.count).image fun i => (region.first + i) % 2 ^ 32

theorem covers_iff {b : Nat} : region.Covers b ↔
    region.base ≤ 4096 * b ∧ 4096 * (b + 1) ≤ region.base + region.size := by
  simp only [Covers, blockBytes]
  constructor
  · intro hall
    have hlow := hall (4096 * b) (by omega)
    have hhigh := hall (4096 * b + 4095) (by omega)
    omega
  · rintro ⟨hlow, hhigh⟩ p hp
    omega

theorem meets_iff {b : Nat} : region.Meets b ↔
    0 < region.size ∧ region.base < 4096 * (b + 1) ∧ 4096 * b < region.base + region.size := by
  simp only [Meets, blockBytes]
  constructor
  · rintro ⟨p, hp, hlow, hhigh⟩
    omega
  · rintro ⟨hsize, hlow, hhigh⟩
    by_cases hbase : region.base ≤ 4096 * b
    · exact ⟨4096 * b, by omega, hbase, hhigh⟩
    · exact ⟨region.base, by omega, le_rfl, by omega⟩

theorem card_touched_le : region.touched.card ≤ region.count :=
  Finset.card_image_le.trans_eq (Finset.card_range _)

theorem mem_touched {b : Nat} :
    b ∈ region.touched ↔ ∃ i < region.count, (region.first + i) % 2 ^ 32 = b := by
  simp [touched]

/-- Without a block number that overflows, the blocks are those from the first one on. -/
theorem touched_eq (hfits : region.count = 0 ∨ region.first + region.count ≤ 2 ^ 32) :
    region.touched = Finset.Ico region.first (region.first + region.count) := by
  ext b
  rw [mem_touched, Finset.mem_Ico]
  constructor
  · rintro ⟨i, hi, rfl⟩
    rw [Nat.mod_eq_of_lt (by omega)]
    omega
  · rintro ⟨hlow, hhigh⟩
    exact ⟨b - region.first, by omega, by rw [Nat.mod_eq_of_lt (by omega)]; omega⟩

/-- A block number that overflows reaches block 0, or one below the region. -/
theorem exists_touched_of_overflow (hcount : 0 < region.count)
    (hover : 2 ^ 32 < region.first + region.count) :
    0 ∈ region.touched ∨ ∃ b ∈ region.touched, b < region.first := by
  by_cases hfirst : region.first < 2 ^ 32
  · refine .inl (region.mem_touched.mpr ⟨2 ^ 32 - region.first, by omega, ?_⟩)
    rw [Nat.add_sub_cancel' hfirst.le, Nat.mod_self]
  · refine .inr ⟨region.first % 2 ^ 32, region.mem_touched.mpr ⟨0, hcount, rfl⟩, ?_⟩
    have hlt := Nat.mod_lt region.first (show 0 < 2 ^ 32 by decide)
    omega

/-- Blocks of the region other than block 0 are therefore named without an overflow. -/
theorem no_overflow (hzero : 0 ∉ region.touched)
    (hinside : ∀ b ∈ region.touched, region.first ≤ b) :
    region.count = 0 ∨ region.first + region.count ≤ 2 ^ 32 := by
  by_contra hnot
  obtain ⟨hcount, hover⟩ := not_or.mp hnot
  rcases region.exists_touched_of_overflow (Nat.pos_of_ne_zero hcount) (Nat.not_le.mp hover) with
    hin | ⟨b, hb, hlt⟩
  · exact hzero hin
  · exact absurd (hinside b hb) (Nat.not_le.mpr hlt)

variable {region} {b : Nat}

theorem Covers.first_le (hcovers : region.Covers b) : region.first ≤ b := by
  have hlow := (region.covers_iff.mp hcovers).1
  simp only [first, blockBytes]
  omega

theorem Covers.count_pos (hcovers : region.Covers b) : 0 < region.count := by
  obtain ⟨hlow, hhigh⟩ := region.covers_iff.mp hcovers
  simp only [count, blockBytes]
  omega

/-- A region that covers its first block is aligned. -/
theorem Covers.aligned (hcovers : region.Covers region.first) : blockBytes ∣ region.base := by
  have hlow := (region.covers_iff.mp hcovers).1
  simp only [first, blockBytes] at hlow ⊢
  omega

theorem Meets.first_le (hmeets : region.Meets b) : region.first ≤ b := by
  obtain ⟨-, hlow, -⟩ := region.meets_iff.mp hmeets
  simp only [first, blockBytes]
  omega

theorem Meets.mem_touched (hmeets : region.Meets b)
    (hfits : region.count = 0 ∨ region.first + region.count ≤ 2 ^ 32) :
    b ∈ region.touched ↔ b < region.first + region.count := by
  rw [region.touched_eq hfits, Finset.mem_Ico]
  exact and_iff_right hmeets.first_le

variable (region)

/-- An aligned region covers as many blocks as its size has. -/
theorem covers_iff_mem (haligned : blockBytes ∣ region.base) :
    region.Covers b ↔ b ∈ Finset.Ico region.first (region.first + region.count) := by
  rw [covers_iff, Finset.mem_Ico]
  simp only [first, count, blockBytes] at haligned ⊢
  omega

theorem meets_of_mem (hb : b ∈ Finset.Ico region.first (region.first + region.count)) :
    region.Meets b := by
  rw [Finset.mem_Ico] at hb
  rw [meets_iff]
  simp only [first, count, blockBytes] at hb
  omega

end Region

/-- One call. -/
inductive RegionCall (limit : Nat)
  | initializeRegion (region : Region limit)
  | deinitializeRegion (region : Region limit)

namespace RegionCall

variable {limit : Nat}

/-- The allocator after the call. -/
def run (pm : PhysMem) : RegionCall limit → PhysMem
  | .initializeRegion region => initializeMemoryRegion pm region.base region.size
  | .deinitializeRegion region => deinitializeMemoryRegion pm region.base region.size

/-- The call frees or reserves the blocks it should, keeps block 0 reserved, and the counter is
right afterwards. -/
def Right (pm : PhysMem) (call : RegionCall limit) : Prop :=
  (call.run pm).usedBlocks = usedCount (call.run pm) ∧
    match call with
    | .initializeRegion region => ∀ b < pm.maxBlocks, blockUsed (call.run pm) b = true ↔
        b = 0 ∨ blockUsed pm b = true ∧ ¬ region.Covers b
    | .deinitializeRegion region => ∀ b < pm.maxBlocks, blockUsed (call.run pm) b = true ↔
        blockUsed pm b = true ∨ region.Meets b

/-- The region starts with a block other than block 0, its block numbers do not overflow, and
its blocks are all used.  Or, when it is to be reserved, those of the blocks it meets that the
loop goes through are all free and the others are not. -/
def Fits (pm : PhysMem) : RegionCall limit → Prop
  | .initializeRegion region => region.count = 0 ∨
      (blockBytes ∣ region.base ∧ region.base ≠ 0 ∧ region.first + region.count ≤ 2 ^ 32 ∧
        ∀ b, region.Covers b → blockUsed pm b = true)
  | .deinitializeRegion region => (region.count = 0 ∨ region.first + region.count ≤ 2 ^ 32) ∧
      ∀ b < pm.maxBlocks, region.Meets b →
        (blockUsed pm b = false ↔ b < region.first + region.count)

end RegionCall

/-! ## The loops -/

/-- Edit the blocks from the first one on, and add `delta` to the counter for each. -/
def eachBlock (edit : PhysMem → Nat → PhysMem) (delta first count : Nat) (pm : PhysMem) :
    PhysMem :=
  (List.range count).foldl
    (fun pm i => { edit pm ((first + i) % 2 ^ 32) with
      usedBlocks := (pm.usedBlocks + delta) % wordModulus }) pm

/-- An edit marks its block and no other, and leaves the size of the map. -/
structure Marks (edit : PhysMem → Nat → PhysMem) (mark : Bool) : Prop where
  bit : ∀ pm c b, blockUsed (edit pm c) b = if b = c then mark else blockUsed pm b
  max : ∀ pm c, (edit pm c).maxBlocks = pm.maxBlocks

theorem marks_setBlock : Marks setBlock true := by
  refine ⟨fun pm c b => ?_, fun pm c => rfl⟩
  rw [blockUsed_setBlock]
  by_cases hb : b = c <;> simp [hb]

theorem marks_unsetBlock : Marks unsetBlock false := by
  refine ⟨fun pm c b => ?_, fun pm c => rfl⟩
  change Bitmap.bit (Bitmap.clear pm.mem pm.memoryMap c) pm.memoryMap b = _
  rw [Bitmap.bit_clear]
  by_cases hb : b = c
  · simp [hb]
  · simp [hb, blockUsed]

section Loops

variable {edit : PhysMem → Nat → PhysMem} {mark : Bool} {pm : PhysMem} {delta first count : Nat}

theorem eachBlock_succ : eachBlock edit delta first (count + 1) pm =
    { edit (eachBlock edit delta first count pm) ((first + count) % 2 ^ 32) with
      usedBlocks := ((eachBlock edit delta first count pm).usedBlocks + delta) % wordModulus } := by
  rw [eachBlock, List.range_succ, List.foldl_append]
  rfl

theorem eachBlock_maxBlocks (hmarks : Marks edit mark) :
    (eachBlock edit delta first count pm).maxBlocks = pm.maxBlocks := by
  induction count with
  | zero => rfl
  | succ count ih => rw [eachBlock_succ, hmarks.max, ih]

theorem eachBlock_usedBlocks (hword : pm.usedBlocks < wordModulus) :
    (eachBlock edit delta first count pm).usedBlocks =
      (pm.usedBlocks + delta * count) % wordModulus := by
  induction count with
  | zero => exact (Nat.mod_eq_of_lt hword).symm
  | succ count ih => rw [eachBlock_succ, ih, Nat.mod_add_mod, Nat.mul_succ, Nat.add_assoc]

theorem eachBlock_blockUsed (hmarks : Marks edit mark) {b : Nat} :
    blockUsed (eachBlock edit delta first count pm) b =
      if ∃ i < count, (first + i) % 2 ^ 32 = b then mark else blockUsed pm b := by
  induction count with
  | zero => simp [eachBlock]
  | succ count ih =>
      rw [eachBlock_succ]
      change blockUsed (edit _ _) b = _
      rw [hmarks.bit, ih]
      by_cases hlast : b = (first + count) % 2 ^ 32
      · rw [if_pos hlast, if_pos ⟨count, Nat.lt_succ_self _, hlast.symm⟩]
      · have hiff : (∃ i < count + 1, (first + i) % 2 ^ 32 = b) ↔
            ∃ i < count, (first + i) % 2 ^ 32 = b := by
          constructor
          · rintro ⟨i, hi, rfl⟩
            have hne : i ≠ count := fun heq => hlast (by rw [heq])
            exact ⟨i, by omega, rfl⟩
          · rintro ⟨i, hi, hbit⟩
            exact ⟨i, by omega, hbit⟩
        rw [if_neg hlast]
        simp only [hiff]

end Loops

/-! ## One call -/

/-- What holds between the calls. -/
structure RegionInv (limit : Nat) (pm : PhysMem) : Prop where
  max : pm.maxBlocks = limit / blockBytes
  count : pm.usedBlocks = usedCount pm
  first : 0 < pm.maxBlocks → blockUsed pm 0 = true

/-- The used blocks of the map. -/
def usedSet (pm : PhysMem) : Finset Nat :=
  (Finset.range pm.maxBlocks).filter fun b => blockUsed pm b

section Call

variable {limit b : Nat} {pm : PhysMem} {region : Region limit}

theorem mem_usedSet : b ∈ usedSet pm ↔ b < pm.maxBlocks ∧ blockUsed pm b = true := by
  simp [usedSet]

theorem run_initializeRegion : RegionCall.run pm (.initializeRegion region) =
    setBlock (eachBlock unsetBlock (wordModulus - 1) region.first region.count pm) 0 := by
  have hbody : (fun (pm : PhysMem) i =>
      { unsetBlock pm ((region.base / blockBytes + i) % 2 ^ 32) with
        usedBlocks := (pm.usedBlocks + wordModulus - 1) % wordModulus }) =
      fun pm i => { unsetBlock pm ((region.first + i) % 2 ^ 32) with
        usedBlocks := (pm.usedBlocks + (wordModulus - 1)) % wordModulus } := by
    funext pm i
    rw [Nat.add_sub_assoc (by decide), Region.first]
  rw [RegionCall.run, initializeMemoryRegion, hbody]
  rfl

theorem run_deinitializeRegion : RegionCall.run pm (.deinitializeRegion region) =
    eachBlock setBlock 1 region.first region.count pm := rfl

theorem run_maxBlocks (call : RegionCall limit) : (call.run pm).maxBlocks = pm.maxBlocks := by
  cases call with
  | initializeRegion region =>
      rw [run_initializeRegion]
      exact eachBlock_maxBlocks marks_unsetBlock
  | deinitializeRegion region =>
      rw [run_deinitializeRegion]
      exact eachBlock_maxBlocks marks_setBlock

theorem blockUsed_initializeRegion :
    blockUsed (RegionCall.run pm (.initializeRegion region)) b = true ↔
      b = 0 ∨ blockUsed pm b = true ∧ b ∉ region.touched := by
  rw [run_initializeRegion, blockUsed_setBlock, eachBlock_blockUsed marks_unsetBlock,
    Bool.or_eq_true, decide_eq_true_eq, Region.mem_touched]
  refine or_congr_right ?_
  by_cases htouched : ∃ i < region.count, (region.first + i) % 2 ^ 32 = b
  · rw [if_pos htouched]
    exact iff_of_false (by decide) fun h => h.2 htouched
  · rw [if_neg htouched]
    exact (and_iff_left htouched).symm

theorem blockUsed_deinitializeRegion :
    blockUsed (RegionCall.run pm (.deinitializeRegion region)) b = true ↔
      blockUsed pm b = true ∨ b ∈ region.touched := by
  rw [run_deinitializeRegion, eachBlock_blockUsed marks_setBlock, Region.mem_touched]
  by_cases htouched : ∃ i < region.count, (region.first + i) % 2 ^ 32 = b
  · rw [if_pos htouched]
    exact iff_of_true rfl (.inr htouched)
  · rw [if_neg htouched]
    exact (or_iff_left htouched).symm

/-- The blocks that the loops go through are in the map. -/
theorem Region.touched_subset (hmax : pm.maxBlocks = limit / blockBytes) :
    region.touched ⊆ Finset.range pm.maxBlocks := by
  intro b hb
  obtain ⟨i, hi, rfl⟩ := region.mem_touched.mp hb
  have hfits := region.fits
  have hmod := Nat.mod_le (region.first + i) (2 ^ 32)
  rw [Finset.mem_range, hmax]
  simp only [Region.first, Region.count, blockBytes] at hi hmod ⊢
  omega

theorem usedSet_initializeRegion (hinv : RegionInv limit pm) :
    usedSet (RegionCall.run pm (.initializeRegion region)) =
      usedSet pm \ region.touched.erase 0 := by
  ext b
  rw [mem_usedSet, run_maxBlocks, blockUsed_initializeRegion, Finset.mem_sdiff, mem_usedSet,
    Finset.mem_erase]
  constructor
  · rintro ⟨hb, rfl | ⟨hused, hnot⟩⟩
    · exact ⟨⟨hb, hinv.first hb⟩, fun h => h.1 rfl⟩
    · exact ⟨⟨hb, hused⟩, fun h => hnot h.2⟩
  · rintro ⟨⟨hb, hused⟩, hnot⟩
    by_cases hzero : b = 0
    · exact ⟨hb, .inl hzero⟩
    · exact ⟨hb, .inr ⟨hused, fun h => hnot ⟨hzero, h⟩⟩⟩

theorem usedSet_deinitializeRegion (hmax : pm.maxBlocks = limit / blockBytes) :
    usedSet (RegionCall.run pm (.deinitializeRegion region)) = usedSet pm ∪ region.touched := by
  ext b
  rw [mem_usedSet, run_maxBlocks, blockUsed_deinitializeRegion, Finset.mem_union, mem_usedSet]
  have hmanaged : b ∈ region.touched → b < pm.maxBlocks := fun hb =>
    Finset.mem_range.mp (Region.touched_subset hmax hb)
  constructor
  · rintro ⟨hb, hused | htouched⟩
    · exact .inl ⟨hb, hused⟩
    · exact .inr htouched
  · rintro (⟨hb, hused⟩ | htouched)
    · exact ⟨hb, .inl hused⟩
    · exact ⟨hmanaged htouched, .inr htouched⟩

/-! ## The counter -/

variable (hinv : RegionInv limit pm) (hlimit : limit < wordModulus)

include hinv hlimit

theorem RegionInv.bounds (region : Region limit) : usedCount pm ≤ pm.maxBlocks ∧ region.count ≤ pm.maxBlocks ∧
    pm.maxBlocks < 2 ^ 52 := by
  have hfits := region.fits
  have hle : usedCount pm ≤ pm.maxBlocks :=
    (Finset.card_filter_le _ _).trans_eq (Finset.card_range _)
  rw [hinv.max] at hle ⊢
  simp only [Region.count, blockBytes, wordModulus] at *
  omega

/-- The counter goes down with the freed blocks if the loop frees a block each time. -/
theorem count_initializeRegion_iff :
    (RegionCall.run pm (.initializeRegion region)).usedBlocks =
        usedCount (RegionCall.run pm (.initializeRegion region)) ↔
      region.touched ⊆ usedSet pm ∧ 0 ∉ region.touched ∧ region.touched.card = region.count := by
  obtain ⟨hused, hcount, hmax⟩ := hinv.bounds hlimit region
  have hcounter : (RegionCall.run pm (.initializeRegion region)).usedBlocks =
      (usedCount pm + (wordModulus - 1) * region.count) % wordModulus := by
    rw [run_initializeRegion, ← hinv.count]
    refine eachBlock_usedBlocks ?_
    rw [hinv.count]
    simp only [wordModulus]
    omega
  have hset : usedCount (RegionCall.run pm (.initializeRegion region)) =
      usedCount pm - (region.touched.erase 0 ∩ usedSet pm).card := by
    change (usedSet _).card = (usedSet pm).card - _
    rw [usedSet_initializeRegion hinv, Finset.card_sdiff]
  have hsubset : region.touched.erase 0 ∩ usedSet pm ⊆ region.touched :=
    Finset.inter_subset_left.trans (Finset.erase_subset _ _)
  have hfreed : (region.touched.erase 0 ∩ usedSet pm).card ≤ usedCount pm :=
    Finset.card_le_card Finset.inter_subset_right
  have hle := region.card_touched_le
  have hlast := Finset.card_le_card hsubset
  have hiff : (RegionCall.run pm (.initializeRegion region)).usedBlocks =
      usedCount (RegionCall.run pm (.initializeRegion region)) ↔
        (region.touched.erase 0 ∩ usedSet pm).card = region.count := by
    rw [hcounter, hset]
    simp only [wordModulus]
    omega
  rw [hiff]
  constructor
  · intro hcard
    have hsame := Finset.eq_of_subset_of_card_le hsubset (hle.trans hcard.ge)
    rw [hsame] at hcard
    refine ⟨fun b hb => ?_, fun hzero => ?_, hcard⟩
    · rw [← hsame] at hb
      exact (Finset.mem_inter.mp hb).2
    · rw [← hsame] at hzero
      exact (Finset.mem_erase.mp (Finset.mem_inter.mp hzero).1).1 rfl
  · rintro ⟨hinside, hzero, hcard⟩
    rw [Finset.erase_eq_of_notMem hzero, Finset.inter_eq_left.mpr hinside, hcard]

/-- It goes up with the reserved blocks if the loop reserves a block each time. -/
theorem count_deinitializeRegion_iff :
    (RegionCall.run pm (.deinitializeRegion region)).usedBlocks =
        usedCount (RegionCall.run pm (.deinitializeRegion region)) ↔
      Disjoint region.touched (usedSet pm) ∧ region.touched.card = region.count := by
  obtain ⟨hused, hcount, hmax⟩ := hinv.bounds hlimit region
  have hcounter : (RegionCall.run pm (.deinitializeRegion region)).usedBlocks =
      usedCount pm + region.count := by
    rw [run_deinitializeRegion, ← hinv.count, eachBlock_usedBlocks, Nat.one_mul]
    · rw [hinv.count]
      exact Nat.mod_eq_of_lt (by simp only [wordModulus]; omega)
    · rw [hinv.count]
      simp only [wordModulus]
      omega
  have hset : usedCount (RegionCall.run pm (.deinitializeRegion region)) =
      usedCount pm + (region.touched \ usedSet pm).card := by
    change (usedSet _).card = (usedSet pm).card + _
    rw [usedSet_deinitializeRegion hinv.max, Finset.union_comm, ← Finset.card_sdiff_add_card,
      Nat.add_comm]
  have hle := region.card_touched_le
  have hiff : (RegionCall.run pm (.deinitializeRegion region)).usedBlocks =
      usedCount (RegionCall.run pm (.deinitializeRegion region)) ↔
        (region.touched \ usedSet pm).card = region.count := by
    rw [hcounter, hset]
    omega
  rw [hiff]
  constructor
  · intro hcard
    have hsame := Finset.eq_of_subset_of_card_le Finset.sdiff_subset (hle.trans hcard.ge)
    rw [hsame] at hcard
    exact ⟨Finset.sdiff_eq_self_iff_disjoint.mp hsame, hcard⟩
  · rintro ⟨hapart, hcard⟩
    rw [Finset.sdiff_eq_self_iff_disjoint.mpr hapart, hcard]

/-! ## Right calls -/

/-- A region that is made free rightly is all blocks, none of them block 0 or free. -/
theorem fits_of_right_initializeRegion (hright : RegionCall.Right pm (.initializeRegion region)) :
    RegionCall.Fits pm (.initializeRegion region) := by
  rw [RegionCall.Right, count_initializeRegion_iff hinv hlimit] at hright
  obtain ⟨⟨hused, hzero, -⟩, hright⟩ := hright
  refine or_iff_not_imp_left.mpr fun hcount => ?_
  have hcovers : ∀ b ∈ region.touched, region.Covers b := by
    intro b hb
    obtain ⟨hmanaged, hbefore⟩ := mem_usedSet.mp (hused hb)
    by_contra hout
    rcases blockUsed_initializeRegion.mp ((hright b hmanaged).mpr (.inr ⟨hbefore, hout⟩)) with
      rfl | ⟨-, hnot⟩
    · exact hzero hb
    · exact hnot hb
  have hfits := (region.no_overflow hzero fun b hb => (hcovers b hb).first_le).resolve_left hcount
  rw [region.touched_eq (.inr hfits)] at hcovers hzero hused
  have hfirst := hcovers region.first (Finset.mem_Ico.mpr ⟨le_rfl, by omega⟩)
  have haligned := hfirst.aligned
  refine ⟨haligned, ?_, hfits, fun b hb => ?_⟩
  · intro hbase
    apply hzero
    refine Finset.mem_Ico.mpr ⟨?_, by omega⟩
    rw [Region.first, hbase]
    exact le_rfl
  · exact (mem_usedSet.mp (hused ((region.covers_iff_mem haligned).mp hb))).2

theorem right_of_fits_initializeRegion (hfits : RegionCall.Fits pm (.initializeRegion region)) :
    RegionCall.Right pm (.initializeRegion region) := by
  rw [RegionCall.Right, count_initializeRegion_iff hinv hlimit]
  rcases hfits with hcount | ⟨haligned, hbase, hfits, hused⟩
  · rw [region.touched_eq (.inl hcount), hcount, Nat.add_zero, Finset.Ico_self]
    refine ⟨⟨Finset.empty_subset _, Finset.notMem_empty _, rfl⟩, fun b _ => ?_⟩
    rw [blockUsed_initializeRegion, region.touched_eq (.inl hcount), hcount, Nat.add_zero,
      Finset.Ico_self]
    have hout : ¬ region.Covers b := fun hb => Nat.ne_of_gt hb.count_pos hcount
    simp [hout]
  · have hmem : ∀ b, b ∈ region.touched ↔ region.Covers b := by
      intro b
      rw [region.touched_eq (.inr hfits), region.covers_iff_mem haligned]
    refine ⟨⟨fun b hb => ?_, fun hzero => ?_, ?_⟩, fun b _ => ?_⟩
    · exact mem_usedSet.mpr ⟨Finset.mem_range.mp (Region.touched_subset hinv.max hb),
        hused b ((hmem b).mp hb)⟩
    · have hlow := (region.covers_iff.mp ((hmem 0).mp hzero)).1
      omega
    · rw [region.touched_eq (.inr hfits), Nat.card_Ico, Nat.add_sub_cancel_left]
    · rw [blockUsed_initializeRegion, hmem]

theorem initializeRegion_right_iff :
    RegionCall.Right pm (.initializeRegion region) ↔
      RegionCall.Fits pm (.initializeRegion region) :=
  ⟨fits_of_right_initializeRegion hinv hlimit, right_of_fits_initializeRegion hinv hlimit⟩

/-- A region that is reserved rightly has no block that was used, and of the blocks it meets only
those beyond its last one were. -/
theorem fits_of_right_deinitializeRegion
    (hright : RegionCall.Right pm (.deinitializeRegion region)) :
    RegionCall.Fits pm (.deinitializeRegion region) := by
  rw [RegionCall.Right, count_deinitializeRegion_iff hinv hlimit] at hright
  obtain ⟨⟨hfree, -⟩, hright⟩ := hright
  have hmanaged : ∀ b ∈ region.touched, b < pm.maxBlocks := fun b hb =>
    Finset.mem_range.mp (Region.touched_subset hinv.max hb)
  have hbefore : ∀ b ∈ region.touched, blockUsed pm b ≠ true := fun b hb hused =>
    Finset.disjoint_left.mp hfree hb (mem_usedSet.mpr ⟨hmanaged b hb, hused⟩)
  have hmeets : ∀ b ∈ region.touched, region.Meets b := by
    intro b hb
    have hafter := (hright b (hmanaged b hb)).mp (blockUsed_deinitializeRegion.mpr (.inr hb))
    exact hafter.resolve_left (hbefore b hb)
  have hfits := region.no_overflow
    (fun hzero => hbefore 0 hzero (hinv.first (hmanaged 0 hzero)))
    fun b hb => (hmeets b hb).first_le
  refine ⟨hfits, fun b hb hmeet => ?_⟩
  rw [← hmeet.mem_touched hfits, ← Bool.not_eq_true]
  constructor
  · intro hnot
    have hafter := blockUsed_deinitializeRegion.mp ((hright b hb).mpr (.inr hmeet))
    exact hafter.resolve_left hnot
  · exact hbefore b

theorem right_of_fits_deinitializeRegion
    (hfits : RegionCall.Fits pm (.deinitializeRegion region)) :
    RegionCall.Right pm (.deinitializeRegion region) := by
  rw [RegionCall.Right, count_deinitializeRegion_iff hinv hlimit]
  obtain ⟨hfits, hbefore⟩ := hfits
  have hmeets : ∀ b ∈ region.touched, region.Meets b := by
    intro b hb
    rw [region.touched_eq hfits] at hb
    exact region.meets_of_mem hb
  refine ⟨⟨?_, ?_⟩, fun b hb => ?_⟩
  · refine Finset.disjoint_left.mpr fun b hb hused => ?_
    obtain ⟨hmanaged, hused⟩ := mem_usedSet.mp hused
    have hmeet := hmeets b hb
    have hclear := (hbefore b hmanaged hmeet).mpr ((hmeet.mem_touched hfits).mp hb)
    rw [hused] at hclear
    cases hclear
  · rw [region.touched_eq hfits, Nat.card_Ico, Nat.add_sub_cancel_left]
  · rw [blockUsed_deinitializeRegion]
    constructor
    · rintro (hused | htouched)
      · exact .inl hused
      · exact .inr (hmeets b htouched)
    · rintro (hused | hmeet)
      · exact .inl hused
      · by_cases htouched : b ∈ region.touched
        · exact .inr htouched
        · left
          rw [hmeet.mem_touched hfits, ← hbefore b hb hmeet] at htouched
          simpa using htouched

theorem deinitializeRegion_right_iff :
    RegionCall.Right pm (.deinitializeRegion region) ↔
      RegionCall.Fits pm (.deinitializeRegion region) :=
  ⟨fits_of_right_deinitializeRegion hinv hlimit, right_of_fits_deinitializeRegion hinv hlimit⟩

theorem right_iff (call : RegionCall limit) : call.Right pm ↔ call.Fits pm := by
  cases call with
  | initializeRegion region => exact initializeRegion_right_iff hinv hlimit
  | deinitializeRegion region => exact deinitializeRegion_right_iff hinv hlimit

omit hlimit in
/-- A right call keeps what holds between the calls. -/
theorem RegionInv.run {call : RegionCall limit} (hright : call.Right pm) :
    RegionInv limit (call.run pm) := by
  refine ⟨(run_maxBlocks call).trans hinv.max, hright.1, fun hmax => ?_⟩
  rw [run_maxBlocks] at hmax
  cases call with
  | initializeRegion region => exact blockUsed_initializeRegion.mpr (.inl rfl)
  | deinitializeRegion region => exact blockUsed_deinitializeRegion.mpr (.inl (hinv.first hmax))

end Call

/-! ## Runs -/

/-- The blocks behind the last whole byte of the map, which `initialize_memory_manager` does not
set, happen to be set. -/
def TailSet (mem : ByteMap) (start size : Nat) : Prop :=
  ∀ b < size / blockBytes, size / blockBytes / 8 * 8 ≤ b → Bitmap.bit mem start b = true

section Start

variable {mem : ByteMap} {start size b : Nat}

theorem blockUsed_start : blockUsed (initializeMemoryManager mem start size) b = true ↔
    b / 8 < size / blockBytes / 8 ∨ Bitmap.bit mem start b = true := by
  change Bitmap.bit (mem.blit start (fun _ => 0xFF) (size / blockBytes / 8)) start b = true ↔ _
  rw [Bitmap.bit_eq_byte, Bitmap.bit_eq_byte]
  by_cases hset : b / 8 < size / blockBytes / 8
  · rw [blit_apply_of_mem hset]
    have hfull : ∀ j < 8, (0xFF : Nat).testBit j = true := by decide
    exact iff_of_true (hfull _ (Nat.mod_lt _ (by decide))) (.inl hset)
  · rw [blit_apply_of_not_mem (by omega)]
    exact (or_iff_right hset).symm

theorem start_count_iff :
    (initializeMemoryManager mem start size).usedBlocks =
        usedCount (initializeMemoryManager mem start size) ↔ TailSet mem start size := by
  have hcard : size / blockBytes = usedCount (initializeMemoryManager mem start size) ↔
      ∀ b ∈ Finset.range (size / blockBytes),
        blockUsed (initializeMemoryManager mem start size) b = true := by
    rw [← Finset.card_filter_eq_iff, Finset.card_range, eq_comm]
    rfl
  refine hcard.trans ⟨fun hall b hb hlast => ?_, fun htail b hb => ?_⟩
  · refine (blockUsed_start.mp (hall b (Finset.mem_range.mpr hb))).resolve_left ?_
    omega
  · rw [blockUsed_start]
    by_cases hset : b / 8 < size / blockBytes / 8
    · exact .inl hset
    · exact .inr (htail b (Finset.mem_range.mp hb) (by omega))

theorem TailSet.regionInv (htail : TailSet mem start size) :
    RegionInv size (initializeMemoryManager mem start size) := by
  refine ⟨rfl, start_count_iff.mpr htail, fun hmax => blockUsed_start.mpr ?_⟩
  by_cases hset : 0 / 8 < size / blockBytes / 8
  · exact .inl hset
  · exact .inr (htail 0 hmax (by omega))

end Start

/-- **Regions.**  From `initialize_memory_manager` on, the counter is right and every call frees
or reserves the blocks it should, exactly as long as the map began with all its blocks used and
every call fits the state it is made in. -/
theorem regions_right_iff (mem : ByteMap) (start : Nat) (size : UInt64)
    (calls : List (RegionCall size.toNat)) :
    ((initializeMemoryManager mem start size.toNat).usedBlocks =
        usedCount (initializeMemoryManager mem start size.toNat) ∧
      AtEveryStep (fun pm call => call.run pm) (fun pm call => call.Right pm)
        (initializeMemoryManager mem start size.toNat) calls) ↔
    (TailSet mem start size.toNat ∧
      AtEveryStep (fun pm call => call.run pm) (fun pm call => call.Fits pm)
        (initializeMemoryManager mem start size.toNat) calls) := by
  rw [start_count_iff]
  refine and_congr_right fun htail => ?_
  refine atEveryStep_iff (fun pm call hinv => right_iff hinv size.toNat_lt call) ?_
    htail.regionInv
  intro pm call hinv hfits
  exact hinv.run ((right_iff hinv size.toNat_lt call).mpr hfits)

/-- Half of block 1 and half of block 2, of 16 MB. -/
def straddling : Region (0x1000000 : UInt64).toNat := ⟨0x1800, 0x1000, by decide⟩

/-- Block 1 is freed for it. -/
theorem regions_not_right :
    ¬ ∀ (mem : ByteMap) (start : Nat) (size : UInt64) (calls : List (RegionCall size.toNat)),
      (initializeMemoryManager mem start size.toNat).usedBlocks =
          usedCount (initializeMemoryManager mem start size.toNat) ∧
        AtEveryStep (fun pm call => call.run pm) (fun pm call => call.Right pm)
          (initializeMemoryManager mem start size.toNat) calls := by
  intro hall
  have htail : TailSet (fun _ => 0) 0x100000 (0x1000000 : UInt64).toNat := by
    intro b hb hlast
    exact absurd hb (Nat.not_lt.mpr hlast)
  have hright := (hall (fun _ => 0) 0x100000 0x1000000 [.initializeRegion straddling]).2 []
    (.initializeRegion straddling) (List.prefix_refl _)
  rcases (right_iff htail.regionInv (by decide) _).mp hright with hcount | ⟨haligned, -⟩
  · exact absurd hcount (by decide)
  · exact absurd haligned (by decide)

end GeckoOS.Mem
