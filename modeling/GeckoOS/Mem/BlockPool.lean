/-
# What the block allocator hands out

A pool is booted over 16 MB and then only serves `allocate_blocks` and
`free_blocks`.  Its invariant ties the three things that must agree: the bits of
the map, the extents handed out and not yet freed, and the running count.

Everything turns on one fact about the scan.  The run it measures may start
inside the map and end behind it, where the bits are whatever memory holds; then
the extent leaves the pool and the marking writes past the map.  A request is
*confined* when that cannot happen: too few blocks are free for the scan to be
reached, or a long enough run lies inside the map (first fit then stops at or
before it), or no clear run passes the end of the map.
-/

import Mathlib.Data.Set.Lattice
import Mathlib.Logic.Relation
import Mathlib.Order.CompletePartialOrder
import Mathlib.Order.Interval.Finset.Nat
import Mathlib.Order.Interval.Set.Basic
import GeckoOS.Mem.PhysicalMem

namespace GeckoOS.Mem

open GeckoOS.Math ByteMap

/-- `mem_end` of `_entry`: the managed 16 MB. -/
abbrev memEnd : Nat := 0x1000000

/-- The number of set bits among the managed blocks. -/
def usedCount (pm : PhysMem) : Nat :=
  ((Finset.range pm.maxBlocks).filter fun b => blockUsed pm b).card

/-- The pool with the extents its clients hold, as address and block count. -/
structure PoolState where
  /-- The allocator. -/
  pm : PhysMem
  /-- Extents handed out and not freed since. -/
  live : List (Nat × Nat)

/-- The boot sequence of `_entry`, on arbitrary memory. -/
def PoolState.boot (mem : ByteMap) (bitmapStart freeStart : Nat) : PoolState :=
  ⟨initializeMemoryRegion (initializeMemoryManager mem bitmapStart memEnd) freeStart
    (memEnd - freeStart), []⟩

/-- What can happen to the pool next. -/
inductive PoolCall
  | allocateBlocks (numBlocks : Nat)
  | freeBlocks (address numBlocks : Nat)
  | write (mem : ByteMap)

/-- One step.  Only live extents are freed, with their own block count, and
memory changes anywhere but in the map. -/
inductive PoolStep : PoolState → PoolCall → PoolState → Prop
  | refused {s : PoolState} {n : Nat} {pm' : PhysMem}
      (hcall : allocateBlocks s.pm n = (0, pm')) :
      PoolStep s (.allocateBlocks n) { s with pm := pm' }
  | allocated {s : PoolState} {n a : Nat} {pm' : PhysMem}
      (hcall : allocateBlocks s.pm n = (a, pm')) (ha : a ≠ 0) :
      PoolStep s (.allocateBlocks n) ⟨pm', (a, n) :: s.live⟩
  | freed {s : PoolState} {a n : Nat} (hlive : (a, n) ∈ s.live) :
      PoolStep s (.freeBlocks a n) ⟨freeBlocks s.pm a n, s.live.erase (a, n)⟩
  | wrote {s : PoolState} {mem : ByteMap}
      (hmap : ∀ i < s.pm.maxBlocks / 8, mem (s.pm.memoryMap + i) = s.pm.mem (s.pm.memoryMap + i)) :
      PoolStep s (.write mem) { s with pm := { s.pm with mem := mem } }

/-- Runs all of whose steps are allowed in the state they are made in. -/
def PoolRun (allowed : PoolState → PoolCall → Prop) : PoolState → PoolState → Prop :=
  Relation.ReflTransGen fun s t => ∃ call, allowed s call ∧ PoolStep s call t

theorem PoolRun.call {allowed : PoolState → PoolCall → Prop} {s t u : PoolState} {call : PoolCall}
    (hrun : PoolRun allowed s t) (hstep : PoolStep t call u) (hallowed : allowed t call) :
    PoolRun allowed s u :=
  hrun.tail ⟨call, hallowed, hstep⟩

/-- The search for `numBlocks` blocks cannot answer with a run that passes the
end of the map. -/
def Confined (pm : PhysMem) (numBlocks : Nat) : Prop :=
  pm.maxBlocks ≤ pm.usedBlocks + numBlocks ∨
  (∃ b, b + numBlocks ≤ pm.maxBlocks ∧ RunClear pm b numBlocks) ∨
  ∀ b < pm.maxBlocks, pm.maxBlocks < b + numBlocks → ¬ RunClear pm b numBlocks

/-- Every request of the call is confined. -/
def ConfinedCall (s : PoolState) : PoolCall → Prop
  | .allocateBlocks n => Confined s.pm n
  | _ => True

/-- What the clients of the pool rely on. -/
structure PoolSound (freeStart : Nat) (s : PoolState) : Prop where
  /-- Extents are whole blocks of the pool. -/
  inside : ∀ a n, (a, n) ∈ s.live →
    blockBytes ∣ a ∧ Set.Ico a (a + blockBytes * n) ⊆ Set.Ico freeStart memEnd
  /-- Block `0` is never handed out. -/
  not_first : ∀ a n, (a, n) ∈ s.live → a / blockBytes ≠ 0
  /-- No two live extents overlap. -/
  apart : s.live.Pairwise fun x y =>
    Disjoint (Set.Ico x.1 (x.1 + blockBytes * x.2)) (Set.Ico y.1 (y.1 + blockBytes * y.2))
  /-- The counter counts the set bits. -/
  count : s.pm.usedBlocks = usedCount s.pm

/-! ## One call on the map -/

section Calls

variable {pm pm' : PhysMem} {n a b start : Nat}

/-- The pool after marking the run `start, …, start + n - 1`. -/
def markedRun (pm : PhysMem) (start n : Nat) : PhysMem :=
  { pm with
    mem := (List.range n).foldl
      (fun bytes i => Bitmap.set bytes pm.memoryMap (start + i)) pm.mem
    usedBlocks := pm.usedBlocks + n }

/-- The pool after clearing the run `start, …, start + n - 1`. -/
def clearedRun (pm : PhysMem) (start n : Nat) : PhysMem :=
  { pm with
    mem := (List.range n).foldl
      (fun bytes i => Bitmap.clear bytes pm.memoryMap (start + i)) pm.mem
    usedBlocks := pm.usedBlocks - n }

theorem blockUsed_markedRun :
    blockUsed (markedRun pm start n) b = (decide (start ≤ b ∧ b < start + n) || blockUsed pm b) :=
  Bitmap.bit_foldl_set start n

theorem blockUsed_clearedRun :
    blockUsed (clearedRun pm start n) b =
      (!decide (start ≤ b ∧ b < start + n) && blockUsed pm b) :=
  Bitmap.bit_foldl_clear start n

variable (hmax : pm.maxBlocks = 4096)

include hmax

/-- `allocate_blocks` marks the least clear run, if enough blocks are free at all. -/
theorem allocateBlocks_of_least (hpos : n ≠ 0) (hroom : pm.usedBlocks + n < 4096)
    (hstart : start < 4096) (hrun : RunClear pm start n)
    (hleast : ∀ r < start, ¬ RunClear pm r n) :
    allocateBlocks pm n = (4096 * start, markedRun pm start n) := by
  have hfind : findFirstFreeBlocks pm n = (start : Int) :=
    findFirstFreeBlocks_of_least hpos (by rw [hmax]; decide) (by omega) (by omega) hrun hleast
  have hguard : ¬ (pm.maxBlocks + 2 ^ 64 - pm.usedBlocks) % 2 ^ 64 ≤ n := by omega
  have haddress : ((start : Int) * 4096 % 2 ^ 64).toNat = 4096 * start := by omega
  have hfits : start + n ≤ 2 ^ 32 := by omega
  have hused : (pm.usedBlocks + n) % 2 ^ 64 = pm.usedBlocks + n := by omega
  simp only [allocateBlocks, wordModulus, hguard, if_false, hfind, toUint32_of_lt
    (show start < 2 ^ 32 by omega), foldl_setBlock pm hfits, hused]
  rw [if_neg (by omega)]
  exact congrArg₂ Prod.mk haddress rfl

/-- `allocate_blocks` refuses, or marks the least clear run. -/
theorem allocateBlocks_cases (hused : pm.usedBlocks ≤ 4096)
    (hcall : allocateBlocks pm n = (a, pm')) :
    (a = 0 ∧ pm' = pm) ∨
    (n ≠ 0 ∧ pm.usedBlocks + n < 4096 ∧ ∃ start < 4096, RunClear pm start n ∧
      (∀ r < start, ¬ RunClear pm r n) ∧ a = 4096 * start ∧ pm' = markedRun pm start n) := by
  by_cases hguard : (pm.maxBlocks + 2 ^ 64 - pm.usedBlocks) % 2 ^ 64 ≤ n
  · rw [allocateBlocks, if_pos hguard] at hcall
    obtain ⟨rfl, rfl⟩ := Prod.mk.inj hcall
    exact .inl ⟨rfl, rfl⟩
  by_cases hpos : n = 0
  · have hfind : findFirstFreeBlocks pm n = -1 := if_pos hpos
    simp only [allocateBlocks, wordModulus, if_neg hguard, hfind, if_true] at hcall
    obtain ⟨rfl, rfl⟩ := Prod.mk.inj hcall
    exact .inl ⟨rfl, rfl⟩
  rcases findFirstFreeBlocks_cases hpos (by rw [hmax]; decide) (by omega) with
    ⟨start, hstart, -, hrun, hleast⟩ | ⟨hfind, -⟩
  · have hroom : pm.usedBlocks + n < 4096 := by omega
    rw [hmax] at hstart
    rw [allocateBlocks_of_least hmax hpos hroom hstart hrun hleast] at hcall
    obtain ⟨rfl, rfl⟩ := Prod.mk.inj hcall
    exact .inr ⟨hpos, hroom, start, hstart, hrun, hleast, rfl, rfl⟩
  · simp only [allocateBlocks, wordModulus, if_neg hguard, hfind, if_true] at hcall
    obtain ⟨rfl, rfl⟩ := Prod.mk.inj hcall
    exact .inl ⟨rfl, rfl⟩

omit hmax in
/-- `free_blocks` of a managed run that the counter covers. -/
theorem freeBlocks_eq (hfits : start + n ≤ 4096) (hcount : n ≤ pm.usedBlocks)
    (hword : pm.usedBlocks ≤ 4096) :
    freeBlocks pm (4096 * start) n = clearedRun pm start n := by
  have hblock : 4096 * start / 4096 = start := by omega
  have hused : (pm.usedBlocks + 2 ^ 64 - n) % 2 ^ 64 = pm.usedBlocks - n := by omega
  have hword : start + n ≤ 2 ^ 32 := by omega
  simp only [freeBlocks, blockBytes, hblock, toInt32_of_lt (show start < 2 ^ 31 by omega),
    toUint32_of_lt (show start < 2 ^ 32 by omega), foldl_unsetBlock pm hword, hused, wordModulus]
  rfl

/-- A confined request is answered inside the map. -/
theorem Confined.start_add_le (hconfined : Confined pm n) (hroom : pm.usedBlocks + n < 4096)
    (hstart : start < 4096) (hrun : RunClear pm start n)
    (hleast : ∀ r < start, ¬ RunClear pm r n) : start + n ≤ 4096 := by
  rw [Confined, hmax] at hconfined
  rcases hconfined with hfull | ⟨b, hb, hclear⟩ | hnone
  · omega
  · have hle : start ≤ b := Nat.not_lt.mp fun hlt => hleast b hlt hclear
    omega
  · by_contra hpast
    exact hnone start hstart (by omega) hrun

/-- A request that is not confined is answered with a run that passes the end
of the map. -/
theorem allocateBlocks_of_not_confined (hnot : ¬ Confined pm n) :
    ∃ start < 4096, 4096 < start + n ∧
      allocateBlocks pm n = (4096 * start, markedRun pm start n) := by
  have hpos : n ≠ 0 := by
    rintro rfl
    exact hnot (.inr (.inl ⟨0, Nat.zero_le _, fun k hk => absurd hk (Nat.not_lt_zero k)⟩))
  simp only [Confined, not_or, not_exists, not_forall, not_and, not_not, hmax] at hnot
  obtain ⟨hroom, hinside, b, hb, hpast, hclear⟩ := hnot
  have hroom : pm.usedBlocks + n < 4096 := Nat.not_le.mp hroom
  rcases findFirstFreeBlocks_cases hpos (by rw [hmax]; decide) (by omega : pm.maxBlocks < 2 ^ 31)
    with ⟨start, hstart, -, hrun, hleast⟩ | ⟨-, hnone⟩
  · rw [hmax] at hstart
    refine ⟨start, hstart, ?_, allocateBlocks_of_least hmax hpos hroom hstart hrun hleast⟩
    by_contra hle
    exact hinside start (by omega) hrun
  · exact absurd hclear (hnone b (by omega))

end Calls

/-! ## The invariant -/

/-- The map, the live extents and the counter agree.  Blocks below `first` are
never part of the pool. -/
structure PoolInv (first : Nat) (pm : PhysMem) (live : List (Nat × Nat)) : Prop where
  max_eq : pm.maxBlocks = 4096
  first_pos : 0 < first
  used_iff : ∀ b < 4096, blockUsed pm b = true ↔
    b < first ∨ ∃ a n, (a, n) ∈ live ∧ a / 4096 ≤ b ∧ b < a / 4096 + n
  extent : ∀ a n, (a, n) ∈ live → 4096 ∣ a ∧ first ≤ a / 4096 ∧ a / 4096 + n ≤ 4096
  apart : live.Pairwise fun x y =>
    Disjoint (Finset.Ico (x.1 / 4096) (x.1 / 4096 + x.2))
      (Finset.Ico (y.1 / 4096) (y.1 / 4096 + y.2))
  count : pm.usedBlocks = usedCount pm

namespace PoolInv

variable {first n a start : Nat} {pm pm' : PhysMem} {live : List (Nat × Nat)}

theorem used_le (hinv : PoolInv first pm live) : pm.usedBlocks ≤ 4096 := by
  rw [hinv.count, usedCount, hinv.max_eq]
  exact (Finset.card_filter_le _ _).trans_eq (Finset.card_range 4096)

theorem usedCount_congr (hmax : pm.maxBlocks = pm'.maxBlocks)
    (hsame : ∀ b < pm.maxBlocks, blockUsed pm b = blockUsed pm' b) :
    usedCount pm = usedCount pm' := by
  rw [usedCount, usedCount, ← hmax]
  exact congrArg Finset.card
    (Finset.filter_congr fun b hb => by rw [hsame b (Finset.mem_range.mp hb)])

/-- Marking a clear run adds its length to the number of set bits. -/
theorem usedCount_markedRun (hmax : pm.maxBlocks = 4096) (hfits : start + n ≤ 4096)
    (hrun : RunClear pm start n) : usedCount (markedRun pm start n) = usedCount pm + n := by
  have hsplit : ((Finset.range 4096).filter fun b => blockUsed (markedRun pm start n) b) =
      ((Finset.range 4096).filter fun b => blockUsed pm b) ∪ Finset.Ico start (start + n) := by
    ext b
    simp only [Finset.mem_filter, Finset.mem_range, blockUsed_markedRun, Bool.or_eq_true,
      decide_eq_true_eq, Finset.mem_union, Finset.mem_Ico]
    constructor
    · rintro ⟨hb, hin | hold⟩
      · exact .inr hin
      · exact .inl ⟨hb, hold⟩
    · rintro (⟨hb, hold⟩ | hin)
      · exact ⟨hb, .inr hold⟩
      · exact ⟨by omega, .inl hin⟩
  have hapart : Disjoint ((Finset.range 4096).filter fun b => blockUsed pm b)
      (Finset.Ico start (start + n)) := by
    refine Finset.disjoint_left.mpr fun b hold hin => ?_
    obtain ⟨hlower, hupper⟩ := Finset.mem_Ico.mp hin
    have hclear := hrun (b - start) (by omega)
    rw [Nat.add_sub_cancel' hlower] at hclear
    rw [(Finset.mem_filter.mp hold).2] at hclear
    cases hclear
  change ((Finset.range pm.maxBlocks).filter _).card =
    ((Finset.range pm.maxBlocks).filter _).card + n
  rw [hmax, hsplit, Finset.card_union_of_disjoint hapart, Nat.card_Ico, Nat.add_sub_cancel_left]

/-- Clearing a set run takes its length off the number of set bits. -/
theorem usedCount_clearedRun (hmax : pm.maxBlocks = 4096) (hfits : start + n ≤ 4096)
    (hset : ∀ k < n, blockUsed pm (start + k) = true) :
    usedCount pm = usedCount (clearedRun pm start n) + n := by
  have hsplit : ((Finset.range 4096).filter fun b => blockUsed (clearedRun pm start n) b) =
      ((Finset.range 4096).filter fun b => blockUsed pm b) \ Finset.Ico start (start + n) := by
    ext b
    simp only [Finset.mem_filter, Finset.mem_range, blockUsed_clearedRun, Bool.and_eq_true,
      Bool.not_eq_true', decide_eq_false_iff_not, Finset.mem_sdiff, Finset.mem_Ico]
    exact ⟨fun h => ⟨⟨h.1, h.2.2⟩, h.2.1⟩, fun h => ⟨h.1.1, h.2, h.1.2⟩⟩
  have hsub : Finset.Ico start (start + n) ⊆
      (Finset.range 4096).filter fun b => blockUsed pm b := by
    intro b hin
    obtain ⟨hlower, hupper⟩ := Finset.mem_Ico.mp hin
    have hused := hset (b - start) (by omega)
    rw [Nat.add_sub_cancel' hlower] at hused
    exact Finset.mem_filter.mpr ⟨Finset.mem_range.mpr (by omega), hused⟩
  change ((Finset.range pm.maxBlocks).filter _).card =
    ((Finset.range pm.maxBlocks).filter _).card + n
  rw [hmax, hsplit, Finset.card_sdiff_of_subset hsub, Nat.card_Ico, Nat.add_sub_cancel_left]
  have hle := Finset.card_le_card hsub
  rw [Nat.card_Ico, Nat.add_sub_cancel_left] at hle
  omega

/-- A clear run of the map is part of no live extent. -/
theorem allocated (hinv : PoolInv first pm live) (hpos : n ≠ 0) (hfits : start + n ≤ 4096)
    (hrun : RunClear pm start n) :
    PoolInv first (markedRun pm start n) ((4096 * start, n) :: live) := by
  have hblock : 4096 * start / 4096 = start := by omega
  have hclear : ∀ b, start ≤ b → b < start + n → blockUsed pm b = false := by
    intro b hlower hupper
    have hbit := hrun (b - start) (by omega)
    rwa [Nat.add_sub_cancel' hlower] at hbit
  have hfree : ∀ b, start ≤ b → b < start + n →
      ¬ (b < first ∨ ∃ a m, (a, m) ∈ live ∧ a / 4096 ≤ b ∧ b < a / 4096 + m) := by
    intro b hlower hupper hheld
    have hused := (hinv.used_iff b (by omega)).mpr hheld
    rw [hclear b hlower hupper] at hused
    cases hused
  refine ⟨hinv.max_eq, hinv.first_pos, ?_, ?_, ?_, ?_⟩
  · intro b hb
    rw [blockUsed_markedRun, Bool.or_eq_true, decide_eq_true_eq, hinv.used_iff b hb]
    constructor
    · rintro (hin | hbelow | ⟨a, m, hlive, hin⟩)
      · exact .inr ⟨4096 * start, n, List.mem_cons_self, by rwa [hblock]⟩
      · exact .inl hbelow
      · exact .inr ⟨a, m, List.mem_cons_of_mem _ hlive, hin⟩
    · rintro (hbelow | ⟨a, m, hlive, hin⟩)
      · exact .inr (.inl hbelow)
      · rcases List.mem_cons.mp hlive with heq | hold
        · obtain ⟨rfl, rfl⟩ := Prod.mk.inj heq
          rw [hblock] at hin
          exact .inl hin
        · exact .inr (.inr ⟨a, m, hold, hin⟩)
  · intro a m hlive
    rcases List.mem_cons.mp hlive with heq | hold
    · obtain ⟨rfl, rfl⟩ := Prod.mk.inj heq
      have habove : first ≤ start :=
        Nat.not_lt.mp fun hlt => hfree start le_rfl (by omega) (.inl hlt)
      exact ⟨Nat.dvd_mul_right 4096 start, by rwa [hblock], by rwa [hblock]⟩
    · exact hinv.extent a m hold
  · refine List.pairwise_cons.mpr ⟨?_, hinv.apart⟩
    rintro ⟨a, m⟩ hold
    simp only [hblock]
    refine Finset.disjoint_left.mpr fun b hin hheld => ?_
    obtain ⟨hlower, hupper⟩ := Finset.mem_Ico.mp hin
    exact hfree b hlower hupper (.inr ⟨a, m, hold, Finset.mem_Ico.mp hheld⟩)
  · rw [usedCount_markedRun hinv.max_eq hfits hrun, ← hinv.count]
    rfl

/-- Freeing a live extent. -/
theorem freed (hinv : PoolInv first pm live) (hlive : (a, n) ∈ live) :
    PoolInv first (freeBlocks pm a n) (live.erase (a, n)) := by
  obtain ⟨hwhole, habove, hfits⟩ := hinv.extent a n hlive
  have hset : ∀ k < n, blockUsed pm (a / 4096 + k) = true := fun k hk =>
    (hinv.used_iff _ (by omega)).mpr (.inr ⟨a, n, hlive, by omega, by omega⟩)
  have hcount := usedCount_clearedRun hinv.max_eq hfits hset
  have hcovered : n ≤ pm.usedBlocks := by rw [hinv.count, hcount]; omega
  have hresult : freeBlocks pm a n = clearedRun pm (a / 4096) n := by
    conv_lhs => rw [← Nat.mul_div_cancel' hwhole]
    exact freeBlocks_eq hfits hcovered hinv.used_le
  have hperm := List.perm_cons_erase hlive
  have hothers := List.pairwise_cons.mp
    ((hperm.pairwise_iff fun happart => Disjoint.symm happart).mp hinv.apart)
  rw [hresult]
  refine ⟨hinv.max_eq, hinv.first_pos, ?_, ?_, hothers.2, ?_⟩
  · intro b hb
    rw [blockUsed_clearedRun, Bool.and_eq_true, Bool.not_eq_true', decide_eq_false_iff_not,
      hinv.used_iff b hb]
    constructor
    · rintro ⟨hout, hbelow | ⟨c, m, hheld, hin⟩⟩
      · exact .inl hbelow
      · rcases List.mem_cons.mp (hperm.mem_iff.mp hheld) with heq | hrest
        · obtain ⟨rfl, rfl⟩ := Prod.mk.inj heq
          exact absurd hin hout
        · exact .inr ⟨c, m, hrest, hin⟩
    · rintro (hbelow | ⟨c, m, hrest, hin⟩)
      · exact ⟨by omega, .inl hbelow⟩
      · refine ⟨fun hmine => ?_, .inr ⟨c, m, List.mem_of_mem_erase hrest, hin⟩⟩
        exact Finset.disjoint_left.mp (hothers.1 (c, m) hrest) (Finset.mem_Ico.mpr hmine)
          (Finset.mem_Ico.mpr hin)
  · exact fun c m hrest => hinv.extent c m (List.mem_of_mem_erase hrest)
  · have hnow : (clearedRun pm (a / 4096) n).usedBlocks = pm.usedBlocks - n := rfl
    rw [hnow, hinv.count, hcount, Nat.add_sub_cancel]

/-- Memory outside the map does not matter. -/
theorem wrote {mem : ByteMap} (hinv : PoolInv first pm live)
    (hmap : ∀ i < pm.maxBlocks / 8, mem (pm.memoryMap + i) = pm.mem (pm.memoryMap + i)) :
    PoolInv first { pm with mem := mem } live := by
  rw [hinv.max_eq] at hmap
  have hbit : ∀ b < 4096, blockUsed { pm with mem := mem } b = blockUsed pm b := by
    intro b hb
    apply Bitmap.bit_congr
    intro i hi
    rw [Nat.add_assoc]
    exact hmap (4 * (b / 32) + i) (by omega)
  refine ⟨hinv.max_eq, hinv.first_pos, fun b hb => ?_, hinv.extent, hinv.apart, ?_⟩
  · rw [hbit b hb]
    exact hinv.used_iff b hb
  · have hcount : usedCount pm = usedCount { pm with mem := mem } :=
      usedCount_congr rfl fun b hb => (hbit b (by rwa [← hinv.max_eq])).symm
    exact hinv.count.trans hcount

/-! ## Boot -/

/-- The map starts out full. -/
theorem blockUsed_initializeMemoryManager {mem : ByteMap} {bitmapStart b : Nat} (hb : b < 4096) :
    blockUsed (initializeMemoryManager mem bitmapStart memEnd) b = true := by
  have hword : mapWord (initializeMemoryManager mem bitmapStart memEnd) (b / 32) = 0xFFFFFFFF := by
    have hbytes : memEnd / blockBytes / 8 = 512 := rfl
    simp only [mapWord, Bitmap.word, initializeMemoryManager, hbytes]
    rw [load_blit_inside (by omega)]
    simp [load]
  change (mapWord _ (b / 32)).testBit (b % 32) = true
  rw [hword]
  exact Bitmap.testBit_full (Nat.mod_lt _ (by decide))

/-- What boot leaves: the pool's bits clear and the counter at the rest. -/
theorem boot_eq {mem : ByteMap} {bitmapStart freeStart : Nat} (hend : freeStart ≤ memEnd)
    (hwhole : 4096 ∣ freeStart) :
    (PoolState.boot mem bitmapStart freeStart).pm =
      setBlock (clearedRun (initializeMemoryManager mem bitmapStart memEnd) (freeStart / 4096)
        (4096 - freeStart / 4096)) 0 := by
  simp only [memEnd] at hend
  have hcount : (memEnd - freeStart) / blockBytes = 4096 - freeStart / 4096 := by
    simp only [memEnd, blockBytes]
    omega
  have hused : (initializeMemoryManager mem bitmapStart memEnd).usedBlocks = 4096 := rfl
  simp only [PoolState.boot, initializeMemoryRegion, hcount, blockBytes, wordModulus]
  rw [foldl_unsetBlock_count _ (by omega) (by omega) (by omega)]
  rfl

section Boot

variable {mem : ByteMap} {bitmapStart freeStart b : Nat} (hwhole : 4096 ∣ freeStart)
  (hpos : 0 < freeStart) (hend : freeStart ≤ memEnd)

include hwhole hpos hend

theorem blockUsed_boot (hb : b < 4096) :
    blockUsed (PoolState.boot mem bitmapStart freeStart).pm b = decide (b < freeStart / 4096) := by
  have hfirst : 0 < freeStart / 4096 := Nat.div_pos (Nat.le_of_dvd hpos hwhole) (by decide)
  rw [boot_eq hend hwhole, blockUsed_setBlock, blockUsed_clearedRun,
    blockUsed_initializeMemoryManager hb, Bool.and_true]
  by_cases hbelow : b < freeStart / 4096
  · have hout : ¬ (freeStart / 4096 ≤ b ∧ b < freeStart / 4096 + (4096 - freeStart / 4096)) :=
      fun hin => Nat.not_le.mpr hbelow hin.1
    simp [hbelow, hout]
  · have hin : freeStart / 4096 ≤ b ∧ b < freeStart / 4096 + (4096 - freeStart / 4096) := by
      omega
    have hne : b ≠ 0 := by omega
    simp [hbelow, hin, hne]

omit hpos in
/-- Past the map, the bits are what memory held. -/
theorem blockUsed_boot_past (hb : 4096 ≤ b) :
    blockUsed (PoolState.boot mem bitmapStart freeStart).pm b = Bitmap.bit mem bitmapStart b := by
  have hlast : freeStart / 4096 ≤ 4096 := Nat.div_le_of_le_mul hend
  have hout : ¬ (freeStart / 4096 ≤ b ∧ b < freeStart / 4096 + (4096 - freeStart / 4096)) := by
    omega
  have hne : b ≠ 0 := by omega
  rw [boot_eq hend hwhole, blockUsed_setBlock, blockUsed_clearedRun]
  simp only [hne, hout, decide_false, Bool.not_false, Bool.false_or, Bool.true_and]
  have hbytes : memEnd / blockBytes / 8 = 512 := rfl
  apply Bitmap.bit_congr
  intro i hi
  simp only [initializeMemoryManager, hbytes]
  exact blit_apply_of_not_mem (by omega)

omit hpos in
theorem boot_maxBlocks : (PoolState.boot mem bitmapStart freeStart).pm.maxBlocks = 4096 := by
  rw [boot_eq hend hwhole]
  rfl

omit hpos in
theorem boot_usedBlocks :
    (PoolState.boot mem bitmapStart freeStart).pm.usedBlocks = freeStart / 4096 := by
  have hlast : freeStart / 4096 ≤ 4096 := Nat.div_le_of_le_mul hend
  rw [boot_eq hend hwhole]
  change 4096 - (4096 - freeStart / 4096) = freeStart / 4096
  exact Nat.sub_sub_self hlast

theorem boot : PoolInv (freeStart / 4096) (PoolState.boot mem bitmapStart freeStart).pm [] := by
  have hfirst : 0 < freeStart / 4096 := Nat.div_pos (Nat.le_of_dvd hpos hwhole) (by decide)
  have hlast : freeStart / 4096 ≤ 4096 := Nat.div_le_of_le_mul hend
  have hmax : (PoolState.boot mem bitmapStart freeStart).pm.maxBlocks = 4096 :=
    boot_maxBlocks hwhole hend
  refine ⟨hmax, hfirst, fun b hb => ?_, nofun, .nil, ?_⟩
  · rw [blockUsed_boot hwhole hpos hend hb, decide_eq_true_eq]
    exact ⟨.inl, fun hheld => hheld.resolve_right nofun⟩
  · have hset : ((Finset.range 4096).filter fun b =>
        blockUsed (PoolState.boot mem bitmapStart freeStart).pm b) =
          Finset.range (freeStart / 4096) := by
      ext b
      simp only [Finset.mem_filter, Finset.mem_range]
      constructor
      · rintro ⟨hb, hused⟩
        rw [blockUsed_boot hwhole hpos hend hb] at hused
        exact of_decide_eq_true hused
      · intro hb
        have hlt : b < 4096 := by omega
        exact ⟨hlt, by rw [blockUsed_boot hwhole hpos hend hlt]; exact decide_eq_true hb⟩
    rw [usedCount, hmax, hset, Finset.card_range, boot_usedBlocks hwhole hend]

/-- The first request gets the start of the pool. -/
theorem boot_allocateBlocks {n : Nat} (hn : n ≠ 0) (hroom : freeStart / 4096 + n < 4096) :
    allocateBlocks (PoolState.boot mem bitmapStart freeStart).pm n =
      (freeStart, markedRun (PoolState.boot mem bitmapStart freeStart).pm
        (freeStart / 4096) n) := by
  rw [show (freeStart, markedRun (PoolState.boot mem bitmapStart freeStart).pm
      (freeStart / 4096) n) = (4096 * (freeStart / 4096), _) by rw [Nat.mul_div_cancel' hwhole]]
  refine allocateBlocks_of_least (boot_maxBlocks hwhole hend) hn
    (by rwa [boot_usedBlocks hwhole hend]) (by omega) ?_ ?_
  · intro k hk
    rw [blockUsed_boot hwhole hpos hend (by omega)]
    exact decide_eq_false (by omega)
  · intro r hr hrun
    have hclear := hrun 0 (Nat.pos_of_ne_zero hn)
    rw [Nat.add_zero, blockUsed_boot hwhole hpos hend (by omega), decide_eq_true hr] at hclear
    cases hclear

end Boot

/-! ## Runs -/

/-- Every confined step keeps the invariant. -/
theorem step {s t : PoolState} {call : PoolCall} (hinv : PoolInv first s.pm s.live)
    (hconfined : ConfinedCall s call) (hstep : PoolStep s call t) :
    PoolInv first t.pm t.live := by
  cases hstep with
  | refused hcall =>
      rcases allocateBlocks_cases hinv.max_eq hinv.used_le hcall with
        ⟨-, rfl⟩ | ⟨hpos, hroom, start, hstart, hrun, hleast, hzero, -⟩
      · exact hinv
      · -- Block `0` is used, so no clear run starts there.
        obtain rfl : start = 0 := by omega
        have hused := (hinv.used_iff 0 (by omega)).mpr (.inl hinv.first_pos)
        have hclear := hrun 0 (Nat.pos_of_ne_zero hpos)
        rw [Nat.add_zero, hused] at hclear
        cases hclear
  | allocated hcall ha =>
      rcases allocateBlocks_cases hinv.max_eq hinv.used_le hcall with
        ⟨hnull, -⟩ | ⟨hpos, hroom, start, hstart, hrun, hleast, rfl, rfl⟩
      · exact absurd hnull ha
      · have hfits := Confined.start_add_le hinv.max_eq hconfined hroom hstart hrun hleast
        exact hinv.allocated hpos hfits hrun
  | freed hlive => exact hinv.freed hlive
  | wrote hmap => exact hinv.wrote hmap

theorem of_run {mem : ByteMap} {bitmapStart freeStart : Nat} {s : PoolState}
    (hwhole : 4096 ∣ freeStart) (hpos : 0 < freeStart) (hend : freeStart ≤ memEnd)
    (hrun : PoolRun ConfinedCall (PoolState.boot mem bitmapStart freeStart) s) :
    PoolInv (freeStart / 4096) s.pm s.live := by
  induction hrun with
  | refl => exact boot hwhole hpos hend
  | tail _ hnext ih =>
      obtain ⟨call, hconfined, hstep⟩ := hnext
      exact ih.step hconfined hstep

/-- The invariant in terms of bytes. -/
theorem sound {s : PoolState} {freeStart : Nat} (hwhole : 4096 ∣ freeStart)
    (hinv : PoolInv (freeStart / 4096) s.pm s.live) : PoolSound freeStart s := by
  refine ⟨fun a n hlive => ?_, fun a n hlive hzero => ?_, ?_, hinv.count⟩
  · obtain ⟨hblock, habove, hfits⟩ := hinv.extent a n hlive
    refine ⟨hblock, ?_⟩
    rintro p ⟨hlower, hupper⟩
    simp only [blockBytes] at hupper
    simp only [memEnd, Set.mem_Ico]
    omega
  · obtain ⟨-, habove, -⟩ := hinv.extent a n hlive
    have hfirst := hinv.first_pos
    simp only [blockBytes] at hzero
    omega
  · refine hinv.apart.imp_of_mem ?_
    rintro ⟨a, n⟩ ⟨c, m⟩ ha hc happart
    obtain ⟨⟨start, rfl⟩, -⟩ := hinv.extent a n ha
    obtain ⟨⟨start', rfl⟩, -⟩ := hinv.extent c m hc
    refine Set.disjoint_left.mpr ?_
    rintro p ⟨hlower, hupper⟩ ⟨hlower', hupper'⟩
    simp only [blockBytes] at hupper hupper'
    -- The two extents would share the block of `p`.
    have hmine : p / 4096 ∈ Finset.Ico (4096 * start / 4096) (4096 * start / 4096 + n) := by
      rw [Finset.mem_Ico]
      omega
    have hother : p / 4096 ∈ Finset.Ico (4096 * start' / 4096) (4096 * start' / 4096 + m) := by
      rw [Finset.mem_Ico]
      omega
    exact Finset.disjoint_left.mp happart hmine hother

/-- A request that is not confined breaks the pool. -/
theorem not_sound_of_not_confined {s t : PoolState} {freeStart n : Nat}
    (hinv : PoolInv first s.pm s.live) (hnot : ¬ Confined s.pm n)
    (hstep : PoolStep s (.allocateBlocks n) t) : ¬ PoolSound freeStart t := by
  intro hsound
  obtain ⟨start, hstart, hpast, hanswer⟩ := allocateBlocks_of_not_confined hinv.max_eq hnot
  cases hstep with
  | refused hcall =>
      -- Block `0` is used, so the run found does not start there.
      rw [hanswer] at hcall
      obtain rfl : start = 0 := by
        have hzero := (Prod.mk.inj hcall).1
        omega
      have hroom : n < 4096 := by
        have hfull := (not_or.mp hnot).1
        rw [hinv.max_eq] at hfull
        omega
      omega
  | allocated hcall ha =>
      rw [hanswer] at hcall
      obtain ⟨rfl, -⟩ := Prod.mk.inj hcall
      have hinside := (hsound.inside _ n List.mem_cons_self).2
      have hlast : (memEnd : Nat) ∈ Set.Ico (4096 * start) (4096 * start + blockBytes * n) := by
        simp only [Set.mem_Ico, memEnd, blockBytes]
        omega
      exact Nat.lt_irrefl _ (hinside hlast).2

end PoolInv

/-- **Pool soundness.**  While every request is confined, every extent handed out
lies inside the pool, no two live extents overlap, block `0` stays reserved, and
the counter counts the set bits. -/
theorem pool_sound_of_confined {mem : ByteMap} {bitmapStart freeStart : Nat} {s : PoolState}
    (hwhole : blockBytes ∣ freeStart) (hpos : 0 < freeStart) (hend : freeStart ≤ memEnd)
    (hrun : PoolRun ConfinedCall (PoolState.boot mem bitmapStart freeStart) s) :
    PoolSound freeStart s :=
  (PoolInv.of_run hwhole hpos hend hrun).sound hwhole

/-! ## A pool of five blocks at the top of memory -/

section TopOfMemory

/-- Boot with blocks `4091` to `4095` free, on zeroed memory. -/
def topPool : PoolState := PoolState.boot (fun _ => 0) 0x200000 0xFFB000

theorem topPool_blockUsed {b : Nat} (hb : b ≤ 4096) :
    blockUsed topPool.pm b = decide (b < 4091) := by
  rcases Nat.lt_or_eq_of_le hb with hlt | rfl
  · exact PoolInv.blockUsed_boot (by decide) (by decide) (by decide) hlt
  · exact PoolInv.blockUsed_boot_past (by decide) (by decide) le_rfl

theorem topPool_allocateBlocks :
    allocateBlocks topPool.pm 2 = (0xFFB000, markedRun topPool.pm 4091 2) :=
  PoolInv.boot_allocateBlocks (by decide) (by decide) (by decide) (by decide) (by decide)

/-- Handing out the first two blocks of it. -/
theorem pool_sound_topPool :
    PoolSound 0xFFB000 ⟨markedRun topPool.pm 4091 2, [(0xFFB000, 2)]⟩ := by
  have hconfined : ConfinedCall topPool (.allocateBlocks 2) := by
    refine .inr (.inl ⟨4091, by decide, fun k hk => ?_⟩)
    rw [topPool_blockUsed (by omega)]
    exact decide_eq_false (by omega)
  have hstep : PoolStep topPool (.allocateBlocks 2)
      ⟨markedRun topPool.pm 4091 2, [(0xFFB000, 2)]⟩ :=
    .allocated topPool_allocateBlocks (by decide)
  exact pool_sound_of_confined (by decide) (by decide) (by decide)
    (PoolRun.call .refl hstep hconfined)

/-- Allocate two blocks and one, free the two: blocks `4091`, `4092`, `4094` and
`4095` are free, and a request for three is answered across the end of memory. -/
theorem pool_not_sound_at_end :
    ¬ ∀ s, PoolRun (fun _ _ => True) topPool s → PoolSound 0xFFB000 s := by
  intro hall
  have hmax : topPool.pm.maxBlocks = 4096 := PoolInv.boot_maxBlocks (by decide) (by decide)
  have hused : topPool.pm.usedBlocks = 4091 := PoolInv.boot_usedBlocks (by decide) (by decide)
  let second := markedRun (markedRun topPool.pm 4091 2) 4093 1
  let third := clearedRun second 4091 2
  have hbitFirst : ∀ b ≤ 4096, blockUsed (markedRun topPool.pm 4091 2) b = decide (b < 4093) := by
    intro b hb
    rw [blockUsed_markedRun, topPool_blockUsed hb, ← Bool.decide_or]
    exact decide_eq_decide.mpr (by omega)
  have hbitThird : ∀ b ≤ 4096, blockUsed third b = decide (b < 4091 ∨ b = 4093) := by
    intro b hb
    rw [blockUsed_clearedRun, blockUsed_markedRun, hbitFirst b hb, ← Bool.decide_or,
      ← decide_not, ← Bool.decide_and]
    exact decide_eq_decide.mpr (by omega)
  have hsecond : allocateBlocks (markedRun topPool.pm 4091 2) 1 = (4096 * 4093, second) := by
    refine allocateBlocks_of_least hmax (by decide) ?_ (by decide) ?_ ?_
    · change topPool.pm.usedBlocks + 2 + 1 < 4096
      omega
    · intro k hk
      rw [hbitFirst _ (by omega)]
      exact decide_eq_false (by omega)
    · intro r hr hrun
      have hclear := hrun 0 (by decide)
      rw [hbitFirst _ (by omega), decide_eq_false_iff_not] at hclear
      omega
  have hthird : freeBlocks second 0xFFB000 2 = third := by
    have hcount : second.usedBlocks = 4094 := by
      change topPool.pm.usedBlocks + 2 + 1 = 4094
      omega
    change freeBlocks second (4096 * 4091) 2 = third
    exact freeBlocks_eq (by decide) (by omega) (by omega)
  have hfourth : allocateBlocks third 3 = (4096 * 4094, markedRun third 4094 3) := by
    refine allocateBlocks_of_least hmax (by decide) ?_ (by decide) ?_ ?_
    · change topPool.pm.usedBlocks + 2 + 1 - 2 + 3 < 4096
      omega
    · intro k hk
      rw [hbitThird _ (by omega)]
      exact decide_eq_false (by omega)
    · intro r hr hrun
      -- The run from `r` would cover a used block, `4093` when `r` lies just below it.
      by_cases hlow : r < 4091
      · have hclear := hrun 0 (by decide)
        rw [hbitThird _ (by omega), decide_eq_false_iff_not] at hclear
        omega
      · have hclear := hrun (4093 - r) (by omega)
        rw [hbitThird _ (by omega), decide_eq_false_iff_not] at hclear
        omega
  have hfirstRun : PoolRun (fun _ _ => True) topPool
      ⟨markedRun topPool.pm 4091 2, [(0xFFB000, 2)]⟩ :=
    PoolRun.call .refl (.allocated topPool_allocateBlocks (by decide)) trivial
  have hsecondRun := hfirstRun.call (.allocated hsecond (by decide)) trivial
  have hthirdRun := hsecondRun.call
    (.freed (List.mem_cons_of_mem _ List.mem_cons_self)) trivial
  rw [hthird] at hthirdRun
  have hfourthRun := hthirdRun.call (.allocated hfourth (by decide)) trivial
  have hinside := ((hall _ hfourthRun).inside _ 3 List.mem_cons_self).2
  have hlast : (memEnd : Nat) ∈ Set.Ico (4096 * 4094) (4096 * 4094 + blockBytes * 3) := by
    simp only [Set.mem_Ico, memEnd, blockBytes]
    omega
  exact Nat.lt_irrefl _ (hinside hlast).2

end TopOfMemory

end GeckoOS.Mem
