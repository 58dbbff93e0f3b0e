/-
# When an allocation fails

`allocate_blocks` ought to fail exactly when the map has no run of as many free blocks as it
is asked for.  It decides by two filters.  The counter has to show more free blocks than are
asked for, and so the last free blocks are never handed out.  Then the scan has to find a run,
and what it finds is the first fit, which may pass the end of the map.

The number of the block is returned as a signed word, with -1 for no block, and the address as
a pointer, with 0 for none.  Block 0 therefore looks like a failure, and so do the blocks whose
number is 0 or -1 modulo the word.
-/

import GeckoOS.Mem.BlockPool

namespace GeckoOS.Mem

open GeckoOS.Math

variable {pm : PhysMem} {n s : Nat}

/-- The managed part of the map has a run of `n` consecutive free blocks. -/
def ManagedRun (pm : PhysMem) (n : Nat) : Prop :=
  ∃ s, s + n ≤ pm.maxBlocks ∧ RunClear pm s n

/-- The block is returned as no block, or its address as the null pointer. -/
def NullStart (s : Nat) : Prop := s % 2 ^ 32 = 0 ∨ s % 2 ^ 32 = 2 ^ 32 - 1

/-- Exactly the blocks asked for are free.  Or more are, and the first fit passes the end of the
map, or else it starts with a block that cannot be returned. -/
def Misjudged (pm : PhysMem) (n : Nat) : Prop :=
  (pm.maxBlocks = usedCount pm + n ∧ ManagedRun pm n) ∨
    (usedCount pm + n < pm.maxBlocks ∧
      ∃ s, FirstFit pm n s ∧ (s + n ≤ pm.maxBlocks ↔ NullStart s))

/-- A clear run is apart from the used blocks. -/
theorem RunClear.card_le (hrun : RunClear pm s n) (hfits : s + n ≤ pm.maxBlocks) :
    usedCount pm + n ≤ pm.maxBlocks := by
  have hapart : Disjoint ((Finset.range pm.maxBlocks).filter fun b => blockUsed pm b)
      (Finset.Ico s (s + n)) := by
    refine Finset.disjoint_left.mpr fun b hused hin => ?_
    obtain ⟨hlower, hupper⟩ := Finset.mem_Ico.mp hin
    have hclear := hrun (b - s) (by omega)
    rw [Nat.add_sub_cancel' hlower, (Finset.mem_filter.mp hused).2] at hclear
    cases hclear
  have hsubset : ((Finset.range pm.maxBlocks).filter fun b => blockUsed pm b) ∪
      Finset.Ico s (s + n) ⊆ Finset.range pm.maxBlocks := by
    refine Finset.union_subset (Finset.filter_subset _ _) fun b hin => ?_
    rw [Finset.mem_Ico] at hin
    rw [Finset.mem_range]
    omega
  have hle := Finset.card_le_card hsubset
  rw [Finset.card_union_of_disjoint hapart, Nat.card_Ico, Finset.card_range,
    Nat.add_sub_cancel_left] at hle
  exact hle

/-- A managed run makes the first fit managed. -/
theorem FirstFit.managedRun_iff (hfit : FirstFit pm n s) :
    ManagedRun pm n ↔ s + n ≤ pm.maxBlocks := by
  constructor
  · rintro ⟨b, hb, hrun⟩
    have hle : s ≤ b := Nat.not_lt.mp fun hlt => hfit.2.2 b hlt hrun
    omega
  · exact fun hfits => ⟨s, hfits, hfit.2.1⟩

/-- There is only one first fit. -/
theorem FirstFit.forall_iff {p : Nat → Prop} (hfit : FirstFit pm n s) :
    (∀ t, FirstFit pm n t → p t) ↔ p s := by
  refine ⟨fun hall => hall s hfit, fun hs t ht => ?_⟩
  rcases Nat.lt_trichotomy t s with hlt | rfl | hgt
  · exact absurd ht.2.1 (hfit.2.2 t hlt)
  · exact hs
  · exact absurd hfit.2.1 (ht.2.2 s hgt)

theorem toInt32_eq_neg_one : toInt32 s = -1 ↔ s % 2 ^ 32 = 2 ^ 32 - 1 := by
  by_cases hsmall : s % 2 ^ 32 < 2 ^ 31
  · rw [toInt32, if_pos hsmall]
    omega
  · rw [toInt32, if_neg hsmall]
    omega

theorem toInt32_address_eq_zero :
    (toInt32 s * blockBytes % wordModulus).toNat = 0 ↔ s % 2 ^ 32 = 0 := by
  rw [blockBytes, wordModulus]
  by_cases hsmall : s % 2 ^ 32 < 2 ^ 31
  · rw [toInt32, if_pos hsmall]
    omega
  · rw [toInt32, if_neg hsmall]
    omega

theorem usedCount_le (pm : PhysMem) : usedCount pm ≤ pm.maxBlocks :=
  (Finset.card_filter_le _ _).trans_eq (Finset.card_range _)

/-! ## The two filters -/

variable (hmap : 32 ∣ pm.maxBlocks) (hcount : pm.usedBlocks = usedCount pm)
  (hword : pm.maxBlocks < wordModulus) (hpos : 0 < n)

include hcount hword

/-- The counter lets a request pass that leaves a block free. -/
theorem guard_iff :
    (pm.maxBlocks + wordModulus - pm.usedBlocks) % wordModulus ≤ n ↔
      pm.maxBlocks ≤ usedCount pm + n := by
  have hle := usedCount_le pm
  rw [hcount]
  simp only [wordModulus] at *
  omega

include hmap hpos

/-- What the two filters let pass. -/
theorem allocateBlocks_eq_null_iff :
    (allocateBlocks pm n).1 = 0 ↔
      pm.maxBlocks ≤ usedCount pm + n ∨ ∀ s, FirstFit pm n s → NullStart s := by
  by_cases hguard : pm.maxBlocks ≤ usedCount pm + n
  · rw [allocateBlocks, if_pos ((guard_iff hcount hword).mpr hguard)]
    exact iff_of_true rfl (.inl hguard)
  rw [or_iff_right hguard, allocateBlocks, if_neg fun h => hguard ((guard_iff hcount hword).mp h)]
  rcases findFirstFreeBlocks_spec (Nat.ne_of_gt hpos) hmap with ⟨s, hfit, hfind⟩ | ⟨hfind, hnone⟩
  · rw [hfit.forall_iff, hfind, NullStart]
    by_cases hlast : toInt32 s = -1
    · simp only [hlast, if_true]
      exact iff_of_true trivial (.inr (toInt32_eq_neg_one.mp hlast))
    · simp only [hlast, if_false]
      rw [toInt32_address_eq_zero]
      exact ⟨.inl, fun h => h.resolve_right fun hnot => hlast (toInt32_eq_neg_one.mpr hnot)⟩
  · simp only [hfind, if_true]
    exact iff_of_true trivial fun s hfit => absurd hfit.2.1 (hnone s hfit.1)

omit hcount hword in
/-- There is a first fit if there is a run at all. -/
theorem exists_firstFit (hrun : ManagedRun pm n) : ∃ s, FirstFit pm n s := by
  obtain ⟨b, hb, hclear⟩ := hrun
  rcases findFirstFreeBlocks_spec (Nat.ne_of_gt hpos) hmap with ⟨s, hfit, -⟩ | ⟨-, hnone⟩
  · exact ⟨s, hfit⟩
  · exact absurd hclear (hnone b (by omega))

omit hmap hcount hword hpos

/-- **Failure.**  On any map with a right counter, `allocate_blocks` fails exactly when there is
no run of free blocks, exactly for the requests that are not misjudged. -/
theorem allocateBlocks_fails_iff (hmap : 32 ∣ pm.maxBlocks) (hcount : pm.usedBlocks = usedCount pm)
    (hword : pm.maxBlocks < wordModulus) (hpos : 0 < n) :
    ((allocateBlocks pm n).1 = 0 ↔ ¬ ManagedRun pm n) ↔ ¬ Misjudged pm n := by
  rw [allocateBlocks_eq_null_iff hmap hcount hword hpos, Misjudged]
  rcases Nat.lt_trichotomy pm.maxBlocks (usedCount pm + n) with hfew | hexact | hmany
  · -- Too few blocks are free for a run, and the counter says so.
    have hnone : ¬ ManagedRun pm n := by
      rintro ⟨s, hfits, hrun⟩
      exact absurd (hrun.card_le hfits) (Nat.not_le.mpr hfew)
    refine iff_of_true (iff_of_true (.inl hfew.le) hnone) ?_
    rintro (⟨-, hrun⟩ | ⟨hroom, -⟩)
    · exact hnone hrun
    · omega
  · -- The counter refuses, run or not.
    have hlast : ¬ (usedCount pm + n < pm.maxBlocks ∧
        ∃ s, FirstFit pm n s ∧ (s + n ≤ pm.maxBlocks ↔ NullStart s)) := fun h => by omega
    rw [or_iff_left hlast, and_iff_right hexact]
    exact iff_true_left (Or.inl hexact.le)
  · rw [or_iff_right (Nat.not_le.mpr hmany), or_iff_right fun h => absurd h.1 (by omega),
      and_iff_right hmany]
    by_cases hfound : ∃ s, FirstFit pm n s
    · obtain ⟨s, hfit⟩ := hfound
      have hexists : (∃ t, FirstFit pm n t ∧ (t + n ≤ pm.maxBlocks ↔ NullStart t)) ↔
          (s + n ≤ pm.maxBlocks ↔ NullStart s) := by
        rw [← not_iff_not]
        push Not
        exact hfit.forall_iff
      rw [hfit.forall_iff, hfit.managedRun_iff, hexists, not_iff]
      exact ⟨Iff.symm, Iff.symm⟩
    · have hnone : ¬ ManagedRun pm n := fun hrun => hfound (exists_firstFit hmap hpos hrun)
      refine iff_of_true (iff_of_true (fun s hfit => absurd ⟨s, hfit⟩ hfound) hnone) ?_
      rintro ⟨s, hfit, -⟩
      exact hfound ⟨s, hfit⟩

/-! ## Five blocks at the top of memory -/

theorem topPool_maxBlocks : topPool.pm.maxBlocks = 4096 :=
  PoolInv.boot_maxBlocks (by decide) (by decide)

theorem topPool_count : topPool.pm.usedBlocks = usedCount topPool.pm :=
  (PoolInv.boot (by decide) (by decide) (by decide)).count

/-- Two of them. -/
theorem allocateBlocks_fails_iff_topPool :
    ((allocateBlocks topPool.pm 2).1 = 0 ↔ ¬ ManagedRun topPool.pm 2) ↔
      ¬ Misjudged topPool.pm 2 :=
  allocateBlocks_fails_iff (by rw [topPool_maxBlocks]; decide) topPool_count
    (by rw [topPool_maxBlocks]; decide) (by decide)

/-- The five of them are refused. -/
theorem allocateBlocks_refuses_last :
    ¬ ∀ s, PoolRun (fun _ _ => True) topPool s → 32 ∣ s.pm.maxBlocks →
      s.pm.usedBlocks = usedCount s.pm → ∀ n, 0 < n →
        ((allocateBlocks s.pm n).1 = 0 ↔ ¬ ManagedRun s.pm n) := by
  intro hall
  have hfails := hall topPool .refl (by rw [topPool_maxBlocks]; decide) topPool_count 5 (by decide)
  have hused : topPool.pm.usedBlocks = 4091 := PoolInv.boot_usedBlocks (by decide) (by decide)
  have hnull : (allocateBlocks topPool.pm 5).1 = 0 := by
    rw [allocateBlocks, if_pos (by rw [topPool_maxBlocks, hused]; decide)]
  refine hfails.mp hnull ⟨4091, by rw [topPool_maxBlocks], fun k hk => ?_⟩
  rw [topPool_blockUsed (by omega)]
  exact decide_eq_false (by omega)

end GeckoOS.Mem
