/-
# The entries of the FAT

A FAT entry is a 32-bit number; its low 28 bits are the link and its top four bits
are reserved.  `fat32_write_fat` and `fat32_alloc_cluster` both change one entry,
keep its reserved bits and then copy the whole sector to the second FAT, so each is
described by the number it puts into one entry.

No more is asked of a volume here than that the copies of the FAT the driver works
in have 32-bit sector numbers.
-/

import GeckoOS.Fs.Table
import Mathlib.Data.Finset.Card
import Mathlib.Data.Finset.Range

namespace GeckoOS.Fs

open GeckoOS.Math ByteMap

/-! ## The number an entry is merged to -/

/-- The reserved bits of an entry are kept. -/
theorem mergeEntry_div (existing value : Nat) :
    mergeEntry existing value / 2 ^ 28 = existing / 2 ^ 28 % 16 := by
  have hlink : (value &&& clusterMask) >>> 28 = 0 := by
    rw [Nat.shiftRight_and_distrib, show clusterMask >>> 28 = 0 by decide, Nat.and_zero]
  have hreserved : (existing &&& 0xF0000000) >>> 28 = existing / 2 ^ 28 % 16 := by
    rw [Nat.shiftRight_and_distrib, Nat.shiftRight_eq_div_pow]
    exact Nat.and_two_pow_sub_one_eq_mod _ 4
  rw [← Nat.shiftRight_eq_div_pow, mergeEntry, Nat.shiftRight_or_distrib, hlink, hreserved,
    Nat.or_zero]

theorem mergeEntry_lt (existing value : Nat) : mergeEntry existing value < 2 ^ 32 := by
  have hdiv := mergeEntry_div existing value
  omega

namespace Volume

variable {v : Volume} {b : ByteMap} {i j value start : Nat}

/-- The copies of the FAT the driver works in have 32-bit sector numbers. -/
def TableFits (v : Volume) : Prop :=
  v.fatLba + v.sectorsPerFat + (if 1 < v.numFats then v.sectorsPerFat else 0) ≤ 2 ^ 32

/-- The number of FAT entries. -/
def tableEntries (v : Volume) : Nat := v.sectorsPerFat * 128

/-- Where entry `i` is in the first FAT. -/
def entryPos (v : Volume) (i : Nat) : Nat := v.fatLba * 512 + 4 * i

/-- The 32 bits of entry `i`. -/
def entry (v : Volume) (b : ByteMap) (i : Nat) : Nat := b.load (v.entryPos i) 4

/-- The 28 bits of entry `i` the driver follows. -/
def link (v : Volume) (b : ByteMap) (i : Nat) : Nat := v.entry b i % 2 ^ 28

/-- Sector `s` of the first FAT copied to the second, where there is one. -/
def mirror (v : Volume) (b : ByteMap) (s : Nat) : ByteMap :=
  if 1 < v.numFats then
    b.blit ((v.fatLba + v.sectorsPerFat + s) * 512) (fun i => b ((v.fatLba + s) * 512 + i)) 512
  else b

/-- The link of entry `i` set to `value`, and its sector mirrored. -/
def putEntry (v : Volume) (b : ByteMap) (i value : Nat) : ByteMap :=
  v.mirror (b.store (v.entryPos i) 4 (mergeEntry (v.entry b i) value)) (i / 128)

theorem entry_lt : v.entry b i < 2 ^ 32 := load_lt

/-- The copy behind the first FAT shows in none of its entries. -/
theorem entry_mirror (hi : i < v.tableEntries) (s : Nat) :
    v.entry (v.mirror b s) i = v.entry b i := by
  rw [mirror]
  split
  · apply load_blit_disjoint
    rw [tableEntries] at hi
    rw [entryPos]
    omega
  · rfl

theorem entry_putEntry (hj : j < v.tableEntries) :
    v.entry (v.putEntry b i value) j =
      if j = i then mergeEntry (v.entry b i) value else v.entry b j := by
  rw [putEntry, entry_mirror hj, entry]
  split_ifs with hsame
  · subst hsame
    rw [load_store_same]
    exact Nat.mod_eq_of_lt (mergeEntry_lt _ _)
  · apply load_store_disjoint
    rw [entryPos, entryPos]
    omega

theorem link_putEntry (hj : j < v.tableEntries) :
    v.link (v.putEntry b i value) j = if j = i then value % 2 ^ 28 else v.link b j := by
  rw [link, entry_putEntry hj]
  split_ifs
  · exact Geometry.mergeEntry_mod _ _
  · rfl

theorem reserved_putEntry (hj : j < v.tableEntries) :
    v.entry (v.putEntry b i value) j / 2 ^ 28 = v.entry b j / 2 ^ 28 := by
  have hentry : v.entry b i < 2 ^ 32 := entry_lt
  rw [entry_putEntry hj]
  split_ifs with hsame
  · subst hsame
    rw [mergeEntry_div]
    omega
  · rfl

/-- The scan for a free cluster stops at entry `i`. -/
def freeAt (v : Volume) (b : ByteMap) (i : Nat) : Bool := 2 ≤ u32 i ∧ v.link b i = 0

/-! ## The functions of the driver -/

section Functions

variable (hfits : v.TableFits)

include hfits

theorem sector_eq (hi : i < v.tableEntries) : u32 (v.fatLba + i / 128) = v.fatLba + i / 128 := by
  rw [TableFits] at hfits
  rw [tableEntries] at hi
  exact u32_of_lt (by omega)

theorem load_sector (hi : i < v.tableEntries) :
    load (fun k => b (u32 (v.fatLba + i / 128) * 512 + k)) (i * 4 % 512) 4 = v.entry b i := by
  rw [sector_eq hfits hi]
  refine load_shift fun k _ => ?_
  rw [entryPos]
  exact congrArg b (by omega)

theorem nextCluster_eq (hi : i < v.tableEntries) (hlink : i < 2 ^ 28) :
    nextCluster (disk b) v i = (v.link b i, disk b) := by
  have hoffset : u32 (i * 4) = i * 4 := u32_of_lt (by omega)
  have hsector : i * 4 / 512 = i / 128 := by omega
  simp only [nextCluster, disk_sectorSize, hoffset, hsector, read_disk]
  rw [load_sector hfits hi, Geometry.and_clusterMask, link]

/-- The sector written back with one entry changed, and its copy. -/
theorem putEntry_eq (hi : i < v.tableEntries) (value : Nat) {buf : ByteMap}
    (hbuf : buf = store (fun k => b (u32 (v.fatLba + i / 128) * 512 + k)) (i * 4 % 512) 4
      (mergeEntry (v.entry b i) value)) :
    (if 1 < v.numFats then
        (b.blit (u32 (v.fatLba + i / 128) * 512) buf 512).blit
          ((v.fatLba + v.sectorsPerFat + i / 128) * 512) buf 512
      else b.blit (u32 (v.fatLba + i / 128) * 512) buf 512) = v.putEntry b i value := by
  have hpos : (v.fatLba + i / 128) * 512 + i * 4 % 512 = v.entryPos i := by
    rw [entryPos]
    omega
  have hfirst : b.blit (u32 (v.fatLba + i / 128) * 512) buf 512 =
      b.store (v.entryPos i) 4 (mergeEntry (v.entry b i) value) := by
    rw [hbuf, blit_store_window (by omega), sector_eq hfits hi, hpos]
  rw [putEntry, mirror, hfirst]
  split
  · apply blit_congr
    intro k hk
    rw [← hfirst, sector_eq hfits hi, blit_apply_of_mem hk]
  · rfl

theorem second_sector_eq (hi : i < v.tableEntries) (htwo : 1 < v.numFats) :
    u32 (u32 (v.fatLba + i / 128) + v.sectorsPerFat) = v.fatLba + v.sectorsPerFat + i / 128 := by
  rw [sector_eq hfits hi]
  rw [TableFits, if_pos htwo] at hfits
  rw [tableEntries] at hi
  rw [u32_of_lt (by omega)]
  omega

theorem writeFat_eq (hi : i < v.tableEntries) (hlink : i < 2 ^ 28) (value : Nat) :
    writeFat (disk b) v i value = (0, disk (v.putEntry b i value)) := by
  have hoffset : u32 (i * 4) = i * 4 := u32_of_lt (by omega)
  have hsector : i * 4 / 512 = i / 128 := by omega
  have hput := putEntry_eq (b := b) hfits hi value rfl
  simp only [writeFat, disk_sectorSize, hoffset, hsector, read_disk, write_disk,
    load_sector hfits hi]
  rw [← hput]
  split_ifs with htwo
  · rw [second_sector_eq hfits hi htwo]
  · rfl

/-! ### Allocation -/

/-- One FAT sector is scanned for the entries of free clusters. -/
theorem freeEntry_eq {s : Nat} (hs : s < v.sectorsPerFat) :
    freeEntry (fun k => b (u32 (v.fatLba + s) * 512 + k)) s 128 =
      (List.range 128).find? (v.freeAt b ∘ (s * 128 + ·)) := by
  rw [freeEntry, ← List.head?_filter, ← List.head?_filter]
  congr 1
  apply List.filter_congr
  intro e he
  rw [List.mem_range] at he
  have hi : s * 128 + e < v.tableEntries := by
    rw [tableEntries]
    omega
  have hsector : (s * 128 + e) / 128 = s := by omega
  have hoffset : (s * 128 + e) * 4 % 512 = 4 * e := by omega
  have hload := load_sector (b := b) hfits hi
  rw [hsector, hoffset] at hload
  simp only [hload, Geometry.and_clusterMask, freeAt, Function.comp, link]
  rfl

theorem allocClusterFrom_eq (more s : Nat) (hs : s + more = v.sectorsPerFat) :
    allocClusterFrom v more s (disk b) =
      ((List.range' (s * 128) (more * 128)).find? (v.freeAt b)).elim (0, disk b)
        fun i => (u32 i, disk (v.putEntry b i clusterEoc)) := by
  induction more generalizing s with
  | zero => rfl
  | succ more ih =>
      have hrange : List.range' (s * 128) ((more + 1) * 128) =
          (List.range 128).map (s * 128 + ·) ++ List.range' ((s + 1) * 128) (more * 128) := by
        rw [← List.range'_eq_map_range, Nat.succ_mul s, List.range'_append_1]
        congr 1
        omega
      rw [hrange, List.find?_append, List.find?_map, ← freeEntry_eq hfits (by omega)]
      simp only [allocClusterFrom, disk_sectorSize, read_disk]
      cases hentry : freeEntry (fun k => b (u32 (v.fatLba + s) * 512 + k)) s 128 with
      | none => exact ih (s + 1) (by omega)
      | some e =>
          have he : e < 128 := by
            rw [freeEntry] at hentry
            exact List.mem_range.mp (List.mem_of_find?_eq_some hentry)
          have hi : s * 128 + e < v.tableEntries := by
            rw [tableEntries]
            omega
          have hsector : (s * 128 + e) / 128 = s := by omega
          have hoffset : (s * 128 + e) * 4 % 512 = 4 * e := by omega
          have hput := putEntry_eq (b := b) hfits hi clusterEoc rfl
          have hload := load_sector (b := b) hfits hi
          rw [hsector, hoffset] at hput hload
          simp only [Option.map_some, Option.some_or, Option.elim_some, write_disk, hload]
          rw [← hput]
          split_ifs with htwo
          · have hsecond : u32 (u32 (v.fatLba + v.sectorsPerFat) + s) =
                v.fatLba + v.sectorsPerFat + s := by
              rw [TableFits, if_pos htwo] at hfits
              rw [u32_of_lt (by omega : v.fatLba + v.sectorsPerFat < 2 ^ 32),
                u32_of_lt (by omega)]
            rw [hsecond]
          · rfl

/-- Allocation takes the first entry of a free cluster. -/
theorem allocCluster_eq :
    allocCluster (disk b) v =
      ((List.range v.tableEntries).find? (v.freeAt b)).elim (0, disk b)
        fun i => (u32 i, disk (v.putEntry b i clusterEoc)) := by
  have hscan := allocClusterFrom_eq (b := b) hfits v.sectorsPerFat 0 (Nat.zero_add _)
  rwa [Nat.zero_mul, ← List.range_eq_range', ← tableEntries] at hscan

end Functions

/-! ## Freeing a chain -/

/-- The entry the loops go to from entry `i`. -/
def nextEntry (v : Volume) (b : ByteMap) (i : Nat) : Option Nat := linkTo (v.link b i)

/-- Every link of the table, and a link to begin with, is an index of the table. -/
structure LinksInside (v : Volume) (b : ByteMap) (start : Nat) : Prop where
  start : IsLink start → start < v.tableEntries
  link : ∀ i < v.tableEntries, IsLink (v.link b i) → v.link b i < v.tableEntries

/-- How many entries of the table are in use. -/
def inUse (v : Volume) (b : ByteMap) : Nat :=
  ((Finset.range v.tableEntries).filter fun i => v.link b i ≠ 0).card

theorem link_putEntry_zero (hj : j < v.tableEntries) :
    v.link (v.putEntry b i 0) j = if j = i then 0 else v.link b j :=
  link_putEntry hj

theorem inUse_putEntry_lt (hi : i < v.tableEntries) (hused : v.link b i ≠ 0) :
    v.inUse (v.putEntry b i 0) < v.inUse b := by
  refine Finset.card_lt_card (Finset.ssubset_iff_of_subset ?_ |>.mpr ⟨i, ?_, ?_⟩)
  · intro j hj
    rw [Finset.mem_filter, Finset.mem_range] at hj ⊢
    rw [link_putEntry_zero hj.1] at hj
    refine ⟨hj.1, ?_⟩
    split_ifs at hj with hsame
    · exact absurd rfl hj.2
    · exact hj.2
  · exact Finset.mem_filter.mpr ⟨Finset.mem_range.mpr hi, hused⟩
  · rw [Finset.mem_filter, link_putEntry_zero hi, if_pos rfl]
    exact fun hboth => hboth.2 rfl

theorem nextEntry_putEntry_zero (hj : j < v.tableEntries) :
    v.nextEntry (v.putEntry b i 0) j = Function.update (v.nextEntry b) i none j := by
  rw [nextEntry, link_putEntry_zero hj]
  by_cases hsame : j = i
  · rw [if_pos hsame, hsame, Function.update_self]
    exact linkTo_of_not (by decide)
  · rw [if_neg hsame, Function.update_of_ne hsame, nextEntry]

theorem LinksInside.putEntry (hinside : v.LinksInside b start) (hi : i < v.tableEntries) :
    v.LinksInside (v.putEntry b i 0) (v.link b i) where
  start := hinside.link i hi
  link j hj hlink := by
    rw [link_putEntry_zero hj] at hlink ⊢
    split_ifs at hlink ⊢ with hsame
    · exact Nat.zero_lt_of_lt hj
    · exact hinside.link j hj hlink

/-- Everything on the way from the start is in the table. -/
theorem LinksInside.reach (hinside : v.LinksInside b start)
    (hreach : Reach (v.nextEntry b) (linkTo start) i) : i < v.tableEntries := by
  refine Reach.invariant (motive := (· < v.tableEntries)) hreach ?_ ?_
  · intro first hfirst
    obtain ⟨hlink, rfl⟩ := linkTo_eq_some.mp hfirst
    exact hinside.start hlink
  · intro source target hsource htarget
    obtain ⟨hlink, rfl⟩ := linkTo_eq_some.mp htarget
    exact hinside.link source hsource hlink

/-- What is freed from an entry on: the entry, and what is freed behind it once it is. -/
theorem reach_free_iff (hinside : v.LinksInside b start) (hlink : IsLink start) :
    Reach (v.nextEntry b) (linkTo start) i ↔
      i = start ∨ Reach (v.nextEntry (v.putEntry b start 0)) (linkTo (v.link b start)) i := by
  have hstart := hinside.start hlink
  have hcut : Reach (Function.update (v.nextEntry b) start none) (linkTo (v.link b start)) i ↔
      Reach (v.nextEntry (v.putEntry b start 0)) (linkTo (v.link b start)) i := by
    constructor
    · intro hreach
      refine hreach.congr fun j hj => nextEntry_putEntry_zero (hinside.reach ?_)
      rw [linkTo_of_isLink hlink]
      exact Reach.cut_iff.mpr (.inr hj)
    · intro hreach
      refine hreach.congr fun j hj => (nextEntry_putEntry_zero ?_).symm
      exact (hinside.putEntry hstart).reach hj
  rw [linkTo_of_isLink hlink, Reach.cut_iff, ← hcut]
  rfl

theorem freeClusterChain_not_link {d : Drive} (hstop : ¬ IsLink start) :
    freeClusterChain d v start = some d := by
  rw [freeClusterChain, loop_eq, freeClusterChainRound, if_neg hstop]

open Classical in
/-- The entries after a chain was freed: those on the way lost their links. -/
noncomputable def freedEntry (v : Volume) (b : ByteMap) (start i : Nat) : Nat :=
  if Reach (v.nextEntry b) (linkTo start) i then v.entry b i / 2 ^ 28 * 2 ^ 28 else v.entry b i

theorem freedEntry_of_not_link (hstop : ¬ IsLink start) : v.freedEntry b start i = v.entry b i := by
  rw [freedEntry, linkTo_of_not hstop, if_neg Reach.not_none]

/-- Clearing the first entry and then what is freed behind it. -/
theorem freedEntry_putEntry (hinside : v.LinksInside b start) (hlink : IsLink start)
    (hi : i < v.tableEntries) :
    v.freedEntry (v.putEntry b start 0) (v.link b start) i = v.freedEntry b start i := by
  have hkept : mergeEntry (v.entry b start) 0 = v.entry b start / 2 ^ 28 * 2 ^ 28 := by
    have hdiv := mergeEntry_div (v.entry b start) 0
    have hmod := Geometry.mergeEntry_mod (v.entry b start) 0
    have hentry : v.entry b start < 2 ^ 32 := entry_lt
    omega
  have hiff := reach_free_iff (i := i) hinside hlink
  rw [freedEntry, freedEntry, entry_putEntry hi, hkept]
  by_cases hsame : i = start
  · rw [if_pos (hiff.mpr (.inl hsame)), if_pos hsame, hsame]
    split_ifs
    · omega
    · rfl
  · rw [if_neg hsame]
    by_cases hreach : Reach (v.nextEntry (v.putEntry b start 0)) (linkTo (v.link b start)) i
    · rw [if_pos hreach, if_pos (hiff.mpr (.inr hreach))]
    · rw [if_neg hreach, if_neg fun hboth => (hiff.mp hboth).elim hsame hreach]

/-- Freeing ends, whatever the links look like: each round takes an entry out of use. -/
theorem freeClusterChain_entries (hfits : v.TableFits) (hinside : v.LinksInside b start) :
    ∃ b', freeClusterChain (disk b) v start = some (disk b') ∧
      ∀ i < v.tableEntries, v.entry b' i = v.freedEntry b start i := by
  induction hused : v.inUse b using Nat.strongRecOn generalizing b start with
  | ind used ih =>
      by_cases hlink : IsLink start
      · have hstart := hinside.start hlink
        have hsmall : start < 2 ^ 28 := hlink.2.trans_le (by decide)
        have hround : freeClusterChain (disk b) v start =
            freeClusterChain (disk (v.putEntry b start 0)) v (v.link b start) := by
          rw [freeClusterChain, loop_eq, freeClusterChainRound, if_pos hlink,
            nextCluster_eq hfits hstart hsmall]
          simp only [writeFat_eq hfits hstart hsmall]
          rfl
        by_cases hzero : v.link b start = 0
        · refine ⟨v.putEntry b start 0, ?_, fun i hi => ?_⟩
          · rw [hround, hzero]
            exact freeClusterChain_not_link (by decide)
          · rw [← freedEntry_putEntry hinside hlink hi, hzero]
            exact (freedEntry_of_not_link (by decide)).symm
        · have hless : v.inUse (v.putEntry b start 0) < used := by
            rw [← hused]
            exact inUse_putEntry_lt hstart hzero
          obtain ⟨b', hfreed, hentries⟩ := ih _ hless (hinside.putEntry hstart) rfl
          refine ⟨b', hround.trans hfreed, fun i hi => ?_⟩
          rw [hentries i hi, freedEntry_putEntry hinside hlink hi]
      · exact ⟨b, freeClusterChain_not_link hlink, fun i _ => (freedEntry_of_not_link hlink).symm⟩

/-- **What freeing a chain clears.** When every link of the table is an index of the
table, freeing from any start ends, in cycles and shared tails too.  Exactly the
entries that the walk from the start reaches have lost their link; every other entry
and the reserved bits of every entry are as before. -/
theorem freeClusterChain_clears (hfits : v.TableFits) (hinside : v.LinksInside b start) :
    ∃ b', freeClusterChain (disk b) v start = some (disk b') ∧ ∀ i < v.tableEntries,
      (Reach (v.nextEntry b) (linkTo start) i → v.link b' i = 0) ∧
        (¬ Reach (v.nextEntry b) (linkTo start) i → v.entry b' i = v.entry b i) ∧
        v.entry b' i / 2 ^ 28 = v.entry b i / 2 ^ 28 := by
  obtain ⟨b', hfreed, hentries⟩ := freeClusterChain_entries hfits hinside
  refine ⟨b', hfreed, fun i hi => ?_⟩
  rw [link, hentries i hi, freedEntry]
  by_cases hreach : Reach (v.nextEntry b) (linkTo start) i
  · rw [if_pos hreach]
    refine ⟨fun _ => ?_, fun hnot => absurd hreach hnot, ?_⟩ <;> omega
  · rw [if_neg hreach]
    exact ⟨fun hnot => absurd hnot hreach, fun _ => rfl, rfl⟩

/-- A table in which clusters 2 and 3 link to each other and 4 links into their cycle. -/
def cyclicTable : ByteMap :=
  let zeros : ByteMap := fun _ => 0
  ((zeros.store 8 4 3).store 12 4 2).store 16 4 3

theorem cyclicTable_inside : LinksInside ⟨512, 1, 1, 0, 1, 2, 1⟩ cyclicTable 4 := by
  have hlinks : ∀ i < 128, link ⟨512, 1, 1, 0, 1, 2, 1⟩ cyclicTable i < 128 := by decide +kernel
  exact ⟨fun _ => by decide, fun i hi _ => hlinks i hi⟩

/-- Freeing from cluster 4 ends and clears clusters 4, 3 and 2. -/
theorem cyclicTable_cleared :
    ∃ b', freeClusterChain (disk cyclicTable) ⟨512, 1, 1, 0, 1, 2, 1⟩ 4 = some (disk b') ∧
      link ⟨512, 1, 1, 0, 1, 2, 1⟩ b' 4 = 0 ∧ link ⟨512, 1, 1, 0, 1, 2, 1⟩ b' 3 = 0 ∧
      link ⟨512, 1, 1, 0, 1, 2, 1⟩ b' 2 = 0 := by
  obtain ⟨b', hfreed, hentries⟩ := freeClusterChain_clears
    (show TableFits ⟨512, 1, 1, 0, 1, 2, 1⟩ by rw [TableFits]; decide) cyclicTable_inside
  have hfour : Reach (nextEntry ⟨512, 1, 1, 0, 1, 2, 1⟩ cyclicTable) (linkTo 4) 4 := .head rfl
  have hthree : Reach (nextEntry ⟨512, 1, 1, 0, 1, 2, 1⟩ cyclicTable) (linkTo 4) 3 :=
    .step hfour rfl
  have htwo : Reach (nextEntry ⟨512, 1, 1, 0, 1, 2, 1⟩ cyclicTable) (linkTo 4) 2 :=
    .step hthree rfl
  exact ⟨b', hfreed, (hentries 4 (by decide)).1 hfour, (hentries 3 (by decide)).1 hthree,
    (hentries 2 (by decide)).1 htwo⟩

end Volume

end GeckoOS.Fs
