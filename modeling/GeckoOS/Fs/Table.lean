/-
# The FAT of a volume

On a drive whose transfers do not fail the functions that work on the FAT are
functions of the image: following a link reads an entry, `fat32_write_fat` changes
one, and `fat32_alloc_cluster` takes the first cluster of the ascending list of
free ones.  A chain is a finite path of links through the table that ends with an
end-of-chain mark, and freeing it clears exactly its entries.
-/

import GeckoOS.Fs.Layout
import GeckoOS.Math.Path

namespace GeckoOS.Fs

open GeckoOS.Math ByteMap

/-- The cluster a value names, when the loops follow it. -/
def linkTo (cluster : Nat) : Option Nat := if IsLink cluster then some cluster else none

theorem linkTo_of_isLink {cluster : Nat} (hlink : IsLink cluster) :
    linkTo cluster = some cluster := if_pos hlink

theorem linkTo_of_not {cluster : Nat} (hstop : ¬IsLink cluster) : linkTo cluster = none :=
  if_neg hstop

theorem linkTo_eq_some {cluster target : Nat} :
    linkTo cluster = some target ↔ IsLink cluster ∧ cluster = target := by
  rw [linkTo]
  split_ifs with hlink
  · rw [Option.some.injEq]
    exact ⟨fun hsame => ⟨hlink, hsame⟩, And.right⟩
  · exact iff_of_false (by simp) fun hboth => hlink hboth.1

/-- The link of a FAT entry; an end-of-chain mark has none. -/
def fatNext (fat : Nat → Nat) (c : Nat) : Option Nat :=
  if clusterEoc ≤ fat c then none else some (fat c)

theorem fatNext_eq_none {fat : Nat → Nat} {c : Nat} :
    fatNext fat c = none ↔ clusterEoc ≤ fat c := by
  rw [fatNext]
  split_ifs with heoc
  · exact iff_of_true rfl heoc
  · exact iff_of_false (by simp) heoc

theorem fat_eq_of_fatNext {fat : Nat → Nat} {c next : Nat} (hnext : fatNext fat c = some next) :
    fat c = next := by
  rw [fatNext] at hnext
  split_ifs at hnext
  exact Option.some.inj hnext

/-- Clear the entries of some clusters. -/
def Image.release (img : Image) (nodes : List Nat) : Image :=
  { img with fat := fun c => if c ∈ nodes then 0 else img.fat c }

@[simp]
theorem Image.release_fat (img : Image) (nodes : List Nat) (c : Nat) :
    (img.release nodes).fat c = if c ∈ nodes then 0 else img.fat c := rfl

@[simp]
theorem Image.release_data (img : Image) (nodes : List Nat) :
    (img.release nodes).data = img.data := rfl

@[simp]
theorem Image.release_dir (img : Image) (nodes : List Nat) :
    (img.release nodes).dir = img.dir := rfl

theorem Image.release_nil (img : Image) : img.release [] = img := by
  apply Image.ext
  · funext c
    rw [release_fat, if_neg List.not_mem_nil]
  · rfl
  · rfl

theorem Image.release_cons (img : Image) (c : Nat) (nodes : List Nat) :
    img.release (c :: nodes) = (img.setFat c 0).release nodes := by
  apply Image.ext
  · funext c'
    rw [release_fat, release_fat, setFat_fat]
    by_cases hsame : c' = c
    · subst hsame
      simp
    · simp [hsame]
  · rfl
  · rfl

namespace Geometry

variable {g : Geometry} {b : ByteMap} {c : Nat} {fat : Nat → Nat} {nodes : List Nat}

/-- `nodes` are clusters of the volume linked in this order and then ended. -/
structure Chain (g : Geometry) (fat : Nat → Nat) (nodes : List Nat) : Prop where
  path : Path (fatNext fat) nodes.head? nodes
  mem : ∀ c ∈ nodes, g.InTable c

/-- The free clusters, in ascending order. -/
def free (g : Geometry) (fat : Nat → Nat) : List Nat :=
  (List.range g.tableSize).filter fun c => 2 ≤ c ∧ fat c = 0

theorem mem_free : c ∈ g.free fat ↔ g.InTable c ∧ fat c = 0 := by
  simp only [free, List.mem_filter, List.mem_range, decide_eq_true_eq, InTable]
  omega

theorem nodup_free : (g.free fat).Nodup := List.nodup_range.filter _

/-- Taking the first free cluster leaves the others in order. -/
theorem free_of_cons {fat' : Nat → Nat} {rest : List Nat} (hfree : g.free fat = c :: rest)
    (hfat' : ∀ c', 2 ≤ c' → (fat' c' = 0 ↔ fat c' = 0 ∧ c' ≠ c)) : g.free fat' = rest := by
  have hfilter : g.free fat' = (g.free fat).filter (· ≠ c) := by
    rw [free, free, List.filter_filter]
    apply List.filter_congr
    intro c' _
    by_cases htwo : 2 ≤ c'
    · simp [htwo, hfat' c' htwo, Bool.and_comm]
    · simp [htwo]
  have hnodup := @nodup_free g fat
  rw [hfree, List.nodup_cons] at hnodup
  rw [hfilter, hfree, List.filter_cons_of_neg (by simp)]
  refine List.filter_eq_self.mpr fun c' hmem => ?_
  have hne : c' ≠ c := fun hequal => hnodup.1 (hequal ▸ hmem)
  simpa using hne

theorem Chain.nodup (hchain : g.Chain fat nodes) : nodes.Nodup := hchain.path.nodup

/-- A cluster of a chain is allocated and not marked bad. -/
theorem Chain.allocated (hchain : g.Chain fat nodes) (hc : c ∈ nodes) :
    fat c ≠ 0 ∧ fat c ≠ clusterBad := by
  obtain ⟨front, back, rfl⟩ := List.append_of_mem hc
  have htail := hchain.path.tail_of_append
  cases hnext : fatNext fat c with
  | none =>
      have hend := fatNext_eq_none.mp hnext
      constructor <;> simp only [clusterBad, clusterEoc] at hend ⊢ <;> omega
  | some next =>
      rw [hnext] at htail
      cases htail with
      | cons _ =>
          have hnextMem := hchain.mem next (by simp)
          rw [fat_eq_of_fatNext hnext]
          exact ⟨(Nat.zero_lt_of_lt hnextMem.1).ne', hnextMem.lt_bad.ne⟩

theorem Chain.congr {fat' : Nat → Nat} (hchain : g.Chain fat nodes)
    (hagree : ∀ c ∈ nodes, fat' c = fat c) : g.Chain fat' nodes where
  path := hchain.path.congr fun c hc => by rw [fatNext, fatNext, hagree c hc]
  mem := hchain.mem

theorem chain_nil : g.Chain fat [] := ⟨.nil, fun _ hc => absurd hc List.not_mem_nil⟩

theorem Chain.tail (hchain : g.Chain fat (c :: nodes)) : g.Chain fat nodes := by
  obtain ⟨-, htail⟩ := Path.cons_iff.mp hchain.path
  refine ⟨?_, fun c' hc' => hchain.mem c' (List.mem_cons_of_mem _ hc')⟩
  rwa [htail.start_eq_head?] at htail

/-- The entry of a cluster is a link exactly when a cluster follows in the chain. -/
theorem Chain.next_cons {c' : Nat} (hchain : g.Chain fat (c :: c' :: nodes)) : fat c = c' := by
  obtain ⟨-, htail⟩ := Path.cons_iff.mp hchain.path
  exact fat_eq_of_fatNext (Path.cons_iff.mp htail).1

theorem Chain.next_singleton (hchain : g.Chain fat [c]) : clusterEoc ≤ fat c :=
  fatNext_eq_none.mp (Path.nil_iff.mp (Path.cons_iff.mp hchain.path).2)

/-! ## One entry -/

theorem fatLba_lt (hc : g.InTable c) : g.vol.fatLba + g.vol.sectorsPerFat < 2 ^ 32 :=
  fat_le.trans_lt (dataLba_lt hc)

/-- A table with an entry shows that the volume has a cluster. -/
theorem inTable_two (hc : c < g.tableSize) : g.InTable 2 := by
  rw [tableSize] at hc
  constructor
  · exact le_rfl
  · rw [tableSize]
    omega

theorem fatOffset_eq (hc : c < g.tableSize) : u32 (c * 4) = c * 4 := by
  have htable := g.table_le
  rw [tableSize] at hc
  apply u32_of_lt
  simp only [clusterBad] at htable
  omega

theorem fatSector_eq (hc : c < g.tableSize) :
    u32 (g.vol.fatLba + c * 4 / 512) = g.vol.fatLba + c * 4 / 512 := by
  have hend := fatLba_lt (inTable_two hc)
  rw [tableSize] at hc
  apply u32_of_lt
  omega

theorem entryPos_eq : g.entryPos c = (g.vol.fatLba + c * 4 / 512) * 512 + c * 4 % 512 := by
  rw [entryPos]
  omega

theorem mod_512_add_four : c * 4 % 512 + 4 ≤ 512 := by omega

/-- `x & FAT32_CLUSTER_MASK`. -/
theorem and_clusterMask (x : Nat) : x &&& clusterMask = x % 2 ^ 28 :=
  Nat.and_two_pow_sub_one_eq_mod x 28

/-- The reserved bits of an entry do not show in the table. -/
theorem mergeEntry_mod (existing value : Nat) :
    mergeEntry existing value % 2 ^ 28 = value % 2 ^ 28 := by
  have hreserved : 0xF0000000 &&& clusterMask = 0 := by decide
  rw [← and_clusterMask, ← and_clusterMask, mergeEntry, Nat.and_or_distrib_right, Nat.and_assoc,
    Nat.and_assoc, Nat.and_self, hreserved, Nat.and_zero, Nat.zero_or]

theorem nextCluster_disk (hc : c < g.tableSize) :
    nextCluster (disk b) g.vol c = ((g.image b).fat c, disk b) := by
  have hload : load (fun i => b ((g.vol.fatLba + c * 4 / 512) * 512 + i)) (c * 4 % 512) 4 =
      b.load (g.entryPos c) 4 := by
    rw [entryPos_eq]
    apply load_shift
    intro i _
    rw [Nat.add_assoc]
  simp only [nextCluster, disk_sectorSize, fatOffset_eq hc, fatSector_eq hc, read_disk]
  rw [hload, and_clusterMask, fat_image hc]

/-- Sectors of the second FAT do not show in the image. -/
theorem image_mirror {s : Nat} {buf : ByteMap} (htwo : 1 < g.vol.numFats)
    (hs : s < g.vol.sectorsPerFat) :
    g.image (b.blit ((g.vol.fatLba + g.vol.sectorsPerFat + s) * 512) buf 512) = g.image b := by
  have hend := g.fat2_le htwo
  apply image_congr
  · intro c hc i hi
    rw [tableSize] at hc
    apply blit_apply_of_not_mem
    rw [entryPos]
    omega
  · intro position hle
    apply blit_apply_of_not_mem
    omega

theorem writeFat_disk (hc : c < g.tableSize) (value : Nat) :
    ∃ b', writeFat (disk b) g.vol c value = (0, disk b') ∧
      g.image b' = (g.image b).setFat c (value % 2 ^ 28) := by
  have hstored := @image_store_entry g b c
  rw [entryPos_eq] at hstored
  simp only [writeFat, disk_sectorSize, fatOffset_eq hc, fatSector_eq hc, read_disk, write_disk,
    blit_store_window mod_512_add_four]
  by_cases htwo : 1 < g.vol.numFats
  · simp only [if_pos htwo]
    refine ⟨_, rfl, ?_⟩
    have hsector : u32 (g.vol.fatLba + c * 4 / 512 + g.vol.sectorsPerFat) =
        g.vol.fatLba + g.vol.sectorsPerFat + c * 4 / 512 := by
      have hend := g.fat2_le htwo
      have hdata := dataLba_lt (inTable_two hc)
      rw [tableSize] at hc
      rw [u32_of_lt (by omega)]
      omega
    rw [hsector, image_mirror htwo (by rw [tableSize] at hc; omega), hstored hc, mergeEntry_mod]
  · simp only [if_neg htwo]
    exact ⟨_, rfl, by rw [hstored hc, mergeEntry_mod]⟩

/-! ## Allocation -/

/-- A free cluster of the table. -/
def IsFree (fat : Nat → Nat) (c : Nat) : Bool := 2 ≤ c ∧ fat c = 0

theorem head?_free : (g.free fat).head? = (List.range g.tableSize).find? (IsFree fat) :=
  List.head?_filter

/-- One FAT sector is scanned for its free clusters. -/
theorem freeEntry_disk {s : Nat} (hs : s < g.vol.sectorsPerFat) :
    freeEntry (fun i => b ((g.vol.fatLba + s) * 512 + i)) s 128 =
      (List.range 128).find? (IsFree (g.image b).fat ∘ (s * 128 + ·)) := by
  have htable := g.table_le
  have hentry : ∀ e < 128, s * 128 + e < g.tableSize := by
    intro e he
    rw [tableSize]
    omega
  rw [freeEntry, ← List.head?_filter, ← List.head?_filter]
  congr 1
  apply List.filter_congr
  intro e he
  rw [List.mem_range] at he
  have hsmall : u32 (s * 128 + e) = s * 128 + e := by
    simp only [clusterBad] at htable
    exact u32_of_lt (by omega)
  have hload : load (fun i => b ((g.vol.fatLba + s) * 512 + i)) (4 * e) 4 =
      b.load (g.entryPos (s * 128 + e)) 4 := by
    apply load_shift
    intro i _
    rw [entryPos]
    exact congrArg b (by omega)
  simp only [hsmall, hload, and_clusterMask, IsFree, Function.comp, fat_image (hentry e he)]

theorem allocClusterFrom_disk (more s : Nat) (hs : s + more = g.vol.sectorsPerFat) :
    match (List.range' (s * 128) (more * 128)).find? (IsFree (g.image b).fat) with
    | none => allocClusterFrom g.vol more s (disk b) = (0, disk b)
    | some c => ∃ b', allocClusterFrom g.vol more s (disk b) = (c, disk b') ∧
        g.image b' = (g.image b).setFat c clusterEoc := by
  induction more generalizing s with
  | zero => simp [allocClusterFrom]
  | succ more ih =>
      have htable := g.table_le
      have hsize : s * 128 + 128 ≤ g.tableSize := by
        rw [tableSize]
        omega
      have hlba : u32 (g.vol.fatLba + s) = g.vol.fatLba + s := by
        have hend := fatLba_lt (@inTable_two g 0 (by omega))
        exact u32_of_lt (by omega)
      have hrange : List.range' (s * 128) ((more + 1) * 128) =
          (List.range 128).map (s * 128 + ·) ++ List.range' ((s + 1) * 128) (more * 128) := by
        rw [← List.range'_eq_map_range, Nat.succ_mul s, List.range'_append_1]
        congr 1
        omega
      rw [hrange, List.find?_append, List.find?_map, ← freeEntry_disk (by omega)]
      simp only [allocClusterFrom, disk_sectorSize, hlba, read_disk]
      cases hentry : freeEntry (fun i => b ((g.vol.fatLba + s) * 512 + i)) s 128 with
      | none => exact ih (s + 1) (by omega)
      | some e =>
          have he : e < 128 := by
            rw [freeEntry] at hentry
            exact List.mem_range.mp (List.mem_of_find?_eq_some hentry)
          have hindex : s * 128 + e < g.tableSize := by omega
          have hcluster : u32 (s * 128 + e) = s * 128 + e := by
            simp only [clusterBad] at htable
            rw [tableSize] at hsize
            exact u32_of_lt (by omega)
          have hpos : g.entryPos (s * 128 + e) = (g.vol.fatLba + s) * 512 + 4 * e := by
            rw [entryPos]
            omega
          have hstored := @image_store_entry g b (s * 128 + e)
          rw [hpos] at hstored
          simp only [Option.map_some, Option.some_or, write_disk, hcluster,
            blit_store_window (show 4 * e + 4 ≤ 512 by omega)]
          have hvalue : ∀ existing, mergeEntry existing clusterEoc % 2 ^ 28 = clusterEoc :=
            fun existing =>
            (mergeEntry_mod _ _).trans (by decide)
          by_cases htwo : 1 < g.vol.numFats
          · simp only [if_pos htwo]
            refine ⟨_, rfl, ?_⟩
            have hsector : u32 (u32 (g.vol.fatLba + g.vol.sectorsPerFat) + s) =
                g.vol.fatLba + g.vol.sectorsPerFat + s := by
              have hend := g.fat2_le htwo
              have hdata := dataLba_lt (@inTable_two g 0 (by omega))
              have hinner : u32 (g.vol.fatLba + g.vol.sectorsPerFat) =
                  g.vol.fatLba + g.vol.sectorsPerFat := u32_of_lt (by omega)
              rw [hinner, u32_of_lt (by omega)]
            rw [hsector, image_mirror htwo (by omega), hstored hindex, hvalue]
          · simp only [if_neg htwo]
            exact ⟨_, rfl, by rw [hstored hindex, hvalue]⟩

/-- Without a free cluster nothing is allocated. -/
theorem allocCluster_full (hfree : g.free (g.image b).fat = []) :
    allocCluster (disk b) g.vol = (0, disk b) := by
  have hscan := @allocClusterFrom_disk g b g.vol.sectorsPerFat 0 (Nat.zero_add _)
  rw [Nat.zero_mul, ← List.range_eq_range', ← tableSize, ← head?_free, hfree] at hscan
  exact hscan

/-- The first free cluster is allocated and marked as the end of a chain. -/
theorem allocCluster_cons {rest : List Nat} (hfree : g.free (g.image b).fat = c :: rest) :
    ∃ b', allocCluster (disk b) g.vol = (c, disk b') ∧
      g.image b' = (g.image b).setFat c clusterEoc := by
  have hscan := @allocClusterFrom_disk g b g.vol.sectorsPerFat 0 (Nat.zero_add _)
  rw [Nat.zero_mul, ← List.range_eq_range', ← tableSize, ← head?_free, hfree] at hscan
  exact hscan

/-! ## Freeing a chain -/

theorem freeClusterChain_stop {d : Drive} (hstop : ¬ IsLink c) :
    freeClusterChain d g.vol c = some d := by
  rw [freeClusterChain, loop_eq, freeClusterChainRound, if_neg hstop]

/-- A value that names the first cluster of a list: a cluster, or no link at all. -/
def Names (c : Nat) (nodes : List Nat) : Prop :=
  nodes.head? = some c ∨ nodes = [] ∧ ¬ IsLink c

theorem names_headD : Names (nodes.headD 0) nodes := by
  cases nodes with
  | nil => exact .inr ⟨rfl, by decide⟩
  | cons c nodes => exact .inl rfl

/-- The entry of a cluster names the rest of its chain. -/
theorem Chain.names_next (hchain : g.Chain fat (c :: nodes)) : Names (fat c) nodes := by
  cases nodes with
  | nil =>
      have hend := hchain.next_singleton
      refine .inr ⟨rfl, fun hlink => ?_⟩
      have hlt := hlink.2
      simp only [clusterEoc, clusterBad] at hend hlt
      omega
  | cons c' nodes => exact .inl (congrArg some hchain.next_cons.symm)

/-- Freeing a chain clears its entries. -/
theorem freeClusterChain_disk (hchain : g.Chain (g.image b).fat nodes) (hnames : Names c nodes) :
    ∃ b', freeClusterChain (disk b) g.vol c = some (disk b') ∧
      g.image b' = (g.image b).release nodes := by
  induction nodes generalizing b c with
  | nil =>
      rcases hnames with hhead | ⟨-, hstop⟩
      · cases hhead
      · exact ⟨b, freeClusterChain_stop hstop, (Image.release_nil _).symm⟩
  | cons c' nodes ih =>
      obtain rfl : c' = c := by
        rcases hnames with hhead | ⟨hnil, -⟩
        · exact Option.some.inj hhead
        · cases hnil
      have hc := hchain.mem c' List.mem_cons_self
      obtain ⟨b₁, hwrite, himage⟩ := @writeFat_disk g b c' hc.2 0
      have hfresh := (List.nodup_cons.mp hchain.nodup).1
      have htail : g.Chain (g.image b₁).fat nodes := by
        refine hchain.tail.congr fun c hmem => ?_
        have hne : c ≠ c' := fun hequal => hfresh (hequal ▸ hmem)
        rw [himage, Image.setFat_fat, Function.update_of_ne hne]
      obtain ⟨b', hfreed, hreleased⟩ := ih htail hchain.names_next
      refine ⟨b', ?_, ?_⟩
      · rw [freeClusterChain, loop_eq, freeClusterChainRound, if_pos hc.isLink,
          nextCluster_disk hc.2]
        simp only [hwrite]
        exact hfreed
      · rw [hreleased, himage, Image.release_cons]
        rfl

end Geometry

end GeckoOS.Fs
