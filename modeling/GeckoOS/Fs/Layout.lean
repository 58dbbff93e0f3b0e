/-
# Where a volume keeps its structures

A geometry is a mounted volume whose regions fit the drive: the copies of the
FAT, then one run of sectors for every cluster the FAT has an entry for.  It
also fixes the clusters of the root directory, which the driver never changes.

The image of a drive is what the volume means: the 28-bit FAT entries, the bytes
of every cluster outside the root directory, and the list of root-directory
slots.  Each kind of write the driver makes changes one component of the image at
one place, and the copies of the FAT behind the first do not show in it.
-/

import GeckoOS.Fs.Fat32
import Mathlib.Algebra.Order.Ring.Nat
import Mathlib.Data.List.Nodup
import Mathlib.Logic.Function.Basic

namespace GeckoOS.Fs

open GeckoOS.Math ByteMap

/-- A mounted volume whose regions lie apart on 512-byte sectors, with the chain
of its root directory. -/
structure Geometry where
  /-- The mounted volume. -/
  vol : Volume
  /-- The clusters of the root directory, in order. -/
  root : List Nat
  bytesPerSector_eq : vol.bytesPerSector = 512
  sectorsPerCluster_pos : 0 < vol.sectorsPerCluster
  sectorsPerCluster_lt : vol.sectorsPerCluster < 256
  numFats_pos : 0 < vol.numFats
  /-- The FAT copies end before the data area. -/
  fats_le : vol.fatLba + vol.numFats * vol.sectorsPerFat ≤ vol.dataLba
  /-- Every FAT entry from 2 on denotes a cluster with 32-bit sector numbers. -/
  data_le : vol.dataLba + (vol.sectorsPerFat * 128 - 2) * vol.sectorsPerCluster ≤ 2 ^ 32
  /-- No cluster number is taken for a mark. -/
  table_le : vol.sectorsPerFat * 128 ≤ clusterBad
  root_head : root.head? = some vol.rootCluster
  root_nodup : root.Nodup
  root_mem : ∀ c ∈ root, 2 ≤ c ∧ c < vol.sectorsPerFat * 128

/-- A root-directory slot as the driver reads it. -/
structure Slot where
  /-- The eleven name bytes. -/
  name : List UInt8
  attributes : UInt8
  cluster : Nat
  size : Nat
deriving DecidableEq

/-- The slot a packed entry is read as. -/
def slotOf (entry : DirEntry) : Slot where
  name := DirEntry.rawName entry
  attributes := DirEntry.attributes entry
  cluster := DirEntry.cluster entry
  size := DirEntry.fileSize entry

/-- What the bytes of a volume mean. -/
@[ext]
structure Image where
  /-- The 28-bit FAT entries. -/
  fat : Nat → Nat
  /-- The bytes of the clusters outside the root directory. -/
  data : Nat → ByteMap
  /-- The slots of the root directory. -/
  dir : List Slot

namespace Image

variable (img : Image) (c value i : Nat) (bytes : ByteMap) (slot : Slot)

/-- One FAT entry changed. -/
def setFat : Image := { img with fat := Function.update img.fat c value }

/-- The bytes of one cluster changed. -/
def setData : Image := { img with data := Function.update img.data c bytes }

/-- One slot of the root directory changed. -/
def setSlot : Image := { img with dir := img.dir.set i slot }

@[simp] theorem setFat_fat : (img.setFat c value).fat = Function.update img.fat c value := rfl
@[simp] theorem setFat_data : (img.setFat c value).data = img.data := rfl
@[simp] theorem setFat_dir : (img.setFat c value).dir = img.dir := rfl
@[simp] theorem setData_fat : (img.setData c bytes).fat = img.fat := rfl
@[simp] theorem setData_data : (img.setData c bytes).data = Function.update img.data c bytes := rfl
@[simp] theorem setData_dir : (img.setData c bytes).dir = img.dir := rfl
@[simp] theorem setSlot_fat : (img.setSlot i slot).fat = img.fat := rfl
@[simp] theorem setSlot_data : (img.setSlot i slot).data = img.data := rfl
@[simp] theorem setSlot_dir : (img.setSlot i slot).dir = img.dir.set i slot := rfl

end Image

namespace Geometry

variable (g : Geometry)

/-- The number of FAT entries. -/
def tableSize : Nat := g.vol.sectorsPerFat * 128

/-- Bytes in a cluster. -/
def clusterBytes : Nat := 512 * g.vol.sectorsPerCluster

/-- A cluster of the data area. -/
def InTable (c : Nat) : Prop := 2 ≤ c ∧ c < g.tableSize

instance (c : Nat) : Decidable (g.InTable c) := inferInstanceAs (Decidable (_ ∧ _))

/-- Where the entry of a cluster is in the first FAT. -/
def entryPos (c : Nat) : Nat := g.vol.fatLba * 512 + 4 * c

/-- The first sector of a cluster. -/
def clusterLba (c : Nat) : Nat := g.vol.dataLba + (c - 2) * g.vol.sectorsPerCluster

/-- Where the bytes of a cluster start. -/
def clusterPos (c : Nat) : Nat := g.clusterLba c * 512

/-- The root-directory slots in the order they are visited, by sector and index. -/
def slots : List (Nat × Nat) :=
  g.root.flatMap fun c =>
    (List.range g.vol.sectorsPerCluster).flatMap fun s =>
      (List.range 16).map fun e => (g.clusterLba c + s, e)

/-- Where the bytes of a slot start. -/
def slotPos (p : Nat × Nat) : Nat := p.1 * 512 + 32 * p.2

/-- The entry stored in a slot. -/
def entryAt (b : ByteMap) (p : Nat × Nat) : DirEntry := fun i => b (slotPos p + i)

/-- What the bytes of the volume mean. -/
def image (b : ByteMap) : Image where
  fat c := if c < g.tableSize then b.load (g.entryPos c) 4 % 2 ^ 28 else 0
  data c i := if g.InTable c ∧ c ∉ g.root ∧ i < g.clusterBytes then b (g.clusterPos c + i) else 0
  dir := g.slots.map fun p => slotOf (entryAt b p)

variable {g} {b other : ByteMap} {c c' i : Nat} {p q : Nat × Nat}

/-! ## The regions lie apart -/

theorem clusterSize_eq : clusterSize g.vol = g.clusterBytes := by
  rw [clusterSize, g.bytesPerSector_eq, clusterBytes]

theorem clusterBytes_pos : 0 < g.clusterBytes := by
  have hpos := g.sectorsPerCluster_pos
  rw [clusterBytes]
  omega

theorem clusterBytes_lt : g.clusterBytes < 2 ^ 31 := by
  have hsmall := g.sectorsPerCluster_lt
  rw [clusterBytes]
  omega

theorem InTable.lt_bad (hc : g.InTable c) : c < clusterBad := hc.2.trans_le g.table_le

theorem InTable.isLink (hc : g.InTable c) : IsLink c := ⟨hc.1, hc.lt_bad⟩

theorem inTable_of_mem_root (hc : c ∈ g.root) : g.InTable c := g.root_mem c hc

/-- The first FAT ends before the data area. -/
theorem fat_le : g.vol.fatLba + g.vol.sectorsPerFat ≤ g.vol.dataLba := by
  have hcopies := Nat.le_mul_of_pos_left g.vol.sectorsPerFat g.numFats_pos
  have hfats := g.fats_le
  omega

/-- So does the second, where there is one. -/
theorem fat2_le (htwo : 1 < g.vol.numFats) :
    g.vol.fatLba + 2 * g.vol.sectorsPerFat ≤ g.vol.dataLba := by
  have hcopies := Nat.mul_le_mul_right g.vol.sectorsPerFat (Nat.succ_le_of_lt htwo)
  have hfats := g.fats_le
  omega

theorem clusterLba_add_le (hc : g.InTable c) :
    g.clusterLba c + g.vol.sectorsPerCluster ≤ 2 ^ 32 := by
  have hlast : (c - 2 + 1) * g.vol.sectorsPerCluster ≤
      (g.vol.sectorsPerFat * 128 - 2) * g.vol.sectorsPerCluster := by
    apply Nat.mul_le_mul_right
    have htable := hc.2
    have hfirst := hc.1
    rw [tableSize] at htable
    omega
  have hdata := g.data_le
  rw [Nat.succ_mul] at hlast
  rw [clusterLba]
  omega

/-- In range the arithmetic of `cluster_to_lba` does not wrap. -/
theorem clusterToLba_eq (hc : g.InTable c) : clusterToLba g.vol c = g.clusterLba c := by
  have hend := clusterLba_add_le hc
  have hbad := hc.lt_bad
  have htwo := hc.1
  have hindex : u32 (c + (2 ^ 32 - 2)) = c - 2 := by
    simp only [clusterBad] at hbad
    rw [u32]
    omega
  rw [clusterLba] at hend
  have hpos := g.sectorsPerCluster_pos
  have hproduct : u32 ((c - 2) * g.vol.sectorsPerCluster) = (c - 2) * g.vol.sectorsPerCluster :=
    u32_of_lt (by omega)
  rw [clusterToLba, hindex, hproduct, clusterLba]
  exact u32_of_lt (by omega)

theorem dataLba_lt (hc : g.InTable c) : g.vol.dataLba < 2 ^ 32 := by
  have hend := clusterLba_add_le hc
  have hpos := g.sectorsPerCluster_pos
  rw [clusterLba] at hend
  omega

theorem clusterPos_add_le_of_lt (hc : 2 ≤ c) (hlt : c < c') :
    g.clusterPos c + g.clusterBytes ≤ g.clusterPos c' := by
  have hnext : (c - 2 + 1) * g.vol.sectorsPerCluster ≤ (c' - 2) * g.vol.sectorsPerCluster :=
    Nat.mul_le_mul_right _ (by omega)
  rw [Nat.succ_mul] at hnext
  rw [clusterPos, clusterPos, clusterLba, clusterLba, clusterBytes]
  omega

/-- Distinct clusters share no byte. -/
theorem clusterPos_apart (hc : 2 ≤ c) (hc' : 2 ≤ c') (hne : c ≠ c') :
    g.clusterPos c + g.clusterBytes ≤ g.clusterPos c' ∨
      g.clusterPos c' + g.clusterBytes ≤ g.clusterPos c := by
  rcases Nat.lt_or_gt_of_ne hne with hlt | hgt
  · exact .inl (clusterPos_add_le_of_lt hc hlt)
  · exact .inr (clusterPos_add_le_of_lt hc' hgt)

theorem entryPos_add_le (hc : c < g.tableSize) : g.entryPos c + 4 ≤ g.vol.dataLba * 512 := by
  have hfat := g.fat_le
  rw [tableSize] at hc
  rw [entryPos]
  omega

theorem dataLba_le_clusterPos (c : Nat) : g.vol.dataLba * 512 ≤ g.clusterPos c := by
  rw [clusterPos, clusterLba]
  exact Nat.mul_le_mul_right _ (Nat.le_add_right _ _)

/-! ## The slots of the root directory -/

theorem mem_slots : p ∈ g.slots ↔
    ∃ c ∈ g.root, ∃ s < g.vol.sectorsPerCluster, ∃ e < 16, p = (g.clusterLba c + s, e) := by
  simp only [slots, List.mem_flatMap, List.mem_map, List.mem_range]
  constructor
  · rintro ⟨c, hc, s, hs, e, he, rfl⟩
    exact ⟨c, hc, s, hs, e, he, rfl⟩
  · rintro ⟨c, hc, s, hs, e, he, rfl⟩
    exact ⟨c, hc, s, hs, e, he, rfl⟩

theorem slotPos_mk_bounds {s e : Nat} (hs : s < g.vol.sectorsPerCluster) (he : e < 16) :
    g.clusterPos c ≤ slotPos (g.clusterLba c + s, e) ∧
      slotPos (g.clusterLba c + s, e) + 32 ≤ g.clusterPos c + g.clusterBytes := by
  simp only [slotPos, clusterPos, clusterBytes]
  omega

/-- Every slot lies inside a cluster of the root directory. -/
theorem slotPos_bounds (hp : p ∈ g.slots) :
    ∃ c ∈ g.root, g.clusterPos c ≤ slotPos p ∧
      slotPos p + 32 ≤ g.clusterPos c + g.clusterBytes := by
  obtain ⟨c, hc, s, hs, e, he, rfl⟩ := mem_slots.mp hp
  exact ⟨c, hc, slotPos_mk_bounds hs he⟩

theorem slot_idx_lt (hp : p ∈ g.slots) : p.2 < 16 := by
  obtain ⟨c, hc, s, hs, e, he, rfl⟩ := mem_slots.mp hp
  exact he

/-- No two slots share a byte. -/
theorem slots_apart :
    g.slots.Pairwise fun p q => slotPos p + 32 ≤ slotPos q ∨ slotPos q + 32 ≤ slotPos p := by
  refine List.pairwise_flatMap.mpr ⟨fun c hc => ?_, ?_⟩
  · refine List.pairwise_flatMap.mpr ⟨fun s _ => ?_, ?_⟩
    · rw [List.pairwise_map]
      refine List.pairwise_lt_range.imp ?_
      intro e e' hlt
      simp only [slotPos]
      omega
    · refine List.pairwise_lt_range.imp ?_
      intro s s' hlt p hp q hq
      obtain ⟨e, he, rfl⟩ := List.mem_map.mp hp
      obtain ⟨e', he', rfl⟩ := List.mem_map.mp hq
      rw [List.mem_range] at he he'
      simp only [slotPos]
      omega
  · refine g.root_nodup.imp_of_mem ?_
    intro c c' hc hc' hne p hp q hq
    have hp' : p ∈ (List.range g.vol.sectorsPerCluster).flatMap fun s =>
        (List.range 16).map fun e => (g.clusterLba c + s, e) := hp
    have hq' : q ∈ (List.range g.vol.sectorsPerCluster).flatMap fun s =>
        (List.range 16).map fun e => (g.clusterLba c' + s, e) := hq
    simp only [List.mem_flatMap, List.mem_map, List.mem_range] at hp' hq'
    obtain ⟨s, hs, e, he, rfl⟩ := hp'
    obtain ⟨s', hs', e', he', rfl⟩ := hq'
    have hapart := @clusterPos_apart g c c' (inTable_of_mem_root hc).1
      (inTable_of_mem_root hc').1 hne
    have hbounds := @slotPos_mk_bounds g c s e hs he
    have hbounds' := @slotPos_mk_bounds g c' s' e' hs' he'
    omega

/-! ## What a write does to the image -/

theorem fat_image (hc : c < g.tableSize) :
    (g.image b).fat c = b.load (g.entryPos c) 4 % 2 ^ 28 :=
  if_pos hc

theorem data_image (hc : g.InTable c) (hroot : c ∉ g.root) (hi : i < g.clusterBytes) :
    (g.image b).data c i = b (g.clusterPos c + i) :=
  if_pos ⟨hc, hroot, hi⟩

theorem fat_congr
    (hagree : ∀ c < g.tableSize, ∀ i < 4, other (g.entryPos c + i) = b (g.entryPos c + i)) :
    (g.image other).fat = (g.image b).fat := by
  funext c
  by_cases hc : c < g.tableSize
  · rw [fat_image hc, fat_image hc, load_congr (hagree c hc)]
  · simp only [image, if_neg hc]

theorem data_congr (hagree : ∀ c, g.InTable c → c ∉ g.root → ∀ i < g.clusterBytes,
      other (g.clusterPos c + i) = b (g.clusterPos c + i)) :
    (g.image other).data = (g.image b).data := by
  funext c i
  by_cases hin : g.InTable c ∧ c ∉ g.root ∧ i < g.clusterBytes
  · rw [data_image hin.1 hin.2.1 hin.2.2, data_image hin.1 hin.2.1 hin.2.2,
      hagree c hin.1 hin.2.1 i hin.2.2]
  · simp only [image, if_neg hin]

/-- A slot is read from its own 32 bytes. -/
theorem slotOf_congr {entry entry' : DirEntry} (hagree : ∀ i < 32, entry i = entry' i) :
    slotOf entry = slotOf entry' := by
  have hname : DirEntry.rawName entry = DirEntry.rawName entry' :=
    slice_congr fun i hi => hagree _ (by omega)
  have hcluster : DirEntry.cluster entry = DirEntry.cluster entry' := by
    rw [DirEntry.cluster, DirEntry.cluster,
      load_congr fun i (hi : i < 2) => hagree (20 + i) (by omega),
      load_congr fun i (hi : i < 2) => hagree (26 + i) (by omega)]
  have hsize : DirEntry.fileSize entry = DirEntry.fileSize entry' :=
    load_congr fun i hi => hagree _ (by omega)
  rw [slotOf, slotOf, hname, hcluster, hsize, DirEntry.attributes, DirEntry.attributes,
    hagree 11 (by decide)]

theorem dir_congr (hagree : ∀ p ∈ g.slots, ∀ i < 32, other (slotPos p + i) = b (slotPos p + i)) :
    (g.image other).dir = (g.image b).dir :=
  List.map_congr_left fun p hp => slotOf_congr (hagree p hp)

/-- Bytes outside the first FAT and the data area do not show. -/
theorem image_congr
    (hfat : ∀ c < g.tableSize, ∀ i < 4, other (g.entryPos c + i) = b (g.entryPos c + i))
    (hdata : ∀ position, g.vol.dataLba * 512 ≤ position → other position = b position) :
    g.image other = g.image b := by
  apply Image.ext
  · exact fat_congr hfat
  · exact data_congr fun c _ _ i _ =>
      hdata _ ((dataLba_le_clusterPos c).trans (Nat.le_add_right _ _))
  · apply dir_congr
    intro p hp i _
    obtain ⟨c, -, hlow, -⟩ := slotPos_bounds hp
    exact hdata _ (((dataLba_le_clusterPos c).trans hlow).trans (Nat.le_add_right _ _))

/-- Storing a FAT entry changes that entry of the table only. -/
theorem image_store_entry {value : Nat} (hc : c < g.tableSize) :
    g.image (b.store (g.entryPos c) 4 value) =
      (g.image b).setFat c (value % 2 ^ 28) := by
  have hbefore : ∀ position, g.vol.dataLba * 512 ≤ position →
      b.store (g.entryPos c) 4 value position = b position := fun position hle =>
    store_apply_of_le ((entryPos_add_le hc).trans hle)
  apply Image.ext
  · funext c'
    by_cases hsame : c' = c
    · subst hsame
      rw [fat_image hc, load_store_same, Image.setFat_fat, Function.update_self]
      exact Nat.mod_mod_of_dvd _ (by decide)
    · rw [Image.setFat_fat, Function.update_of_ne hsame]
      by_cases hc' : c' < g.tableSize
      · rw [fat_image hc', fat_image hc', load_store_disjoint]
        simp only [entryPos]
        omega
      · simp only [image, if_neg hc']
  · exact data_congr fun c _ _ i _ =>
      hbefore _ ((dataLba_le_clusterPos c).trans (Nat.le_add_right _ _))
  · apply dir_congr
    intro p hp i _
    obtain ⟨c, -, hlow, -⟩ := slotPos_bounds hp
    exact hbefore _ (((dataLba_le_clusterPos c).trans hlow).trans (Nat.le_add_right _ _))

/-- Writing bytes of a cluster outside the root directory changes these bytes only. -/
theorem image_blit_cluster {off n : Nat} {source : ByteMap} (hc : g.InTable c)
    (hroot : c ∉ g.root) (hfits : off + n ≤ g.clusterBytes) :
    g.image (b.blit (g.clusterPos c + off) source n) =
      (g.image b).setData c (((g.image b).data c).blit off source n) := by
  have hstart := dataLba_le_clusterPos (g := g) c
  apply Image.ext
  · apply fat_congr
    intro c' hc' i hi
    have hend := entryPos_add_le hc'
    exact blit_apply_of_not_mem (by omega)
  · funext c' i
    by_cases hsame : c' = c
    · subst hsame
      rw [Image.setData_data, Function.update_self]
      by_cases hi : i < g.clusterBytes
      · rw [data_image hc hroot hi]
        simp only [blit, data_image hc hroot hi]
        by_cases hin : off ≤ i ∧ i < off + n
        · rw [if_pos hin, if_pos (by omega), Nat.add_sub_add_left]
        · rw [if_neg hin, if_neg (by omega)]
      · rw [blit_apply_of_not_mem (by omega)]
        simp only [image, hi, and_false, if_false]
    · rw [Image.setData_data, Function.update_of_ne hsame]
      by_cases hin : g.InTable c' ∧ c' ∉ g.root ∧ i < g.clusterBytes
      · rw [data_image hin.1 hin.2.1 hin.2.2, data_image hin.1 hin.2.1 hin.2.2]
        have hapart := @clusterPos_apart g c' c hin.1.1 hc.1 hsame
        exact blit_apply_of_not_mem (by omega)
      · simp only [image, if_neg hin]
  · apply dir_congr
    intro p hp i hi
    obtain ⟨c', hc', hlow, hhigh⟩ := slotPos_bounds hp
    have hne : c' ≠ c := fun hequal => hroot (hequal ▸ hc')
    have hapart := @clusterPos_apart g c' c (inTable_of_mem_root hc').1 hc.1 hne
    exact blit_apply_of_not_mem (by omega)

/-- Writing an entry into a slot changes that slot only. -/
theorem image_blit_slot {entry : DirEntry} (hp : g.slots[i]? = some p) :
    g.image (b.blit (slotPos p) entry 32) =
      (g.image b).setSlot i (slotOf entry) := by
  have hmem := List.mem_of_getElem? hp
  obtain ⟨c, hc, hlow, hhigh⟩ := slotPos_bounds hmem
  apply Image.ext
  · apply fat_congr
    intro c' hc' i hi
    have hend := entryPos_add_le hc'
    have hstart := dataLba_le_clusterPos (g := g) c
    exact blit_apply_of_not_mem (by omega)
  · apply data_congr
    intro c' hc' hroot i hi
    have hne : c' ≠ c := fun hequal => hroot (hequal ▸ hc)
    have hapart := @clusterPos_apart g c' c hc'.1 (inTable_of_mem_root hc).1 hne
    exact blit_apply_of_not_mem (by omega)
  · apply List.ext_getElem?
    intro j
    obtain ⟨hi, hget⟩ := List.getElem?_eq_some_iff.mp hp
    have hdir : ∀ d : ByteMap,
        (g.image d).dir[j]? = (g.slots[j]?).map fun q => slotOf (entryAt d q) :=
      fun d => List.getElem?_map
    by_cases hsame : i = j
    · subst hsame
      have hlength : i < (g.image b).dir.length := by simpa [image] using hi
      rw [hdir, hp, Option.map_some, Image.setSlot_dir, List.getElem?_set_self hlength]
      congr 1
      apply slotOf_congr
      intro k hk
      exact blit_apply_of_mem hk
    · rw [Image.setSlot_dir, hdir, List.getElem?_set_ne hsame, hdir]
      cases hq : g.slots[j]? with
      | none => rfl
      | some q =>
          obtain ⟨hj, hget'⟩ := List.getElem?_eq_some_iff.mp hq
          have hapart : slotPos p + 32 ≤ slotPos q ∨ slotPos q + 32 ≤ slotPos p := by
            rcases Nat.lt_or_gt_of_ne hsame with hlt | hgt
            · have hpair := List.pairwise_iff_getElem.mp g.slots_apart i j hi hj hlt
              rwa [hget, hget'] at hpair
            · have hpair := List.pairwise_iff_getElem.mp g.slots_apart j i hj hi hgt
              rw [hget, hget'] at hpair
              exact hpair.symm
          rw [Option.map_some, Option.map_some]
          congr 1
          apply slotOf_congr
          intro k hk
          exact blit_apply_of_not_mem (by omega)

end Geometry

end GeckoOS.Fs
