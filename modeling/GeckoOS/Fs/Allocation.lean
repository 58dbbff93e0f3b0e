/-
# Where allocated clusters lie

`fat32_alloc_cluster` takes the first entry of the FAT that is free.  The FAT has an
entry for every cluster of the data area, but its last sectors may have more than
that, and the scan goes over them as well.  So the cluster it takes lies on the
volume as long as a cluster of the data area is free, and behind the end of the
volume once the data area is full and the FAT is not.
-/

import GeckoOS.Fs.FatEntries
import GeckoOS.Fs.Mounting

namespace GeckoOS.Fs

open GeckoOS.Math ByteMap

namespace MountedVolume

/-- The first sector behind the volume. -/
def endLba (partitionLba : Nat) (m : MountedVolume) : Nat := partitionLba + m.totalSectors

/-- How many clusters the data area has, up to the end of the volume. -/
def dataClusters (partitionLba : Nat) (m : MountedVolume) : Nat :=
  (m.endLba partitionLba - m.dataStart partitionLba) / m.bpb.sectorsPerCluster

/-- A cluster of the data area. -/
def IsDataCluster (partitionLba : Nat) (m : MountedVolume) (c : Nat) : Prop :=
  2 ≤ c ∧ c < m.dataClusters partitionLba + 2

/-- A boot sector whose fields fit each other: sectors of 512 bytes, a FAT, a data area
that ends with the volume below LBA 2^32, and a FAT with an entry for each of its
clusters, whose numbers are no marks. -/
structure Consistent (partitionLba : Nat) (m : MountedVolume) : Prop where
  bytesPerSector_eq : m.bpb.bytesPerSector = 512
  numFats_pos : 0 < m.bpb.numFats
  dataStart_le : m.dataStart partitionLba ≤ m.endLba partitionLba
  endLba_le : m.endLba partitionLba ≤ 2 ^ 32
  table : m.dataClusters partitionLba + 2 ≤ m.vol.tableEntries
  marks : m.dataClusters partitionLba + 2 ≤ clusterBad

/-- What an allocation should do: the cluster was free and is one of the data area,
with all its sectors before the end of the volume, and only a full data area has
none to give. -/
def AllocSound (partitionLba : Nat) (m : MountedVolume) (b : ByteMap) : Prop :=
  ((allocCluster (disk b) m.vol).1 ≠ 0 →
    m.vol.link b (allocCluster (disk b) m.vol).1 = 0 ∧
      m.IsDataCluster partitionLba (allocCluster (disk b) m.vol).1 ∧
      clusterToLba m.vol (allocCluster (disk b) m.vol).1 + m.bpb.sectorsPerCluster ≤
        m.endLba partitionLba) ∧
  ((allocCluster (disk b) m.vol).1 = 0 →
    ∀ c, m.IsDataCluster partitionLba c → m.vol.link b c ≠ 0)

end MountedVolume

variable {m : MountedVolume} {partitionLba c i : Nat} {b : ByteMap} {d d' : Drive}

namespace MountedVolume.Consistent

variable (ha : Accepted partitionLba m) (hcons : m.Consistent partitionLba)

include ha hcons

theorem tableFits : m.vol.TableFits := by
  have hstart := hcons.dataStart_le
  have hend := hcons.endLba_le
  have hone : 1 * m.sectorsPerFat ≤ m.bpb.numFats * m.sectorsPerFat :=
    Nat.mul_le_mul_right _ hcons.numFats_pos
  have hfat : m.vol.fatLba ≤ partitionLba + m.bpb.reservedSectors := by
    rw [MountedVolume.vol, ha.fatLba_eq]
    exact Nat.mod_le _ _
  have hsectors : m.vol.sectorsPerFat = m.sectorsPerFat := rfl
  have hcopies : m.vol.numFats = m.bpb.numFats := rfl
  rw [MountedVolume.dataStart, MountedVolume.fatStart] at hstart
  rw [Volume.TableFits, hsectors, hcopies]
  split_ifs with htwo
  · have hboth : 2 * m.sectorsPerFat ≤ m.bpb.numFats * m.sectorsPerFat :=
      Nat.mul_le_mul_right _ htwo
    omega
  · omega

/-- A cluster of the data area ends before the volume does. -/
theorem clusterToLba_le (hc : m.IsDataCluster partitionLba c) :
    clusterToLba m.vol c + m.bpb.sectorsPerCluster ≤ m.endLba partitionLba := by
  have hpos := ha.sectorsPerCluster_pos
  have hstart := hcons.dataStart_le
  have hend := hcons.endLba_le
  have hextent := (clusterExtent_eq_iff hpos).mpr hcons.bytesPerSector_eq.le
  have hlast : (c - 2 + 1) * m.bpb.sectorsPerCluster ≤
      m.dataClusters partitionLba * m.bpb.sectorsPerCluster := by
    apply Nat.mul_le_mul_right
    have htwo := hc.1
    have hcluster := hc.2
    omega
  have harea : m.dataClusters partitionLba * m.bpb.sectorsPerCluster ≤
      m.endLba partitionLba - m.dataStart partitionLba := Nat.div_mul_le_self _ _
  rw [Nat.succ_mul] at hlast
  have hfit : m.ClusterFits partitionLba c := by
    rw [MountedVolume.ClusterFits, hextent]
    omega
  rw [ha.clusterToLba_of_fit hc.1 hfit]
  omega

omit ha in
theorem isDataCluster_lt (hc : m.IsDataCluster partitionLba c) :
    c < m.vol.tableEntries ∧ u32 c = c := by
  have htable := hcons.table
  have hmarks := hcons.marks
  have hcluster := hc.2
  simp only [clusterBad] at hmarks
  exact ⟨by omega, u32_of_lt (by omega)⟩

omit ha in
/-- A free cluster of the data area is taken for free by the scan. -/
theorem freeAt_of_free (hc : m.IsDataCluster partitionLba c) (hfree : m.vol.link b c = 0) :
    m.vol.freeAt b c = true := by
  rw [Volume.freeAt, (isDataCluster_lt hcons hc).2]
  exact decide_eq_true ⟨hc.1, hfree⟩

/-- With a free cluster in the data area the scan stops at one. -/
theorem allocSound_of_free (hc : m.IsDataCluster partitionLba c) (hfree : m.vol.link b c = 0) :
    m.AllocSound partitionLba b := by
  have hat := hcons.freeAt_of_free hc hfree
  obtain ⟨htable, -⟩ := hcons.isDataCluster_lt hc
  have hmem : c ∈ List.range m.vol.tableEntries := List.mem_range.mpr htable
  rw [MountedVolume.AllocSound, Volume.allocCluster_eq (hcons.tableFits ha)]
  cases hfind : (List.range m.vol.tableEntries).find? (m.vol.freeAt b) with
  | none => exact absurd hat (List.find?_eq_none.mp hfind c hmem)
  | some i =>
      obtain ⟨hfirst, -, hearlier⟩ := List.find?_range_eq_some.mp hfind
      have hle : i ≤ c := by
        by_contra hlater
        have hmissed := hearlier c (by omega)
        rw [hat] at hmissed
        cases hmissed
      have hsame : u32 i = i := by
        have hsmall := (hcons.isDataCluster_lt hc).2
        have hmarks := hcons.marks
        have hcluster := hc.2
        simp only [clusterBad] at hmarks
        exact u32_of_lt (by omega)
      rw [Volume.freeAt, hsame, decide_eq_true_eq] at hfirst
      have hdata : m.IsDataCluster partitionLba i := ⟨hfirst.1, hle.trans_lt hc.2⟩
      rw [Option.elim_some, hsame]
      exact ⟨fun _ => ⟨hfirst.2, hdata, hcons.clusterToLba_le ha hdata⟩,
        fun hzero => absurd hfirst.1 (by omega)⟩

/-- A table with nothing free has no free cluster to give, and gives none. -/
theorem allocSound_of_full (hfull : ∀ i < m.vol.tableEntries, m.vol.freeAt b i = false) :
    m.AllocSound partitionLba b := by
  have hfind : (List.range m.vol.tableEntries).find? (m.vol.freeAt b) = none := by
    rw [List.find?_eq_none]
    intro i hi
    rw [hfull i (List.mem_range.mp hi)]
    exact Bool.false_ne_true
  rw [MountedVolume.AllocSound, Volume.allocCluster_eq (hcons.tableFits ha), hfind]
  refine ⟨fun hsome => absurd rfl hsome, fun _ c hc hfree => ?_⟩
  have hat := hcons.freeAt_of_free hc hfree
  rw [hfull c (hcons.isDataCluster_lt hc).1] at hat
  cases hat

end MountedVolume.Consistent

/-- **Where allocated clusters lie.** On a volume whose boot sector is consistent an
allocation gives a free cluster of the data area, or none when there is none, exactly
when the data area has a free cluster or the whole FAT, entries behind the data area
included, has none. -/
theorem allocSound_iff (hopen : driveOpen d partitionLba = (some m, d'))
    (hcons : m.Consistent partitionLba) (b : ByteMap) :
    m.AllocSound partitionLba b ↔
      (∃ c, m.IsDataCluster partitionLba c ∧ m.vol.link b c = 0) ∨
        ∀ i < m.vol.tableEntries, m.vol.freeAt b i = false := by
  have ha := driveOpen_accepted hopen
  constructor
  · intro hsound
    by_contra hneither
    obtain ⟨hused, hmore⟩ := not_or.mp hneither
    push Not at hused hmore
    obtain ⟨i, hi, hat⟩ := hmore
    have hat : m.vol.freeAt b i = true := by simpa using hat
    rw [MountedVolume.AllocSound, Volume.allocCluster_eq (hcons.tableFits ha)] at hsound
    cases hfind : (List.range m.vol.tableEntries).find? (m.vol.freeAt b) with
    | none => exact absurd hat (List.find?_eq_none.mp hfind i (List.mem_range.mpr hi))
    | some j =>
        rw [hfind, Option.elim_some] at hsound
        have hj := List.find?_some hfind
        rw [Volume.freeAt, decide_eq_true_eq] at hj
        obtain ⟨hfree, hdata, -⟩ := hsound.1 (by simp only; omega)
        exact hused _ hdata hfree
  · rintro (⟨c, hc, hfree⟩ | hfull)
    · exact hcons.allocSound_of_free ha hc hfree
    · exact hcons.allocSound_of_full ha hfull

/-! ## A full data area -/

/-- A volume of four sectors, two of them data, with one FAT of one sector: the root
directory and one cluster in use. -/
def fullVolume : ByteMap :=
  let zeros : ByteMap := fun _ => 0
  ((((((((zeros.store 11 2 512).store 13 1 1).store 14 2 1).store 16 1 1).store 32 4 4).store
    36 4 1).store 44 4 2).store 520 4 clusterEoc).store 524 4 clusterEoc

/-- The volume mounted from it. -/
def fullMounted : MountedVolume := ⟨⟨512, 1, 1, 1, 0, 4, 1, 2⟩, 0, 1, 2, 2, 4, 1⟩

theorem fullMounted_consistent : fullMounted.Consistent 0 where
  bytesPerSector_eq := rfl
  numFats_pos := by decide
  dataStart_le := by decide
  endLba_le := by decide
  table := by decide
  marks := by decide

/-- Both its data clusters are in use, yet it is given cluster 4, whose sector is the
first behind the volume; a new chain is written there. -/
theorem fullVolume_overrun :
    driveOpen (disk fullVolume) 0 = (some fullMounted, disk fullVolume) ∧
      fullMounted.Consistent 0 ∧
      (allocCluster (disk fullVolume) fullMounted.vol).1 = 4 ∧
      clusterToLba fullMounted.vol 4 = fullMounted.endLba 0 ∧
      ¬ fullMounted.AllocSound 0 fullVolume ∧
      (writeClusterChain (disk fullVolume) fullMounted.vol [0x41]).2.bytes (4 * 512) = 0x41 := by
  have halloc : (allocCluster (disk fullVolume) fullMounted.vol).1 = 4 := by decide +kernel
  refine ⟨rfl, fullMounted_consistent, halloc, by decide, fun hsound => ?_, by decide +kernel⟩
  obtain ⟨-, hdata, -⟩ := hsound.1 (by rw [halloc]; decide)
  rw [halloc] at hdata
  exact absurd hdata.2 (by decide)

/-- The same volume with its second cluster free. -/
theorem allocSound_of_room :
    fullMounted.AllocSound 0 (fullVolume.store 524 4 0) :=
  (@allocSound_iff fullMounted 0 (disk fullVolume) (disk fullVolume) rfl fullMounted_consistent
    _).mpr (.inl ⟨3, ⟨by decide, by decide⟩, by decide +kernel⟩)

end GeckoOS.Fs
