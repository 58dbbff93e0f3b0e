/-
# Mounting a volume

`fat32_drive_open` reads the boot sector of a partition and keeps the fields the
driver works with.  It turns down a zero in `bytes_per_sector` or
`sectors_per_cluster` and a FAT16 table size, and nothing else.

Where a cluster starts is counted in drive sectors, `sectors_per_cluster` of them
for each cluster; how far it reaches is counted in bytes, `bytes_per_sector` times
`sectors_per_cluster`.  The two agree when the boot sector has the sector size of
the drive.  With larger sectors in the boot sector a cluster reaches into the
next one.
-/

import GeckoOS.Fs.Fat32
import Mathlib.Data.Set.Lattice
import Mathlib.Order.CompletePartialOrder

namespace GeckoOS.Fs

open GeckoOS.Math ByteMap

/-- The fields of `FAT32_BPB` the driver works with. -/
structure Bpb where
  bytesPerSector : Nat
  sectorsPerCluster : Nat
  reservedSectors : Nat
  numFats : Nat
  sectorsPerFat16 : Nat
  totalSectors32 : Nat
  sectorsPerFat32 : Nat
  rootCluster : Nat
deriving DecidableEq

/-- `memcpy(&volume.bpb, sector_buf, sizeof(FAT32_BPB))`. -/
def bpbOf (sectorBuf : ByteMap) : Bpb where
  bytesPerSector := sectorBuf.load 11 2
  sectorsPerCluster := sectorBuf.load 13 1
  reservedSectors := sectorBuf.load 14 2
  numFats := sectorBuf.load 16 1
  sectorsPerFat16 := sectorBuf.load 22 2
  totalSectors32 := sectorBuf.load 32 4
  sectorsPerFat32 := sectorBuf.load 36 4
  rootCluster := sectorBuf.load 44 4

/-- `FAT32_Volume` as `fat32_drive_open` fills it in. -/
structure MountedVolume where
  bpb : Bpb
  partitionLba : Nat
  fatLba : Nat
  dataLba : Nat
  rootCluster : Nat
  totalSectors : Nat
  sectorsPerFat : Nat
deriving DecidableEq

/-- `fat32_drive_open` of the partition that starts at `partitionLba`; `none` is
`NULL`. -/
def driveOpen (d : Drive) (partitionLba : Nat) : Option MountedVolume × Drive :=
  match d.read partitionLba with
  | (none, d) => (none, d)
  | (some sectorBuf, d) =>
      let bpb := bpbOf sectorBuf
      if bpb.bytesPerSector = 0 ∨ bpb.sectorsPerCluster = 0 then (none, d)
      else if bpb.sectorsPerFat16 ≠ 0 then (none, d)
      else
        let sectorsPerFat := bpb.sectorsPerFat32
        let fatLba := u32 (partitionLba + bpb.reservedSectors)
        let dataLba := u32 (fatLba + u32 (bpb.numFats * sectorsPerFat))
        (some ⟨bpb, u32 partitionLba, fatLba, dataLba, bpb.rootCluster, bpb.totalSectors32,
          sectorsPerFat⟩, d)

/-- What the other functions of the driver use of a mounted volume. -/
def MountedVolume.vol (m : MountedVolume) : Volume where
  bytesPerSector := m.bpb.bytesPerSector
  sectorsPerCluster := m.bpb.sectorsPerCluster
  numFats := m.bpb.numFats
  fatLba := m.fatLba
  dataLba := m.dataLba
  rootCluster := m.rootCluster
  sectorsPerFat := m.sectorsPerFat

/-- What holds of every volume that was accepted. -/
structure Accepted (partitionLba : Nat) (m : MountedVolume) : Prop where
  bytesPerSector_pos : 0 < m.bpb.bytesPerSector
  bytesPerSector_lt : m.bpb.bytesPerSector < 2 ^ 16
  sectorsPerCluster_pos : 0 < m.bpb.sectorsPerCluster
  sectorsPerCluster_lt : m.bpb.sectorsPerCluster < 256
  numFats_lt : m.bpb.numFats < 256
  sectorsPerFat_lt : m.sectorsPerFat < 2 ^ 32
  partitionLba_eq : m.partitionLba = u32 partitionLba
  fatLba_eq : m.fatLba = u32 (partitionLba + m.bpb.reservedSectors)
  dataLba_eq : m.dataLba = u32 (m.fatLba + u32 (m.bpb.numFats * m.sectorsPerFat))

variable {d d' : Drive} {lba partitionLba c : Nat} {m : MountedVolume}

theorem driveOpen_accepted (hopen : driveOpen d partitionLba = (some m, d')) :
    Accepted partitionLba m := by
  unfold driveOpen at hopen
  cases hread : d.read partitionLba with
  | mk buf rest =>
      rw [hread] at hopen
      cases buf with
      | none => cases hopen
      | some sectorBuf =>
          by_cases hzero : (bpbOf sectorBuf).bytesPerSector = 0 ∨
              (bpbOf sectorBuf).sectorsPerCluster = 0
          · simp only [if_pos hzero, Prod.mk.injEq, reduceCtorEq, false_and] at hopen
          · by_cases hsixteen : (bpbOf sectorBuf).sectorsPerFat16 ≠ 0
            · simp only [if_neg hzero, if_pos hsixteen, Prod.mk.injEq, reduceCtorEq,
                false_and] at hopen
            · simp only [if_neg hzero, if_neg hsixteen, Prod.mk.injEq, Option.some.injEq] at hopen
              obtain ⟨rfl, -⟩ := hopen
              obtain ⟨hbytes, hsectors⟩ := not_or.mp hzero
              exact ⟨Nat.pos_of_ne_zero hbytes, load_lt, Nat.pos_of_ne_zero hsectors, load_lt,
                load_lt, load_lt, rfl, rfl, rfl⟩

/-! ## The sectors of a cluster -/

/-- The sectors in which the driver reads and writes the bytes of cluster `c`: those
the byte offsets of a cluster are in, and those a new cluster is filled through. -/
def clusterSectors (sectorSize : Nat) (v : Volume) (c : Nat) : Set Nat :=
  {lba | (∃ off < clusterSize v, lba = u32 (clusterToLba v c + u32 (off / sectorSize))) ∨
    ∃ s < v.sectorsPerCluster, lba = u32 (clusterToLba v c + s)}

/-- The sectors of the copies of the FAT.  The driver works in the first one even
when `num_fats` is zero. -/
def fatSectors (v : Volume) : Set Nat :=
  {lba | ∃ copy < max 1 v.numFats, ∃ s < v.sectorsPerFat,
    lba = u32 (v.fatLba + copy * v.sectorsPerFat + s)}

/-- Only bytes of the given sectors changed. -/
structure Within (sectors : Set Nat) (d d' : Drive) : Prop where
  sectorSize_eq : d'.sectorSize = d.sectorSize
  bytes_eq : ∀ position, position / d.sectorSize ∉ sectors → d'.bytes position = d.bytes position

namespace Within

variable {sectors : Set Nat} {d'' : Drive}

theorem refl : Within sectors d d := ⟨rfl, fun _ _ => rfl⟩

theorem trans (hfirst : Within sectors d d') (hsecond : Within sectors d' d'') :
    Within sectors d d'' where
  sectorSize_eq := hsecond.sectorSize_eq.trans hfirst.sectorSize_eq
  bytes_eq := fun position houtside => by
    have hlast := hsecond.bytes_eq position
    rw [hfirst.sectorSize_eq] at hlast
    rw [hlast houtside, hfirst.bytes_eq position houtside]

theorem tick : Within sectors d d.tick := ⟨rfl, fun _ _ => rfl⟩

theorem write (d : Drive) (buf : ByteMap) (hlba : lba ∈ sectors) :
    Within sectors d (d.write lba buf).2 := by
  unfold Drive.write
  split
  · exact tick
  · refine ⟨rfl, fun position houtside => blit_apply_of_not_mem ?_⟩
    by_contra hinside
    refine houtside ?_
    have hsector : position / d.sectorSize = lba :=
      Nat.div_eq_of_lt_le (by omega) (by rw [Nat.succ_mul]; omega)
    rwa [hsector]

end Within

section Writes

variable {v : Volume} {source : List UInt8} {off : Nat}

/-- One round of the loop that writes content into a cluster stays in the sectors of
the cluster. -/
theorem patchRound_within {done : Nat} {result : (Int × Drive) ⊕ (Nat × Drive)}
    (hfits : off + source.length ≤ clusterSize v)
    (hround : patchRound (clusterToLba v c) off source (done, d) = result) :
    Within (clusterSectors d.sectorSize v c) d (result.elim Prod.snd Prod.snd) := by
  subst hround
  unfold patchRound
  by_cases hmore : done < source.length
  · have hsector : u32 (clusterToLba v c + u32 ((off + done) / d.sectorSize)) ∈
        clusterSectors d.sectorSize v c := .inl ⟨off + done, by omega, rfl⟩
    simp only [if_pos hmore, Drive.read]
    by_cases hfault : d.faults 0
    · simp only [if_pos hfault, Sum.elim_inl]
      exact Within.tick
    · simp only [hfault, Bool.false_eq_true, if_false]
      have hwrite := Within.write d.tick (ByteMap.blit
        (fun i => d.bytes (u32 (clusterToLba v c + u32 ((off + done) / d.sectorSize)) *
          d.sectorSize + i)) (u32 ((off + done) % d.sectorSize)) (ofList (source.drop done))
        (min (u32 (source.length - done)) (d.sectorSize - u32 ((off + done) % d.sectorSize))))
        hsector
      refine Within.tick.trans ?_
      split <;> rename_i heq <;> rw [heq] at hwrite <;> exact hwrite
  · simp only [if_neg hmore, Sum.elim_inl]
    exact Within.refl

/-- The whole loop does as well. -/
theorem patchCluster_within {rc : Int} (hfits : off + source.length ≤ clusterSize v)
    (hresult : patchCluster d (clusterToLba v c) off source = some (rc, d')) :
    Within (clusterSectors d.sectorSize v c) d d' := by
  suffices hall : ∀ s a, loop (patchRound (clusterToLba v c) off source) s = some a →
      s.2.sectorSize = d.sectorSize → Within (clusterSectors d.sectorSize v c) s.2 a.2 from
    hall _ _ hresult rfl
  intro s a hloop
  refine loop_induct (motive := fun s a => s.2.sectorSize = d.sectorSize →
    Within (clusterSectors d.sectorSize v c) s.2 a.2) ?_ ?_ hloop
  · rintro ⟨done, e⟩ a hleave hsize
    rw [← hsize]
    exact patchRound_within hfits hleave
  · rintro ⟨done, e⟩ ⟨done', e'⟩ a hround hlater hsize
    have hstep := patchRound_within hfits hround
    rw [hsize] at hstep
    exact hstep.trans (hlater (hstep.sectorSize_eq.trans hsize))

/-- The loop that fills the sectors of a new cluster writes these only. -/
theorem appendSectors_within {sectors : Set Nat} {lba : Nat} (indices : List Nat)
    (hindices : ∀ s ∈ indices, u32 (lba + s) ∈ sectors) :
    Within sectors d (appendSectors lba indices source d).2 := by
  induction indices generalizing source d with
  | nil => exact Within.refl
  | cons s more ih =>
      unfold appendSectors
      by_cases hrest : 0 < source.length
      · have hwrite := Within.write d (ofList (source.take d.sectorSize))
          (hindices s List.mem_cons_self)
        simp only [if_pos hrest]
        cases hresult : d.write (u32 (lba + s)) (ofList (source.take d.sectorSize)) with
        | mk ok e =>
            rw [hresult] at hwrite
            have hwritten : Within sectors d e := hwrite
            cases ok with
            | false => exact hwritten
            | true =>
                exact hwritten.trans (ih fun s' hs' => hindices s' (List.mem_cons_of_mem _ hs'))
      · simp only [if_neg hrest]
        exact Within.refl

/-- A cluster that `fat32_append_file` has allocated is filled through its own sectors. -/
theorem newCluster_within :
    Within (clusterSectors d.sectorSize v c) d
      (appendSectors (clusterToLba v c) (List.range v.sectorsPerCluster) source d).2 :=
  appendSectors_within _ fun s hs => .inr ⟨s, List.mem_range.mp hs, rfl⟩

end Writes

namespace MountedVolume

/-- The first sector behind the reserved ones, not reduced to 32 bits. -/
def fatStart (partitionLba : Nat) (m : MountedVolume) : Nat :=
  partitionLba + m.bpb.reservedSectors

/-- The first sector behind the FAT copies, not reduced to 32 bits. -/
def dataStart (partitionLba : Nat) (m : MountedVolume) : Nat :=
  m.fatStart partitionLba + m.bpb.numFats * m.sectorsPerFat

/-- The sectors a cluster reaches over. -/
def clusterExtent (m : MountedVolume) : Nat :=
  max m.bpb.sectorsPerCluster ((clusterSize m.vol + 511) / 512)

/-- The copies of the FAT have 32-bit sector numbers. -/
def FatsFit (partitionLba : Nat) (m : MountedVolume) : Prop :=
  m.fatStart partitionLba + max 1 m.bpb.numFats * m.sectorsPerFat ≤ 2 ^ 32

/-- So do the sectors of cluster `c`. -/
def ClusterFits (partitionLba : Nat) (m : MountedVolume) (c : Nat) : Prop :=
  m.dataStart partitionLba + (c - 2) * m.bpb.sectorsPerCluster + m.clusterExtent ≤ 2 ^ 32

/-- No two clusters share a sector, and none has a sector of the FAT. -/
def ClustersApart (partitionLba : Nat) (m : MountedVolume) : Prop :=
  ∀ c₁ c₂, 2 ≤ c₁ → 2 ≤ c₂ → c₁ ≠ c₂ →
    m.ClusterFits partitionLba c₁ → m.ClusterFits partitionLba c₂ →
      Disjoint (clusterSectors 512 m.vol c₁) (clusterSectors 512 m.vol c₂) ∧
        Disjoint (clusterSectors 512 m.vol c₁) (fatSectors m.vol) ∧
        Disjoint (clusterSectors 512 m.vol c₂) (fatSectors m.vol)

end MountedVolume

namespace Accepted

variable (ha : Accepted partitionLba m)

include ha

theorem fatLba_of_fit (hfats : m.FatsFit partitionLba) (hsome : 0 < m.sectorsPerFat) :
    m.fatLba = m.fatStart partitionLba := by
  have hone : 1 * m.sectorsPerFat ≤ max 1 m.bpb.numFats * m.sectorsPerFat :=
    Nat.mul_le_mul_right _ (le_max_left _ _)
  rw [MountedVolume.FatsFit] at hfats
  rw [ha.fatLba_eq, MountedVolume.fatStart]
  rw [MountedVolume.fatStart] at hfats
  exact u32_of_lt (by omega)

theorem dataLba_of_fit (hfit : m.ClusterFits partitionLba c) :
    m.dataLba = m.dataStart partitionLba := by
  have hpos := ha.sectorsPerCluster_pos
  have hextent : m.bpb.sectorsPerCluster ≤ m.clusterExtent := le_max_left _ _
  rw [MountedVolume.ClusterFits, MountedVolume.dataStart, MountedVolume.fatStart] at hfit
  have hcopies : u32 (m.bpb.numFats * m.sectorsPerFat) = m.bpb.numFats * m.sectorsPerFat :=
    u32_of_lt (by omega)
  have hfat : u32 (partitionLba + m.bpb.reservedSectors) = partitionLba + m.bpb.reservedSectors :=
    u32_of_lt (by omega)
  rw [ha.dataLba_eq, ha.fatLba_eq, MountedVolume.dataStart, MountedVolume.fatStart, hcopies, hfat]
  exact u32_of_lt (by omega)

/-- In range the arithmetic of `cluster_to_lba` does not wrap. -/
theorem clusterToLba_of_fit (hc : 2 ≤ c) (hfit : m.ClusterFits partitionLba c) :
    clusterToLba m.vol c =
      m.dataStart partitionLba + (c - 2) * m.bpb.sectorsPerCluster := by
  have hdata := ha.dataLba_of_fit hfit
  have hpos := ha.sectorsPerCluster_pos
  have hextent : m.bpb.sectorsPerCluster ≤ m.clusterExtent := le_max_left _ _
  have hindex : c - 2 ≤ (c - 2) * m.bpb.sectorsPerCluster := Nat.le_mul_of_pos_right _ hpos
  rw [MountedVolume.ClusterFits] at hfit
  have hwrap : u32 (c + (2 ^ 32 - 2)) = c - 2 := by
    rw [u32]
    omega
  have hproduct : u32 ((c - 2) * m.bpb.sectorsPerCluster) = (c - 2) * m.bpb.sectorsPerCluster :=
    u32_of_lt (by omega)
  rw [clusterToLba, hwrap, MountedVolume.vol, hdata]
  simp only [hproduct]
  exact u32_of_lt (by omega)

/-- The sectors of a cluster are the run of its extent. -/
theorem mem_clusterSectors (hc : 2 ≤ c) (hfit : m.ClusterFits partitionLba c) :
    lba ∈ clusterSectors 512 m.vol c ↔
      m.dataStart partitionLba + (c - 2) * m.bpb.sectorsPerCluster ≤ lba ∧
        lba < m.dataStart partitionLba + (c - 2) * m.bpb.sectorsPerCluster + m.clusterExtent := by
  have hstart := ha.clusterToLba_of_fit hc hfit
  have hsectors : m.vol.sectorsPerCluster = m.bpb.sectorsPerCluster := rfl
  rw [MountedVolume.ClusterFits] at hfit
  rw [clusterSectors, Set.mem_ofPred_eq, hstart, hsectors]
  constructor
  · rintro (⟨off, hoff, rfl⟩ | ⟨s, hs, rfl⟩)
    · have hextent : (clusterSize m.vol + 511) / 512 ≤ m.clusterExtent := le_max_right _ _
      have hsector : u32 (off / 512) = off / 512 := u32_of_lt (by omega)
      rw [hsector, u32_of_lt (by omega)]
      omega
    · have hextent : m.bpb.sectorsPerCluster ≤ m.clusterExtent := le_max_left _ _
      rw [u32_of_lt (by omega)]
      omega
  · rintro ⟨hlow, hhigh⟩
    obtain ⟨i, rfl⟩ := Nat.exists_eq_add_of_le hlow
    have hi : i < m.clusterExtent := by omega
    rcases lt_max_iff.mp hi with hsector | hbyte
    · exact .inr ⟨i, hsector, (u32_of_lt (by omega)).symm⟩
    · refine .inl ⟨i * 512, by omega, ?_⟩
      have hindex : u32 i = i := u32_of_lt (by omega)
      rw [Nat.mul_div_cancel _ (by decide), hindex, u32_of_lt (by omega)]

/-- The sectors of the FAT lie in one run behind the reserved ones. -/
theorem fatSectors_bounds (hfats : m.FatsFit partitionLba) (hmem : lba ∈ fatSectors m.vol) :
    m.fatStart partitionLba ≤ lba ∧
      lba < m.fatStart partitionLba + max 1 m.bpb.numFats * m.sectorsPerFat := by
  obtain ⟨copy, hcopy, s, hs, rfl⟩ := hmem
  have hlast : (copy + 1) * m.sectorsPerFat ≤ max 1 m.bpb.numFats * m.sectorsPerFat :=
    Nat.mul_le_mul_right _ hcopy
  rw [Nat.succ_mul] at hlast
  have hs' : s < m.sectorsPerFat := hs
  have hstart : m.vol.fatLba = m.fatStart partitionLba := ha.fatLba_of_fit hfats (by omega)
  have hsectors : m.vol.sectorsPerFat = m.sectorsPerFat := rfl
  rw [MountedVolume.FatsFit] at hfats
  rw [hstart, hsectors, u32_of_lt (by omega)]
  omega

end Accepted

/-! ## When the clusters lie apart -/

/-- Sectors of the boot sector's size fit into those of the drive exactly when a
cluster reaches no further than its sectors. -/
theorem clusterExtent_eq_iff (hpos : 0 < m.bpb.sectorsPerCluster) :
    m.clusterExtent = m.bpb.sectorsPerCluster ↔ m.bpb.bytesPerSector ≤ 512 := by
  have hsize : clusterSize m.vol = m.bpb.bytesPerSector * m.bpb.sectorsPerCluster := rfl
  rw [MountedVolume.clusterExtent, max_eq_left_iff, hsize]
  constructor
  · intro hle
    by_contra hlarge
    have hmore : 513 * m.bpb.sectorsPerCluster ≤
        m.bpb.bytesPerSector * m.bpb.sectorsPerCluster := Nat.mul_le_mul_right _ (by omega)
    omega
  · intro hle
    have hmost : m.bpb.bytesPerSector * m.bpb.sectorsPerCluster ≤
        512 * m.bpb.sectorsPerCluster := Nat.mul_le_mul_right _ hle
    omega

namespace Accepted

variable {c₁ c₂ : Nat} (ha : Accepted partitionLba m)

include ha

/-- The lower of two clusters ends before the upper one begins. -/
theorem clusterSectors_apart_of_lt (hsize : m.bpb.bytesPerSector ≤ 512) (hc : 2 ≤ c₁)
    (hlt : c₁ < c₂) (hfit₁ : m.ClusterFits partitionLba c₁)
    (hfit₂ : m.ClusterFits partitionLba c₂) :
    Disjoint (clusterSectors 512 m.vol c₁) (clusterSectors 512 m.vol c₂) := by
  have hextent := (clusterExtent_eq_iff ha.sectorsPerCluster_pos).mpr hsize
  have hnext : (c₁ - 2 + 1) * m.bpb.sectorsPerCluster ≤ (c₂ - 2) * m.bpb.sectorsPerCluster :=
    Nat.mul_le_mul_right _ (by omega)
  rw [Nat.succ_mul] at hnext
  rw [Set.disjoint_left]
  intro lba hfirst hsecond
  rw [ha.mem_clusterSectors hc hfit₁] at hfirst
  rw [ha.mem_clusterSectors (by omega) hfit₂] at hsecond
  omega

theorem clusterSectors_fat_apart (hcopies : 0 < m.bpb.numFats ∨ m.sectorsPerFat = 0)
    (hfats : m.FatsFit partitionLba) (hc : 2 ≤ c) (hfit : m.ClusterFits partitionLba c) :
    Disjoint (clusterSectors 512 m.vol c) (fatSectors m.vol) := by
  rw [Set.disjoint_left]
  intro lba hcluster hfat
  rw [ha.mem_clusterSectors hc hfit, MountedVolume.dataStart] at hcluster
  have hbounds := ha.fatSectors_bounds hfats hfat
  rcases hcopies with hsome | hnone
  · rw [Nat.max_eq_right hsome] at hbounds
    omega
  · rw [hnone, Nat.mul_zero] at hbounds
    omega

/-- The second cluster starts where the first one has its sector `sectors_per_cluster`. -/
theorem clusterSectors_meet (hlarge : 512 < m.bpb.bytesPerSector)
    (hfit : m.ClusterFits partitionLba 3) :
    ¬ Disjoint (clusterSectors 512 m.vol 2) (clusterSectors 512 m.vol 3) := by
  have hpos := ha.sectorsPerCluster_pos
  have hextent : m.bpb.sectorsPerCluster < m.clusterExtent := by
    refine lt_of_le_of_ne (le_max_left _ _) fun hsame => ?_
    have hle := (clusterExtent_eq_iff hpos).mp hsame.symm
    omega
  have hfit₂ : m.ClusterFits partitionLba 2 := by
    rw [MountedVolume.ClusterFits] at hfit ⊢
    omega
  rw [Set.not_disjoint_iff]
  refine ⟨m.dataStart partitionLba + m.bpb.sectorsPerCluster, ?_, ?_⟩
  · rw [ha.mem_clusterSectors (by omega) hfit₂]
    omega
  · rw [ha.mem_clusterSectors (by omega) hfit]
    omega

/-- Without copies the data area starts on the table the driver works in. -/
theorem clusterSectors_fat_meet (hnone : m.bpb.numFats = 0) (hsome : 0 < m.sectorsPerFat)
    (hfats : m.FatsFit partitionLba) (hfit : m.ClusterFits partitionLba 2) :
    ¬ Disjoint (clusterSectors 512 m.vol 2) (fatSectors m.vol) := by
  have hpos := ha.sectorsPerCluster_pos
  have hextent : m.bpb.sectorsPerCluster ≤ m.clusterExtent := le_max_left _ _
  have hstart : m.dataStart partitionLba = m.fatStart partitionLba := by
    rw [MountedVolume.dataStart, hnone, Nat.zero_mul, Nat.add_zero]
  have hfat : m.vol.fatLba = m.fatStart partitionLba := ha.fatLba_of_fit hfats hsome
  rw [Set.not_disjoint_iff]
  refine ⟨m.fatStart partitionLba, ?_, 0, ?_, 0, hsome, ?_⟩
  · rw [ha.mem_clusterSectors (by omega) hfit]
    omega
  · exact lt_of_lt_of_le Nat.one_pos (le_max_left _ _)
  · rw [MountedVolume.ClusterFits] at hfit
    rw [hfat, Nat.zero_mul, Nat.add_zero, u32_of_lt (by omega)]

end Accepted

/-- **When clusters share no sector.** On a drive of 512-byte sectors whose FAT has
32-bit sector numbers, the clusters of an accepted boot sector lie apart from each
other and from the FAT exactly when its sectors are no larger than the drive's and
it declares a copy of its FAT; with room for one cluster only there is nothing to
share. -/
theorem clustersApart_iff (hopen : driveOpen d partitionLba = (some m, d'))
    (hsector : d.sectorSize = 512) (hfats : m.FatsFit partitionLba) :
    m.ClustersApart partitionLba ↔
      m.bpb.bytesPerSector ≤ d.sectorSize ∧ (0 < m.bpb.numFats ∨ m.sectorsPerFat = 0) ∨
        ¬ m.ClusterFits partitionLba 3 := by
  have ha := driveOpen_accepted hopen
  rw [hsector]
  constructor
  · intro hapart
    by_cases hfit : m.ClusterFits partitionLba 3
    · have hfit₂ : m.ClusterFits partitionLba 2 := by
        rw [MountedVolume.ClusterFits] at hfit ⊢
        omega
      obtain ⟨hclusters, hfat, -⟩ := hapart 2 3 (by omega) (by omega) (by omega) hfit₂ hfit
      refine .inl ⟨?_, ?_⟩
      · by_contra hlarge
        exact ha.clusterSectors_meet (by omega) hfit hclusters
      · by_contra hneither
        exact ha.clusterSectors_fat_meet (by omega) (by omega) hfats hfit₂ hfat
    · exact .inr hfit
  · rintro (⟨hsize, hcopies⟩ | hfew)
    · intro c₁ c₂ hc₁ hc₂ hne hfit₁ hfit₂
      refine ⟨?_, ha.clusterSectors_fat_apart hcopies hfats hc₁ hfit₁,
        ha.clusterSectors_fat_apart hcopies hfats hc₂ hfit₂⟩
      rcases Nat.lt_or_gt_of_ne hne with hlt | hgt
      · exact ha.clusterSectors_apart_of_lt hsize hc₁ hlt hfit₁ hfit₂
      · exact (ha.clusterSectors_apart_of_lt hsize hc₂ hgt hfit₂ hfit₁).symm
    · intro c₁ c₂ hc₁ hc₂ hne hfit₁ hfit₂
      refine absurd ?_ hfew
      rw [MountedVolume.ClusterFits] at hfit₁ hfit₂ ⊢
      -- one of the two is at least 3, and cluster 3 ends no later than it
      have hthree : 3 - 2 ≤ max (c₁ - 2) (c₂ - 2) := by omega
      have hlow := Nat.mul_le_mul_right m.bpb.sectorsPerCluster hthree
      rcases max_choice (c₁ - 2) (c₂ - 2) with hmax | hmax <;> rw [hmax] at hlow <;> omega

/-- A boot sector with sectors of `size` bytes, one of them reserved, and one FAT of
one sector. -/
def bootSector (size : Nat) : ByteMap :=
  let zeros : ByteMap := fun _ => 0
  (((((zeros.store 11 2 size).store 13 1 1).store 14 2 1).store 16 1 1).store 36 4 1).store 44 4 2

/-- The volume mounted from it. -/
def bootVolume (size : Nat) : MountedVolume := ⟨⟨size, 1, 1, 1, 0, 0, 1, 2⟩, 0, 1, 2, 2, 0, 1⟩

/-- With the sector size of the drive the clusters lie apart. -/
theorem clustersApart_sameSize : (bootVolume 512).ClustersApart 0 :=
  (@clustersApart_iff (disk (bootSector 512)) (disk (bootSector 512)) 0 (bootVolume 512) rfl rfl
    (by simp only [MountedVolume.FatsFit, MountedVolume.fatStart, bootVolume]; decide)).mpr
    (.inl ⟨by simp only [bootVolume, disk_sectorSize]; decide, .inl Nat.one_pos⟩)

/-- With sectors of 1024 bytes, one to a cluster, clusters 2 and 3 share a sector. -/
theorem clusters_share_sector :
    driveOpen (disk (bootSector 1024)) 0 = (some (bootVolume 1024), disk (bootSector 1024)) ∧
      (bootVolume 1024).FatsFit 0 ∧ (bootVolume 1024).ClusterFits 0 2 ∧
      (bootVolume 1024).ClusterFits 0 3 ∧
      3 ∈ clusterSectors 512 (bootVolume 1024).vol 2 ∧
      3 ∈ clusterSectors 512 (bootVolume 1024).vol 3 ∧
      ¬ (bootVolume 1024).ClustersApart 0 := by
  have hopen : driveOpen (disk (bootSector 1024)) 0 =
      (some (bootVolume 1024), disk (bootSector 1024)) := rfl
  have hfit₂ : (bootVolume 1024).ClusterFits 0 2 := by
    rw [MountedVolume.ClusterFits]
    decide
  have hfit₃ : (bootVolume 1024).ClusterFits 0 3 := by
    rw [MountedVolume.ClusterFits]
    decide
  have hfats : (bootVolume 1024).FatsFit 0 := by
    rw [MountedVolume.FatsFit]
    decide
  have hlower : 3 ∈ clusterSectors 512 (bootVolume 1024).vol 2 :=
    .inl ⟨512, by decide, by decide⟩
  have hupper : 3 ∈ clusterSectors 512 (bootVolume 1024).vol 3 := .inr ⟨0, by decide, by decide⟩
  refine ⟨hopen, hfats, hfit₂, hfit₃, hlower, hupper, fun hapart => ?_⟩
  obtain ⟨hclusters, -⟩ := hapart 2 3 (by decide) (by decide) (by decide) hfit₂ hfit₃
  exact Set.disjoint_left.mp hclusters hlower hupper

end GeckoOS.Fs
