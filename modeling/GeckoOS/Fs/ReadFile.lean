/-
# Reading a whole file into memory

`readfile` looks a file up, allocates a buffer of its size and fills it with reads of 128
bytes.  The loop ends with the first read that returns nothing or fails, and the buffer
is returned with the full size whatever was read.

Where the bytes of a file are is read off the links of the FAT, whether or not these make
a well-formed chain.  The buffer holds the file exactly when every piece of 128 bytes can
be read: its cluster exists, and neither the entries of the FAT on the way to it nor its
sector fail.
-/

import GeckoOS.Fs.FileContent
import GeckoOS.Fs.ListingFaults
import GeckoOS.Fs.Lookup

namespace GeckoOS.Fs

open GeckoOS.Math ByteMap

/-! ## The function -/

/-- `Buffer_t`. -/
structure Buffer where
  /-- What the memory from the address on holds, or nothing for `NULL`. -/
  bytes : Option ByteMap
  size : Nat

/-- A `drive_entry_t` the listing has not filled in; zero is `ENTRY_FILE`. -/
def blankEntry : RootEntry := .file ⟨[], 0, 0⟩

/-- The entries the loop of `readfile` goes through; its counter is an `int`. -/
def entriesSeen (r : RootEntries) : List RootEntry :=
  (r.entries ++ List.replicate (r.count - r.entries.length) blankEntry).take
    (int32 (u32 r.count)).toNat

/-- The file found in a list of entries. -/
def foundFile (fname : List UInt8) (entries : List RootEntry) : Option DriveFile :=
  (findFile fname entries).bind fun i =>
    match entries[i]? with
    | some (.file file) => some file
    | _ => none

/-- `readfile`; `fresh` is what the memory that `kmalloc` returns holds. -/
noncomputable def readfile (d : Drive) (v : Volume) (fname : List UInt8) (fresh : ByteMap) :
    Option (Buffer × Drive) :=
  (getRootEntries d v).bind fun (r, d) =>
    match foundFile fname (entriesSeen r) with
    | none => some (⟨none, 0⟩, d)
    | some file =>
        (readSteps d v file).map fun (bytes, d) =>
          (⟨some (fresh.blit 0 (ofList bytes) bytes.length), file.fileSize⟩, d)

/-! ## Where the bytes of a file are -/

/-- The cluster with a given number in the chain from `c` on, if the chain has one. -/
def clusterAt (b : ByteMap) (v : Volume) : Nat → Nat → Option Nat
  | 0, c => linkTo c
  | k + 1, c => (linkTo c).bind fun c => clusterAt b v k (nextCluster (disk b) v c).1

/-- Where a byte of a cluster is on the drive. -/
def bytePos (v : Volume) (c off : Nat) : Nat :=
  u32 (clusterToLba v c + off / 512) * 512 + off % 512

/-- A byte of a file, if its chain reaches it. -/
def byteOf (b : ByteMap) (v : Volume) (file : DriveFile) (i : Nat) : Option UInt8 :=
  (clusterAt b v (i / clusterSize v) file.firstCluster).map fun c =>
    b (bytePos v c (i % clusterSize v))

/-- The bytes of a file; zero where it has none. -/
def fileBytes (b : ByteMap) (v : Volume) (file : DriveFile) : ByteMap := fun i =>
  (byteOf b v file i).getD 0

/-- A volume whose boot sector has the sector size of the drive. -/
structure SameSectors (v : Volume) : Prop where
  bytesPerSector_eq : v.bytesPerSector = 512
  sectorsPerCluster_pos : 0 < v.sectorsPerCluster
  sectorsPerCluster_lt : v.sectorsPerCluster < 256

section Pieces

variable {b : ByteMap} {v : Volume} {file : DriveFile} {faults : Nat → Bool} {c k t j : Nat}

theorem clusterAt_succ (hlink : IsLink c) :
    clusterAt b v (k + 1) c = clusterAt b v k (nextCluster (disk b) v c).1 := by
  rw [clusterAt, linkTo_of_isLink hlink, Option.bind_some]

theorem isLink_of_clusterAt (hcluster : clusterAt b v k c = some t) : IsLink c := by
  cases k with
  | zero => exact (linkTo_eq_some.mp hcluster).1
  | succ k =>
      obtain ⟨c', hlink, -⟩ := Option.bind_eq_some_iff.mp hcluster
      exact (linkTo_eq_some.mp hlink).1

theorem isLink_clusterAt (hcluster : clusterAt b v k c = some t) : IsLink t := by
  induction k generalizing c with
  | zero =>
      obtain ⟨hlink, rfl⟩ := linkTo_eq_some.mp hcluster
      exact hlink
  | succ k ih =>
      rw [clusterAt_succ (isLink_of_clusterAt hcluster)] at hcluster
      exact ih hcluster

namespace Geometry

variable {g : Geometry} {nodes : List Nat}

/-- The clusters of a well-formed chain are numbered as in its list. -/
theorem clusterAt_chain (hchain : g.Chain (g.image b).fat nodes) (hnames : Names c nodes) :
    clusterAt b g.vol k c = nodes[k]? := by
  induction nodes generalizing c k with
  | nil =>
      rcases hnames with hhead | ⟨-, hstop⟩
      · cases hhead
      · cases k <;> rw [clusterAt, linkTo_of_not hstop] <;> rfl
  | cons c' nodes ih =>
      obtain rfl : c' = c := by
        rcases hnames with hhead | ⟨hnil, -⟩
        · exact Option.some.inj hhead
        · cases hnil
      have hc := hchain.mem c' List.mem_cons_self
      cases k with
      | zero => exact linkTo_of_isLink hc.isLink
      | succ k =>
          rw [clusterAt_succ hc.isLink, nextCluster_disk hc.2]
          exact ih hchain.tail hchain.names_next

/-- The bytes of a well-formed file are its content. -/
theorem WellFormed.byteOf_eq (hfile : g.WellFormed b file nodes) {i : Nat}
    (hi : i < file.fileSize) : byteOf b g.vol file i = (g.content b file nodes)[i]? := by
  have hlong := hfile.long
  have hindex : i / g.clusterBytes < nodes.length :=
    (Nat.div_lt_iff_lt_mul clusterBytes_pos).mpr (by omega)
  have hinner := Nat.mod_lt i (clusterBytes_pos (g := g))
  have hnames : Names file.firstCluster nodes := hfile.first ▸ names_headD
  have hc := hfile.chain.mem _ (List.getElem_mem hindex)
  have hend := clusterLba_add_le hc
  have hbytes : g.clusterBytes = 512 * g.vol.sectorsPerCluster := rfl
  rw [byteOf, clusterSize_eq, clusterAt_chain hfile.chain hnames, List.getElem?_eq_getElem hindex,
    Option.map_some, content, getElem?_slice hi, Nat.zero_add, chainBytes, clusterData,
    List.getD_eq_getElem _ _ hindex, bytePos, clusterToLba_eq hc, u32_of_lt (by omega), clusterPos]
  exact congrArg (fun position => some (b position)) (by omega)

end Geometry

/-- Skipping clusters walks along a chain as long as no read fails. -/
theorem skipClusters_faulty (hcluster : clusterAt b v k c = some t)
    (hok : failsWithin faults k = false) :
    skipClusters v k c (faulty b faults) = (some t, faulty b (later faults k)) := by
  induction k generalizing c faults with
  | zero =>
      obtain ⟨-, rfl⟩ := linkTo_eq_some.mp hcluster
      rw [skipClusters, later_zero]
  | succ k ih =>
      rw [clusterAt_succ (isLink_of_clusterAt hcluster)] at hcluster
      rw [failsWithin_succ, Bool.or_eq_false_iff] at hok
      have hsmall := Nat.not_le_of_lt (isLink_of_clusterAt hcluster).2
      rw [skipClusters, nextCluster_faulty, hok.1]
      simp only [Bool.false_eq_true, if_false, if_neg hsmall]
      rw [ih hcluster hok.2, later_later, Nat.add_comm]

/-- Where the chain or the reads end, skipping does not arrive at a cluster. -/
theorem skipClusters_stuck (hprev : ∀ m < k, (clusterAt b v m c).isSome)
    (hstuck : clusterAt b v k c = none ∨ failsWithin faults k = true) :
    ∀ t d, skipClusters v k c (faulty b faults) = (some t, d) → ¬IsLink t := by
  induction k generalizing c faults with
  | zero =>
      rintro t d hskip hlink
      cases hskip
      rcases hstuck with hnone | hfails
      · rw [clusterAt, linkTo_of_isLink hlink] at hnone
        cases hnone
      · cases hfails
  | succ k ih =>
      obtain ⟨t₀, hfirst⟩ := Option.isSome_iff_exists.mp (hprev 0 (Nat.succ_pos k))
      have hlink := isLink_of_clusterAt hfirst
      rw [skipClusters, nextCluster_faulty]
      cases hfault : faults 0 with
      | true =>
          rintro t d hskip
          simp at hskip
      | false =>
          simp only [Bool.false_eq_true, if_false]
          split_ifs with hbad
          · rintro t d hskip
            cases hskip
          · refine ih (fun m hm => ?_) ?_
            · rw [← clusterAt_succ hlink]
              exact hprev (m + 1) (Nat.succ_lt_succ hm)
            · rw [← clusterAt_succ hlink]
              rwa [failsWithin_succ, hfault, Bool.false_or] at hstuck

/-! ## One piece -/

theorem clusterSize_eq_of (hv : SameSectors v) : clusterSize v = 512 * v.sectorsPerCluster := by
  rw [clusterSize, hv.bytesPerSector_eq]

/-- A copy inside one sector is one read. -/
theorem copyFromCluster_faulty {lba off len : Nat} (hlen : 0 < len) (hfits : off % 512 + len ≤ 512)
    (hoff : off < 2 ^ 31) :
    copyFromCluster lba ⟨len, off, [], faulty b faults⟩ =
      some (if faults 0 then (false, ⟨len, off, [], faulty b (later faults 1)⟩)
        else (true, ⟨0, off + len,
          slice (fun i => b (u32 (lba + off / 512) * 512 + i)) (off % 512) len,
          faulty b (later faults 1)⟩)) := by
  have hindex : u32 (off / 512) = off / 512 := u32_of_lt (by omega)
  have hinner : u32 (off % 512) = off % 512 := u32_of_lt (by omega)
  have hchunk : (if len < 512 - off % 512 then len else 512 - off % 512) = len := by
    split_ifs <;> omega
  rw [copyFromCluster, loop_eq, copyRound, if_pos hlen]
  simp only [sectorSize_faulty, hindex, hinner, hchunk, read_faulty]
  cases faults 0 with
  | true => rfl
  | false =>
      simp only [Bool.false_eq_true, if_false, Nat.sub_self, List.nil_append]
      rw [loop_eq, copyRound, if_neg (Nat.lt_irrefl 0)]

/-- A piece lies in one sector of one cluster. -/
theorem piece_aligned (hv : SameSectors v) (j : Nat) :
    j * 128 % clusterSize v % 128 = 0 ∧ j * 128 % clusterSize v + 128 ≤ clusterSize v ∧
      j * 128 % clusterSize v % 512 + 128 ≤ 512 := by
  have hpos := hv.sectorsPerCluster_pos
  have hsplit := Nat.div_add_mod (j * 128) (clusterSize v)
  have hinner := Nat.mod_lt (j * 128) (y := clusterSize v) (by rw [clusterSize_eq_of hv]; omega)
  rw [clusterSize_eq_of hv] at hsplit hinner ⊢
  rw [Nat.mul_assoc] at hsplit
  omega

/-- How long a piece is. -/
def pieceLen (size j : Nat) : Nat := min 128 (size - j * 128)

/-- How many transfers a piece takes: the entries of the FAT on the way to its cluster,
its sector, and the entry of the cluster when the piece ends there. -/
def pieceTransfers (v : Volume) (size j : Nat) : Nat :=
  j * 128 / clusterSize v + 1 +
    if clusterSize v ≤ j * 128 % clusterSize v + pieceLen size j then 1 else 0

theorem slice_piece (hv : SameSectors v)
    (hcluster : clusterAt b v (j * 128 / clusterSize v) file.firstCluster = some t) {len : Nat}
    (hlen : len ≤ 128) :
    slice (fun i => b (u32 (clusterToLba v t + j * 128 % clusterSize v / 512) * 512 + i))
        (j * 128 % clusterSize v % 512) len =
      slice (fileBytes b v file) (j * 128) len := by
  obtain ⟨-, hfits, hsector⟩ := piece_aligned hv j
  refine slice_shift fun i hi => ?_
  have hsplit := Nat.div_add_mod (j * 128) (clusterSize v)
  have hplace : j * 128 + i =
      clusterSize v * (j * 128 / clusterSize v) + (j * 128 % clusterSize v + i) := by omega
  have hcell : (j * 128 % clusterSize v + i) / clusterSize v = 0 := Nat.div_eq_of_lt (by omega)
  have hindex : (j * 128 + i) / clusterSize v = j * 128 / clusterSize v := by
    rw [hplace, Nat.mul_add_div (by omega), hcell, Nat.add_zero]
  have hinner : (j * 128 + i) % clusterSize v = j * 128 % clusterSize v + i := by
    rw [hplace, Nat.mul_add_mod, Nat.mod_eq_of_lt (by omega)]
  have hsame : (j * 128 % clusterSize v + i) / 512 = j * 128 % clusterSize v / 512 := by omega
  rw [fileBytes, byteOf, hindex, hinner, hcluster, Option.map_some, Option.getD_some, bytePos,
    hsame]
  congr 1
  omega

/-- The loop of a read that stays in one sector: it fails with the read of the sector, and
follows the link of the cluster when it has reached its end. -/
theorem readLoop_faulty {off len : Nat} (hv : SameSectors v) (hlink : IsLink t) (hlen : 0 < len)
    (hfits : off + len ≤ clusterSize v) (hsector : off % 512 + len ≤ 512) :
    loop (readRound v len) ⟨t, off, [], faulty b faults⟩ =
      some (some (if faults 0 then (none, faulty b (later faults 1))
        else (some (slice (fun i => b (u32 (clusterToLba v t + off / 512) * 512 + i))
            (off % 512) len),
          faulty b (later faults (1 + if clusterSize v ≤ off + len then 1 else 0))))) := by
  have hbytes := clusterSize_eq_of hv
  have hspc := hv.sectorsPerCluster_lt
  have hamount : bytesToCopy v len off = len := by
    rw [bytesToCopy, u32_of_lt (by omega), u32_of_lt (by omega), Geometry.int32_of_lt (by omega),
      Geometry.int32_of_lt (by omega)]
    split_ifs <;> omega
  rw [loop_eq, readRound, if_pos ⟨hlen, hlink⟩]
  simp only [List.length_nil, Nat.sub_zero, hamount]
  rw [copyFromCluster_faulty hlen hsector (by omega)]
  cases faults 0 with
  | true => rfl
  | false =>
      simp only [Bool.false_eq_true, if_false]
      generalize hcopied : slice (fun i => b (u32 (clusterToLba v t + off / 512) * 512 + i))
        (off % 512) len = copied
      have hdone : ¬copied.length < len := by
        rw [← hcopied, length_slice]
        omega
      by_cases hedge : clusterSize v ≤ off + len
      · -- the link is read whether it is wanted or not
        simp only [if_pos hedge, nextCluster_faulty, later_later]
        rw [loop_eq, readRound, if_neg (fun hboth => hdone hboth.1)]
      · simp only [if_neg hedge]
        rw [loop_eq, readRound, if_neg (fun hboth => hdone hboth.1)]

theorem pieceLen_bounds {size : Nat} (hmore : j * 128 < size) :
    0 < pieceLen size j ∧ pieceLen size j ≤ 128 := by
  rw [pieceLen]
  omega

/-- A piece whose cluster exists and whose reads succeed is read. -/
theorem fileRead_piece (hv : SameSectors v) (hmore : j * 128 < file.fileSize)
    (hsmall : j * 128 < 2 ^ 31)
    (hcluster : clusterAt b v (j * 128 / clusterSize v) file.firstCluster = some t)
    (hok : failsWithin faults (j * 128 / clusterSize v + 1) = false) :
    fileRead (faulty b faults) v file (j * 128) 128 =
      some (some (slice (fileBytes b v file) (j * 128) (pieceLen file.fileSize j)),
        faulty b (later faults (pieceTransfers v file.fileSize j))) := by
  obtain ⟨-, hfits, hsector⟩ := piece_aligned hv j
  have hdiv := Nat.div_le_self (j * 128) (clusterSize v)
  obtain ⟨hlen, hlen'⟩ := pieceLen_bounds hmore
  rw [failsWithin_succ', Bool.or_eq_false_iff] at hok
  have hnow : later faults (j * 128 / clusterSize v) 0 = false := hok.2
  have hloop := @readLoop_faulty b v (later faults (j * 128 / clusterSize v)) t
    (j * 128 % clusterSize v) (pieceLen file.fileSize j) hv (isLink_clusterAt hcluster) hlen
    (by omega) (by omega)
  rw [hnow] at hloop
  rw [fileRead, if_neg (by omega), u32_of_lt (by omega), skipClusters_faulty hcluster hok.1,
    pieceTransfers, ← slice_piece hv hcluster hlen', Nat.add_assoc, ← later_later]
  exact congrArg (·.bind id) hloop

/-- A piece without a cluster, or with a read that fails, is not read at all. -/
theorem fileRead_stuck (hv : SameSectors v) (hmore : j * 128 < file.fileSize)
    (hsmall : j * 128 < 2 ^ 31)
    (hprev : ∀ m < j * 128 / clusterSize v, (clusterAt b v m file.firstCluster).isSome)
    (hstuck : clusterAt b v (j * 128 / clusterSize v) file.firstCluster = none ∨
      failsWithin faults (j * 128 / clusterSize v + 1) = true) :
    ∃ d, fileRead (faulty b faults) v file (j * 128) 128 = some (some [], d) ∨
      fileRead (faulty b faults) v file (j * 128) 128 = some (none, d) := by
  obtain ⟨-, hfits, hsector⟩ := piece_aligned hv j
  have hdiv := Nat.div_le_self (j * 128) (clusterSize v)
  obtain ⟨hlen, hlen'⟩ := pieceLen_bounds hmore
  rw [fileRead, if_neg (by omega), u32_of_lt (by omega)]
  by_cases hskip : clusterAt b v (j * 128 / clusterSize v) file.firstCluster = none ∨
      failsWithin faults (j * 128 / clusterSize v) = true
  · have hstop := skipClusters_stuck hprev hskip
    rcases hresult : skipClusters v (j * 128 / clusterSize v) file.firstCluster (faulty b faults)
      with ⟨_ | t, d⟩
    · exact ⟨d, .inl rfl⟩
    · refine ⟨d, .inl ?_⟩
      simp only
      rw [loop_eq, readRound, if_neg (fun hboth => hstop t d hresult hboth.2)]
      rfl
  · rw [not_or] at hskip
    obtain ⟨t, hcluster⟩ := Option.ne_none_iff_exists'.mp hskip.1
    have hok : failsWithin faults (j * 128 / clusterSize v) = false := by simpa using hskip.2
    have hnow : later faults (j * 128 / clusterSize v) 0 = true := by
      rcases hstuck with hnone | hfails
      · exact absurd hnone hskip.1
      · rwa [failsWithin_succ', hok, Bool.false_or] at hfails
    have hloop := @readLoop_faulty b v (later faults (j * 128 / clusterSize v)) t
      (j * 128 % clusterSize v) (pieceLen file.fileSize j) hv (isLink_clusterAt hcluster) hlen
      (by omega) (by omega)
    rw [hnow] at hloop
    rw [skipClusters_faulty hcluster hok]
    exact ⟨_, .inr (congrArg (·.bind id) hloop)⟩

/-! ## All pieces -/

/-- The transfers of the pieces in front of a piece. -/
def transfersBefore (v : Volume) (size : Nat) : Nat → Nat
  | 0 => 0
  | j + 1 => transfersBefore v size j + pieceTransfers v size j

/-- A piece can be read: its cluster exists, and the reads of the FAT on the way and of
its sector do not fail. -/
def PieceRead (b : ByteMap) (v : Volume) (file : DriveFile) (faults : Nat → Bool) (j : Nat) :
    Prop :=
  (clusterAt b v (j * 128 / clusterSize v) file.firstCluster).isSome ∧
    failsWithin (later faults (transfersBefore v file.fileSize j)) (j * 128 / clusterSize v + 1) =
      false

/-- The loop goes on after round `j`. -/
def GoesOn (b : ByteMap) (v : Volume) (file : DriveFile) (faults : Nat → Bool) (j : Nat) : Prop :=
  j * 128 < file.fileSize ∧ j * 128 < 2 ^ 31 ∧ PieceRead b v file faults j

/-- The rounds that go on put the pieces one behind the other. -/
theorem stepRound_run (hv : SameSectors v) {n : Nat} (hall : ∀ i < n, GoesOn b v file faults i) :
    loop (stepRound v file) ⟨0, [], faulty b faults⟩ =
      loop (stepRound v file) ⟨n, slice (fileBytes b v file) 0 (min file.fileSize (n * 128)),
        faulty b (later faults (transfersBefore v file.fileSize n))⟩ := by
  induction n with
  | zero =>
      rw [Nat.zero_mul, Nat.min_zero, transfersBefore, later_zero]
      rfl
  | succ n ih =>
      obtain ⟨hmore, hsmall, hcluster, hok⟩ := hall n (Nat.lt_succ_self n)
      obtain ⟨t, hcluster⟩ := Option.isSome_iff_exists.mp hcluster
      obtain ⟨hlen, -⟩ := pieceLen_bounds hmore
      have hfront : min file.fileSize (n * 128) = n * 128 := Nat.min_eq_right hmore.le
      have hgrown : min file.fileSize ((n + 1) * 128) = n * 128 + pieceLen file.fileSize n := by
        rw [pieceLen]
        omega
      rw [ih fun i hi => hall i (Nat.lt_succ_of_lt hi), loop_eq, stepRound]
      simp only [Geometry.stepOffset_eq hsmall, fileRead_piece hv hmore hsmall hcluster hok,
        length_slice]
      rw [if_pos hlen, hfront, hgrown, slice_add, Nat.zero_add, later_later, transfersBefore]

/-- In front of a piece that the loop gets to, the chain has all clusters. -/
theorem clusterAt_before (hv : SameSectors v) {n : Nat} (hall : ∀ i < n, GoesOn b v file faults i)
    {m : Nat} (hm : m < n * 128 / clusterSize v) : (clusterAt b v m file.firstCluster).isSome := by
  have hpos := hv.sectorsPerCluster_pos
  have hbytes := clusterSize_eq_of hv
  have hsize : 0 < clusterSize v := by omega
  have hbehind := (Nat.le_div_iff_mul_le hsize).mp hm
  have hstart : 4 * (m * v.sectorsPerCluster) * 128 = m * clusterSize v := by
    rw [hbytes]
    ring
  have hindex : 4 * (m * v.sectorsPerCluster) * 128 / clusterSize v = m := by
    rw [hstart, Nat.mul_div_cancel _ hsize]
  rw [Nat.succ_mul] at hbehind
  obtain ⟨-, -, hcluster, -⟩ := hall (4 * (m * v.sectorsPerCluster)) (by omega)
  rwa [hindex] at hcluster

/-- The loop ends with the first round that does not go on. -/
theorem readSteps_stop (hv : SameSectors v) (hsize : file.fileSize < 2 ^ 32) {n : Nat}
    (hall : ∀ i < n, GoesOn b v file faults i) (hstop : ¬GoesOn b v file faults n) :
    ∃ d, readSteps (faulty b faults) v file =
      some (slice (fileBytes b v file) 0 (min file.fileSize (n * 128)), d) := by
  rw [readSteps, stepRound_run hv hall]
  generalize hfaults : later faults (transfersBefore v file.fileSize n) = rest
  have hlast : n * 128 ≤ 2 ^ 31 := by
    cases n with
    | zero => omega
    | succ n =>
        have hbefore := (hall n (Nat.lt_succ_self n)).2.1
        omega
  by_cases hinside : n * 128 < file.fileSize ∧ n * 128 < 2 ^ 31
  · obtain ⟨hmore, hsmall⟩ := hinside
    have hstuck : clusterAt b v (n * 128 / clusterSize v) file.firstCluster = none ∨
        failsWithin rest (n * 128 / clusterSize v + 1) = true := by
      by_contra hnone
      rw [not_or] at hnone
      refine hstop ⟨hmore, hsmall, Option.isSome_iff_ne_none.mpr hnone.1, ?_⟩
      rw [hfaults]
      simpa using hnone.2
    obtain ⟨d, hread⟩ := fileRead_stuck hv hmore hsmall
      (fun m hm => clusterAt_before hv hall hm) hstuck
    refine ⟨d, ?_⟩
    rw [loop_eq, stepRound]
    rcases hread with hnothing | hfailed
    · simp only [Geometry.stepOffset_eq hsmall, hnothing]
      rfl
    · simp only [Geometry.stepOffset_eq hsmall, hfailed]
      rfl
  · have hend : file.fileSize ≤ stepOffset n := by
      by_cases hsmall : n * 128 < 2 ^ 31
      · rw [Geometry.stepOffset_eq hsmall]
        omega
      · -- the product is the first one that is no `int`
        have hproduct : n * 128 = 2 ^ 31 := by omega
        rw [stepOffset, hproduct]
        exact hsize.le.trans (by decide)
    have hread : fileRead (faulty b rest) v file (stepOffset n) 128 =
        some (some [], faulty b rest) := by
      rw [fileRead, if_pos hend]
    refine ⟨faulty b rest, ?_⟩
    rw [loop_eq, stepRound]
    simp only [hread]
    rfl

/-- `readfile` needs every piece of the file, and offsets that are an `int`. -/
def ReadsWhole (b : ByteMap) (v : Volume) (file : DriveFile) (faults : Nat → Bool) : Prop :=
  file.fileSize ≤ 2 ^ 31 ∧ ∀ j, j * 128 < file.fileSize → PieceRead b v file faults j

/-- The loop returns what it has read up to the first round that does not go on. -/
theorem readSteps_eq (hv : SameSectors v) (hsize : file.fileSize < 2 ^ 32)
    (faults : Nat → Bool) :
    ∃ n d, (∀ i < n, GoesOn b v file faults i) ∧ ¬GoesOn b v file faults n ∧
      readSteps (faulty b faults) v file =
        some (slice (fileBytes b v file) 0 (min file.fileSize (n * 128)), d) := by
  classical
  have hends : ∃ n, ¬GoesOn b v file faults n :=
    ⟨file.fileSize, fun hgoes => by
      have hmore := hgoes.1
      omega⟩
  have hall : ∀ i < Nat.find hends, GoesOn b v file faults i := fun i hi =>
    not_not.mp (Nat.find_min hends hi)
  obtain ⟨d, hsteps⟩ := readSteps_stop hv hsize hall (Nat.find_spec hends)
  exact ⟨_, d, hall, Nat.find_spec hends, hsteps⟩

/-- All pieces make the whole file, and with a piece missing they do not. -/
theorem readsWhole_iff (hsize : file.fileSize < 2 ^ 32) {n : Nat}
    (hall : ∀ i < n, GoesOn b v file faults i) (hstop : ¬GoesOn b v file faults n) :
    ReadsWhole b v file faults ↔ file.fileSize ≤ n * 128 := by
  constructor
  · rintro ⟨hint, hpieces⟩
    by_contra hshort
    exact hstop ⟨by omega, by omega, hpieces n (by omega)⟩
  · intro hlong
    constructor
    · cases n with
      | zero => omega
      | succ n =>
          have hbefore := (hall n (Nat.lt_succ_self n)).2.1
          omega
    · intro j hj
      exact (hall j (by omega)).2.2

theorem byteOf_of_pieceRead (hv : SameSectors v) {i : Nat}
    (hpiece : PieceRead b v file faults (i / 128)) :
    byteOf b v file i = some (fileBytes b v file i) := by
  have hindex : i / 128 * 128 / clusterSize v = i / clusterSize v := by
    have hbytes : clusterSize v = 4 * v.sectorsPerCluster * 128 := by
      rw [clusterSize_eq_of hv]
      ring
    rw [hbytes, Nat.mul_div_mul_right _ _ (by decide), Nat.div_div_eq_div_mul, Nat.mul_comm 128]
  obtain ⟨t, hcluster⟩ := Option.isSome_iff_exists.mp hpiece.1
  rw [hindex] at hcluster
  rw [fileBytes, byteOf, hcluster]
  rfl

/-- The buffer holds the file, whatever was in the memory before, exactly when the loop
gets to its end. -/
theorem buffer_holds_iff (hv : SameSectors v) (hsize : file.fileSize < 2 ^ 32) {n : Nat}
    (hall : ∀ i < n, GoesOn b v file faults i) (hstop : ¬GoesOn b v file faults n) :
    (∀ fresh : ByteMap, ∀ i < file.fileSize, byteOf b v file i =
      some (fresh.blit 0 (ofList (slice (fileBytes b v file) 0 (min file.fileSize (n * 128))))
        (min file.fileSize (n * 128)) i)) ↔ ReadsWhole b v file faults := by
  rw [readsWhole_iff hsize hall hstop]
  constructor
  · intro hholds
    by_contra hshort
    -- the first byte behind the pieces is the one the memory held before
    have hbehind : ∀ fresh : ByteMap,
        byteOf b v file (n * 128) = some (fresh (n * 128)) := fun fresh => by
      rw [hholds fresh (n * 128) (by omega), blit_apply_of_not_mem (by omega)]
    have hzero := hbehind fun _ => 0
    rw [hbehind fun _ => 1] at hzero
    exact absurd (Option.some.inj hzero) (by decide)
  · intro hlong fresh i hi
    rw [Nat.min_eq_left hlong, byteOf_of_pieceRead hv (hall (i / 128) (by omega)).2.2]
    have hbyte := @blit_apply_of_mem fresh 0
      (ofList (slice (fileBytes b v file) 0 file.fileSize)) file.fileSize i hi
    rw [Nat.zero_add] at hbyte
    rw [hbyte, ofList_slice hi, Nat.zero_add]

end Pieces

/-! ## The file found -/

theorem findFile_spec {fname : List UInt8} {entries : List RootEntry} {i : Nat}
    (hfind : findFile fname entries = some i) :
    ∃ file, entries[i]? = some (.file file) ∧ sameName file.name fname = true := by
  induction entries generalizing i with
  | nil => cases hfind
  | cons entry rest ih =>
      cases entry with
      | directory name =>
          obtain ⟨k, hrest, rfl⟩ := Option.map_eq_some_iff.mp hfind
          exact ih hrest
      | file file =>
          rw [findFile] at hfind
          split_ifs at hfind with hsame
          · obtain rfl := Option.some.inj hfind
            exact ⟨file, rfl, hsame⟩
          · obtain ⟨k, hrest, rfl⟩ := Option.map_eq_some_iff.mp hfind
            exact ih hrest

theorem foundFile_spec {fname : List UInt8} {entries : List RootEntry} {file : DriveFile}
    (hfound : foundFile fname entries = some file) :
    .file file ∈ entries ∧ sameName file.name fname = true := by
  obtain ⟨i, hfind, hentry⟩ := Option.bind_eq_some_iff.mp hfound
  obtain ⟨file', hget, hsame⟩ := findFile_spec hfind
  rw [hget] at hentry
  obtain rfl := Option.some.inj hentry
  exact ⟨List.mem_of_getElem? hget, hsame⟩

/-- Only entries that the listing has filled in have a name. -/
theorem mem_entries_of_foundFile {fname : List UInt8} (hname : fname ≠ []) {r : RootEntries}
    {file : DriveFile} (hfound : foundFile fname (entriesSeen r) = some file) :
    .file file ∈ r.entries := by
  obtain ⟨hmem, hsame⟩ := foundFile_spec hfound
  rcases List.mem_append.mp (List.mem_of_mem_take hmem) with hfilled | hblank
  · exact hfilled
  · obtain ⟨rfl⟩ := RootEntry.file.inj (List.eq_of_mem_replicate hblank)
    cases fname with
    | nil => exact absurd rfl hname
    | cons c fname => cases hsame

/-! ## A small file -/

/-- A volume with one cluster for the root directory and one for the file `A` of five
bytes. -/
def oneFile : ByteMap :=
  ByteMap.blit (fun i => if i < 512 then 0xFF else 0) 512 (newFileEntry [0x41] 3 5) 32

/-- The boot sector of that volume as the driver keeps it. -/
def oneFileVolume : Volume := ⟨512, 1, 1, 0, 1, 2, 1⟩

/-- A pass over its directory takes one transfer when it stops at the end mark. -/
theorem oneFile_pass {σ : Type} {cb : DirEntry → Nat → Nat → σ → Bool × σ} {ctx ctx' : σ}
    {faults : Nat → Bool} (hok : faults 0 = false)
    (hsector : visitSector cb (fun i => oneFile (1 * 512 + i)) 1 (List.range 16) ctx =
      (true, ctx')) :
    dirIterate (faulty oneFile faults) oneFileVolume 2 cb ctx =
      some (ctx', faulty oneFile (later faults 1)) := by
  have hentries : (faulty oneFile (later faults 1)).sectorSize / 32 = 16 :=
    congrArg (· / 32) sectorSize_faulty
  have hlba : u32 (clusterToLba oneFileVolume 2 + 0) = 1 := by decide
  have hrange : List.range oneFileVolume.sectorsPerCluster = [0] := by decide
  rw [dirIterate, loop_eq, dirIterateRound, if_pos (by decide), hrange, visitCluster, hlba,
    read_faulty, hok]
  simp only [Bool.false_eq_true, if_false, hentries, hsector]

/-- The listing takes one transfer in each pass. -/
theorem oneFile_listed {faults : Nat → Bool} (hok : failsWithin faults 2 = false) :
    getRootEntries (faulty oneFile faults) oneFileVolume =
      some (⟨1, [.file ⟨[0x41], 5, 3⟩]⟩, faulty oneFile (later faults 2)) := by
  have hfaults : faults 0 = false ∧ later faults 1 0 = false := by
    rw [failsWithin_succ, failsWithin_succ, Bool.or_eq_false_iff, Bool.or_eq_false_iff] at hok
    exact ⟨hok.1, hok.2.1⟩
  have hcount := @oneFile_pass Nat enumCountCb 0 1 faults hfaults.1 rfl
  have hfill := @oneFile_pass (List RootEntry) enumFillCb [] [.file ⟨[0x41], 5, 3⟩]
    (later faults 1) hfaults.2 rfl
  have hroot : oneFileVolume.rootCluster = 2 := rfl
  rw [getRootEntries, hroot, hcount, Option.bind_some]
  simp only [hfill, later_later]
  rfl

/-! ## What is returned -/

section Command

variable {b : ByteMap} {v : Volume} {file : DriveFile} {faults : Nat → Bool}
  {fname : List UInt8} {r : RootEntries} {d : Drive}

theorem size_lt_of_mem_sectorsRead {lba m : Nat} {s : Slot} (hs : s ∈ sectorsRead b faults lba m) :
    s.size < 2 ^ 32 := by
  induction m generalizing faults lba with
  | zero => cases hs
  | succ m ih =>
      rw [sectorsRead] at hs
      split_ifs at hs
      · cases hs
      · rcases List.mem_append.mp hs with hfirst | hrest
        · obtain ⟨e, -, rfl⟩ := List.mem_map.mp hfirst
          exact load_lt
        · exact ih hrest

/-- The size of an entry is 32 bits wide. -/
theorem size_lt_of_mem_slotsRead {n c : Nat} {s : Slot} (hs : s ∈ slotsRead b v n faults c) :
    s.size < 2 ^ 32 := by
  induction n generalizing faults c with
  | zero => cases hs
  | succ n ih =>
      rw [slotsRead] at hs
      split_ifs at hs with hlink hfault
      · rw [List.append_nil] at hs
        exact size_lt_of_mem_sectorsRead hs
      · rcases List.mem_append.mp hs with hfirst | hrest
        · exact size_lt_of_mem_sectorsRead hfirst
        · exact ih hrest
      · cases hs

theorem size_lt_of_mem_listing {dir : List Slot} (hdir : ∀ s ∈ dir, s.size < 2 ^ 32)
    (hfile : .file file ∈ (listing dir).map Slot.rootEntry) : file.fileSize < 2 ^ 32 := by
  obtain ⟨s, hs, hentry⟩ := List.mem_map.mp hfile
  have hsize := hdir s (List.takeWhile_subset _ (List.mem_of_mem_filter hs))
  rw [Slot.rootEntry] at hentry
  split_ifs at hentry
  · obtain rfl := RootEntry.file.inj hentry
    exact hsize

/-- The listing leaves the medium as it is, and its files have 32-bit sizes. -/
theorem getRootEntries_faulty (hlist : getRootEntries (faulty b faults) v = some (r, d)) :
    (∃ k, d = faulty b (later faults k)) ∧
      ∀ file, .file file ∈ r.entries → file.fileSize < 2 ^ 32 := by
  obtain ⟨⟨count, d₁⟩, hfirst, hrest⟩ := Option.bind_eq_some_iff.mp hlist
  obtain ⟨k, rfl⟩ := dirIterate_faulty hfirst
  dsimp only at hrest
  split_ifs at hrest
  · cases hrest
    exact ⟨⟨k, rfl⟩, fun file hfile => by cases hfile⟩
  · obtain ⟨⟨entries, d₂⟩, hsecond, hresult⟩ := Option.bind_eq_some_iff.mp hrest
    obtain ⟨k', rfl⟩ := dirIterate_faulty hsecond
    obtain ⟨n, hentries⟩ := entries_eq hsecond
    cases hresult
    refine ⟨⟨k + k', by rw [later_later]⟩, fun file hfile => ?_⟩
    rw [← hentries n (Nat.le_refl n)] at hfile
    exact size_lt_of_mem_listing (fun s hs => size_lt_of_mem_slotsRead hs) hfile

/-- The buffer is `NULL`, or it holds the file that was found. -/
def Holds (b : ByteMap) (v : Volume) (found : Option DriveFile) (buffer : Buffer) : Prop :=
  buffer.bytes = none ∧ buffer.size = 0 ∨
    ∃ file bytes, found = some file ∧ buffer.bytes = some bytes ∧ buffer.size = file.fileSize ∧
      ∀ i < file.fileSize, byteOf b v file i = some (bytes i)

/-- What `readfile` has to do once the directory is listed, whatever the memory it gets
held before. -/
def ReturnsWhole (b : ByteMap) (v : Volume) (faults : Nat → Bool) (fname : List UInt8) : Prop :=
  ∀ r d, getRootEntries (faulty b faults) v = some (r, d) → ∀ fresh : ByteMap,
    ∃ buffer d', readfile (faulty b faults) v fname fresh = some (buffer, d') ∧
      Holds b v (foundFile fname (entriesSeen r)) buffer

/-- A file that is found is returned whole exactly when every piece of it can be read. -/
theorem returnsWhole_of_found {rest : Nat → Bool} (hv : SameSectors v)
    (hsize : file.fileSize < 2 ^ 32)
    (hlist : getRootEntries (faulty b faults) v = some (r, faulty b rest))
    (hfound : foundFile fname (entriesSeen r) = some file) :
    (∀ fresh : ByteMap, ∃ buffer d', readfile (faulty b faults) v fname fresh = some (buffer, d') ∧
      Holds b v (some file) buffer) ↔ ReadsWhole b v file rest := by
  obtain ⟨n, d', hall, hstop, hsteps⟩ := @readSteps_eq b v file hv hsize rest
  have hresult : ∀ fresh : ByteMap, readfile (faulty b faults) v fname fresh =
      some (⟨some (fresh.blit 0 (ofList (slice (fileBytes b v file) 0
        (min file.fileSize (n * 128)))) (min file.fileSize (n * 128))), file.fileSize⟩, d') :=
    fun fresh => by
      rw [readfile, hlist, Option.bind_some]
      simp only [hfound, hsteps, Option.map_some, length_slice]
  rw [← buffer_holds_iff hv hsize hall hstop]
  constructor
  · intro hreturns fresh
    obtain ⟨buffer, d'', hbuffer, hholds⟩ := hreturns fresh
    rw [hresult fresh] at hbuffer
    cases hbuffer
    rcases hholds with ⟨hnull, -⟩ | ⟨file', bytes, hsame, hbytes, -, hread⟩
    · cases hnull
    · cases hsame
      cases hbytes
      exact hread
  · intro hholds fresh
    exact ⟨_, _, hresult fresh, .inr ⟨file, _, rfl, rfl, rfl, hholds fresh⟩⟩

/-- `readfile` returns the file or `NULL` exactly when the file is not found, or its size
and every piece of it allow it to be read. -/
theorem readfile_returnsWhole_iff (hv : SameSectors v) (hname : fname ≠ []) :
    ReturnsWhole b v faults fname ↔
      ∀ r d file, getRootEntries (faulty b faults) v = some (r, d) →
        foundFile fname (entriesSeen r) = some file → ReadsWhole b v file d.faults := by
  constructor
  · intro hreturns r d file hlist hfound
    obtain ⟨⟨k, rfl⟩, hsizes⟩ := getRootEntries_faulty hlist
    have hsize := hsizes file (mem_entries_of_foundFile hname hfound)
    have hwhole := hreturns r _ hlist
    rw [hfound] at hwhole
    exact (returnsWhole_of_found hv hsize hlist hfound).mp hwhole
  · intro hreads r d hlist
    obtain ⟨⟨k, rfl⟩, hsizes⟩ := getRootEntries_faulty hlist
    cases hfound : foundFile fname (entriesSeen r) with
    | none =>
        intro fresh
        refine ⟨⟨none, 0⟩, faulty b (later faults k), ?_, .inl ⟨rfl, rfl⟩⟩
        rw [readfile, hlist, Option.bind_some]
        simp only [hfound]
    | some file =>
        have hsize := hsizes file (mem_entries_of_foundFile hname hfound)
        exact (returnsWhole_of_found hv hsize hlist hfound).mpr (hreads r _ file hlist hfound)

end Command

/-- The failed read of its only sector goes unnoticed. -/
theorem oneFile_not_returned :
    ¬ ReturnsWhole oneFile oneFileVolume (fun t => t = 2) [0x41] := by
  intro hreturns
  have hlist := @oneFile_listed (fun t => t = 2) (by decide)
  have hfound : foundFile [0x41] (entriesSeen ⟨1, [.file ⟨[0x41], 5, 3⟩]⟩) =
    some ⟨[0x41], 5, 3⟩ := rfl
  have hwhole := hreturns _ _ hlist
  rw [hfound, returnsWhole_of_found ⟨rfl, by decide, by decide⟩ (by decide) hlist hfound] at hwhole
  have hpiece := (hwhole.2 0 (by decide)).2
  exact absurd hpiece (by decide)

theorem oneFile_returned : ReturnsWhole oneFile oneFileVolume (fun _ => false) [0x41] := by
  refine (readfile_returnsWhole_iff ⟨rfl, by decide, by decide⟩ (by decide)).mpr ?_
  intro r d file hlist hfound
  rw [oneFile_listed (by decide)] at hlist
  cases hlist
  obtain rfl : file = ⟨[0x41], 5, 3⟩ := (Option.some.inj hfound).symm
  refine ⟨by decide, fun j hj => ?_⟩
  obtain rfl : j = 0 := by
    simp only at hj
    omega
  exact ⟨by decide, by decide⟩

end GeckoOS.Fs
