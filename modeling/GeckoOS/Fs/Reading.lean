/-
# Reading a file

`fat32_file_read` skips whole clusters, then copies sector by sector and follows
the chain at every cluster boundary.  On a drive whose transfers do not fail it
returns the requested part of the bytes of the chain, as far as both the recorded
size and the chain reach.  The request must be below `2 ^ 31`: a larger one is
negative in the signed comparison that keeps a copy inside its cluster.
-/

import GeckoOS.Fs.ChainWrites

namespace GeckoOS.Fs

open GeckoOS.Math ByteMap

namespace Geometry

variable {g : Geometry} {b : ByteMap} {c off n : Nat} {nodes : List Nat} {acc : List UInt8}

theorem Chain.drop {fat : Nat → Nat} (hchain : g.Chain fat nodes) (n : Nat) :
    g.Chain fat (nodes.drop n) := by
  induction n generalizing nodes with
  | zero => exact hchain
  | succ n ih =>
      cases nodes with
      | nil => exact hchain
      | cons c nodes => exact ih hchain.tail

/-- Skipping clusters walks along the chain, and fails behind its end. -/
theorem skipClusters_disk (hchain : g.Chain (g.image b).fat nodes) (hhead : nodes.head? = some c) :
    skipClusters g.vol n c (disk b) = (nodes[n]?, disk b) := by
  induction n generalizing nodes c with
  | zero => rw [skipClusters, ← hhead, List.head?_eq_getElem?]
  | succ n ih =>
      cases nodes with
      | nil => cases hhead
      | cons c' nodes =>
          obtain rfl := Option.some.inj hhead
          rw [skipClusters, nextCluster_disk (hchain.mem c' List.mem_cons_self).2,
            List.getElem?_cons_succ]
          cases nodes with
          | nil =>
              have hend := hchain.next_singleton
              have hstop : clusterBad ≤ (g.image b).fat c' := Nat.le_of_succ_le hend
              simp only [if_pos hstop, List.getElem?_nil]
          | cons next nodes =>
              have hnext := hchain.tail.mem next List.mem_cons_self
              have hgo : ¬ clusterBad ≤ (g.image b).fat c' := by
                rw [hchain.next_cons]
                exact Nat.not_le.mpr hnext.lt_bad
              simp only [if_neg hgo]
              exact ih hchain.tail (congrArg some hchain.next_cons.symm)

/-- The bytes of any cluster, whatever it belongs to. -/
def clusterData (g : Geometry) (b : ByteMap) (c : Nat) : ByteMap := fun i => b (g.clusterPos c + i)

/-- One sector of a cluster, from a byte of it on. -/
theorem slice_sector {chunk : Nat} :
    slice (fun i => b ((g.clusterLba c + off / 512) * 512 + i)) (off % 512) chunk =
      slice (g.clusterData b c) off chunk := by
  apply slice_shift
  intro i hi
  rw [clusterData, clusterPos]
  exact congrArg b (by omega)

/-- The inner loop copies a run of bytes inside one cluster. -/
theorem copyFromCluster_disk (hc : g.InTable c) (hfits : off + n ≤ g.clusterBytes) :
    copyFromCluster (g.clusterLba c) ⟨n, off, acc, disk b⟩ =
      some (true, ⟨0, off + n, acc ++ slice (g.clusterData b c) off n, disk b⟩) := by
  induction n using Nat.strongRecOn generalizing off acc with
  | ind n ih =>
      rw [copyFromCluster, loop_eq, copyRound]
      by_cases hmore : 0 < n
      · rw [if_pos hmore]
        have hsmall := g.clusterBytes_lt
        have hend := clusterLba_add_le hc
        have hbytes : g.clusterBytes = 512 * g.vol.sectorsPerCluster := rfl
        have hindex : u32 (off / 512) = off / 512 := u32_of_lt (by omega)
        have hsector : u32 (g.clusterLba c + off / 512) = g.clusterLba c + off / 512 :=
          u32_of_lt (by omega)
        have hinner : u32 (off % 512) = off % 512 := u32_of_lt (by omega)
        simp only [disk_sectorSize, hindex, hinner, hsector, read_disk]
        generalize hchunk : (if n < 512 - off % 512 then n else 512 - off % 512) = chunk
        have hpos : 0 < chunk ∧ chunk ≤ n := by
          split_ifs at hchunk <;> omega
        rw [slice_sector]
        have hrest := @ih (n - chunk) (by omega) (off + chunk)
          (acc ++ slice (g.clusterData b c) off chunk) (by omega)
        rw [copyFromCluster] at hrest
        rw [hrest]
        have hoff : off + chunk + (n - chunk) = off + n := by omega
        have hsplit : chunk + (n - chunk) = n := by omega
        rw [hoff, List.append_assoc, ← slice_add, hsplit]
      · obtain rfl := Nat.eq_zero_of_not_pos hmore
        simp [slice]

theorem int32_of_lt {value : Nat} (hsmall : value < 2 ^ 31) : int32 value = value := if_pos hsmall

/-- The signed comparison takes the smaller amount as long as nothing reaches `2 ^ 31`. -/
theorem bytesToCopy_eq {wanted : Nat} (hwanted : wanted < 2 ^ 31) :
    bytesToCopy g.vol wanted off = min wanted (g.clusterBytes - off) := by
  have hsmall := g.clusterBytes_lt
  have hroom : u32 (g.clusterBytes - off) = g.clusterBytes - off := u32_of_lt (by omega)
  have hsame : u32 wanted = wanted := u32_of_lt (by omega)
  rw [bytesToCopy, clusterSize_eq, hroom, hsame, int32_of_lt hwanted, int32_of_lt (by omega)]
  split_ifs with hlt <;> omega

/-- The outer loop copies what is wanted from here on, as far as the chain goes. -/
theorem readLoop_disk {len : Nat} (hchain : g.Chain (g.image b).fat nodes)
    (hnames : Names c nodes) (hoff : off < g.clusterBytes)
    (hacc : acc.length ≤ len) (hlen : len < 2 ^ 31) :
    loop (readRound g.vol len) ⟨c, off, acc, disk b⟩ =
      some (some (some (acc ++ slice (g.chainBytes (g.clusterData b) nodes) off
        (min (len - acc.length) (nodes.length * g.clusterBytes - off))), disk b)) := by
  induction nodes generalizing c off acc with
  | nil =>
      rcases hnames with hhead | ⟨-, hstop⟩
      · cases hhead
      · rw [loop_eq, readRound, if_neg (fun hboth => hstop hboth.2)]
        simp [slice]
  | cons c' nodes ih =>
      obtain rfl : c' = c := by
        rcases hnames with hhead | ⟨hnil, -⟩
        · exact Option.some.inj hhead
        · cases hnil
      have hc := hchain.mem c' List.mem_cons_self
      rw [loop_eq, readRound]
      by_cases hmore : acc.length < len
      · rw [if_pos ⟨hmore, hc.isLink⟩, clusterToLba_eq hc, bytesToCopy_eq (by omega)]
        generalize hcount : min (len - acc.length) (g.clusterBytes - off) = count
        have hcopy := @copyFromCluster_disk g b c' off count acc hc (by omega)
        rw [hcopy]
        simp only [clusterSize_eq]
        have hgrown : (acc ++ slice (g.clusterData b c') off count).length =
            acc.length + count := by
          rw [List.length_append, length_slice]
        have hhere : slice (g.chainBytes (g.clusterData b) (c' :: nodes)) off count =
            slice (g.clusterData b c') off count :=
          slice_congr fun i hi => chainBytes_cons_of_lt (by omega)
        have hlength : (c' :: nodes).length * g.clusterBytes =
            nodes.length * g.clusterBytes + g.clusterBytes := by
          rw [List.length_cons, Nat.succ_mul]
        by_cases hboundary : g.clusterBytes ≤ off + count
        · -- The cluster is used up: the rest comes from the rest of the chain.
          rw [if_pos hboundary]
          simp only [nextCluster_disk hc.2]
          rw [ih hchain.tail hchain.names_next
            clusterBytes_pos (by omega), hgrown, List.append_assoc, ← hhere]
          have hthere : slice (g.chainBytes (g.clusterData b) nodes) 0
                (min (len - (acc.length + count)) (nodes.length * g.clusterBytes - 0)) =
              slice (g.chainBytes (g.clusterData b) (c' :: nodes)) (off + count)
                (min (len - (acc.length + count)) (nodes.length * g.clusterBytes - 0)) := by
            refine slice_shift fun i _ => ?_
            have hedge : off + count = g.clusterBytes := by omega
            rw [hedge, chainBytes_cons_add, Nat.zero_add]
          rw [hthere, ← slice_add, hlength]
          congr 6
          omega
        · -- The request ends inside the cluster.
          rw [if_neg hboundary]
          have hall : min (len - acc.length)
              (nodes.length * g.clusterBytes + g.clusterBytes - off) =
              count := by omega
          have hdone : ¬ (acc ++ slice (g.clusterData b c') off count).length < len := by
            rw [hgrown]
            omega
          simp only
          rw [loop_eq, readRound, if_neg (fun hboth => hdone hboth.1), hlength, hall, hhere]
      · rw [if_neg (fun hboth => hmore hboth.1)]
        have hnone : min (len - acc.length) ((c' :: nodes).length * g.clusterBytes - off) = 0 := by
          omega
        rw [hnone]
        simp [slice]

/-- How many bytes of a request a read serves: the recorded size and the chain both
limit it. -/
def served (g : Geometry) (nodes : List Nat) (size offset len : Nat) : Nat :=
  min len (min size (nodes.length * g.clusterBytes) - offset)

/-- `fat32_file_read` returns the requested part of the bytes of the chain. -/
theorem fileRead_clusters {file : DriveFile} {offset len : Nat}
    (hchain : g.Chain (g.image b).fat nodes)
    (hfirst : file.firstCluster = nodes.headD 0) (hempty : nodes = [] → file.fileSize = 0)
    (hsize : file.fileSize < 2 ^ 32) (hlen : len < 2 ^ 31) :
    fileRead (disk b) g.vol file offset len =
      some (some (slice (g.chainBytes (g.clusterData b) nodes) offset
        (g.served nodes file.fileSize offset len)), disk b) := by
  rw [fileRead]
  by_cases hpast : file.fileSize ≤ offset
  · have hnone : g.served nodes file.fileSize offset len = 0 := by
      rw [served]
      omega
    rw [if_pos hpast, hnone]
    simp [slice]
  · rw [if_neg hpast, clusterSize_eq]
    have hhead : nodes.head? = some file.firstCluster := by
      cases nodes with
      | nil =>
          have hzero := hempty rfl
          omega
      | cons c nodes => rw [hfirst, List.head?_cons, List.headD_cons]
    have hskip : u32 (offset / g.clusterBytes) = offset / g.clusterBytes :=
      u32_of_lt ((Nat.div_le_self _ _).trans_lt (by omega))
    have hoffset := Nat.div_add_mod' offset g.clusterBytes
    rw [hskip, skipClusters_disk hchain hhead]
    cases hcluster : nodes[offset / g.clusterBytes]? with
    | none =>
        have hend := List.getElem?_eq_none_iff.mp hcluster
        have hcap := Nat.mul_le_mul_right g.clusterBytes hend
        have hnone : g.served nodes file.fileSize offset len = 0 := by
          rw [served]
          omega
        rw [hnone]
        simp [slice]
    | some c =>
        have hdrop : Names c (nodes.drop (offset / g.clusterBytes)) := by
          rw [Names, List.head?_drop]
          exact .inl hcluster
        have hread := @readLoop_disk g b c (offset % g.clusterBytes) _ []
          (min len (file.fileSize - offset)) (hchain.drop (offset / g.clusterBytes))
          hdrop (Nat.mod_lt offset clusterBytes_pos) (Nat.zero_le _) (by omega)
        simp only [hread, Option.bind_some, id, List.nil_append, List.length_nil, Nat.sub_zero]
        have hcount : min (min len (file.fileSize - offset))
              ((nodes.drop (offset / g.clusterBytes)).length * g.clusterBytes -
                offset % g.clusterBytes) =
            g.served nodes file.fileSize offset len := by
          rw [List.length_drop, Nat.sub_mul, served]
          omega
        rw [hcount, slice_shift fun i _ => ?_]
        rw [chainBytes_drop, ← Nat.add_assoc, hoffset]

/-- Outside the root directory the bytes of the chain are those of the image. -/
theorem fileRead_disk {file : DriveFile} {offset len : Nat}
    (hchain : g.Chain (g.image b).fat nodes) (hroot : ∀ c ∈ nodes, c ∉ g.root)
    (hfirst : file.firstCluster = nodes.headD 0) (hempty : nodes = [] → file.fileSize = 0)
    (hsize : file.fileSize < 2 ^ 32) (hlen : len < 2 ^ 31) :
    fileRead (disk b) g.vol file offset len =
      some (some (slice (g.chainBytes (g.image b).data nodes) offset
        (g.served nodes file.fileSize offset len)), disk b) := by
  rw [fileRead_clusters hchain hfirst hempty hsize hlen, slice_congr]
  intro i hi
  rw [served] at hi
  have hposition : offset + i < nodes.length * g.clusterBytes := by omega
  have hindex : (offset + i) / g.clusterBytes < nodes.length :=
    (Nat.div_lt_iff_lt_mul clusterBytes_pos).mpr hposition
  have hmem := List.getElem_mem hindex
  rw [chainBytes, chainBytes, List.getD_eq_getElem _ _ hindex,
    data_image (hchain.mem _ hmem) (hroot _ hmem) (Nat.mod_lt _ clusterBytes_pos), clusterData]

end Geometry

end GeckoOS.Fs
