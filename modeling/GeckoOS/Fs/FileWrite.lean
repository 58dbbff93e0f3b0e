/-
# Writing inside a file

`fat32_file_write` overwrites bytes of a file in place and never makes it longer.  It
skips whole clusters like the read does, then rewrites sector by sector up to the end
of the cluster, and follows the chain while something is left to write.

On a well-formed file it writes everything that lies before the end of the file.  The
bytes of the chain in the range written are the new ones, and no other byte of the
drive changes.
-/

import GeckoOS.Fs.FileContent

namespace GeckoOS.Fs

open GeckoOS.Math ByteMap

/-! ## The function -/

/-- What the inner loop of `fat32_file_write` carries. -/
structure PatchState where
  bytesWritten : Nat
  offsetInCluster : Nat
  drive : Drive

/-- One round of the inner loop; the flag says that no transfer failed. -/
def fileWriteInner (v : Volume) (lba : Nat) (buf : List UInt8) (len : Nat) (s : PatchState) :
    (Bool × PatchState) ⊕ PatchState :=
  if s.bytesWritten < len ∧ s.offsetInCluster < clusterSize v then
    let sectorIndex := u32 (s.offsetInCluster / s.drive.sectorSize)
    let offsetInSec := u32 (s.offsetInCluster % s.drive.sectorSize)
    let avail := s.drive.sectorSize - offsetInSec
    let wanted := u32 (len - s.bytesWritten)
    let chunk := if avail < wanted then avail else wanted
    match s.drive.read (u32 (lba + sectorIndex)) with
    | (none, d) => .inl (false, { s with drive := d })
    | (some tmp, d) =>
        match d.write (u32 (lba + sectorIndex))
            (tmp.blit offsetInSec (ofList (buf.drop s.bytesWritten)) chunk) with
        | (false, d) => .inl (false, { s with drive := d })
        | (true, d) => .inr ⟨s.bytesWritten + chunk, s.offsetInCluster + chunk, d⟩
  else .inl (true, s)

/-- What the outer loop of `fat32_file_write` carries. -/
structure WriteState where
  currentCluster : Nat
  clusterOffset : Nat
  bytesWritten : Nat
  drive : Drive

/-- One round of the outer loop. -/
noncomputable def fileWriteRound (v : Volume) (buf : List UInt8) (len : Nat) (s : WriteState) :
    Option (Nat × Drive) ⊕ WriteState :=
  if s.bytesWritten < len ∧ IsLink s.currentCluster then
    match loop (fileWriteInner v (clusterToLba v s.currentCluster) buf len)
        ⟨s.bytesWritten, s.clusterOffset, s.drive⟩ with
    | none => .inl none
    | some (false, t) => .inl (some (t.bytesWritten, t.drive))
    | some (true, t) =>
        if t.bytesWritten < len then
          match nextCluster t.drive v s.currentCluster with
          | (next, d) => .inr ⟨next, 0, t.bytesWritten, d⟩
        else .inr ⟨s.currentCluster, 0, t.bytesWritten, t.drive⟩
  else .inl (some (s.bytesWritten, s.drive))

/-- `fat32_file_write` of the bytes `buf`, with the number of bytes it returns.  The
sum of offset and length is one of `size_t`. -/
noncomputable def fileWrite (d : Drive) (v : Volume) (file : DriveFile) (offset : Nat)
    (buf : List UInt8) : Option (Nat × Drive) :=
  if file.fileSize ≤ offset then some (0, d)
  else
    let len := if file.fileSize < (offset + buf.length) % 2 ^ 64 then file.fileSize - offset
      else buf.length
    match skipClusters v (u32 (offset / clusterSize v)) file.firstCluster d with
    | (none, d) => some (0, d)
    | (some cluster, d) =>
        (loop (fileWriteRound v buf len) ⟨cluster, offset % clusterSize v, 0, d⟩).bind id

/-- `new` laid over `old` from `offset` on. -/
def overlay (old : List UInt8) (offset : Nat) (new : List UInt8) : List UInt8 :=
  old.take offset ++ new ++ old.drop (offset + new.length)

namespace Geometry

variable {g : Geometry} {b : ByteMap} {c off n len written position : Nat} {nodes : List Nat}
  {source : ByteMap} {buf : List UInt8} {file : DriveFile}

/-! ## Bytes of a chain -/

/-- Where byte `i` of a chain is. -/
def chainPos (g : Geometry) (nodes : List Nat) (i : Nat) : Nat :=
  g.clusterPos (nodes.getD (i / g.clusterBytes) 0) + i % g.clusterBytes

theorem chainBytes_clusterData (i : Nat) :
    g.chainBytes (g.clusterData b) nodes i = b (g.chainPos nodes i) := rfl

theorem chainPos_cons_of_lt {i : Nat} (hi : i < g.clusterBytes) :
    g.chainPos (c :: nodes) i = g.clusterPos c + i := by
  rw [chainPos, Nat.div_eq_of_lt hi, Nat.mod_eq_of_lt hi]
  rfl

theorem chainPos_cons_add (i : Nat) :
    g.chainPos (c :: nodes) (g.clusterBytes + i) = g.chainPos nodes i := by
  rw [chainPos, Nat.add_div_left i clusterBytes_pos, Nat.add_mod_left]
  rfl

theorem chainPos_drop (j i : Nat) :
    g.chainPos (nodes.drop j) i = g.chainPos nodes (j * g.clusterBytes + i) := by
  rw [chainPos, chainPos, Nat.mul_comm, Nat.mul_add_div clusterBytes_pos,
    Nat.mul_add_mod, List.getD_eq_getElem?_getD, List.getD_eq_getElem?_getD, List.getElem?_drop]

/-- The first `n` bytes of `source` put into a chain from byte `off` of its first
cluster on, cluster by cluster. -/
def patchChain (g : Geometry) : List Nat → Nat → ByteMap → Nat → ByteMap → ByteMap
  | [], _, _, _, b => b
  | c :: nodes, off, source, n, b =>
      let count := min n (g.clusterBytes - off)
      patchChain g nodes 0 (fun i => source (count + i)) (n - count)
        (b.blit (g.clusterPos c + off) source count)

/-- Nothing is changed but the range of the chain. -/
theorem patchChain_frame (hoff : off ≤ g.clusterBytes)
    (hout : ∀ i < n, position ≠ g.chainPos nodes (off + i)) :
    g.patchChain nodes off source n b position = b position := by
  induction nodes generalizing off source n b with
  | nil => rfl
  | cons c nodes ih =>
      rw [patchChain, ih (Nat.zero_le _)]
      · apply blit_apply_of_not_mem
        by_contra hinside
        refine hout (position - (g.clusterPos c + off)) (by omega) ?_
        rw [chainPos_cons_of_lt (by omega)]
        omega
      · intro i hi
        have hpos := hout (min n (g.clusterBytes - off) + i) (by omega)
        have hnext : off + (min n (g.clusterBytes - off) + i) = g.clusterBytes + (0 + i) := by omega
        rwa [hnext, chainPos_cons_add] at hpos

/-- A byte of a chain lies in one of its clusters. -/
theorem chainPos_mem {i : Nat} (hi : i < nodes.length * g.clusterBytes) :
    ∃ c ∈ nodes, g.clusterPos c ≤ g.chainPos nodes i ∧
      g.chainPos nodes i < g.clusterPos c + g.clusterBytes := by
  have hindex : i / g.clusterBytes < nodes.length :=
    (Nat.div_lt_iff_lt_mul clusterBytes_pos).mpr hi
  have hinner := Nat.mod_lt i (clusterBytes_pos (g := g))
  refine ⟨nodes[i / g.clusterBytes], List.getElem_mem hindex, ?_⟩
  rw [chainPos, List.getD_eq_getElem _ _ hindex]
  omega

/-- In the range the bytes are the new ones. -/
theorem patchChain_apply (hnodup : nodes.Nodup) (hin : ∀ c ∈ nodes, g.InTable c)
    (hoff : off ≤ g.clusterBytes) (hfits : off + n ≤ nodes.length * g.clusterBytes) {i : Nat}
    (hi : i < n) :
    g.patchChain nodes off source n b (g.chainPos nodes (off + i)) = source i := by
  induction nodes generalizing off source n b i with
  | nil => simp only [List.length_nil, Nat.zero_mul] at hfits; omega
  | cons c nodes ih =>
      obtain ⟨hfresh, hnodup'⟩ := List.nodup_cons.mp hnodup
      rw [List.length_cons, Nat.succ_mul] at hfits
      rw [patchChain]
      rcases Nat.lt_or_ge i (min n (g.clusterBytes - off)) with hhere | hlater
      · -- the clusters behind are others, so what is put into them does not hide it
        have hplace : g.chainPos (c :: nodes) (off + i) = g.clusterPos c + off + i := by
          rw [chainPos_cons_of_lt (by omega), Nat.add_assoc]
        rw [hplace, patchChain_frame (Nat.zero_le _), blit_apply_of_mem hhere]
        intro j hj hsame
        obtain ⟨c', hc', hlow, hhigh⟩ := @chainPos_mem g nodes (0 + j) (by omega)
        have hne : c ≠ c' := fun hequal => hfresh (hequal ▸ hc')
        have hapart := @clusterPos_apart g c c' (hin c List.mem_cons_self).1
          (hin c' (List.mem_cons_of_mem _ hc')).1 hne
        omega
      · have hnext : off + i =
            g.clusterBytes + (0 + (i - min n (g.clusterBytes - off))) := by omega
        rw [hnext, chainPos_cons_add, ih hnodup'
          (fun c' hc' => hin c' (List.mem_cons_of_mem _ hc')) (Nat.zero_le _) (by omega)
          (by omega)]
        exact congrArg source (by omega)

/-- Two bytes of a chain are at two places. -/
theorem chainPos_inj (hnodup : nodes.Nodup) (hin : ∀ c ∈ nodes, g.InTable c) {i j : Nat}
    (hi : i < nodes.length * g.clusterBytes) (hj : j < nodes.length * g.clusterBytes)
    (hsame : g.chainPos nodes i = g.chainPos nodes j) : i = j := by
  have hindex : ∀ k, k < nodes.length * g.clusterBytes → k / g.clusterBytes < nodes.length :=
    fun k hk => (Nat.div_lt_iff_lt_mul clusterBytes_pos).mpr hk
  have hcell : ∀ k, k < nodes.length * g.clusterBytes →
      nodes.getD (k / g.clusterBytes) 0 ∈ nodes := fun k hk => by
    rw [List.getD_eq_getElem _ _ (hindex k hk)]
    exact List.getElem_mem _
  have hinner : ∀ k, k % g.clusterBytes < g.clusterBytes := fun k => Nat.mod_lt k clusterBytes_pos
  rw [chainPos, chainPos] at hsame
  have hcluster : i / g.clusterBytes = j / g.clusterBytes := by
    by_contra hdiffer
    have hne : nodes.getD (i / g.clusterBytes) 0 ≠ nodes.getD (j / g.clusterBytes) 0 := by
      rw [List.getD_eq_getElem _ _ (hindex i hi), List.getD_eq_getElem _ _ (hindex j hj)]
      exact fun hequal => hdiffer ((List.Nodup.getElem_inj_iff hnodup).mp hequal)
    have hapart := @clusterPos_apart g _ _ (hin _ (hcell i hi)).1 (hin _ (hcell j hj)).1 hne
    have hi' := hinner i
    have hj' := hinner j
    omega
  rw [hcluster] at hsame
  have hi' := Nat.div_add_mod i g.clusterBytes
  have hj' := Nat.div_add_mod j g.clusterBytes
  rw [hcluster] at hi'
  omega

/-! ## The loops -/

/-- The inner loop writes up to the end of the cluster or of the bytes. -/
theorem fileWriteInner_disk (hc : g.InTable c) (hlen : len < 2 ^ 32) (hoff : off ≤ g.clusterBytes) :
    loop (fileWriteInner g.vol (g.clusterLba c) buf len) ⟨written, off, disk b⟩ =
      some (true, ⟨written + min (len - written) (g.clusterBytes - off),
        off + min (len - written) (g.clusterBytes - off),
        disk (b.blit (g.clusterPos c + off) (ofList (buf.drop written))
          (min (len - written) (g.clusterBytes - off)))⟩) := by
  induction hleft : g.clusterBytes - off using Nat.strongRecOn generalizing off written b with
  | ind left ih =>
      subst hleft
      rw [loop_eq, fileWriteInner, clusterSize_eq]
      by_cases hmore : written < len ∧ off < g.clusterBytes
      · have hsmall := g.clusterBytes_lt
        have hend := clusterLba_add_le hc
        have hbytes : g.clusterBytes = 512 * g.vol.sectorsPerCluster := rfl
        have hindex : u32 (off / 512) = off / 512 := u32_of_lt (by omega)
        have hinner : u32 (off % 512) = off % 512 := u32_of_lt (by omega)
        have hsector : u32 (g.clusterLba c + off / 512) = g.clusterLba c + off / 512 :=
          u32_of_lt (by omega)
        have hcount : u32 (len - written) = len - written := u32_of_lt (by omega)
        rw [if_pos hmore]
        simp only [disk_sectorSize, hindex, hinner, hsector, hcount, read_disk, write_disk]
        generalize hchunk : (if 512 - off % 512 < len - written then 512 - off % 512
          else len - written) = chunk
        have hbound : 0 < chunk ∧ chunk ≤ len - written ∧ chunk ≤ 512 - off % 512 := by
          split_ifs at hchunk <;> omega
        have hroom : chunk ≤ g.clusterBytes - off := by omega
        have hposition : (g.clusterLba c + off / 512) * 512 + off % 512 = g.clusterPos c + off := by
          rw [clusterPos]
          omega
        rw [blit_blit_window (by omega), hposition]
        have hrest := @ih (g.clusterBytes - (off + chunk)) (by omega)
          (b.blit (g.clusterPos c + off) (ofList (buf.drop written)) chunk) (off + chunk)
          (written + chunk) (by omega) rfl
        rw [hrest]
        have htotal : chunk + min (len - (written + chunk)) (g.clusterBytes - (off + chunk)) =
            min (len - written) (g.clusterBytes - off) := by omega
        rw [← Nat.add_assoc (g.clusterPos c), blit_append (fun _ _ => rfl) fun i _ => by
            simp [ofList, List.getD_eq_getElem?_getD, Nat.add_assoc],
          Nat.add_assoc, Nat.add_assoc, htotal]
      · have hnone : min (len - written) (g.clusterBytes - off) = 0 := by omega
        rw [if_neg hmore, hnone, blit_zero]
        rfl

/-- Bytes of a cluster are no bytes of the FAT. -/
theorem fat_blit_cluster :
    (g.image (b.blit (g.clusterPos c + off) source n)).fat = (g.image b).fat := by
  refine fat_congr fun entry hentry i hi => blit_apply_of_not_mem ?_
  have hbefore := entryPos_add_le hentry
  have hstart := dataLba_le_clusterPos (g := g) c
  omega

theorem patchChain_zero : g.patchChain nodes off source 0 b = b := by
  induction nodes generalizing off source with
  | nil => rfl
  | cons c nodes ih =>
      rw [patchChain, Nat.zero_min, blit_zero]
      exact ih

/-- The outer loop writes what is left, when the chain is long enough for it. -/
theorem fileWriteRound_disk (hchain : g.Chain (g.image b).fat nodes) (hnames : Names c nodes)
    (hlen : len < 2 ^ 32) (hoff : off ≤ g.clusterBytes) (hwritten : written ≤ len)
    (hfits : off + (len - written) ≤ nodes.length * g.clusterBytes) :
    loop (fileWriteRound g.vol buf len) ⟨c, off, written, disk b⟩ =
      some (some (len,
        disk (g.patchChain nodes off (ofList (buf.drop written)) (len - written) b))) := by
  induction nodes generalizing c off written b with
  | nil =>
      simp only [List.length_nil, Nat.zero_mul] at hfits
      have hdone : len = written := by omega
      rw [loop_eq, fileWriteRound, if_neg (fun hboth => absurd hdone (Nat.ne_of_gt hboth.1)), hdone]
      rfl
  | cons c' nodes ih =>
      obtain rfl : c' = c := by
        rcases hnames with hhead | ⟨hnil, -⟩
        · exact Option.some.inj hhead
        · cases hnil
      have hc := hchain.mem c' List.mem_cons_self
      rw [List.length_cons, Nat.succ_mul] at hfits
      rw [loop_eq, fileWriteRound]
      by_cases hmore : written < len
      · rw [if_pos ⟨hmore, hc.isLink⟩, clusterToLba_eq hc, fileWriteInner_disk hc hlen hoff,
          patchChain]
        generalize hcount : min (len - written) (g.clusterBytes - off) = count
        simp only []
        have hsource : (fun i => ofList (buf.drop written) (count + i)) =
            ofList (buf.drop (written + count)) := by
          funext i
          simp [ofList, List.getD_eq_getElem?_getD, Nat.add_assoc]
        rw [hsource, Nat.sub_sub]
        by_cases hbehind : written + count < len
        · -- what is left goes into the rest of the chain
          have hkept := @fat_blit_cluster g b c' off count (ofList (buf.drop written))
          rw [if_pos hbehind]
          simp only [nextCluster_disk hc.2, hkept]
          exact ih (hkept ▸ hchain.tail) hchain.names_next (Nat.zero_le _) (by omega) (by omega)
        · have hdone : written + count = len := by omega
          rw [if_neg hbehind]
          simp only []
          rw [loop_eq, fileWriteRound, if_neg (fun hboth => hbehind hboth.1), hdone, Nat.sub_self,
            patchChain_zero]
      · have hdone : len = written := by omega
        rw [if_neg (fun hboth => hmore hboth.1), hdone, Nat.sub_self, patchChain_zero]

/-! ## The whole write -/

/-- What a write at `offset` puts on the drive. -/
def overwritten (g : Geometry) (nodes : List Nat) (file : DriveFile) (offset : Nat)
    (buf : List UInt8) (b : ByteMap) : ByteMap :=
  g.patchChain (nodes.drop (offset / g.clusterBytes)) (offset % g.clusterBytes) (ofList buf)
    (min buf.length (file.fileSize - offset)) b

/-- `fat32_file_write` writes up to the end of the file, cluster by cluster. -/
theorem WellFormed.fileWrite (hfile : g.WellFormed b file nodes) {offset : Nat}
    (hsum : offset + buf.length < 2 ^ 64) :
    Fs.fileWrite (disk b) g.vol file offset buf =
      some (min buf.length (file.fileSize - offset),
        disk (g.overwritten nodes file offset buf b)) := by
  by_cases hinside : offset < file.fileSize
  case neg =>
    have hnone : min buf.length (file.fileSize - offset) = 0 := by omega
    rw [Fs.fileWrite, if_pos (by omega), overwritten, hnone, patchChain_zero]
  have hlong := hfile.long
  have hsize := hfile.size_lt
  have hpos := g.clusterBytes_pos
  have hskip : offset / g.clusterBytes < nodes.length :=
    (Nat.div_lt_iff_lt_mul hpos).mpr (by omega)
  have hsmall : offset / g.clusterBytes ≤ offset := Nat.div_le_self _ _
  have hinner : offset % g.clusterBytes < g.clusterBytes := Nat.mod_lt _ hpos
  have hsplit := Nat.div_add_mod offset g.clusterBytes
  obtain ⟨c, hhead⟩ : ∃ c, nodes.head? = some c := by
    cases nodes with
    | nil => cases hskip
    | cons c nodes => exact ⟨c, rfl⟩
  have hfirst : file.firstCluster = c := by
    rw [hfile.first, List.headD_eq_head?_getD, hhead]
    rfl
  have hclamp : (if file.fileSize < (offset + buf.length) % 2 ^ 64 then file.fileSize - offset
      else buf.length) = min buf.length (file.fileSize - offset) := by
    rw [Nat.mod_eq_of_lt hsum]
    split_ifs <;> omega
  have hroom : (nodes.drop (offset / g.clusterBytes)).length * g.clusterBytes =
      nodes.length * g.clusterBytes - offset / g.clusterBytes * g.clusterBytes := by
    rw [List.length_drop, Nat.sub_mul]
  rw [Nat.mul_comm] at hsplit
  have hloop := @fileWriteRound_disk g b nodes[offset / g.clusterBytes] (offset % g.clusterBytes)
    (min buf.length (file.fileSize - offset)) 0 (nodes.drop (offset / g.clusterBytes)) buf
    (hfile.chain.drop _) (.inl (by rw [List.head?_drop, List.getElem?_eq_getElem hskip]))
    (by omega) hinner.le (Nat.zero_le _) (by rw [hroom]; omega)
  rw [Fs.fileWrite, if_neg (by omega), clusterSize_eq, hclamp, u32_of_lt (by omega), hfirst,
    skipClusters_disk hfile.chain hhead, List.getElem?_eq_getElem hskip]
  simp only [hloop, List.drop_zero, Nat.sub_zero]
  rfl

/-- The bytes written are those of the chain from `offset` on. -/
theorem chainPos_offset (offset i : Nat) :
    g.chainPos (nodes.drop (offset / g.clusterBytes)) (offset % g.clusterBytes + i) =
      g.chainPos nodes (offset + i) := by
  rw [chainPos_drop, ← Nat.add_assoc, Nat.mul_comm, Nat.div_add_mod]

theorem overwritten_frame {offset : Nat} (hout : ∀ i < min buf.length (file.fileSize - offset),
      position ≠ g.chainPos nodes (offset + i)) :
    g.overwritten nodes file offset buf b position = b position :=
  patchChain_frame (Nat.mod_lt _ clusterBytes_pos).le fun i hi => by
    rw [chainPos_offset]
    exact hout i hi

theorem WellFormed.overwritten_apply (hfile : g.WellFormed b file nodes) {offset i : Nat}
    (hi : i < min buf.length (file.fileSize - offset)) :
    g.overwritten nodes file offset buf b (g.chainPos nodes (offset + i)) = ofList buf i := by
  have hlong := hfile.long
  have hsplit := Nat.div_add_mod offset g.clusterBytes
  have hroom : (nodes.drop (offset / g.clusterBytes)).length * g.clusterBytes =
      nodes.length * g.clusterBytes - g.clusterBytes * (offset / g.clusterBytes) := by
    rw [List.length_drop, Nat.sub_mul, Nat.mul_comm g.clusterBytes]
  rw [← chainPos_offset]
  exact patchChain_apply (hfile.chain.nodup.sublist (List.drop_sublist _ _))
    (fun c hc => hfile.chain.mem c (List.mem_of_mem_drop hc)) (Nat.mod_lt _ clusterBytes_pos).le
    (by omega) hi

/-- A place outside the clusters of a file keeps its byte. -/
theorem WellFormed.overwritten_outside (hfile : g.WellFormed b file nodes) {offset : Nat}
    (hout : ∀ c ∈ nodes, position < g.clusterPos c ∨ g.clusterPos c + g.clusterBytes ≤ position) :
    g.overwritten nodes file offset buf b position = b position := by
  refine overwritten_frame fun i hi hsame => ?_
  have hlong := hfile.long
  obtain ⟨c, hc, hlow, hhigh⟩ := @chainPos_mem g nodes (offset + i) (by omega)
  have hapart := hout c hc
  omega

/-- A list that is cut in three keeps its outer parts when only the middle one changes. -/
theorem slice_overlay {old bytes : ByteMap} {size offset : Nat} {new : List UInt8}
    (hfits : offset + new.length ≤ size)
    (hkept : ∀ i < size, i < offset ∨ offset + new.length ≤ i → bytes i = old i)
    (hnew : ∀ i < new.length, bytes (offset + i) = ofList new i) :
    slice bytes 0 size = overlay (slice old 0 size) offset new := by
  obtain ⟨rest, rfl⟩ := Nat.exists_eq_add_of_le hfits
  rw [slice_add, slice_add, @slice_add old, @slice_add old]
  have hhead : slice bytes 0 offset = slice old 0 offset :=
    slice_congr fun i hi => hkept _ (by omega) (.inl (by omega))
  have htail : slice bytes (0 + (offset + new.length)) rest =
      slice old (0 + (offset + new.length)) rest :=
    slice_congr fun i hi => hkept _ (by omega) (.inr (by omega))
  have hmiddle : slice bytes (0 + offset) new.length = new := by
    have hbytes := @slice_shift bytes (ofList new) (0 + offset) 0 new.length fun i hi => by
      rw [Nat.zero_add, Nat.zero_add, hnew i hi]
    rw [hbytes, slice_ofList]
  generalize hold : slice old (0 + offset) new.length = middle
  have hlength : middle.length = new.length := hold ▸ length_slice _
  rw [hhead, hmiddle, htail, overlay, List.append_assoc (slice old 0 offset) middle,
    List.take_left' (length_slice _), ← List.append_assoc, List.drop_left'
      (by rw [List.length_append, length_slice, hlength])]

/-- Laying nothing over a list. -/
theorem overlay_nil (old : List UInt8) (offset : Nat) : overlay old offset [] = old := by
  rw [overlay, List.append_nil, List.length_nil, Nat.add_zero, List.take_append_drop]

/-- A read asks for no more than the file has. -/
theorem fileRead_clamped (d : Drive) (v : Volume) (file : DriveFile) (offset len : Nat) :
    fileRead d v file offset (min len (file.fileSize - offset)) = fileRead d v file offset len := by
  rw [fileRead, fileRead, Nat.min_assoc, Nat.min_self]

/-- A write changes nothing but bytes of its file. -/
theorem WellFormed.overwritten_image (hfile : g.WellFormed b file nodes)
    (hroot : ∀ c ∈ nodes, c ∉ g.root) {offset : Nat} :
    (g.image (g.overwritten nodes file offset buf b)).fat = (g.image b).fat ∧
      (g.image (g.overwritten nodes file offset buf b)).dir = (g.image b).dir := by
  constructor
  · refine fat_congr fun entry hentry i hi => hfile.overwritten_outside fun c _ => ?_
    have hbefore := entryPos_add_le hentry
    have hstart := dataLba_le_clusterPos (g := g) c
    omega
  · refine dir_congr fun p hp i hi => hfile.overwritten_outside fun c hc => ?_
    obtain ⟨r, hr, hlow, hhigh⟩ := slotPos_bounds hp
    have hne : c ≠ r := fun hequal => hroot c hc (hequal ▸ hr)
    have hapart := @clusterPos_apart g c r (hfile.chain.mem c hc).1 (g.root_mem r hr).1 hne
    omega

/-- A file with other clusters keeps its content. -/
theorem WellFormed.overwritten_other {other : DriveFile} {nodes' : List Nat}
    (hfile : g.WellFormed b file nodes) (hother : g.WellFormed b other nodes')
    (hapart : nodes.Disjoint nodes') {offset : Nat} :
    g.content (g.overwritten nodes file offset buf b) other nodes' = g.content b other nodes' := by
  refine slice_congr fun i hi => ?_
  rw [Nat.zero_add, chainBytes_clusterData, chainBytes_clusterData]
  refine hfile.overwritten_outside fun c hc => ?_
  have hlong := hother.long
  obtain ⟨c', hc', hlow, hhigh⟩ := @chainPos_mem g nodes' i (by omega)
  have hne : c ≠ c' := fun hequal => hapart hc (hequal ▸ hc')
  have hclusters := @clusterPos_apart g c c' (hfile.chain.mem c hc).1 (hother.chain.mem c' hc').1
    hne
  omega

/-- The new content is the old one with the bytes written laid over it. -/
theorem WellFormed.overwritten_content (hfile : g.WellFormed b file nodes) {offset : Nat} :
    g.content (g.overwritten nodes file offset buf b) file nodes =
      overlay (g.content b file nodes) offset
        (buf.take (min buf.length (file.fileSize - offset))) := by
  have hlong := hfile.long
  generalize hcount : min buf.length (file.fileSize - offset) = n
  have hlength : (buf.take n).length = n := by
    rw [List.length_take]
    omega
  by_cases hinside : offset < file.fileSize
  · apply slice_overlay
    · rw [hlength]
      omega
    · intro i hi haway
      rw [hlength] at haway
      refine overwritten_frame fun j hj hsame => ?_
      have hplace := chainPos_inj hfile.chain.nodup hfile.chain.mem (by omega) (by omega) hsame
      omega
    · intro i hi
      rw [hlength] at hi
      rw [chainBytes_clusterData, hfile.overwritten_apply (hcount.symm ▸ hi), ofList, ofList,
        List.getD_eq_getElem?_getD, List.getD_eq_getElem?_getD, List.getElem?_take_of_lt hi]
  · obtain rfl : n = 0 := by omega
    rw [overwritten, hcount, patchChain_zero, List.take_zero, overlay_nil]

/-- A well-formed file stays one while its entries of the table do not change. -/
theorem WellFormed.of_fat {b' : ByteMap} (hfile : g.WellFormed b file nodes)
    (hfat : (g.image b').fat = (g.image b).fat) : g.WellFormed b' file nodes :=
  ⟨hfat ▸ hfile.chain, hfile.first, hfile.long, hfile.size_lt⟩

/-- What a write of `new` at `offset` of a file may do: lay the bytes over the content,
and change nothing else. -/
structure Overlaid (g : Geometry) (b b' : ByteMap) (file : DriveFile) (nodes : List Nat)
    (offset : Nat) (new : List UInt8) : Prop where
  /-- Reads see the new content. -/
  read : ∀ start len, min len (file.fileSize - start) < 2 ^ 31 →
    fileRead (disk b') g.vol file start len =
      some (some (((overlay (g.content b file nodes) offset new).drop start).take len), disk b')
  /-- So do reads one behind the other, whatever the size of the file. -/
  cuts : ∀ cuts : List Nat, (∀ len ∈ cuts, len < 2 ^ 31) → file.fileSize ≤ cuts.sum →
    readCuts g.vol file 0 cuts (disk b') =
      some (some (overlay (g.content b file nodes) offset new), disk b')
  length : (overlay (g.content b file nodes) offset new).length = file.fileSize
  /-- No other byte of the drive changes. -/
  frame : ∀ position, (∀ i < new.length, position ≠ g.chainPos nodes (offset + i)) →
    b' position = b position
  fat : (g.image b').fat = (g.image b).fat
  dir : (g.image b').dir = (g.image b).dir
  others : ∀ other nodes', g.WellFormed b other nodes' → nodes.Disjoint nodes' →
    g.WellFormed b' other nodes' ∧ g.content b' other nodes' = g.content b other nodes'

/-- `fat32_file_write` writes as much as lies before the end of the file, and nothing
else. -/
theorem fileWrite_overlays (hfile : g.WellFormed b file nodes) (hroot : ∀ c ∈ nodes, c ∉ g.root)
    {offset : Nat} (hsum : offset + buf.length < 2 ^ 64) :
    ∃ n b', n = (if file.fileSize ≤ offset then 0 else min buf.length (file.fileSize - offset)) ∧
      fileWrite (disk b) g.vol file offset buf = some (n, disk b') ∧
      g.Overlaid b b' file nodes offset (buf.take n) := by
  have hamount : min buf.length (file.fileSize - offset) =
      if file.fileSize ≤ offset then 0 else min buf.length (file.fileSize - offset) := by
    split_ifs <;> omega
  refine ⟨min buf.length (file.fileSize - offset), g.overwritten nodes file offset buf b, hamount,
    hfile.fileWrite hsum, ?_⟩
  have hcontent := @WellFormed.overwritten_content g b nodes buf file hfile offset
  obtain ⟨hfat, hdir⟩ := @WellFormed.overwritten_image g b nodes buf file hfile hroot offset
  have hafter := hfile.of_fat hfat
  have hreads := fileRead_content hafter
  rw [hcontent] at hreads
  constructor
  case read =>
    intro start len hsmall
    have hrest : ((overlay (g.content b file nodes) offset
        (buf.take (min buf.length (file.fileSize - offset)))).drop start).length =
          file.fileSize - start := by
      rw [List.length_drop, ← hcontent, length_content]
    rw [← fileRead_clamped, hreads.1 start _ hsmall, ← List.take_take,
      List.take_of_length_le hrest.le]
  case cuts => exact hreads.2
  case length => rw [← hcontent, length_content]
  case frame =>
    intro position hout
    refine overwritten_frame fun i hi => hout i ?_
    rw [List.length_take]
    omega
  case fat => exact hfat
  case dir => exact hdir
  case others =>
    intro other nodes' hother hapart
    exact ⟨hother.of_fat hfat, hfile.overwritten_other hother hapart⟩

/-- A write over the border of two clusters. -/
theorem fileWrite_overlays_twoClusters :
    ∃ n b', n = 100 ∧
      fileWrite (disk twoClusters) smallVolume.vol ⟨[0x41], 700, 3⟩ 500 (List.replicate 100 7) =
        some (n, disk b') ∧
      smallVolume.Overlaid twoClusters b' ⟨[0x41], 700, 3⟩ [3, 5] 500
        ((List.replicate 100 7).take n) := by
  obtain ⟨n, b', hcount, hwrite, hoverlaid⟩ := @fileWrite_overlays smallVolume twoClusters [3, 5]
    (List.replicate 100 7) ⟨[0x41], 700, 3⟩ twoClusters_wellFormed (by decide) 500 (by decide)
  exact ⟨n, b', hcount.trans (by decide), hwrite, hoverlaid⟩

end Geometry

end GeckoOS.Fs
