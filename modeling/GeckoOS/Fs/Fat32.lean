/-
# The FAT32 driver

The functions of `kernel/fs/fat32.c` on a drive whose transfers may fail.  A
sector buffer is a byte map, a directory entry is the 32 bytes of its packed
record, and a mounted volume is the part of `FAT32_Volume` the functions read.

Every function that touches the drive returns the drive it leaves behind.  The
loops that follow a cluster chain, and the copying loops whose progress depends
on the geometry, have no bound in the source; `none` means that such a loop never
returns.  `size_t` values are lengths of buffers in a 64-bit address space and
are not reduced; `uint32_t` values are.  A content buffer and its length are one
byte string, `NULL` with length zero being the empty one.
-/

import GeckoOS.Fs.Drive
import GeckoOS.Math.Loop

namespace GeckoOS.Fs

open GeckoOS.Math ByteMap

/-- The fields of `FAT32_Volume` and its BPB the driver works with. -/
structure Volume where
  bytesPerSector : Nat
  sectorsPerCluster : Nat
  numFats : Nat
  fatLba : Nat
  dataLba : Nat
  rootCluster : Nat
  sectorsPerFat : Nat

/-- `FAT32_ATTR_VOLUME_ID`. -/
abbrev attrVolumeId : UInt8 := 0x08

/-- `FAT32_ATTR_DIRECTORY`. -/
abbrev attrDirectory : UInt8 := 0x10

/-- `FAT32_ATTR_ARCHIVE`. -/
abbrev attrArchive : UInt8 := 0x20

/-- `FAT32_ATTR_LFN`. -/
abbrev attrLfn : UInt8 := 0x0F

/-- `FAT32_ENTRY_FREE`. -/
abbrev entryFree : UInt8 := 0xE5

/-- `FAT32_ENTRY_END`. -/
abbrev entryEnd : UInt8 := 0x00

/-- `FAT32_CLUSTER_FREE`. -/
abbrev clusterFree : Nat := 0

/-- `FAT32_CLUSTER_BAD`. -/
abbrev clusterBad : Nat := 0x0FFFFFF7

/-- `FAT32_CLUSTER_EOC`. -/
abbrev clusterEoc : Nat := 0x0FFFFFF8

/-- `FAT32_CLUSTER_MASK`. -/
abbrev clusterMask : Nat := 0x0FFFFFFF

/-- The date every written entry gets: `(44 << 9) | (1 << 5) | 1`. -/
abbrev stampDate : Nat := 22561

/-! ## Directory entries -/

/-- `FAT32_DirEntry`: the 32 bytes from position zero. -/
abbrev DirEntry := ByteMap

/-- `entries[e]` of a sector buffer. -/
def dirEntryAt (buf : ByteMap) (e : Nat) : DirEntry := fun i => buf (32 * e + i)

namespace DirEntry

/-- `name` and `ext`, the eleven bytes they are compared and copied as. -/
def rawName (entry : DirEntry) : List UInt8 := entry.slice 0 11

/-- `attributes`. -/
def attributes (entry : DirEntry) : UInt8 := entry 11

/-- `dir_entry_cluster`. -/
def cluster (entry : DirEntry) : Nat := entry.load 20 2 * 2 ^ 16 ||| entry.load 26 2

/-- `file_size`. -/
def fileSize (entry : DirEntry) : Nat := entry.load 28 4

/-- Both halves of the first cluster. -/
def setCluster (entry : DirEntry) (cluster : Nat) : DirEntry :=
  (entry.store 20 2 (cluster / 2 ^ 16)).store 26 2 cluster

/-- `file_size = value`. -/
def setFileSize (entry : DirEntry) (value : Nat) : DirEntry := entry.store 28 4 value

/-- `write_date` and `write_time` as every update sets them. -/
def stampWrite (entry : DirEntry) : DirEntry := (entry.store 24 2 stampDate).store 22 2 0

/-- `create_date` and `create_time` of a new file. -/
def stampCreate (entry : DirEntry) : DirEntry := (entry.store 16 2 stampDate).store 14 2 0

/-- A zeroed entry with its name and attributes filled in. -/
def named (rawName : List UInt8) (attributes : UInt8) : DirEntry :=
  (ByteMap.blit (fun _ => 0) 0 (ofList rawName) 11).store 11 1 attributes.toNat

end DirEntry

/-! ## 8.3 names -/

/-- The byte `' '`. -/
abbrev space : UInt8 := 0x20

/-- The byte `'.'`. -/
abbrev dotChar : UInt8 := 0x2E

/-- `if (c >= 'a' && c <= 'z') c -= 32`. -/
def upperCase (c : UInt8) : UInt8 := if 0x61 ≤ c ∧ c ≤ 0x7A then c - 32 else c

/-- The index of the last dot of a name. -/
def lastDot : List UInt8 → Option Nat
  | [] => none
  | c :: rest =>
      match lastDot rest with
      | some dot => some (dot + 1)
      | none => if c = dotChar then some 0 else none

/-- One name field: at most `width` characters in upper case, padded with spaces. -/
def nameField (width : Nat) (chars : List UInt8) : List UInt8 :=
  let kept := (chars.take width).map upperCase
  kept ++ List.replicate (width - kept.length) space

/-- `encode_83_name`: the eleven raw bytes of a name. -/
def encode83Name (name : List UInt8) : List UInt8 :=
  match lastDot name with
  | some dot => nameField 8 (name.take dot) ++ nameField 3 (name.drop (dot + 1))
  | none => nameField 8 name ++ nameField 3 []

/-- `format_83_name`: the characters before the terminator. -/
def format83Name (rawName : List UInt8) : List UInt8 :=
  let base := (rawName.take 8).takeWhile (· ≠ space)
  let ext := rawName.drop 8
  if ext.any (· ≠ space) then base ++ dotChar :: ext.takeWhile (· ≠ space) else base

/-! ## The file allocation table -/

/-- `cluster_to_lba`. -/
def clusterToLba (v : Volume) (cluster : Nat) : Nat :=
  u32 (v.dataLba + u32 (u32 (cluster + (2 ^ 32 - 2)) * v.sectorsPerCluster))

/-- `bytes_per_sector * sectors_per_cluster`. -/
def clusterSize (v : Volume) : Nat := v.bytesPerSector * v.sectorsPerCluster

/-- The loops that follow a chain stop at the first value this is false of. -/
abbrev IsLink (cluster : Nat) : Prop := 2 ≤ cluster ∧ cluster < clusterBad

/-- `fat32_next_cluster`. -/
def nextCluster (d : Drive) (v : Volume) (cluster : Nat) : Nat × Drive :=
  let fatOffset := u32 (cluster * 4)
  let fatSector := u32 (v.fatLba + fatOffset / d.sectorSize)
  let byteOffset := fatOffset % d.sectorSize
  match d.read fatSector with
  | (none, d) => (clusterBad, d)
  | (some buf, d) => (buf.load byteOffset 4 &&& clusterMask, d)

/-- The entry that keeps the top four bits of `existing` and takes the rest from
`value`. -/
def mergeEntry (existing value : Nat) : Nat := existing &&& 0xF0000000 ||| value &&& clusterMask

/-- `fat32_write_fat`. -/
def writeFat (d : Drive) (v : Volume) (cluster value : Nat) : Int × Drive :=
  let fatOffset := u32 (cluster * 4)
  let fatSector := u32 (v.fatLba + fatOffset / d.sectorSize)
  let byteOffset := fatOffset % d.sectorSize
  match d.read fatSector with
  | (none, d) => (-1, d)
  | (some tmp, d) =>
      let tmp := tmp.store byteOffset 4 (mergeEntry (tmp.load byteOffset 4) value)
      match d.write fatSector tmp with
      | (false, d) => (-1, d)
      | (true, d) =>
          if 1 < v.numFats then
            match d.write (u32 (fatSector + v.sectorsPerFat)) tmp with
            | (false, d) => (-1, d)
            | (true, d) => (0, d)
          else (0, d)

/-- The first entry of FAT sector `s` that names a free cluster. -/
def freeEntry (tmp : ByteMap) (s entriesPerSector : Nat) : Option Nat :=
  (List.range entriesPerSector).find? fun e =>
    2 ≤ u32 (s * entriesPerSector + e) ∧ tmp.load (4 * e) 4 &&& clusterMask = clusterFree

/-- The scan of `fat32_alloc_cluster` over `more` FAT sectors from sector `s`. -/
def allocClusterFrom (v : Volume) : Nat → Nat → Drive → Nat × Drive
  | 0, _, d => (0, d)
  | more + 1, s, d =>
      let entriesPerSector := d.sectorSize / 4
      match d.read (u32 (v.fatLba + s)) with
      | (none, d) => (0, d)
      | (some tmp, d) =>
          match freeEntry tmp s entriesPerSector with
          | none => allocClusterFrom v more (s + 1) d
          | some e =>
              let tmp := tmp.store (4 * e) 4 (mergeEntry (tmp.load (4 * e) 4) clusterEoc)
              match d.write (u32 (v.fatLba + s)) tmp with
              | (false, d) => (0, d)
              | (true, d) =>
                  (u32 (s * entriesPerSector + e),
                    if 1 < v.numFats then
                      (d.write (u32 (u32 (v.fatLba + v.sectorsPerFat) + s)) tmp).2
                    else d)

/-- `fat32_alloc_cluster`; the answer `0` means that the disk is full. -/
def allocCluster (d : Drive) (v : Volume) : Nat × Drive :=
  allocClusterFrom v v.sectorsPerFat 0 d

/-! ## Directories -/

section Iterate

variable {σ : Type}

/-- The entries of one sector, until the callback stops the walk. -/
def visitSector (cb : DirEntry → Nat → Nat → σ → Bool × σ) (buf : ByteMap) (lba : Nat) :
    List Nat → σ → Bool × σ
  | [], ctx => (false, ctx)
  | e :: rest, ctx =>
      match cb (dirEntryAt buf e) lba e ctx with
      | (true, ctx) => (true, ctx)
      | (false, ctx) => visitSector cb buf lba rest ctx

/-- The sectors of one cluster.  A read error stops the walk like the callback does. -/
def visitCluster (cb : DirEntry → Nat → Nat → σ → Bool × σ) (lba : Nat) :
    List Nat → σ → Drive → Bool × σ × Drive
  | [], ctx, d => (false, ctx, d)
  | s :: rest, ctx, d =>
      match d.read (u32 (lba + s)) with
      | (none, d) => (true, ctx, d)
      | (some buf, d) =>
          match visitSector cb buf (u32 (lba + s)) (List.range (d.sectorSize / 32)) ctx with
          | (true, ctx) => (true, ctx, d)
          | (false, ctx) => visitCluster cb lba rest ctx d

/-- One round of `fat32_dir_iterate`. -/
def dirIterateRound (v : Volume) (cb : DirEntry → Nat → Nat → σ → Bool × σ) :
    Nat × σ × Drive → (σ × Drive) ⊕ (Nat × σ × Drive)
  | (cluster, ctx, d) =>
      if IsLink cluster then
        match visitCluster cb (clusterToLba v cluster) (List.range v.sectorsPerCluster) ctx d with
        | (true, ctx, d) => .inl (ctx, d)
        | (false, ctx, d) =>
            match nextCluster d v cluster with
            | (next, d) => .inr (next, ctx, d)
      else .inl (ctx, d)

/-- `fat32_dir_iterate`. -/
noncomputable def dirIterate (d : Drive) (v : Volume) (startCluster : Nat)
    (cb : DirEntry → Nat → Nat → σ → Bool × σ) (ctx : σ) : Option (σ × Drive) :=
  loop (dirIterateRound v cb) (startCluster, ctx, d)

end Iterate

/-- `DirSearchCtx`. -/
structure DirSearchCtx where
  /-- `target8` and `target3`. -/
  target : List UInt8
  findFree : Bool
  findMatch : Bool
  found : Bool
  foundLba : Nat
  foundIdx : Nat
  /-- A copy of the entry found. -/
  result : DirEntry

/-- The context of a search for a free slot. -/
def DirSearchCtx.forFree : DirSearchCtx :=
  ⟨List.replicate 11 0, true, false, false, 0, 0, fun _ => 0⟩

/-- The context of a search for a name. -/
def DirSearchCtx.forName (name : List UInt8) : DirSearchCtx :=
  ⟨encode83Name name, false, true, false, 0, 0, fun _ => 0⟩

/-- `dir_search_cb`. -/
def dirSearchCb (e : DirEntry) (lba idx : Nat) (ctx : DirSearchCtx) : Bool × DirSearchCtx :=
  if ctx.findFree then
    if e 0 = entryFree ∨ e 0 = entryEnd then
      (true, { ctx with found := true, foundLba := lba, foundIdx := idx })
    else (false, ctx)
  else if ctx.findMatch then
    if e 0 = entryEnd then (true, ctx)
    else if e 0 = entryFree then (false, ctx)
    else if DirEntry.attributes e &&& attrVolumeId ≠ 0 then (false, ctx)
    else if DirEntry.attributes e &&& attrLfn = attrLfn then (false, ctx)
    else if DirEntry.rawName e = ctx.target then
      (true, { ctx with found := true, foundLba := lba, foundIdx := idx, result := e })
    else (false, ctx)
  else (false, ctx)

/-- `fat32_write_dir_entry`. -/
def writeDirEntry (d : Drive) (lba idxInSector : Nat) (entry : DirEntry) : Int × Drive :=
  match d.read lba with
  | (none, d) => (-1, d)
  | (some tmp, d) =>
      match d.write lba (tmp.blit (32 * idxInSector) entry 32) with
      | (false, d) => (-1, d)
      | (true, d) => (0, d)

/-! ## Cluster chains -/

/-- The sectors of one new cluster; returns the content not yet written.  Write
errors are not looked at. -/
def fillCluster (lba : Nat) : List Nat → List UInt8 → Drive → List UInt8 × Drive
  | [], rest, d => (rest, d)
  | s :: more, rest, d =>
      fillCluster lba more (rest.drop d.sectorSize)
        (d.write (u32 (lba + s)) (ofList (rest.take d.sectorSize))).2

/-- The loop of `fat32_write_cluster_chain` with `c` clusters still to allocate. -/
def writeClusterChainFrom (v : Volume) : Nat → Nat → Nat → List UInt8 → Drive → Nat × Drive
  | 0, firstCluster, _, _, d => (firstCluster, d)
  | c + 1, firstCluster, prevCluster, rest, d =>
      match allocCluster d v with
      | (cl, d) =>
          if cl = 0 then (0, d)
          else
            let firstCluster := if firstCluster = 0 then cl else firstCluster
            let d := if prevCluster ≠ 0 then (writeFat d v prevCluster cl).2 else d
            match fillCluster (clusterToLba v cl) (List.range v.sectorsPerCluster) rest d with
            | (rest, d) => writeClusterChainFrom v c firstCluster cl rest d

/-- `clusters_needed`: an empty file is given one cluster as well. -/
def clustersNeeded (v : Volume) (len : Nat) : Nat :=
  if len = 0 then 1 else (len + clusterSize v - 1) / clusterSize v

/-- `fat32_write_cluster_chain`. -/
def writeClusterChain (d : Drive) (v : Volume) (content : List UInt8) : Nat × Drive :=
  writeClusterChainFrom v (clustersNeeded v content.length) 0 0 content d

/-- One round of `fat32_free_cluster_chain`. -/
def freeClusterChainRound (v : Volume) : Nat × Drive → Drive ⊕ (Nat × Drive)
  | (cluster, d) =>
      if IsLink cluster then
        match nextCluster d v cluster with
        | (next, d) => .inr (next, (writeFat d v cluster clusterFree).2)
      else .inl d

/-- `fat32_free_cluster_chain`. -/
noncomputable def freeClusterChain (d : Drive) (v : Volume) (cluster : Nat) : Option Drive :=
  loop (freeClusterChainRound v) (cluster, d)

/-! ## Creating, replacing and deleting files -/

/-- The entry `fat32_create_file` writes. -/
def newFileEntry (name : List UInt8) (firstCluster len : Nat) : DirEntry :=
  (((DirEntry.named (encode83Name name) attrArchive).setCluster firstCluster).setFileSize
    len).stampWrite.stampCreate

/-- `fat32_create_file`. -/
noncomputable def createFile (d : Drive) (v : Volume) (name content : List UInt8) :
    Option (Int × Drive) :=
  (dirIterate d v v.rootCluster dirSearchCb .forFree).bind fun (ctx, d) =>
    if ctx.found then
      match writeClusterChain d v content with
      | (firstCluster, d) =>
          if firstCluster = 0 ∧ 0 < content.length then some (-1, d)
          else some (writeDirEntry d ctx.foundLba ctx.foundIdx
            (newFileEntry name firstCluster content.length))
    else some (-1, d)

/-- The entry of a file after its chain and size changed. -/
def updatedEntry (entry : DirEntry) (firstCluster size : Nat) : DirEntry :=
  ((entry.setCluster firstCluster).setFileSize size).stampWrite

/-- `fat32_write_file`. -/
noncomputable def writeFile (d : Drive) (v : Volume) (name content : List UInt8) :
    Option (Int × Drive) :=
  (dirIterate d v v.rootCluster dirSearchCb (.forName name)).bind fun (ctx, d) =>
    if ctx.found then
      (freeClusterChain d v (DirEntry.cluster ctx.result)).bind fun d =>
        match writeClusterChain d v content with
        | (firstCluster, d) =>
            if firstCluster = 0 ∧ 0 < content.length then some (-1, d)
            else some (writeDirEntry d ctx.foundLba ctx.foundIdx
              (updatedEntry ctx.result firstCluster content.length))
    else createFile d v name content

/-- `fat32_delete_file`. -/
noncomputable def deleteFile (d : Drive) (v : Volume) (name : List UInt8) : Option (Int × Drive) :=
  (dirIterate d v v.rootCluster dirSearchCb (.forName name)).bind fun (ctx, d) =>
    if ctx.found then
      (freeClusterChain d v (DirEntry.cluster ctx.result)).bind fun d =>
        some (writeDirEntry d ctx.foundLba ctx.foundIdx
          (ctx.result.store 0 1 entryFree.toNat))
    else some (-1, d)

/-- `fat32_mkdir`. -/
noncomputable def mkdir (d : Drive) (v : Volume) (name : List UInt8) : Option (Int × Drive) :=
  (dirIterate d v v.rootCluster dirSearchCb .forFree).bind fun (ctx, d) =>
    if ctx.found then
      some (writeDirEntry d ctx.foundLba ctx.foundIdx
        ((DirEntry.named (encode83Name name) attrDirectory).store 24 2 stampDate))
    else some (-1, d)

/-! ## Appending -/

/-- The walk of `fat32_append_file` over `links` links of the chain; `none` when it
is shorter than the size says. -/
def appendWalk (v : Volume) : Nat → Nat → Drive → Option Nat × Drive
  | 0, lastCluster, d => (some lastCluster, d)
  | links + 1, lastCluster, d =>
      match nextCluster d v lastCluster with
      | (next, d) => if IsLink next then appendWalk v links next d else (none, d)

/-- One round of the loops that write `source` into a cluster from byte `off` on,
with `done` bytes written. -/
def patchRound (lba off : Nat) (source : List UInt8) : Nat × Drive → (Int × Drive) ⊕ (Nat × Drive)
  | (done, d) =>
      if done < source.length then
        let sector := u32 ((off + done) / d.sectorSize)
        let sectorOff := u32 ((off + done) % d.sectorSize)
        let avail := d.sectorSize - sectorOff
        let chunk := min (u32 (source.length - done)) avail
        match d.read (u32 (lba + sector)) with
        | (none, d) => .inl (-1, d)
        | (some tmp, d) =>
            match d.write (u32 (lba + sector))
                (tmp.blit sectorOff (ofList (source.drop done)) chunk) with
            | (false, d) => .inl (-1, d)
            | (true, d) => .inr (done + chunk, d)
      else .inl (0, d)

/-- Both read-modify-write loops of `fat32_append_file`. -/
noncomputable def patchCluster (d : Drive) (lba off : Nat) (source : List UInt8) :
    Option (Int × Drive) :=
  loop (patchRound lba off source) (0, d)

/-- The sectors of a cluster that `fat32_append_file` allocated, while content is
left; `none` after a write error. -/
def appendSectors (lba : Nat) : List Nat → List UInt8 → Drive → Option (List UInt8) × Drive
  | [], rest, d => (some rest, d)
  | s :: more, rest, d =>
      if 0 < rest.length then
        match d.write (u32 (lba + s)) (ofList (rest.take d.sectorSize)) with
        | (false, d) => (none, d)
        | (true, d) => appendSectors lba more (rest.drop d.sectorSize) d
      else (some rest, d)

/-- What the allocation loop of `fat32_append_file` carries. -/
structure AppendState where
  firstCluster : Nat
  lastCluster : Nat
  /-- The content not yet written. -/
  rest : List UInt8
  drive : Drive

/-- One round of the allocation loop of `fat32_append_file`. -/
def appendRound (v : Volume) (s : AppendState) : (Int × AppendState) ⊕ AppendState :=
  if 0 < s.rest.length then
    match allocCluster s.drive v with
    | (cl, d) =>
        if cl = 0 then .inl (-1, { s with drive := d })
        else
          match if s.lastCluster ≠ 0 then writeFat d v s.lastCluster cl else (0, d) with
          | (rc, d) =>
              if rc < 0 then .inl (-1, { s with drive := d })
              else
                let firstCluster := if s.lastCluster ≠ 0 then s.firstCluster else cl
                match appendSectors (clusterToLba v cl) (List.range v.sectorsPerCluster)
                    s.rest d with
                | (none, d) => .inl (-1, { s with drive := d })
                | (some rest, d) => .inr ⟨firstCluster, cl, rest, d⟩
  else .inl (0, s)

/-- The allocation loop of `fat32_append_file`. -/
noncomputable def appendClusters (v : Volume) (s : AppendState) : Option (Int × AppendState) :=
  loop (appendRound v) s

/-- How many bytes go into the preallocated cluster of an empty file. -/
def preallocatedRoom (v : Volume) (size firstCluster len : Nat) : Nat :=
  if size = 0 ∧ firstCluster ≠ 0 ∧ 0 < len then min len (clusterSize v) else 0

/-- How many bytes go into the tail of a partially used last cluster. -/
def tailRoom (v : Volume) (size lastCluster len : Nat) : Nat :=
  if lastCluster ≠ 0 ∧ size % clusterSize v ≠ 0 then
    min len (clusterSize v - size % clusterSize v)
  else 0

/-- `fat32_append_file` once the entry and its last cluster are known.  Of the two
steps that fill existing clusters at most one has room. -/
noncomputable def appendFrom (d : Drive) (v : Volume) (ctx : DirSearchCtx) (lastCluster : Nat)
    (content : List UInt8) : Option (Int × Drive) :=
  let firstCluster := DirEntry.cluster ctx.result
  let size := DirEntry.fileSize ctx.result
  let head := preallocatedRoom v size firstCluster content.length
  (patchCluster d (clusterToLba v firstCluster) 0 (content.take head)).bind fun (rc, d) =>
    if rc < 0 then some (-1, d)
    else
      let tail := tailRoom v size lastCluster content.length
      (patchCluster d (clusterToLba v lastCluster) (size % clusterSize v)
          (content.take tail)).bind fun (rc, d) =>
        if rc < 0 then some (-1, d)
        else
          (appendClusters v ⟨firstCluster, lastCluster, content.drop (head + tail), d⟩).bind
            fun (rc, s) =>
              if rc < 0 then some (-1, s.drive)
              else some (writeDirEntry s.drive ctx.foundLba ctx.foundIdx
                (updatedEntry ctx.result s.firstCluster (size + content.length)))

/-- `fat32_append_file`. -/
noncomputable def appendFile (d : Drive) (v : Volume) (name content : List UInt8) :
    Option (Int × Drive) :=
  (dirIterate d v v.rootCluster dirSearchCb (.forName name)).bind fun (ctx, d) =>
    if ctx.found then
      let firstCluster := DirEntry.cluster ctx.result
      let size := DirEntry.fileSize ctx.result
      let links := (size + clusterSize v - 1) / clusterSize v - 1
      if firstCluster ≠ 0 then
        match appendWalk v links firstCluster d with
        | (none, d) => some (-1, d)
        | (some lastCluster, d) => appendFrom d v ctx lastCluster content
      else appendFrom d v ctx 0 content
    else createFile d v name content

/-! ## Reading -/

/-- The fields of `drive_file_t` a read uses, and the name it is listed under. -/
structure DriveFile where
  name : List UInt8
  fileSize : Nat
  /-- `userdata2`. -/
  firstCluster : Nat

/-- The value of a `uint32_t` converted to `int32_t`. -/
def int32 (value : Nat) : Int := if value < 2 ^ 31 then value else value - 2 ^ 32

/-- The loop of `fat32_file_read` that skips clusters; `none` at the end of the chain. -/
def skipClusters (v : Volume) : Nat → Nat → Drive → Option Nat × Drive
  | 0, cluster, d => (some cluster, d)
  | more + 1, cluster, d =>
      match nextCluster d v cluster with
      | (next, d) => if clusterBad ≤ next then (none, d) else skipClusters v more next d

/-- What the inner copying loop of `fat32_file_read` carries. -/
structure CopyState where
  toCopy : Nat
  offsetInCluster : Nat
  /-- The bytes put into the caller's buffer so far. -/
  bytes : List UInt8
  drive : Drive

/-- One round of the inner loop; the flag says that no read failed. -/
def copyRound (lba : Nat) (s : CopyState) : (Bool × CopyState) ⊕ CopyState :=
  if 0 < s.toCopy then
    let sectorIndex := u32 (s.offsetInCluster / s.drive.sectorSize)
    let offsetInSec := u32 (s.offsetInCluster % s.drive.sectorSize)
    let avail := s.drive.sectorSize - offsetInSec
    let chunk := if s.toCopy < avail then s.toCopy else avail
    match s.drive.read (u32 (lba + sectorIndex)) with
    | (none, d) => .inl (false, { s with drive := d })
    | (some sectorBuf, d) =>
        .inr ⟨s.toCopy - chunk, s.offsetInCluster + chunk,
          s.bytes ++ sectorBuf.slice offsetInSec chunk, d⟩
  else .inl (true, s)

/-- The inner loop of `fat32_file_read`. -/
noncomputable def copyFromCluster (lba : Nat) (s : CopyState) : Option (Bool × CopyState) :=
  loop (copyRound lba) s

/-- What the outer loop of `fat32_file_read` carries. -/
structure ReadState where
  currentCluster : Nat
  clusterOffset : Nat
  bytes : List UInt8
  drive : Drive

/-- How much of a request the current cluster can serve; the comparison is signed. -/
def bytesToCopy (v : Volume) (wanted clusterOffset : Nat) : Nat :=
  let bytesInCluster := clusterSize v - clusterOffset
  if int32 (u32 bytesInCluster) < int32 (u32 wanted) then u32 bytesInCluster else u32 wanted

/-- One round of the outer loop of `fat32_file_read`.  A round that never returns
makes the loop never return, a result `none` is `(size_t)-1`. -/
noncomputable def readRound (v : Volume) (len : Nat) (s : ReadState) :
    Option (Option (List UInt8) × Drive) ⊕ ReadState :=
  if s.bytes.length < len ∧ IsLink s.currentCluster then
    match copyFromCluster (clusterToLba v s.currentCluster)
        ⟨bytesToCopy v (len - s.bytes.length) s.clusterOffset, s.clusterOffset, s.bytes,
          s.drive⟩ with
    | none => .inl none
    | some (false, t) => .inl (some (if 0 < t.bytes.length then some t.bytes else none, t.drive))
    | some (true, t) =>
        if clusterSize v ≤ t.offsetInCluster then
          match nextCluster t.drive v s.currentCluster with
          | (next, d) => .inr ⟨next, 0, t.bytes, d⟩
        else .inr ⟨s.currentCluster, t.offsetInCluster, t.bytes, t.drive⟩
  else .inl (some (some s.bytes, s.drive))

/-- `fat32_file_read`: the bytes put into the buffer, or `none` for `(size_t)-1`. -/
noncomputable def fileRead (d : Drive) (v : Volume) (file : DriveFile) (offset len : Nat) :
    Option (Option (List UInt8) × Drive) :=
  if file.fileSize ≤ offset then some (some [], d)
  else
    let len := min len (file.fileSize - offset)
    match skipClusters v (u32 (offset / clusterSize v)) file.firstCluster d with
    | (none, d) => some (some [], d)
    | (some cluster, d) =>
        (loop (readRound v len) ⟨cluster, offset % clusterSize v, [], d⟩).bind id

/-! ## Listing the root directory -/

/-- `drive_entry_t` as the listing fills it in. -/
inductive RootEntry
  | directory (name : List UInt8)
  | file (file : DriveFile)

/-- `fs_entries_t`: the count of the first pass and the entries the second pass
stored. -/
structure RootEntries where
  count : Nat
  entries : List RootEntry

/-- Whether both listing callbacks pass over the entry. -/
def listingSkips (e : DirEntry) : Bool :=
  e 0 = entryFree ∨ DirEntry.attributes e &&& attrVolumeId ≠ 0 ∨
    DirEntry.attributes e &&& attrLfn = attrLfn

/-- `enum_count_cb`. -/
def enumCountCb (e : DirEntry) (_lba _idx : Nat) (count : Nat) : Bool × Nat :=
  if e 0 = entryEnd then (true, count)
  else if listingSkips e then (false, count)
  else (false, count + 1)

/-- The record `enum_fill_cb` makes of an entry. -/
def rootEntry (e : DirEntry) : RootEntry :=
  if DirEntry.attributes e &&& attrDirectory ≠ 0 then .directory (format83Name (DirEntry.rawName e))
  else .file ⟨format83Name (DirEntry.rawName e), DirEntry.fileSize e, DirEntry.cluster e⟩

/-- `enum_fill_cb`. -/
def enumFillCb (e : DirEntry) (_lba _idx : Nat) (entries : List RootEntry) :
    Bool × List RootEntry :=
  if e 0 = entryEnd then (true, entries)
  else if listingSkips e then (false, entries)
  else (false, entries ++ [rootEntry e])

/-- `fat32_get_root_entries`. -/
noncomputable def getRootEntries (d : Drive) (v : Volume) : Option (RootEntries × Drive) :=
  (dirIterate d v v.rootCluster enumCountCb 0).bind fun (count, d) =>
    if count = 0 then some (⟨0, []⟩, d)
    else
      (dirIterate d v v.rootCluster enumFillCb []).bind fun (entries, d) =>
        some (⟨count, entries⟩, d)

end GeckoOS.Fs
