/-
# What the file operations do to a volume

The five operations that change the root directory, as steps between images.  The
step relation says in one place what each of them can do: which slot it edits,
which clusters it frees, takes and links, and in what state it leaves the volume
when it returns -1 for lack of room.

The driver's functions refine it.  On a drive whose transfers do not fail, from an
image whose root directory is a chain and whose named entry has a chain of its own,
each of them returns, and the images before and after are related by a step with
the same result.
-/

import GeckoOS.Fs.ChainWrites
import GeckoOS.Fs.Directory

namespace GeckoOS.Fs

open GeckoOS.Math ByteMap

/-- The characters of a C string: the terminator is not one of them. -/
abbrev CString := { chars : List UInt8 // (0 : UInt8) ∉ chars }

/-- A call of one of the operations that change the root directory. -/
inductive FileCall
  | createFile (name : CString) (content : List UInt8)
  | writeFile (name : CString) (content : List UInt8)
  | appendFile (name : CString) (content : List UInt8)
  | deleteFile (name : CString)
  | mkdir (name : CString)

/-- The name a call looks for among the existing entries. -/
def FileCall.target : FileCall → Option (List UInt8)
  | .writeFile name _ | .appendFile name _ | .deleteFile name => some (encode83Name name.1)
  | .createFile _ _ | .mkdir _ => none

/-- The driver function of a call. -/
noncomputable def exec (d : Drive) (v : Volume) : FileCall → Option (Int × Drive)
  | .createFile name content => createFile d v name.1 content
  | .writeFile name content => writeFile d v name.1 content
  | .appendFile name content => appendFile d v name.1 content
  | .deleteFile name => deleteFile d v name.1
  | .mkdir name => mkdir d v name.1

namespace Geometry

/-- The clusters a new chain for `len` bytes takes, as far as there are free ones. -/
def taken (g : Geometry) (img : Image) (len : Nat) : List Nat :=
  (g.free img.fat).take (clustersNeeded g.vol len)

/-- Content is laid out on free clusters, and then slot `i` is given its chain. -/
inductive Stored (g : Geometry) (base : Image) (i : Nat) (slot : Slot) (content : List UInt8) :
    Int → Image → Prop
  /-- The free clusters run out; all of them stay linked to each other. -/
  | short {img₁ : Image} (hcontent : content ≠ [])
      (hshort : (g.free base.fat).length < clustersNeeded g.vol content.length)
      (hlaid : g.Laid base img₁ 0 (g.free base.fat) content) :
      Stored g base i slot content (-1) img₁
  | done {img₁ : Image}
      (henough : content = [] ∨ clustersNeeded g.vol content.length ≤ (g.free base.fat).length)
      (hlaid : g.Laid base img₁ 0 (g.taken base content.length) content) :
      Stored g base i slot content 0 (img₁.setSlot i
        { slot with
          cluster := (g.taken base content.length).headD 0
          size := content.length % 2 ^ 32 })

/-- The cluster `fat32_append_file` walks to; `0` when the file has none. -/
def lastCluster (g : Geometry) (nodes : List Nat) (size : Nat) : Nat :=
  nodes.getD (g.clustersFor size - 1) 0

/-- How many bytes `fat32_append_file` puts into a cluster the file already has. -/
def room (g : Geometry) (nodes : List Nat) (size len : Nat) : Nat :=
  if nodes = [] then 0
  else if size = 0 then min len g.clusterBytes
  else if size % g.clusterBytes = 0 then 0
  else min len (g.clusterBytes - size % g.clusterBytes)

/-- The image once the existing cluster is filled up. -/
def patched (g : Geometry) (img : Image) (nodes : List Nat) (size : Nat) (content : List UInt8) :
    Image :=
  img.setData (g.lastCluster nodes size) ((img.data (g.lastCluster nodes size)).blit
    (size % g.clusterBytes) (ofList content) (g.room nodes size content.length))

/-- The clusters an append takes, as far as there are free ones. -/
def appendTaken (g : Geometry) (img : Image) (nodes : List Nat) (size len : Nat) : List Nat :=
  (g.free img.fat).take (g.clustersFor (len - g.room nodes size len))

/-- `fat32_append_file` on the existing entry in slot `i` with chain `nodes`. -/
inductive Appended (g : Geometry) (img : Image) (i : Nat) (slot : Slot) (nodes : List Nat)
    (content : List UInt8) : Int → Image → Prop
  /-- The chain is shorter than the size says. -/
  | broken (hnodes : nodes ≠ []) (hshort : nodes.length ≤ g.clustersFor slot.size - 1) :
      Appended g img i slot nodes content (-1) img
  /-- The free clusters run out; those taken stay linked behind the last cluster. -/
  | short {img₁ : Image} (hlong : nodes = [] ∨ g.clustersFor slot.size - 1 < nodes.length)
      (hshort : (g.free img.fat).length <
        g.clustersFor (content.length - g.room nodes slot.size content.length))
      (hlaid : g.Laid (g.patched img nodes slot.size content) img₁
        (g.lastCluster nodes slot.size) (g.free img.fat)
        (content.drop (g.room nodes slot.size content.length))) :
      Appended g img i slot nodes content (-1) img₁
  | done {img₁ : Image} (hlong : nodes = [] ∨ g.clustersFor slot.size - 1 < nodes.length)
      (henough : g.clustersFor (content.length - g.room nodes slot.size content.length) ≤
        (g.free img.fat).length)
      (hlaid : g.Laid (g.patched img nodes slot.size content) img₁
        (g.lastCluster nodes slot.size) (g.appendTaken img nodes slot.size content.length)
        (content.drop (g.room nodes slot.size content.length))) :
      Appended g img i slot nodes content 0 (img₁.setSlot i
        { slot with
          cluster := (nodes ++ g.appendTaken img nodes slot.size content.length).headD 0
          size := (slot.size + content.length) % 2 ^ 32 })

/-- What each call can do to the image; `chains` gives the chain of each slot. -/
inductive Step (g : Geometry) (chains : Nat → List Nat) (img : Image) :
    FileCall → Int → Image → Prop
  | createFull {name : CString} {content : List UInt8} (hslot : freeSlot img.dir = none) :
      Step g chains img (.createFile name content) (-1) img
  | create {name : CString} {content : List UInt8} {i : Nat} {r : Int} {img' : Image}
      (hslot : freeSlot img.dir = some i)
      (hstored : g.Stored img i ⟨encode83Name name.1, attrArchive, 0, 0⟩ content r img') :
      Step g chains img (.createFile name content) r img'
  | writeNew {name : CString} {content : List UInt8} {r : Int} {img' : Image}
      (hfind : findName (encode83Name name.1) img.dir = none)
      (hcreate : Step g chains img (.createFile name content) r img') :
      Step g chains img (.writeFile name content) r img'
  | write {name : CString} {content : List UInt8} {i : Nat} {slot : Slot} {r : Int} {img' : Image}
      (hfind : findName (encode83Name name.1) img.dir = some i) (hget : img.dir[i]? = some slot)
      (hstored : g.Stored (img.release (chains i)) i slot content r img') :
      Step g chains img (.writeFile name content) r img'
  | appendNew {name : CString} {content : List UInt8} {r : Int} {img' : Image}
      (hfind : findName (encode83Name name.1) img.dir = none)
      (hcreate : Step g chains img (.createFile name content) r img') :
      Step g chains img (.appendFile name content) r img'
  | append {name : CString} {content : List UInt8} {i : Nat} {slot : Slot} {r : Int} {img' : Image}
      (hfind : findName (encode83Name name.1) img.dir = some i) (hget : img.dir[i]? = some slot)
      (happended : g.Appended img i slot (chains i) content r img') :
      Step g chains img (.appendFile name content) r img'
  | deleteMissing {name : CString} (hfind : findName (encode83Name name.1) img.dir = none) :
      Step g chains img (.deleteFile name) (-1) img
  | delete {name : CString} {i : Nat} {slot : Slot}
      (hfind : findName (encode83Name name.1) img.dir = some i) (hget : img.dir[i]? = some slot) :
      Step g chains img (.deleteFile name) 0
        ((img.release (chains i)).setSlot i { slot with name := entryFree :: slot.name.tail })
  | mkdirFull {name : CString} (hslot : freeSlot img.dir = none) :
      Step g chains img (.mkdir name) (-1) img
  | mkdir {name : CString} {i : Nat} (hslot : freeSlot img.dir = some i) :
      Step g chains img (.mkdir name) 0
        (img.setSlot i ⟨encode83Name name.1, attrDirectory, 0, 0⟩)

variable {g : Geometry} {b : ByteMap} {img : Image} {i : Nat} {slot : Slot}
  {nodes : List Nat} {name : CString} {content : List UInt8}

/-! ## The driver refines the steps -/

theorem root_not_free (hroot : g.RootChain img.fat) : ∀ c ∈ g.root, img.fat c ≠ 0 :=
  fun _ hc => (hroot.allocated hc).1

theorem headD_lt_of_subset {ks : List Nat} {fat : Nat → Nat} (hsub : ∀ c ∈ ks, c ∈ g.free fat) :
    ks.headD 0 < 2 ^ 32 := by
  cases ks with
  | nil => exact Nat.two_pow_pos 32
  | cons c ks =>
      have hbad := (mem_free.mp (hsub c List.mem_cons_self)).1.lt_bad
      simp only [clusterBad] at hbad
      exact lt_trans hbad (by decide)

theorem Chain.headD_lt {fat : Nat → Nat} (hchain : g.Chain fat nodes) :
    nodes.headD 0 < 2 ^ 32 := by
  cases nodes with
  | nil => exact Nat.two_pow_pos 32
  | cons c nodes =>
      have hbad := (hchain.mem c List.mem_cons_self).lt_bad
      simp only [clusterBad] at hbad
      exact lt_trans hbad (by decide)

theorem clustersNeeded_pos (len : Nat) : 0 < clustersNeeded g.vol len := by
  rw [clustersNeeded_eq]
  split_ifs with hzero
  · exact Nat.one_pos
  · exact clustersFor_pos (Nat.pos_of_ne_zero hzero)

/-- The common end of creating and replacing a file: write the chain, then the
entry that `entryOf` makes of its first cluster. -/
theorem store_disk {p : Nat × Nat} {entryOf : Nat → DirEntry}
    (hroot : ∀ c ∈ g.root, (g.image b).fat c ≠ 0) (hp : g.slots[i]? = some p)
    (hentry : ∀ c < 2 ^ 32, slotOf (entryOf c) =
      { slot with cluster := c, size := content.length % 2 ^ 32 }) :
    ∃ r b',
      (if (writeClusterChain (disk b) g.vol content).1 = 0 ∧ 0 < content.length then
          some ((-1 : Int), (writeClusterChain (disk b) g.vol content).2)
        else some (writeDirEntry (writeClusterChain (disk b) g.vol content).2 p.1 p.2
          (entryOf (writeClusterChain (disk b) g.vol content).1))) = some (r, disk b') ∧
      g.Stored (g.image b) i slot content r (g.image b') := by
  obtain ⟨b₁, hchain, hlaid⟩ := @writeClusterChain_disk g b content hroot
  rw [hchain]
  dsimp only
  by_cases hshort : clustersNeeded g.vol content.length ≤ (g.free (g.image b).fat).length
  · have hsub : ∀ c ∈ g.taken (g.image b) content.length, c ∈ g.free (g.image b).fat :=
      fun c hc => List.mem_of_mem_take hc
    have hfirst : (g.taken (g.image b) content.length).headD 0 ≠ 0 := by
      have hpos := clustersNeeded_pos (g := g) content.length
      cases htaken : g.taken (g.image b) content.length with
      | nil =>
          have hlength := congrArg List.length htaken
          rw [taken, List.length_take, List.length_nil] at hlength
          omega
      | cons c ks =>
          have hmem := mem_free.mp (hsub c (htaken ▸ List.mem_cons_self))
          exact (Nat.zero_lt_of_lt hmem.1.1).ne'
    obtain ⟨b', hwrite, himage⟩ := @writeDirEntry_disk g b₁ i p
      (entryOf ((g.taken (g.image b) content.length).headD 0)) hp
    refine ⟨0, b', ?_, ?_⟩
    · rw [if_pos hshort, ← taken, if_neg (fun hboth => hfirst hboth.1), hwrite]
    · rw [himage, hentry _ (headD_lt_of_subset hsub)]
      exact .done (.inr hshort) hlaid
  · rw [if_neg hshort]
    by_cases hcontent : content = []
    · obtain ⟨b', hwrite, himage⟩ := @writeDirEntry_disk g b₁ i p (entryOf 0) hp
      have hnone : g.taken (g.image b) content.length = [] := by
        have hone : clustersNeeded g.vol content.length = 1 := by
          rw [hcontent, clustersNeeded_eq]
          rfl
        rw [taken, List.eq_nil_of_length_eq_zero (by omega : (g.free (g.image b).fat).length = 0),
          List.take_nil]
      refine ⟨0, b', ?_, ?_⟩
      · rw [if_neg (by simp [hcontent]), hwrite]
      · have hdone := @Stored.done g (g.image b) i slot content _ (.inl hcontent) hlaid
        rw [hnone] at hdone
        rw [himage, hentry 0 (by decide)]
        exact hdone
    · refine ⟨-1, b₁, ?_, ?_⟩
      · rw [if_pos ⟨rfl, List.length_pos_iff.mpr hcontent⟩]
      · refine .short hcontent (Nat.lt_of_not_le hshort) ?_
        rwa [List.take_of_length_le (Nat.le_of_not_le hshort)] at hlaid

theorem createFile_disk {chains : Nat → List Nat} (hroot : g.RootChain (g.image b).fat) :
    ∃ r b', createFile (disk b) g.vol name.1 content = some (r, disk b') ∧
      g.Step chains (g.image b) (.createFile name content) r (g.image b') := by
  cases hslot : freeSlot (g.image b).dir with
  | none =>
      refine ⟨-1, b, ?_, .createFull hslot⟩
      rw [createFile, search_free_none hroot hslot, Option.bind_some]
      rfl
  | some i =>
      obtain ⟨p, hp, hsearch⟩ := search_free_some hroot hslot
      obtain ⟨r, b', hrun, hstored⟩ := @store_disk g b i
        ⟨encode83Name name.1, attrArchive, 0, 0⟩ content p
        (fun c => newFileEntry name.1 c content.length) (root_not_free hroot) hp
        (fun c hc => DirEntry.slotOf_newFileEntry hc (length_encode83Name name.1))
      refine ⟨r, b', ?_, .create hslot hstored⟩
      rw [createFile, hsearch, Option.bind_some]
      exact hrun

/-- The entry of a slot holds the cluster and the size of the slot. -/
theorem cluster_of_slot {entry : DirEntry} (hslot : slotOf entry = slot) :
    DirEntry.cluster entry = slot.cluster ∧ DirEntry.fileSize entry = slot.size :=
  ⟨congrArg Slot.cluster hslot, congrArg Slot.size hslot⟩

/-- A slot owns the chain that starts at its cluster, outside the root directory. -/
structure Owns (g : Geometry) (fat : Nat → Nat) (slot : Slot) (nodes : List Nat) : Prop where
  chain : g.Chain fat nodes
  cluster : slot.cluster = nodes.headD 0
  not_root : ∀ c ∈ nodes, c ∉ g.root

/-- Releasing the chain of a slot keeps the root directory. -/
theorem RootChain.release {fat : Nat → Nat} (hroot : g.RootChain fat)
    (hnot : ∀ c ∈ nodes, c ∉ g.root) :
    g.RootChain (fun c => if c ∈ nodes then 0 else fat c) :=
  hroot.congr fun c hc => if_neg fun hmem => hnot c hmem hc

/-- The slot that a search found, as it is on the disk. -/
theorem found_slot {raw : List UInt8} {p : Nat × Nat}
    (hfind : findName raw (g.image b).dir = some i)
    (hp : g.slots[i]? = some p) :
    ∃ slot, (g.image b).dir[i]? = some slot ∧ slot.live ∧ slotOf (entryAt b p) = slot := by
  obtain ⟨slot, hget, hlive, -⟩ := findName_spec hfind
  obtain ⟨q, hq, hslot⟩ := slots_of_dir hget
  obtain rfl := Option.some.inj (hp.symm.trans hq)
  exact ⟨slot, hget, hlive, hslot⟩

theorem writeFile_disk {chains : Nat → List Nat} (hroot : g.RootChain (g.image b).fat)
    (howns : ∀ i slot, findName (encode83Name name.1) (g.image b).dir = some i →
      (g.image b).dir[i]? = some slot → g.Owns (g.image b).fat slot (chains i)) :
    ∃ r b', writeFile (disk b) g.vol name.1 content = some (r, disk b') ∧
      g.Step chains (g.image b) (.writeFile name content) r (g.image b') := by
  cases hfind : findName (encode83Name name.1) (g.image b).dir with
  | none =>
      obtain ⟨r, b', hrun, hstep⟩ := @createFile_disk g b name content chains hroot
      refine ⟨r, b', ?_, .writeNew hfind hstep⟩
      rw [writeFile, search_name_none hroot hfind, Option.bind_some]
      exact hrun
  | some i =>
      obtain ⟨p, hp, hsearch⟩ := search_name_some hroot hfind
      obtain ⟨slot, hget, -, hentry⟩ := found_slot hfind hp
      have hown := howns i slot hfind hget
      obtain ⟨b₁, hfreed, himage⟩ := freeClusterChain_disk hown.chain
        (hown.cluster ▸ names_headD : Names slot.cluster (chains i))
      have hroot₁ : ∀ c ∈ g.root, (g.image b₁).fat c ≠ 0 := by
        rw [himage]
        exact root_not_free (RootChain.release hroot hown.not_root)
      obtain ⟨r, b', hrun, hstored⟩ := @store_disk g b₁ i slot content p
        (fun c => updatedEntry (entryAt b p) c content.length) hroot₁ hp
        (fun c hc => by rw [DirEntry.slotOf_updatedEntry hc, hentry])
      rw [himage] at hstored
      refine ⟨r, b', ?_, .write hfind hget hstored⟩
      rw [writeFile, hsearch, Option.bind_some]
      simp only [foundAt, if_true, (cluster_of_slot hentry).1, hfreed, Option.bind_some]
      exact hrun

theorem deleteFile_disk {chains : Nat → List Nat} (hroot : g.RootChain (g.image b).fat)
    (howns : ∀ i slot, findName (encode83Name name.1) (g.image b).dir = some i →
      (g.image b).dir[i]? = some slot → g.Owns (g.image b).fat slot (chains i)) :
    ∃ r b', deleteFile (disk b) g.vol name.1 = some (r, disk b') ∧
      g.Step chains (g.image b) (.deleteFile name) r (g.image b') := by
  cases hfind : findName (encode83Name name.1) (g.image b).dir with
  | none =>
      refine ⟨-1, b, ?_, .deleteMissing hfind⟩
      rw [deleteFile, search_name_none hroot hfind, Option.bind_some]
      rfl
  | some i =>
      obtain ⟨p, hp, hsearch⟩ := search_name_some hroot hfind
      obtain ⟨slot, hget, -, hentry⟩ := found_slot hfind hp
      have hown := howns i slot hfind hget
      obtain ⟨b₁, hfreed, himage⟩ := freeClusterChain_disk hown.chain
        (hown.cluster ▸ names_headD : Names slot.cluster (chains i))
      obtain ⟨b', hwrite, himage'⟩ := @writeDirEntry_disk g b₁ i p
        ((entryAt b p).store 0 1 entryFree.toNat) hp
      refine ⟨0, b', ?_, ?_⟩
      · rw [deleteFile, hsearch, Option.bind_some]
        simp only [foundAt, if_true, (cluster_of_slot hentry).1, hfreed, Option.bind_some, hwrite]
      · rw [himage', himage, DirEntry.slotOf_deleted, hentry,
          show DirEntry.rawName (entryAt b p) = slot.name from congrArg Slot.name hentry]
        exact .delete hfind hget

/-- The walk of `fat32_append_file` follows the chain, and fails behind its end. -/
theorem appendWalk_disk {c n : Nat} (hchain : g.Chain (g.image b).fat nodes)
    (hhead : nodes.head? = some c) :
    appendWalk g.vol n c (disk b) = (nodes[n]?, disk b) := by
  induction n generalizing nodes c with
  | zero => rw [appendWalk, ← hhead, List.head?_eq_getElem?]
  | succ n ih =>
      cases nodes with
      | nil => cases hhead
      | cons c' nodes =>
          obtain rfl := Option.some.inj hhead
          rw [appendWalk, nextCluster_disk (hchain.mem c' List.mem_cons_self).2,
            List.getElem?_cons_succ]
          rcases hchain.names_next with hnext | ⟨rfl, hstop⟩
          · have hlink : IsLink ((g.image b).fat c') :=
              (hchain.tail.mem _ (List.mem_of_mem_head? hnext)).isLink
            simp only [if_pos hlink]
            exact ih hchain.tail hnext
          · simp only [if_neg hstop, List.getElem?_nil]

@[simp]
theorem patched_fat (size : Nat) : (g.patched img nodes size content).fat = img.fat := rfl

@[simp]
theorem patched_dir (size : Nat) : (g.patched img nodes size content).dir = img.dir := rfl

/-- Without room in the existing clusters nothing is filled up. -/
theorem patched_of_room_zero {size : Nat} (hroom : g.room nodes size content.length = 0) :
    g.patched img nodes size content = img := by
  apply Image.ext
  · rfl
  · rw [patched, hroom, blit_zero, Image.setData_data, Function.update_eq_self]
  · rfl

theorem setData_take {c off n : Nat} :
    img.setData c ((img.data c).blit off (ofList (content.take n)) (content.take n).length) =
      img.setData c ((img.data c).blit off (ofList content) (min n content.length)) := by
  rw [List.length_take]
  congr 1
  apply blit_congr
  intro i hi
  simp [ofList, List.getD_eq_getElem?_getD, List.getElem?_take_of_lt (show i < n by omega)]

theorem room_le {size len : Nat} : g.room nodes size len ≤ len := by
  rw [room]
  split_ifs <;> omega

/-- The two filling steps of `fat32_append_file`, of which at most one has anything
to do. -/
theorem fill_disk {first last size : Nat} (hchain : g.Chain (g.image b).fat nodes)
    (hroot : ∀ c ∈ nodes, c ∉ g.root) (hfirst : nodes.headD 0 = first)
    (hlast : nodes ≠ [] → nodes[g.clustersFor size - 1]? = some last)
    (hnone : nodes = [] → last = 0) :
    ∃ b₁ b₂,
      patchCluster (disk b) (clusterToLba g.vol first) 0
          (content.take (preallocatedRoom g.vol size first content.length)) = some (0, disk b₁) ∧
      patchCluster (disk b₁) (clusterToLba g.vol last) (size % g.clusterBytes)
          (content.take (tailRoom g.vol size last content.length)) = some (0, disk b₂) ∧
      preallocatedRoom g.vol size first content.length +
          tailRoom g.vol size last content.length = g.room nodes size content.length ∧
      g.image b₂ = g.patched (g.image b) nodes size content := by
  have hpos := g.clusterBytes_pos
  rw [preallocatedRoom, tailRoom, clusterSize_eq]
  cases nodes with
  | nil =>
      obtain rfl : first = 0 := hfirst.symm
      obtain rfl := hnone rfl
      refine ⟨b, b, ?_, ?_, ?_, ?_⟩
      · simp [patchCluster_nil]
      · simp [patchCluster_nil]
      · simp [room]
      · rw [patched_of_room_zero]
        simp [room]
  | cons c rest =>
      obtain rfl : c = first := hfirst
      have hget := hlast (List.cons_ne_nil _ _)
      have hlastMem := List.mem_of_getElem? hget
      have hc := hchain.mem c List.mem_cons_self
      have hl := hchain.mem last hlastMem
      have hc0 : c ≠ 0 := (Nat.zero_lt_of_lt hc.1).ne'
      have hl0 : last ≠ 0 := (Nat.zero_lt_of_lt hl.1).ne'
      have hlastCluster : g.lastCluster (c :: rest) size = last := by
        rw [lastCluster, List.getD_eq_getElem?_getD, hget, Option.getD_some]
      by_cases hsize : size = 0
      · -- The preallocated cluster of an empty file is filled from its start.
        subst hsize
        obtain rfl : c = last := by simpa using hget
        obtain ⟨b₁, hpatch, himage⟩ := @patchCluster_disk g b c
          (content.take (min content.length g.clusterBytes)) 0 hc (hroot c List.mem_cons_self)
          (by rw [List.length_take]; omega)
        have hroom : (if 0 = 0 ∧ c ≠ 0 ∧ 0 < content.length then
            min content.length g.clusterBytes else 0) = min content.length g.clusterBytes := by
          by_cases hlen : 0 < content.length
          · rw [if_pos ⟨rfl, hc0, hlen⟩]
          · rw [if_neg (fun hall => hlen hall.2.2)]
            omega
        rw [hroom, if_neg (by simp)]
        refine ⟨b₁, b₁, hpatch, ?_, ?_, ?_⟩
        · rw [List.take_zero, patchCluster_nil]
        · simp [room]
        · rw [himage, setData_take, patched, hlastCluster, Nat.zero_mod]
          congr 2
          simp [room]
      · rw [if_neg (fun hall => hsize hall.1), List.take_zero, Nat.zero_add]
        by_cases htail : size % g.clusterBytes = 0
        · have hnoRoom : g.room (c :: rest) size content.length = 0 := by simp [room, hsize, htail]
          refine ⟨b, b, patchCluster_nil, ?_, ?_, ?_⟩
          · rw [if_neg (fun hall => hall.2 htail), List.take_zero, patchCluster_nil]
          · rw [if_neg (fun hall => hall.2 htail), hnoRoom]
          · rw [patched_of_room_zero hnoRoom]
        · -- The last cluster is filled from where the file ends in it.
          have hinside := Nat.mod_lt size hpos
          obtain ⟨b₂, hpatch, himage⟩ := @patchCluster_disk g b last
            (content.take (min content.length (g.clusterBytes - size % g.clusterBytes)))
            (size % g.clusterBytes) hl (hroot last hlastMem) (by rw [List.length_take]; omega)
          have hroom : g.room (c :: rest) size content.length =
              min content.length (g.clusterBytes - size % g.clusterBytes) := by
            simp [room, hsize, htail]
          rw [if_pos ⟨hl0, htail⟩]
          refine ⟨b, b₂, patchCluster_nil, hpatch, hroom.symm, ?_⟩
          rw [himage, setData_take, patched, hlastCluster, hroom]
          congr 2
          omega

theorem appendFrom_disk {p : Nat × Nat} {last : Nat} {ctx : DirSearchCtx}
    (hroot : g.RootChain (g.image b).fat) (hown : g.Owns (g.image b).fat slot nodes)
    (hp : g.slots[i]? = some p) (hctx : ctx.foundLba = p.1 ∧ ctx.foundIdx = p.2)
    (hentry : slotOf ctx.result = slot)
    (hlast : nodes ≠ [] → nodes[g.clustersFor slot.size - 1]? = some last)
    (hnone : nodes = [] → last = 0) :
    ∃ r b', appendFrom (disk b) g.vol ctx last content = some (r, disk b') ∧
      g.Appended (g.image b) i slot nodes content r (g.image b') := by
  obtain ⟨hcluster, hsize⟩ := cluster_of_slot hentry
  obtain ⟨b₁, b₂, hfirstFill, hsecondFill, hroom, himage⟩ :=
    @fill_disk g b nodes content slot.cluster last slot.size hown.chain hown.not_root
      hown.cluster.symm hlast hnone
  have hlastCluster : g.lastCluster nodes slot.size = last := by
    rw [lastCluster, List.getD_eq_getElem?_getD]
    by_cases hnodes : nodes = []
    · rw [hnodes, hnone hnodes, List.getElem?_nil, Option.getD_none]
    · rw [hlast hnodes, Option.getD_some]
  have hlong : nodes = [] ∨ g.clustersFor slot.size - 1 < nodes.length := by
    by_cases hnodes : nodes = []
    · exact .inl hnodes
    · exact .inr (List.getElem?_eq_some_iff.mp (hlast hnodes)).1
  have hmem : last ≠ 0 → last ∈ nodes := fun hl0 =>
    List.mem_of_getElem? (hlast fun hnodes => hl0 (hnone hnodes))
  have hfat : (g.image b₂).fat = (g.image b).fat := by rw [himage, patched_fat]
  have hext : g.Extendable (g.image b₂).fat last := by
    rw [hfat]
    exact ⟨root_not_free hroot, fun hl0 => hown.chain.mem _ (hmem hl0),
      fun hl0 => (hown.chain.allocated (hmem hl0)).1⟩
  obtain ⟨b₃, s, hrun, hdrive, hfirst, hlaid⟩ :=
    @appendClusters_disk g b₂ last (content.drop (g.room nodes slot.size content.length))
      slot.cluster hext
  rw [hfat, List.length_drop] at hrun hfirst hlaid
  rw [himage] at hlaid
  rw [appendFrom, hcluster, hsize]
  simp only [hfirstFill, Option.bind_some, lt_irrefl, if_false, clusterSize_eq, hsecondFill, hroom,
    hrun]
  by_cases henough : g.clustersFor (content.length - g.room nodes slot.size content.length) ≤
      (g.free (g.image b).fat).length
  · have hnew := hfirst henough
    have hheadD : s.firstCluster =
        (nodes ++ g.appendTaken (g.image b) nodes slot.size content.length).headD 0 := by
      rw [hnew, appendTaken]
      by_cases hnodes : nodes = []
      · rw [if_neg (by rw [hnone hnodes]; simp), hown.cluster, hnodes]
        rfl
      · have hl0 : last ≠ 0 :=
          (Nat.zero_lt_of_lt (hown.chain.mem _ (List.mem_of_getElem? (hlast hnodes))).1).ne'
        rw [if_pos hl0, hown.cluster]
        cases nodes with
        | nil => exact absurd rfl hnodes
        | cons c rest => rfl
    obtain ⟨b', hwrite, himage'⟩ := @writeDirEntry_disk g b₃ i p
      (updatedEntry ctx.result s.firstCluster (slot.size + content.length)) hp
    refine ⟨0, b', ?_, ?_⟩
    · rw [if_pos henough, if_neg (lt_irrefl _), hdrive, hctx.1, hctx.2, hwrite]
    · have hsmall : s.firstCluster < 2 ^ 32 := by
        rw [hheadD]
        cases nodes with
        | nil => exact headD_lt_of_subset fun c hc => List.mem_of_mem_take hc
        | cons c rest => exact hown.chain.headD_lt
      rw [himage', DirEntry.slotOf_updatedEntry hsmall, hentry, hheadD]
      exact .done hlong henough (hlastCluster ▸ hlaid)
  · refine ⟨-1, b₃, ?_, ?_⟩
    · rw [if_neg henough, if_pos (by decide), hdrive]
    · rw [List.take_of_length_le (Nat.le_of_not_le henough)] at hlaid
      exact .short hlong (Nat.lt_of_not_le henough) (hlastCluster ▸ hlaid)

theorem appendFile_disk {chains : Nat → List Nat} (hroot : g.RootChain (g.image b).fat)
    (howns : ∀ i slot, findName (encode83Name name.1) (g.image b).dir = some i →
      (g.image b).dir[i]? = some slot → g.Owns (g.image b).fat slot (chains i)) :
    ∃ r b', appendFile (disk b) g.vol name.1 content = some (r, disk b') ∧
      g.Step chains (g.image b) (.appendFile name content) r (g.image b') := by
  cases hfind : findName (encode83Name name.1) (g.image b).dir with
  | none =>
      obtain ⟨r, b', hrun, hstep⟩ := @createFile_disk g b name content chains hroot
      refine ⟨r, b', ?_, .appendNew hfind hstep⟩
      rw [appendFile, search_name_none hroot hfind, Option.bind_some]
      exact hrun
  | some i =>
      obtain ⟨p, hp, hsearch⟩ := search_name_some hroot hfind
      obtain ⟨slot, hget, -, hentry⟩ := found_slot hfind hp
      obtain ⟨hcluster, hsize⟩ := cluster_of_slot hentry
      have hown := howns i slot hfind hget
      rw [appendFile, hsearch, Option.bind_some]
      simp only [foundAt, if_true, hcluster, hsize]
      by_cases hnodes : chains i = []
      · have hzero : slot.cluster = 0 := by rw [hown.cluster, hnodes, List.headD_nil]
        obtain ⟨r, b', hrun, happended⟩ := @appendFrom_disk g b i slot (chains i) content p 0
          { foundAt (.forName name.1) p with result := entryAt b p } hroot hown hp ⟨rfl, rfl⟩ hentry
          (fun hne => absurd hnodes hne) (fun _ => rfl)
        refine ⟨r, b', ?_, .append hfind hget happended⟩
        rw [if_neg (by simp [hzero])]
        exact hrun
      · obtain ⟨c, rest, hcons⟩ := List.exists_cons_of_ne_nil hnodes
        have hhead : (chains i).head? = some slot.cluster := by
          rw [hown.cluster, hcons, List.head?_cons, List.headD_cons]
        have hnonzero : slot.cluster ≠ 0 :=
          (Nat.zero_lt_of_lt (hown.chain.mem _ (List.mem_of_mem_head? hhead)).1).ne'
        rw [if_pos hnonzero, clusterSize_eq, ← clustersFor, appendWalk_disk hown.chain hhead]
        cases hlast : (chains i)[g.clustersFor slot.size - 1]? with
        | none =>
            exact ⟨-1, b, rfl, .append hfind hget
              (.broken hnodes (List.getElem?_eq_none_iff.mp hlast))⟩
        | some last =>
            obtain ⟨r, b', hrun, happended⟩ := @appendFrom_disk g b i slot (chains i) content p last
              { foundAt (.forName name.1) p with result := entryAt b p } hroot hown hp ⟨rfl, rfl⟩
              hentry (fun _ => hlast) (fun hnil => absurd hnil hnodes)
            exact ⟨r, b', hrun, .append hfind hget happended⟩

theorem mkdir_disk {chains : Nat → List Nat} (hroot : g.RootChain (g.image b).fat) :
    ∃ r b', mkdir (disk b) g.vol name.1 = some (r, disk b') ∧
      g.Step chains (g.image b) (.mkdir name) r (g.image b') := by
  cases hslot : freeSlot (g.image b).dir with
  | none =>
      refine ⟨-1, b, ?_, .mkdirFull hslot⟩
      rw [mkdir, search_free_none hroot hslot, Option.bind_some]
      rfl
  | some i =>
      obtain ⟨p, hp, hsearch⟩ := search_free_some hroot hslot
      obtain ⟨b', hwrite, himage⟩ := @writeDirEntry_disk g b i p
        ((DirEntry.named (encode83Name name.1) attrDirectory).store 24 2 stampDate) hp
      refine ⟨0, b', ?_, ?_⟩
      · rw [mkdir, hsearch, Option.bind_some]
        simp only [foundAt, if_true, hwrite]
      · rw [himage, DirEntry.slotOf_newDirectory (length_encode83Name name.1)]
        exact .mkdir hslot

/-- Every operation returns, and what it did is a step. -/
theorem exec_disk {chains : Nat → List Nat} (call : FileCall)
    (hroot : g.RootChain (g.image b).fat)
    (howns : ∀ raw i slot, call.target = some raw → findName raw (g.image b).dir = some i →
      (g.image b).dir[i]? = some slot → g.Owns (g.image b).fat slot (chains i)) :
    ∃ r b', exec (disk b) g.vol call = some (r, disk b') ∧
      g.Step chains (g.image b) call r (g.image b') := by
  cases call with
  | createFile name content => exact createFile_disk hroot
  | writeFile name content => exact writeFile_disk hroot fun i slot => howns _ i slot rfl
  | appendFile name content => exact appendFile_disk hroot fun i slot => howns _ i slot rfl
  | deleteFile name => exact deleteFile_disk hroot fun i slot => howns _ i slot rfl
  | mkdir name => exact mkdir_disk hroot

end Geometry

end GeckoOS.Fs
