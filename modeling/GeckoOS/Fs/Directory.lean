/-
# The root directory

On a drive whose transfers do not fail, `fat32_dir_iterate` over the root
directory shows its callback the entries of the slots in order, and what the
driver's callbacks answer is a function of the list of slots: the first reusable
slot, the first listed slot of a name before the end mark, and the list of
entries that `fat32_get_root_entries` returns.
-/

import GeckoOS.Fs.Table

namespace GeckoOS.Fs

open GeckoOS.Math ByteMap

/-! ## Reading and writing the fields of an entry -/

namespace DirEntry

variable {e : DirEntry} {address width value : Nat}

@[simp]
theorem length_rawName (e : DirEntry) : (rawName e).length = 11 := length_slice 11

theorem rawName_store (hafter : 11 ≤ address) :
    rawName (e.store address width value) = rawName e :=
  slice_congr fun i hi => store_apply_of_lt (by omega)

theorem attributes_store (hapart : 12 ≤ address ∨ address + width ≤ 11) :
    attributes (e.store address width value) = attributes e := by
  rcases hapart with hbefore | hafter
  · exact store_apply_of_lt (by omega)
  · exact store_apply_of_le hafter

theorem cluster_store (hapart : 28 ≤ address ∨ 22 ≤ address ∧ address + width ≤ 26 ∨
    address + width ≤ 20) : cluster (e.store address width value) = cluster e := by
  rw [cluster, cluster, load_store_disjoint _ (by omega), load_store_disjoint _ (by omega)]

theorem fileSize_store (hbefore : address + width ≤ 28) :
    fileSize (e.store address width value) = fileSize e :=
  load_store_disjoint _ (.inr hbefore)

/-- The halves of the first cluster are put together without overlap. -/
theorem cluster_eq (e : DirEntry) : cluster e = e.load 20 2 * 2 ^ 16 + e.load 26 2 := by
  have hlow : e.load 26 2 < 2 ^ 16 := load_lt
  rw [cluster, ← Nat.shiftLeft_eq, ← Nat.shiftLeft_add_eq_or_of_lt hlow, Nat.shiftLeft_eq]

theorem cluster_setCluster {c : Nat} (hc : c < 2 ^ 32) : cluster (setCluster e c) = c := by
  have hhigh : (setCluster e c).load 20 2 = c / 2 ^ 16 % 256 ^ 2 :=
    (load_store_disjoint _ (by decide)).trans (load_store_same _)
  have hlow : (setCluster e c).load 26 2 = c % 256 ^ 2 := load_store_same _
  rw [cluster_eq, hhigh, hlow]
  omega

theorem slotOf_updatedEntry {c size : Nat} (hc : c < 2 ^ 32) :
    slotOf (updatedEntry e c size) =
      { slotOf e with cluster := c, size := size % 2 ^ 32 } := by
  have hcluster : cluster (updatedEntry e c size) = c := by
    rw [updatedEntry, stampWrite, setFileSize, cluster_store (by decide), cluster_store (by decide),
      cluster_store (by decide), cluster_setCluster hc]
  have hsize : fileSize (updatedEntry e c size) = size % 2 ^ 32 := by
    rw [updatedEntry, stampWrite, fileSize_store (by decide), fileSize_store (by decide)]
    exact load_store_same size
  have hname : rawName (updatedEntry e c size) = rawName e := by
    simp only [updatedEntry, stampWrite, setFileSize, setCluster]
    repeat rw [rawName_store (by decide)]
  have hattributes : attributes (updatedEntry e c size) = attributes e := by
    simp only [updatedEntry, stampWrite, setFileSize, setCluster]
    repeat rw [attributes_store (by decide)]
  rw [slotOf, hcluster, hsize, hname, hattributes]
  rfl

theorem rawName_named {raw : List UInt8} {a : UInt8} (hraw : raw.length = 11) :
    rawName (named raw a) = raw := by
  rw [named, rawName_store (by decide)]
  refine Eq.trans ?_ (slice_ofList raw)
  rw [hraw]
  exact slice_congr fun i hi => by simp [blit, hi]

theorem attributes_named {raw : List UInt8} {a : UInt8} : attributes (named raw a) = a := by
  have hbyte : attributes (named raw a) = UInt8.ofNat (a.toNat / 256 ^ 0 % 256) := by
    simp [attributes, named, store]
  have hsmall := a.toNat_lt
  rw [hbyte, pow_zero, Nat.div_one, Nat.mod_eq_of_lt hsmall, UInt8.ofNat_toNat]

/-- Behind its name and attributes a new entry is zero. -/
theorem load_named {raw : List UInt8} {a : UInt8} (hafter : 12 ≤ address) :
    (named raw a).load address width = 0 := by
  rw [named, load_store_disjoint _ (.inr hafter), load_blit_disjoint (.inr (by omega))]
  clear hafter
  induction width generalizing address with
  | zero => rfl
  | succ width ih => simp [load, ih]

theorem slotOf_newFileEntry {name : List UInt8} {c len : Nat} (hc : c < 2 ^ 32)
    (hname : (encode83Name name).length = 11) :
    slotOf (newFileEntry name c len) = ⟨encode83Name name, attrArchive, c, len % 2 ^ 32⟩ := by
  have hcluster : cluster (newFileEntry name c len) = c := by
    simp only [newFileEntry, stampWrite, stampCreate, setFileSize]
    rw [cluster_store (by decide), cluster_store (by decide), cluster_store (by decide),
      cluster_store (by decide), cluster_store (by decide), cluster_setCluster hc]
  have hsize : fileSize (newFileEntry name c len) = len % 2 ^ 32 := by
    simp only [newFileEntry, stampWrite, stampCreate]
    rw [fileSize_store (by decide), fileSize_store (by decide), fileSize_store (by decide),
      fileSize_store (by decide)]
    exact load_store_same len
  have hraw : rawName (newFileEntry name c len) = encode83Name name := by
    simp only [newFileEntry, stampWrite, stampCreate, setFileSize, setCluster]
    repeat rw [rawName_store (by decide)]
    exact rawName_named hname
  have hattributes : attributes (newFileEntry name c len) = attrArchive := by
    simp only [newFileEntry, stampWrite, stampCreate, setFileSize, setCluster]
    repeat rw [attributes_store (by decide)]
    exact attributes_named
  rw [slotOf, hcluster, hsize, hraw, hattributes]

theorem slotOf_newDirectory {name : List UInt8} (hname : (encode83Name name).length = 11) :
    slotOf ((named (encode83Name name) attrDirectory).store 24 2 stampDate) =
      ⟨encode83Name name, attrDirectory, 0, 0⟩ := by
  have hcluster : cluster (named (encode83Name name) attrDirectory) = 0 := by
    rw [cluster_eq, load_named (by decide), load_named (by decide), Nat.zero_mul]
  have hsize : fileSize (named (encode83Name name) attrDirectory) = 0 := load_named (by decide)
  rw [slotOf, rawName_store (by decide), attributes_store (by decide), cluster_store (by decide),
    fileSize_store (by decide), hcluster, hsize, rawName_named hname, attributes_named]

/-- A deleted entry only loses the first byte of its name. -/
theorem slotOf_deleted :
    slotOf (e.store 0 1 entryFree.toNat) =
      { slotOf e with name := entryFree :: (rawName e).tail } := by
  have hraw : rawName (e.store 0 1 entryFree.toNat) = entryFree :: (rawName e).tail := by
    apply List.ext_getElem?
    intro i
    rcases Nat.lt_or_ge i 11 with hlt | hge
    · have hleft := @getElem?_slice (e.store 0 1 entryFree.toNat) 0 11 i hlt
      refine hleft.trans ?_
      cases i with
      | zero => rfl
      | succ i =>
          have hright := @getElem?_slice e 0 11 (i + 1) hlt
          rw [List.getElem?_cons_succ, List.getElem?_tail]
          refine Eq.trans ?_ hright.symm
          rw [store_apply_of_le (by omega)]
    · rw [List.getElem?_eq_none (by simpa using hge), List.getElem?_eq_none (by simpa using hge)]
  rw [slotOf, hraw, attributes_store (by decide), cluster_store (by decide),
    fileSize_store (by decide)]
  rfl

end DirEntry

/-! ## Slots -/

theorem length_nameField (width : Nat) (chars : List UInt8) :
    (nameField width chars).length = width := by
  simp only [nameField, List.length_append, List.length_replicate, List.length_map,
    List.length_take]
  omega

@[simp]
theorem length_encode83Name (name : List UInt8) : (encode83Name name).length = 11 := by
  rw [encode83Name]
  split <;> rw [List.length_append, length_nameField, length_nameField]

namespace Slot

/-- The byte that marks deleted entries and the end of the directory. -/
def first (s : Slot) : UInt8 := s.name.headD 0

/-- Neither deleted nor a volume label. -/
def listed (s : Slot) : Bool := s.first ≠ entryFree ∧ s.attributes &&& attrVolumeId = 0

/-- An entry of a file or directory. -/
def live (s : Slot) : Bool := s.first ≠ entryEnd ∧ s.listed

/-- An entry of a regular file. -/
def isFile (s : Slot) : Bool := s.live ∧ s.attributes &&& attrDirectory = 0

/-- The record the listing makes of the slot. -/
def rootEntry (s : Slot) : RootEntry :=
  if s.attributes &&& attrDirectory ≠ 0 then .directory (format83Name s.name)
  else .file ⟨format83Name s.name, s.size, s.cluster⟩

theorem listed_iff {s : Slot} :
    s.listed ↔ s.first ≠ entryFree ∧ s.attributes &&& attrVolumeId = 0 := by simp [listed]

theorem live_iff {s : Slot} : s.live ↔ s.first ≠ entryEnd ∧ s.listed := by simp [live]

theorem isFile_iff {s : Slot} : s.isFile ↔ s.live ∧ s.attributes &&& attrDirectory = 0 := by
  simp [isFile]

theorem live_of_isFile {s : Slot} (hfile : s.isFile) : s.live := (isFile_iff.mp hfile).1

end Slot

/-- A long-name entry is also marked as a volume label. -/
theorem not_lfn_of_not_volumeId {a : UInt8} (hlabel : a &&& attrVolumeId = 0) :
    a &&& attrLfn ≠ attrLfn := by
  intro hlfn
  have hboth : a &&& attrLfn &&& attrVolumeId = a &&& attrVolumeId := by
    rw [UInt8.and_assoc]
    rfl
  rw [hlfn, hlabel] at hboth
  exact absurd hboth (by decide)

theorem listingSkips_eq (e : DirEntry) : listingSkips e = !(slotOf e).listed := by
  have hfirst : (slotOf e).first = e 0 := rfl
  have hattributes : (slotOf e).attributes = DirEntry.attributes e := rfl
  by_cases hfree : e 0 = entryFree
  · simp [listingSkips, Slot.listed, hfirst, hfree]
  · by_cases hlabel : DirEntry.attributes e &&& attrVolumeId = 0
    · simp [listingSkips, Slot.listed, hfirst, hattributes, hfree, hlabel,
        not_lfn_of_not_volumeId hlabel]
    · simp [listingSkips, Slot.listed, hfirst, hattributes, hlabel]

/-- The slot a new entry goes into. -/
def freeSlot (dir : List Slot) : Option Nat :=
  dir.findIdx? fun s => s.first = entryFree ∨ s.first = entryEnd

/-- The first listed slot of a raw name before the end mark. -/
def findName (raw : List UInt8) : List Slot → Option Nat
  | [] => none
  | s :: rest =>
      if s.first = entryEnd then none
      else if s.listed ∧ s.name = raw then some 0
      else (findName raw rest).map (· + 1)

/-- What is listed: everything before the end mark that is not skipped. -/
def listing (dir : List Slot) : List Slot :=
  (dir.takeWhile (·.first ≠ entryEnd)).filter (·.listed)

/-- Behind the end mark there are only end marks. -/
def EndsClean (dir : List Slot) : Prop :=
  dir.Pairwise fun s t => s.first = entryEnd → t.first = entryEnd

section Lookup

variable {dir : List Slot} {raw : List UInt8} {i j : Nat} {s : Slot}

/-- The slot found is a live one of the name. -/
theorem findName_spec (hfind : findName raw dir = some i) :
    ∃ s, dir[i]? = some s ∧ s.live ∧ s.name = raw := by
  induction dir generalizing i with
  | nil => cases hfind
  | cons s rest ih =>
      rw [findName] at hfind
      split_ifs at hfind with hend hmatch
      · obtain rfl := Option.some.inj hfind
        exact ⟨s, rfl, Slot.live_iff.mpr ⟨hend, hmatch.1⟩, hmatch.2⟩
      · obtain ⟨j, hj, rfl⟩ := Option.map_eq_some_iff.mp hfind
        exact ih hj

/-- No earlier slot is a live one of the name. -/
theorem findName_first (hfind : findName raw dir = some i) (hj : j < i)
    (hget : dir[j]? = some s) (hlive : s.live) : s.name ≠ raw := by
  induction dir generalizing i j with
  | nil => cases hfind
  | cons t rest ih =>
      rw [findName] at hfind
      split_ifs at hfind with hend hmatch
      · obtain rfl := Option.some.inj hfind
        exact absurd hj (Nat.not_lt_zero _)
      · obtain ⟨k, hk, rfl⟩ := Option.map_eq_some_iff.mp hfind
        cases j with
        | zero =>
            obtain rfl := Option.some.inj hget
            exact fun hname => hmatch ⟨(Slot.live_iff.mp hlive).2, hname⟩
        | succ j => exact ih hk (Nat.lt_of_succ_lt_succ hj) hget

/-- In a directory that ends cleanly every live slot of the name is found. -/
theorem findName_none (hclean : EndsClean dir) (hfind : findName raw dir = none)
    (hget : dir[j]? = some s) (hlive : s.live) : s.name ≠ raw := by
  induction dir generalizing j with
  | nil => simp at hget
  | cons t rest ih =>
      obtain ⟨hhead, hrest⟩ := List.pairwise_cons.mp hclean
      rw [findName] at hfind
      split_ifs at hfind with hend hmatch
      · have hsend : s.first = entryEnd := by
          cases j with
          | zero =>
              obtain rfl := Option.some.inj hget
              exact hend
          | succ j => exact hhead s (List.mem_of_getElem? hget) hend
        exact absurd hsend (Slot.live_iff.mp hlive).1
      · cases j with
        | zero =>
            obtain rfl := Option.some.inj hget
            exact fun hname => hmatch ⟨(Slot.live_iff.mp hlive).2, hname⟩
        | succ j => exact ih hrest (Option.map_eq_none_iff.mp hfind) hget

/-- In a directory that ends cleanly the listed slots are the live ones. -/
theorem listing_eq (hclean : EndsClean dir) : listing dir = dir.filter (·.live) := by
  induction dir with
  | nil => rfl
  | cons s rest ih =>
      obtain ⟨hhead, hrest⟩ := List.pairwise_cons.mp hclean
      by_cases hend : s.first = entryEnd
      · have hdead : ∀ t ∈ s :: rest, ¬ t.live := by
          intro t ht hlive
          rcases List.mem_cons.mp ht with rfl | hmem
          · exact (Slot.live_iff.mp hlive).1 hend
          · exact (Slot.live_iff.mp hlive).1 (hhead t hmem hend)
        rw [List.filter_eq_nil_iff.mpr hdead]
        simp [listing, hend]
      · rw [listing] at ih
        have hlive : s.live = s.listed := by simp [Slot.live, hend]
        simp only [listing, List.takeWhile_cons, hend, ne_eq, not_false_eq_true, decide_true,
          if_true, List.filter_cons, hlive]
        rw [← ih hrest]

theorem freeSlot_spec (hfree : freeSlot dir = some i) :
    ∃ s, dir[i]? = some s ∧ (s.first = entryFree ∨ s.first = entryEnd) := by
  obtain ⟨hi, hmark, -⟩ := List.findIdx?_eq_some_iff_getElem.mp hfree
  exact ⟨dir[i], List.getElem?_eq_getElem hi, of_decide_eq_true hmark⟩

theorem not_live_of_freeSlot (hfree : freeSlot dir = some i) (hget : dir[i]? = some s) :
    ¬ s.live := by
  obtain ⟨t, ht, hmark⟩ := freeSlot_spec hfree
  obtain rfl := Option.some.inj (hget.symm.trans ht)
  intro hlive
  obtain ⟨hend, hlisted⟩ := Slot.live_iff.mp hlive
  rcases hmark with hdeleted | hended
  · simp [Slot.listed, hdeleted] at hlisted
  · exact hend hended

end Lookup

/-! ## Walking over the slots -/

namespace Geometry

variable {g : Geometry} {b : ByteMap} {nodes : List Nat} {c : Nat} {σ : Type}
  {cb : DirEntry → Nat → Nat → σ → Bool × σ} {ctx : σ}

/-- The slots of some clusters, in order. -/
def clusterSlots (g : Geometry) (nodes : List Nat) : List (Nat × Nat) :=
  nodes.flatMap fun c =>
    (List.range g.vol.sectorsPerCluster).flatMap fun s =>
      (List.range 16).map fun e => (g.clusterLba c + s, e)

/-- A callback on the entries of some slots, until it stops. -/
def visitSlots (cb : DirEntry → Nat → Nat → σ → Bool × σ) (b : ByteMap) :
    List (Nat × Nat) → σ → Bool × σ
  | [], ctx => (false, ctx)
  | p :: rest, ctx =>
      match cb (entryAt b p) p.1 p.2 ctx with
      | (true, ctx) => (true, ctx)
      | (false, ctx) => visitSlots cb b rest ctx

theorem visitSlots_append (front rest : List (Nat × Nat)) :
    visitSlots cb b (front ++ rest) ctx =
      match visitSlots cb b front ctx with
      | (true, ctx) => (true, ctx)
      | (false, ctx) => visitSlots cb b rest ctx := by
  induction front generalizing ctx with
  | nil => rfl
  | cons p front ih =>
      rw [List.cons_append, visitSlots, visitSlots]
      cases cb (entryAt b p) p.1 p.2 ctx with
      | mk stop ctx' =>
          cases stop with
          | true => rfl
          | false => exact ih

theorem visitSector_disk (lba : Nat) (es : List Nat) :
    visitSector cb (fun i => b (lba * 512 + i)) lba es ctx =
      visitSlots cb b (es.map fun e => (lba, e)) ctx := by
  induction es generalizing ctx with
  | nil => rfl
  | cons e es ih =>
      have hentry : dirEntryAt (fun i => b (lba * 512 + i)) e = entryAt b (lba, e) := by
        funext i
        simp only [dirEntryAt, entryAt, slotPos, Nat.add_assoc]
      rw [visitSector, List.map_cons, visitSlots, hentry]
      cases cb (entryAt b (lba, e)) lba e ctx with
      | mk stop ctx' =>
          cases stop with
          | true => rfl
          | false => exact ih

theorem visitCluster_disk {lba : Nat} (m s : Nat) (hlba : lba + s + m ≤ 2 ^ 32) :
    visitCluster cb lba (List.range' s m) ctx (disk b) =
      ((visitSlots cb b ((List.range' s m).flatMap fun s =>
          (List.range 16).map fun e => (lba + s, e)) ctx).1,
        (visitSlots cb b ((List.range' s m).flatMap fun s =>
          (List.range 16).map fun e => (lba + s, e)) ctx).2, disk b) := by
  induction m generalizing s ctx with
  | zero => rfl
  | succ m ih =>
      have hsector : u32 (lba + s) = lba + s := u32_of_lt (by omega)
      rw [List.range'_succ, visitCluster, hsector, read_disk, List.flatMap_cons, visitSlots_append]
      simp only [disk_sectorSize, visitSector_disk]
      cases visitSlots cb b ((List.range (512 / 32)).map fun e => (lba + s, e)) ctx with
      | mk stop ctx' =>
          cases stop with
          | true => rfl
          | false => exact ih (s + 1) (by omega)

/-- The walk over a chain shows the callback the slots of its clusters. -/
theorem dirIterate_chain (hchain : g.Chain (g.image b).fat nodes) (hnames : Names c nodes) :
    dirIterate (disk b) g.vol c cb ctx =
      some ((visitSlots cb b (g.clusterSlots nodes) ctx).2, disk b) := by
  induction nodes generalizing c ctx with
  | nil =>
      rcases hnames with hhead | ⟨-, hstop⟩
      · cases hhead
      · rw [dirIterate, loop_eq, dirIterateRound, if_neg hstop]
        rfl
  | cons c' nodes ih =>
      obtain rfl : c' = c := by
        rcases hnames with hhead | ⟨hnil, -⟩
        · exact Option.some.inj hhead
        · cases hnil
      have hc := hchain.mem c' List.mem_cons_self
      have hcluster := @visitCluster_disk b σ cb ctx (g.clusterLba c') g.vol.sectorsPerCluster 0
        (clusterLba_add_le hc)
      rw [← List.range_eq_range'] at hcluster
      rw [dirIterate, loop_eq, dirIterateRound, if_pos hc.isLink, clusterToLba_eq hc, hcluster,
        clusterSlots, List.flatMap_cons, visitSlots_append, ← clusterSlots]
      cases visitSlots cb b ((List.range g.vol.sectorsPerCluster).flatMap fun s =>
          (List.range 16).map fun e => (g.clusterLba c' + s, e)) ctx with
      | mk stop ctx' =>
          cases stop with
          | true => rfl
          | false =>
              simp only [nextCluster_disk hc.2]
              exact ih hchain.tail hchain.names_next

/-- The root directory is a chain of the table. -/
def RootChain (g : Geometry) (fat : Nat → Nat) : Prop := g.Chain fat g.root

theorem dirIterate_disk (hroot : g.RootChain (g.image b).fat) :
    dirIterate (disk b) g.vol g.vol.rootCluster cb ctx =
      some ((visitSlots cb b g.slots ctx).2, disk b) :=
  dirIterate_chain hroot (.inl g.root_head)

/-! ## The driver's callbacks -/

/-- The context of a search that ended at a slot. -/
def foundAt (ctx : DirSearchCtx) (p : Nat × Nat) : DirSearchCtx :=
  { ctx with found := true, foundLba := p.1, foundIdx := p.2 }

theorem dirSearchCb_forFree (e : DirEntry) (lba idx : Nat) :
    dirSearchCb e lba idx .forFree =
      if (slotOf e).first = entryFree ∨ (slotOf e).first = entryEnd then
        (true, foundAt .forFree (lba, idx))
      else (false, .forFree) := rfl

theorem dirSearchCb_forName (name : List UInt8) (e : DirEntry) (lba idx : Nat) :
    dirSearchCb e lba idx (.forName name) =
      if (slotOf e).first = entryEnd then (true, .forName name)
      else if (slotOf e).listed ∧ (slotOf e).name = encode83Name name then
        (true, { foundAt (.forName name) (lba, idx) with result := e })
      else (false, .forName name) := by
  have hfirst : (slotOf e).first = e 0 := rfl
  have hname : (slotOf e).name = DirEntry.rawName e := rfl
  have hskips := listingSkips_eq e
  rw [listingSkips] at hskips
  simp only [dirSearchCb, DirSearchCtx.forName, hfirst, hname, foundAt]
  by_cases hend : e 0 = entryEnd
  · simp [hend]
  · by_cases hskip : (slotOf e).listed
    · by_cases hmatch : DirEntry.rawName e = encode83Name name <;> simp_all
    · simp only [hskip, Bool.not_false, decide_eq_true_eq] at hskips
      rcases hskips with hfree | hlabel | hlfn <;> simp_all

theorem visitSlots_forFree (slots : List (Nat × Nat)) :
    (visitSlots dirSearchCb b slots .forFree).2 =
      ((freeSlot (slots.map fun p => slotOf (entryAt b p))).bind (slots[·]?)).elim .forFree
        (foundAt .forFree) := by
  induction slots with
  | nil => rfl
  | cons p rest ih =>
      rw [freeSlot] at ih
      rw [freeSlot, List.map_cons, List.findIdx?_cons, visitSlots, dirSearchCb_forFree]
      by_cases hmark : (slotOf (entryAt b p)).first = entryFree ∨
          (slotOf (entryAt b p)).first = entryEnd
      · rw [if_pos hmark, if_pos (decide_eq_true hmark)]
        rfl
      · rw [if_neg hmark, if_neg (fun h => hmark (of_decide_eq_true h)), Option.bind_map]
        exact ih

theorem visitSlots_forName (name : List UInt8) (slots : List (Nat × Nat)) :
    (visitSlots dirSearchCb b slots (.forName name)).2 =
      ((findName (encode83Name name) (slots.map fun p => slotOf (entryAt b p))).bind
        (slots[·]?)).elim (.forName name)
        fun p => { foundAt (.forName name) p with result := entryAt b p } := by
  induction slots with
  | nil => rfl
  | cons p rest ih =>
      rw [List.map_cons, findName, visitSlots, dirSearchCb_forName]
      by_cases hend : (slotOf (entryAt b p)).first = entryEnd
      · rw [if_pos hend, if_pos hend]
        rfl
      · rw [if_neg hend, if_neg hend]
        by_cases hmatch : (slotOf (entryAt b p)).listed ∧
            (slotOf (entryAt b p)).name = encode83Name name
        · rw [if_pos hmatch, if_pos hmatch]
          rfl
        · rw [if_neg hmatch, if_neg hmatch, Option.bind_map]
          exact ih

section Searches

variable {i : Nat}

theorem slots_of_dir {s : Slot} (hget : (g.image b).dir[i]? = some s) :
    ∃ p, g.slots[i]? = some p ∧ slotOf (entryAt b p) = s := by
  obtain ⟨p, hp, hs⟩ := List.getElem?_map.symm.trans hget |> Option.map_eq_some_iff.mp
  exact ⟨p, hp, hs⟩

theorem search_free_none (hroot : g.RootChain (g.image b).fat)
    (hfree : freeSlot (g.image b).dir = none) :
    dirIterate (disk b) g.vol g.vol.rootCluster dirSearchCb .forFree =
      some (.forFree, disk b) := by
  rw [dirIterate_disk hroot, visitSlots_forFree]
  change some (((freeSlot (g.image b).dir).bind (g.slots[·]?)).elim _ _, disk b) = _
  rw [hfree, Option.bind_none, Option.elim_none]

theorem search_free_some (hroot : g.RootChain (g.image b).fat)
    (hfree : freeSlot (g.image b).dir = some i) :
    ∃ p, g.slots[i]? = some p ∧
      dirIterate (disk b) g.vol g.vol.rootCluster dirSearchCb .forFree =
        some (foundAt .forFree p, disk b) := by
  obtain ⟨s, hget, -⟩ := freeSlot_spec hfree
  obtain ⟨p, hp, -⟩ := slots_of_dir hget
  refine ⟨p, hp, ?_⟩
  rw [dirIterate_disk hroot, visitSlots_forFree]
  change some (((freeSlot (g.image b).dir).bind (g.slots[·]?)).elim _ _, disk b) = _
  rw [hfree, Option.bind_some, hp, Option.elim_some]

theorem search_name_none {name : List UInt8} (hroot : g.RootChain (g.image b).fat)
    (hfind : findName (encode83Name name) (g.image b).dir = none) :
    dirIterate (disk b) g.vol g.vol.rootCluster dirSearchCb (.forName name) =
      some (.forName name, disk b) := by
  rw [dirIterate_disk hroot, visitSlots_forName]
  change some (((findName _ (g.image b).dir).bind (g.slots[·]?)).elim _ _, disk b) = _
  rw [hfind, Option.bind_none, Option.elim_none]

theorem search_name_some {name : List UInt8} (hroot : g.RootChain (g.image b).fat)
    (hfind : findName (encode83Name name) (g.image b).dir = some i) :
    ∃ p, g.slots[i]? = some p ∧
      dirIterate (disk b) g.vol g.vol.rootCluster dirSearchCb (.forName name) =
        some ({ foundAt (.forName name) p with result := entryAt b p }, disk b) := by
  obtain ⟨s, hget, -⟩ := findName_spec hfind
  obtain ⟨p, hp, -⟩ := slots_of_dir hget
  refine ⟨p, hp, ?_⟩
  rw [dirIterate_disk hroot, visitSlots_forName]
  change some (((findName _ (g.image b).dir).bind (g.slots[·]?)).elim _ _, disk b) = _
  rw [hfind, Option.bind_some, hp, Option.elim_some]

/-- `fat32_write_dir_entry` changes the slot it is given. -/
theorem writeDirEntry_disk {p : Nat × Nat} {entry : DirEntry} (hp : g.slots[i]? = some p) :
    ∃ b', writeDirEntry (disk b) p.1 p.2 entry = (0, disk b') ∧
      g.image b' = (g.image b).setSlot i (slotOf entry) := by
  have hidx := slot_idx_lt (List.mem_of_getElem? hp)
  refine ⟨b.blit (slotPos p) entry 32, ?_, image_blit_slot hp⟩
  simp only [writeDirEntry, read_disk, write_disk,
    blit_blit_window (show 32 * p.2 + 32 ≤ 512 by omega),
    slotPos]

end Searches

/-! ## The listing -/

theorem visitSlots_enumCount (slots : List (Nat × Nat)) (count : Nat) :
    (visitSlots enumCountCb b slots count).2 =
      count + (listing (slots.map fun p => slotOf (entryAt b p))).length := by
  induction slots generalizing count with
  | nil => rfl
  | cons p rest ih =>
      have hfirst : entryAt b p 0 = (slotOf (entryAt b p)).first := rfl
      rw [visitSlots, enumCountCb, listingSkips_eq, hfirst, List.map_cons, listing,
        List.takeWhile_cons]
      rw [listing] at ih
      by_cases hend : (slotOf (entryAt b p)).first = entryEnd
      · simp [hend]
      · cases hlisted : (slotOf (entryAt b p)).listed with
        | false => simp [hend, hlisted, ih]
        | true =>
            simp [hend, hlisted, ih]
            omega

theorem visitSlots_enumFill (slots : List (Nat × Nat)) (entries : List RootEntry) :
    (visitSlots enumFillCb b slots entries).2 =
      entries ++ (listing (slots.map fun p => slotOf (entryAt b p))).map Slot.rootEntry := by
  induction slots generalizing entries with
  | nil => simp [visitSlots, listing]
  | cons p rest ih =>
      have hfirst : entryAt b p 0 = (slotOf (entryAt b p)).first := rfl
      have hentry : rootEntry (entryAt b p) = (slotOf (entryAt b p)).rootEntry := rfl
      rw [visitSlots, enumFillCb, listingSkips_eq, hfirst, hentry, List.map_cons, listing,
        List.takeWhile_cons]
      rw [listing] at ih
      by_cases hend : (slotOf (entryAt b p)).first = entryEnd
      · simp [hend]
      · cases hlisted : (slotOf (entryAt b p)).listed with
        | false => simp [hend, hlisted, ih]
        | true => simp [hend, hlisted, ih]

/-- The entries the root directory of an image lists. -/
def rootEntries (dir : List Slot) : RootEntries :=
  ⟨(listing dir).length, (listing dir).map Slot.rootEntry⟩

/-- `fat32_get_root_entries` lists the directory of the image. -/
theorem getRootEntries_disk (hroot : g.RootChain (g.image b).fat) :
    getRootEntries (disk b) g.vol = some (rootEntries (g.image b).dir, disk b) := by
  rw [getRootEntries, dirIterate_disk hroot, visitSlots_enumCount, Nat.zero_add, Option.bind_some]
  change (if (listing (g.image b).dir).length = 0 then _ else _) = _
  split_ifs with hempty
  · rw [rootEntries, List.eq_nil_of_length_eq_zero hempty]
    rfl
  · rw [dirIterate_disk hroot, visitSlots_enumFill, Option.bind_some]
    rfl

end Geometry

end GeckoOS.Fs
