/-
# Replacing the content of a file

A file of an image is a slot of the root directory that owns a chain as long as its size
says, and its content is what the chain holds.  `fat32_write_file` frees the old chain
before it takes a new one.  So content that is not longer than the old one always finds
room, and the slot then holds exactly this content.

Every other file keeps its entry, its chain and its bytes, whether the call finds the name,
makes a new entry or runs out of room.
-/

import GeckoOS.Fs.ClusterAccounting
import GeckoOS.Fs.FileContent
import Mathlib.Data.List.Perm.Subperm

namespace GeckoOS.Fs

open GeckoOS.Math ByteMap

/-- The file of a slot as the listing shows it. -/
def Slot.driveFile (s : Slot) : DriveFile := ⟨format83Name s.name, s.size, s.cluster⟩

namespace Geometry

/-- The file in slot `i`, with its clusters and its bytes. -/
structure FileIn (g : Geometry) (img : Image) (i : Nat) (slot : Slot) (nodes : List Nat)
    (content : List UInt8) : Prop where
  get : img.dir[i]? = some slot
  isFile : slot.isFile
  owns : g.Owns img.fat slot nodes
  long : slot.size ≤ nodes.length * g.clusterBytes
  bytes : slice (g.chainBytes img.data nodes) 0 slot.size = content

/-- Slot `i` is the entry of a file with these bytes. -/
def Stores (g : Geometry) (img : Image) (i : Nat) (content : List UInt8) : Prop :=
  ∃ slot nodes, g.FileIn img i slot nodes content

variable {g : Geometry} {b : ByteMap} {img img' img₁ : Image} {chains : Nat → List Nat}
  {i j : Nat} {slot : Slot} {ks nodes : List Nat} {content new : List UInt8} {name : CString}
  {tracked : Slot → Prop} {r : Int}

theorem FileIn.length (hfile : g.FileIn img i slot nodes content) : content.length = slot.size := by
  rw [← hfile.bytes, length_slice]

/-- A slot holds one size only. -/
theorem FileIn.length_unique {slot' : Slot} {nodes' : List Nat}
    (hfile : g.FileIn img i slot nodes content) (hother : g.FileIn img i slot' nodes' new) :
    content.length = new.length := by
  obtain rfl := Option.some.inj (hfile.get.symm.trans hother.get)
  rw [hfile.length, hother.length]

/-- The size of an entry is 32 bits wide. -/
theorem FileIn.size_lt (hfile : g.FileIn (g.image b) i slot nodes content) :
    slot.size < 2 ^ 32 := by
  obtain ⟨p, -, rfl⟩ := slots_of_dir hfile.get
  exact load_lt

/-- `fat32_file_read` reads the bytes of the file. -/
theorem FileIn.fileRead (hfile : g.FileIn (g.image b) i slot nodes content) (offset len : Nat)
    (hlen : len < 2 ^ 31) :
    Fs.fileRead (disk b) g.vol slot.driveFile offset len =
      some (some ((content.drop offset).take len), disk b) := by
  have hempty : nodes = [] → slot.size = 0 := by
    rintro rfl
    exact Nat.le_zero.mp (hfile.long.trans_eq (Nat.zero_mul _))
  have hserved : g.served nodes slot.size offset len = min len (slot.size - offset) := by
    rw [served, Nat.min_eq_left hfile.long]
  have hread := @fileRead_disk g b nodes slot.driveFile offset len hfile.owns.chain
    hfile.owns.not_root hfile.owns.cluster hempty hfile.size_lt hlen
  rw [hread, ← hfile.bytes, take_drop_slice, ← hserved]
  rfl

/-! ## Files that are not written -/

/-- An edit of one slot leaves the file in another one alone. -/
theorem FileIn.edit (hfile : g.FileIn img i slot (chains i) content)
    (hchained : g.Chained tracked img chains) (hedit : g.Edit img img' chains j ks)
    (hne : i ≠ j) : g.FileIn img' i slot (chains i) content := by
  have hkept : ∀ c ∈ chains i, c ∉ ks ∧ c ∉ chains j := fun c hc =>
    hedit.other hchained (.inr ⟨i, hne, hc⟩)
  refine ⟨(hedit.dir i hne).trans hfile.get, hfile.isFile, ?_, hfile.long, ?_⟩
  · refine ⟨hfile.owns.chain.congr fun c hc => ?_, hfile.owns.cluster, hfile.owns.not_root⟩
    exact hedit.fat c (hkept c hc).1 (hkept c hc).2
  · rw [← hfile.bytes]
    refine slice_congr fun k hk => chainBytes_congr (fun c hc => ?_) ?_
    · exact hedit.data c (hkept c hc).1 (hkept c hc).2
    · rw [Nat.zero_add]
      exact hk.trans_le hfile.long

/-- Storing content in a slot, with or without success, is an edit of this slot. -/
theorem Stored.edit (hstored : g.Stored (img.release (chains i)) i slot content r img') :
    ∃ ks, g.Edit img img' chains i ks := by
  cases hstored with
  | short _ _ hlaid =>
      have hdir : img'.dir = img.dir := hlaid.dir
      exact ⟨_, .of_laid hlaid (fun _ hc => hc) rfl rfl fun j _ => by rw [hdir]⟩
  | @done img₁ _ hlaid =>
      have hdir : img₁.dir = img.dir := hlaid.dir
      refine ⟨_, .of_laid hlaid taken_subset rfl rfl fun j hj => ?_⟩
      rw [Image.setSlot_dir, hdir, dir_set_ne hj]

/-- A write to another name, found or not, leaves a file alone. -/
theorem FileIn.write_other (hfile : g.FileIn img i slot (chains i) content)
    (hchained : g.Chained (fun s => s.live) img chains)
    (hstep : g.Step chains img (.writeFile name new) r img')
    (hother : findName (encode83Name name.1) img.dir ≠ some i) :
    g.FileIn img' i slot (chains i) content := by
  cases hstep with
  | writeNew hfind hcreate =>
      cases hcreate with
      | createFull _ => exact hfile
      | @create _ _ k _ _ hslot hstored =>
          have hne : i ≠ k := by
            rintro rfl
            exact not_live_of_freeSlot hslot hfile.get (Slot.live_of_isFile hfile.isFile)
          have hbase : img.release (chains k) = img := by
            rw [hchained.chain_eq_nil hslot, Image.release_nil]
          rw [← hbase] at hstored
          obtain ⟨ks, hedit⟩ := hstored.edit
          exact hfile.edit hchained hedit hne
  | @write _ _ k _ _ _ hfind _ hstored =>
      have hne : i ≠ k := fun hik => hother (hik ▸ hfind)
      obtain ⟨ks, hedit⟩ := hstored.edit
      exact hfile.edit hchained hedit hne

/-! ## The file that is written -/

/-- The free clusters take content that is not longer than what the freed chain held. -/
theorem clustersNeeded_le_free_release (hchain : g.Chain img.fat nodes) {len : Nat}
    (hpos : 0 < len) (hlen : len ≤ nodes.length * g.clusterBytes) :
    clustersNeeded g.vol len ≤ (g.free (img.release nodes).fat).length := by
  have hsub : ∀ c ∈ nodes, c ∈ g.free (img.release nodes).fat := fun c hc =>
    mem_free_release.mpr ⟨hchain.mem c hc, .inl hc⟩
  rw [clustersNeeded_eq, if_neg hpos.ne']
  exact (clustersFor_le.mpr hlen).trans (List.Nodup.subperm hchain.nodup hsub).length_le

/-- Content that was stored with success is a file of this content. -/
theorem FileIn.of_laid {base : Image} (hi : i < base.dir.length) (hisFile : slot.isFile)
    (hroot : ∀ c ∈ g.free base.fat, c ∉ g.root) (hsmall : content.length < 2 ^ 32)
    (henough : content = [] ∨ clustersNeeded g.vol content.length ≤ (g.free base.fat).length)
    (hlaid : g.Laid base img₁ 0 (g.taken base content.length) content) :
    g.FileIn (img₁.setSlot i
      { slot with
        cluster := (g.taken base content.length).headD 0
        size := content.length % 2 ^ 32 }) i
      { slot with
        cluster := (g.taken base content.length).headD 0
        size := content.length % 2 ^ 32 } (g.taken base content.length) content := by
  have hfits : content.length ≤ (g.taken base content.length).length * g.clusterBytes := by
    rcases henough with rfl | henough
    · exact Nat.zero_le _
    · rw [taken, List.length_take, Nat.min_eq_left henough, clustersNeeded_eq]
      split_ifs with hnil
      · exact hnil ▸ Nat.zero_le _
      · exact clustersFor_le.mp le_rfl
  have hmem : ∀ c ∈ g.taken base content.length, g.InTable c := fun c hc =>
    (mem_free.mp (taken_subset c hc)).1
  have hsize : content.length % 2 ^ 32 = content.length := Nat.mod_eq_of_lt hsmall
  refine ⟨?_, hisFile, ⟨hlaid.chain hmem, rfl, fun c hc => hroot c (taken_subset c hc)⟩, ?_, ?_⟩
  · rw [Image.setSlot_dir, hlaid.dir]
    exact List.getElem?_set_self hi
  · exact (Nat.mod_le _ _).trans hfits
  · refine Eq.trans ?_ (slice_ofList content)
    rw [hsize]
    refine slice_congr fun k hk => ?_
    rw [Nat.zero_add]
    exact hlaid.bytes k hk (hk.trans_le hfits)

/-- A write of no more bytes than the file has succeeds, and the file holds them. -/
theorem FileIn.write_same (hfile : g.FileIn img i slot (chains i) content)
    (hchained : g.Chained tracked img chains) (hsmall : slot.size < 2 ^ 32)
    (hstep : g.Step chains img (.writeFile name new) r img')
    (hfound : findName (encode83Name name.1) img.dir = some i)
    (hle : new.length ≤ content.length) : r = 0 ∧ g.Stores img' i new := by
  rw [hfile.length] at hle
  cases hstep with
  | writeNew hfind _ =>
      rw [hfind] at hfound
      cases hfound
  | write hfind hget hstored =>
      obtain rfl := Option.some.inj (hfind.symm.trans hfound)
      obtain rfl := Option.some.inj (hget.symm.trans hfile.get)
      cases hstored with
      | short hcontent hshort _ =>
          have henough := clustersNeeded_le_free_release hfile.owns.chain
            (List.length_pos_iff.mpr hcontent) (hle.trans hfile.long)
          exact absurd hshort (Nat.not_lt.mpr henough)
      | done henough hlaid =>
          exact ⟨rfl, _, _, .of_laid (List.getElem?_eq_some_iff.mp hget).1 hfile.isFile
            (fun c hc => (hchained.free_release hc).1) (hle.trans_lt hsmall) henough hlaid⟩

/-- `fat32_write_file` returns.  Of the file in a slot it either keeps every byte, or it
replaces them if the name is this file's and the new bytes are not more than the old. -/
theorem writeFile_stores (hchained : g.Chained (fun s => s.live) (g.image b) chains)
    (hfile : g.FileIn (g.image b) i slot (chains i) content) (name : CString) (new : List UInt8) :
    ∃ r b', writeFile (disk b) g.vol name.1 new = some (r, disk b') ∧
      (findName (encode83Name name.1) (g.image b).dir = some i → new.length ≤ content.length →
        r = 0 ∧ g.Stores (g.image b') i new) ∧
      (findName (encode83Name name.1) (g.image b).dir ≠ some i →
        g.Stores (g.image b') i content) := by
  obtain ⟨r, b', hwrite, hstep⟩ := @writeFile_disk g b name new chains hchained.root
    fun j s hfind hget => by
      obtain ⟨t, ht, hlive, -⟩ := findName_spec hfind
      obtain rfl := Option.some.inj (ht.symm.trans hget)
      exact hchained.owns hget hlive
  refine ⟨r, b', hwrite, fun hfound hle => ?_, fun hother => ?_⟩
  · exact hfile.write_same hchained hfile.size_lt hstep hfound hle
  · exact ⟨slot, _, hfile.write_other hchained hstep hother⟩

/-! ## A new file -/

/-- A file that has room is created, and the slot then holds its content. -/
theorem Chained.create (hchained : g.Chained (fun s => s.live) img chains)
    (hslot : freeSlot img.dir = some i) (hmark : (encode83Name name.1).headD 0 ≠ entryFree)
    (hsmall : content.length < 2 ^ 32)
    (henough : content = [] ∨ clustersNeeded g.vol content.length ≤ (g.free img.fat).length)
    (hstep : g.Step chains img (.createFile name content) r img') :
    r = 0 ∧ ∃ chains' cluster size,
      img'.dir = img.dir.set i ⟨encode83Name name.1, attrArchive, cluster, size⟩ ∧
      g.Chained (fun s => s.live) img' chains' ∧
      g.FileIn img' i ⟨encode83Name name.1, attrArchive, cluster, size⟩ (chains' i) content := by
  have hbase : img.release (chains i) = img := by
    rw [hchained.chain_eq_nil hslot, Image.release_nil]
  have hfirst := first_encode83Name name
  have hisFile (cluster size : Nat) :
      Slot.isFile ⟨encode83Name name.1, attrArchive, cluster, size⟩ :=
    Slot.isFile_iff.mpr ⟨Slot.live_iff.mpr ⟨hfirst, Slot.listed_iff.mpr
      ⟨hmark, show attrArchive &&& attrVolumeId = 0 by decide⟩⟩,
      show attrArchive &&& attrDirectory = 0 by decide⟩
  cases hstep with
  | createFull hfull =>
      rw [hslot] at hfull
      cases hfull
  | create hslot' hstored =>
      obtain rfl := Option.some.inj (hslot.symm.trans hslot')
      cases hstored with
      | short hcontent hshort _ =>
          exact absurd hshort (Nat.not_lt.mpr (henough.resolve_left hcontent))
      | @done img₁ _ hlaid =>
          obtain ⟨s, hget, -⟩ := freeSlot_spec hslot
          have hi := (List.getElem?_eq_some_iff.mp hget).1
          have hroot : ∀ c ∈ g.free img.fat, c ∉ g.root := fun c hc hmem =>
            root_not_free hchained.root c hmem (mem_free.mp hc).2
          have hfile := FileIn.of_laid hi (hisFile 0 0) hroot hsmall henough hlaid
          have hdir := hlaid.dir
          refine ⟨rfl, Function.update chains i (g.taken img content.length),
            (g.taken img content.length).headD 0, content.length % 2 ^ 32, ?_, ?_, ?_⟩
          · rw [Image.setSlot_dir, hdir]
          · have hclean : EndsClean (img.dir.set i ⟨encode83Name name.1, attrArchive,
                (g.taken img content.length).headD 0, content.length % 2 ^ 32⟩) :=
              hchained.clean.set hfirst fun j t hlt ht => before_freeSlot hslot hlt ht
            have hlaid' : g.Laid (img.release (chains i)) img₁ 0 (g.taken img content.length)
                content := by
              rw [hbase]
              exact hlaid
            have hsub : ∀ c ∈ g.taken img content.length,
                c ∈ g.free (img.release (chains i)).fat := by
              rw [hbase]
              exact taken_subset
            exact (hchained.stored_slot hlaid' hsub hclean (fun _ => rfl) fun hdead =>
              absurd (Slot.live_of_isFile (hisFile _ _)) (hdead _ (List.getElem?_set_self hi))).1
          · rw [Function.update_self]
            exact hfile

end Geometry

end GeckoOS.Fs
