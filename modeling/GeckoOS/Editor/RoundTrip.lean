/-
# Opening a file and saving it

`ed_load` looks the file up in the listing and fills the buffer by reads of 128 bytes, up to
one byte less than the buffer has.  `ed_save` gives the text to `fat32_write_file`, which
replaces the content of the file by it.

So saving what was just opened writes the first 4095 bytes of the file and makes them the
whole file.  Nothing in the state of the editor tells that there were more.
-/

import GeckoOS.Editor.TextCursor
import GeckoOS.Fs.ReadFile
import GeckoOS.Fs.Replacing
import GeckoOS.Fs.UniqueNames

namespace GeckoOS.Editor

open GeckoOS.Math ByteMap GeckoOS.Fs Geometry

/-! ## The functions on a drive -/

/-- What the outer loop of `ed_load` carries. -/
structure LoadState where
  offset : Nat
  ed : EdState
  drive : Drive

/-- One round of the outer loop of `ed_load`. -/
noncomputable def loadRound (v : Volume) (file : DriveFile) (s : LoadState) :
    Option (EdState × Drive) ⊕ LoadState :=
  if s.ed.len < editorMaxFilesize - 1 then
    match fileRead s.drive v file s.offset 128 with
    | none => .inl none
    | some (none, d) => .inl (some (s.ed, d))
    | some (some bytes, d) =>
        if bytes = [] then .inl (some (s.ed, d))
        else .inr ⟨s.offset + bytes.length, takeBytes bytes s.ed, d⟩
  else .inl (some (s.ed, s.drive))

/-- `ed_load` with a file system; `filename` is what `ed_filename` holds. -/
noncomputable def edLoadFrom (d : Drive) (v : Volume) (filename : List UInt8) (ed : EdState) :
    Option (EdState × Drive) :=
  (getRootEntries d v).bind fun (r, d) =>
    let empty := { ed with buf := Function.update ed.buf 0 0, len := 0 }
    match foundFile filename (entriesSeen r) with
    | none => some (empty, d)
    | some file =>
        ((loop (loadRound v file) ⟨0, empty, d⟩).bind id).map fun (full, d) =>
          ({ full with buf := Function.update full.buf full.len 0 }, d)

/-- `ed_save` with a file system. -/
noncomputable def edSave (d : Drive) (v : Volume) (filename : List UInt8) (ed : EdState) :
    Option (EdState × Drive) :=
  (writeFile d v filename ed.text).map fun (r, d) =>
    ({ ed with dirty := if r = 0 then false else ed.dirty }, d)

/-- The file is opened, and saved at once. -/
noncomputable def loadAndSave (d : Drive) (v : Volume) (filename : List UInt8) (ed : EdState) :
    Option (EdState × Drive) :=
  (edLoadFrom d v filename ed).bind fun (ed, d) => edSave d v filename ed

/-- `ed_load` finds the file of a slot. -/
def Opens (g : Geometry) (b : ByteMap) (filename : List UInt8) (slot : Slot) : Prop :=
  ∃ r d, getRootEntries (disk b) g.vol = some (r, d) ∧
    foundFile filename (entriesSeen r) = some slot.driveFile

variable {g : Geometry} {b : ByteMap} {chains : Nat → List Nat} {i : Nat} {slot : Slot}
  {content : List UInt8} {v : Volume} {file : DriveFile} {read : Nat → List UInt8}
  {name : CString}

/-! ## Loading -/

/-- On a drive whose reads do not fail the loop is the one over the file's read function. -/
theorem loop_loadRound
    (hread : ∀ offset, fileRead (disk b) v file offset 128 = some (some (read offset), disk b))
    (rounds offset : Nat) {ed : EdState} (hlen : ed.len ≤ editorMaxFilesize - 1)
    (hrounds : editorMaxFilesize ≤ rounds + ed.len) :
    loop (loadRound v file) ⟨offset, ed, disk b⟩ =
      some (some (loadLoop read rounds offset ed, disk b)) := by
  have hsize : 0 < editorMaxFilesize := by decide
  induction rounds generalizing offset ed with
  | zero => omega
  | succ rounds ih =>
      rw [loop_eq, loadRound, loadLoop]
      by_cases hroom : ed.len < editorMaxFilesize - 1
      · simp only [if_pos hroom, hread]
        by_cases hend : read offset = []
        · simp only [if_pos hend]
        · simp only [if_neg hend]
          have hpos := List.length_pos_iff.mpr hend
          have htaken := (takeBytes_spec (read offset) hlen).1
          exact ih _ (takeBytes_len_le _ hlen) (by omega)
      · simp only [if_neg hroom]

/-- `ed_load` reads the file of the slot, as much of it as fits. -/
theorem edLoadFrom_disk (hchained : g.Chained (fun s => s.live) (g.image b) chains)
    (hfile : g.FileIn (g.image b) i slot (chains i) content)
    (hopens : Opens g b name.1 slot) (ed : EdState) :
    ∃ ed', edLoadFrom (disk b) g.vol name.1 ed = some (ed', disk b) ∧
      ed'.text = content.take (editorMaxFilesize - 1) := by
  obtain ⟨r, d, hlist, hfound⟩ := hopens
  have hloop := @loop_loadRound b g.vol slot.driveFile _
    (fun offset => hfile.fileRead offset 128 (by decide)) editorMaxFilesize 0
    { ed with buf := Function.update ed.buf 0 0, len := 0 } (Nat.zero_le _) le_rfl
  refine ⟨_, ?_, edLoad_text content ed⟩
  obtain rfl : d = disk b := by
    rw [getRootEntries_disk hchained.root] at hlist
    exact (Prod.mk.inj (Option.some.inj hlist)).2.symm
  rw [edLoadFrom, hlist, Option.bind_some]
  simp only [hfound, hloop]
  rfl

/-! ## Loading and saving -/

/-- The file that is written keeps its first 4095 bytes, and if that is another one than was
opened, nothing happens to the latter. -/
theorem loadAndSave_disk (hchained : g.Chained (fun s => s.live) (g.image b) chains)
    (hfile : g.FileIn (g.image b) i slot (chains i) content)
    (hopens : Opens g b name.1 slot) (ed : EdState) :
    ∃ ed' b', loadAndSave (disk b) g.vol name.1 ed = some (ed', disk b') ∧
      (findName (encode83Name name.1) (g.image b).dir = some i →
        g.Stores (g.image b') i (content.take (editorMaxFilesize - 1))) ∧
      (findName (encode83Name name.1) (g.image b).dir ≠ some i →
        g.Stores (g.image b') i content) := by
  obtain ⟨full, hload, htext⟩ := edLoadFrom_disk hchained hfile hopens ed
  obtain ⟨r, b', hwrite, hsame, hother⟩ := writeFile_stores hchained hfile name full.text
  refine ⟨{ full with dirty := if r = 0 then false else full.dirty }, b', ?_, fun hfound => ?_,
    hother⟩
  · rw [loadAndSave, hload, Option.bind_some]
    simp only [edSave, hwrite, Option.map_some]
  · rw [htext] at hsame
    exact (hsame hfound (List.length_take_le' _ _)).2

/-- Where the names are different and in upper case the file opened is the file written. -/
theorem findName_of_opens (hchained : g.Chained (fun s => s.live) (g.image b) chains)
    (hfile : g.FileIn (g.image b) i slot (chains i) content)
    (hdistinct : Distinct (g.image b).dir) (hspace : space ∉ name.1)
    (hopens : Opens g b name.1 slot) :
    findName (encode83Name name.1) (g.image b).dir = some i := by
  obtain ⟨r, d, -, hfound⟩ := hopens
  have hlive := Slot.live_of_isFile hfile.isFile
  have hmem : slot ∈ listing (g.image b).dir := by
    rw [listing_eq hchained.clean]
    exact List.mem_filter.mpr ⟨List.mem_of_getElem? hfile.get, hlive⟩
  obtain ⟨base, ext, hraw⟩ := hdistinct.named slot hmem
  have hsame := (sameName_iff _ _).mp (foundFile_spec hfound).2
  rw [show slot.driveFile.name = format83Name slot.name from rfl, hraw.format83Name,
    hraw.map_upperCase_display] at hsame
  obtain ⟨j, hfind⟩ := findName_of_mem_listing hmem
  obtain ⟨t, ht, htlive, htname⟩ := findName_spec hfind
  rw [(encode_of_display hraw hspace hsame.symm).2, hfind,
    hdistinct.unique hchained.clean j i t slot ht hfile.get htlive hlive htname]

/-- **Opening and saving.** A file that is opened and saved without a key in between is left
as it was exactly when it has fewer bytes than the buffer, or when the driver's lookup leads
the save to another entry than the one opened. -/
theorem loadAndSave_keeps_iff (hchained : g.Chained (fun s => s.live) (g.image b) chains)
    (hfile : g.FileIn (g.image b) i slot (chains i) content)
    (hopens : Opens g b name.1 slot) (ed : EdState) :
    ∃ ed' b', loadAndSave (disk b) g.vol name.1 ed = some (ed', disk b') ∧
      (g.Stores (g.image b') i content ↔
        content.length ≤ editorMaxFilesize - 1 ∨
          findName (encode83Name name.1) (g.image b).dir ≠ some i) := by
  obtain ⟨ed', b', hrun, hsame, hother⟩ := loadAndSave_disk hchained hfile hopens ed
  refine ⟨ed', b', hrun, fun hstores => ?_, fun hsmall => ?_⟩
  · rw [or_iff_not_imp_right, not_not]
    intro hfound
    obtain ⟨slot₁, nodes₁, hkept⟩ := hstores
    obtain ⟨slot₂, nodes₂, hcut⟩ := hsame hfound
    rw [hkept.length_unique hcut]
    exact List.length_take_le _ _
  · by_cases hfound : findName (encode83Name name.1) (g.image b).dir = some i
    · have hall := hsame hfound
      rwa [List.take_of_length_le (hsmall.resolve_right (not_not.mpr hfound))] at hall
    · exact hother hfound

/-! ## A file as long as the buffer -/

theorem nul_not_mem_letterA : (0 : UInt8) ∉ [0x41] := by decide

/-- `A`, as a C string. -/
def letterA : CString := ⟨[0x41], nul_not_mem_letterA⟩

/-- A fresh volume with one file `A` lists this file, and finds it. -/
theorem dir_letterA (s : Slot) (hname : s.name = encode83Name letterA.1)
    (hattributes : s.attributes = attrArchive) :
    listing ((smallVolume.slots.map fun _ => zeroSlot).set 0 s) = [s] ∧
      findName (encode83Name letterA.1) ((smallVolume.slots.map fun _ => zeroSlot).set 0 s) =
        some 0 := by
  have hslots : (smallVolume.slots.map fun _ => zeroSlot) =
      zeroSlot :: zeroSlot :: List.replicate 14 zeroSlot := by
    rw [List.map_const', show smallVolume.slots.length = 16 by decide +kernel]
    rfl
  have hfirst : s.first ≠ entryEnd := by
    rw [Slot.first, hname]
    decide
  have hlisted : s.listed := by
    rw [Slot.listed_iff, Slot.first, hname, hattributes]
    decide
  have hzero : zeroSlot.first = entryEnd := rfl
  rw [hslots, List.set_cons_zero]
  constructor
  · rw [listing, List.takeWhile_cons, if_pos (decide_eq_true hfirst), List.takeWhile_cons,
      if_neg (by rw [hzero]; decide), List.filter_cons_of_pos hlisted, List.filter_nil]
  · rw [findName, if_neg hfirst, if_pos ⟨hlisted, hname⟩]

/-- A file `A` that is made on a fresh volume, of any content that has room. -/
theorem created_letterA (content : List UInt8) (hroom : content.length ≤ 125 * 512) :
    ∃ b chains slot,
      createFile (disk smallVolume.formatted) smallVolume.vol letterA.1 content =
        some (0, disk b) ∧
      smallVolume.Chained (fun s => s.live) (smallVolume.image b) chains ∧
      smallVolume.FileIn (smallVolume.image b) 0 slot (chains 0) content ∧
      Opens smallVolume b letterA.1 slot ∧
      findName (encode83Name letterA.1) (smallVolume.image b).dir = some 0 := by
  have hfresh := @formatted_chained smallVolume (fun s => s.live) rfl fun _ hlive => hlive
  have hfree : (smallVolume.free (smallVolume.image smallVolume.formatted).fat).length = 125 := by
    rw [image_formatted]
    decide +kernel
  have henough : content = [] ∨ clustersNeeded smallVolume.vol content.length ≤
      (smallVolume.free (smallVolume.image smallVolume.formatted).fat).length := by
    rw [or_iff_not_imp_left, hfree, clustersNeeded_eq]
    intro hsome
    rw [if_neg (List.length_pos_iff.mpr hsome).ne']
    exact clustersFor_le.mpr hroom
  obtain ⟨r, b, hcreate, hstep⟩ := @createFile_disk smallVolume smallVolume.formatted letterA
    content (fun _ => []) hfresh.root
  obtain ⟨rfl, chains, cluster, size, hdir, hchained, hfile⟩ := hfresh.create freeSlot_formatted
    (by decide) (hroom.trans_lt (by decide)) henough hstep
  rw [image_formatted] at hdir
  obtain ⟨hlisting, hfound⟩ := dir_letterA ⟨encode83Name letterA.1, attrArchive, cluster, size⟩
    rfl rfl
  refine ⟨b, chains, _, hcreate, hchained, hfile, ⟨_, _, getRootEntries_disk hchained.root, ?_⟩,
    ?_⟩
  · have hentry : Slot.rootEntry ⟨encode83Name letterA.1, attrArchive, cluster, size⟩ =
        .file ⟨[0x41], size, cluster⟩ :=
      if_neg (not_not.mpr (show attrArchive &&& attrDirectory = 0 by decide))
    rw [hdir, rootEntries, hlisting, List.map_singleton, hentry]
    rfl
  · rw [hdir]
    exact hfound

/-- Two bytes come back, a newline and a NUL. -/
theorem loadAndSave_keeps_iff_two_bytes : ∃ b chains slot ed' b',
    smallVolume.Chained (fun s => s.live) (smallVolume.image b) chains ∧
    smallVolume.FileIn (smallVolume.image b) 0 slot (chains 0) [10, 0] ∧
    Opens smallVolume b letterA.1 slot ∧
    loadAndSave (disk b) smallVolume.vol letterA.1 ⟨fun _ => 0, 0, 0, false⟩ =
      some (ed', disk b') ∧
    (smallVolume.Stores (smallVolume.image b') 0 [10, 0] ↔
      [(10 : UInt8), 0].length ≤ editorMaxFilesize - 1 ∨
        findName (encode83Name letterA.1) (smallVolume.image b).dir ≠ some 0) := by
  obtain ⟨b, chains, slot, -, hchained, hfile, hopens, -⟩ := created_letterA [10, 0] (by decide)
  obtain ⟨ed', b', hrun, hiff⟩ := loadAndSave_keeps_iff hchained hfile hopens
    ⟨fun _ => 0, 0, 0, false⟩
  exact ⟨b, chains, slot, ed', b', hchained, hfile, hopens, hrun, hiff⟩

/-- A file of 4096 bytes loses its last one, although most of the volume is free. -/
theorem loadAndSave_cuts : ∃ b ed' b',
    createFile (disk smallVolume.formatted) smallVolume.vol letterA.1
      (List.replicate editorMaxFilesize 0x41) = some (0, disk b) ∧
    smallVolume.Stores (smallVolume.image b) 0 (List.replicate editorMaxFilesize 0x41) ∧
    loadAndSave (disk b) smallVolume.vol letterA.1 ⟨fun _ => 0, 0, 0, false⟩ =
      some (ed', disk b') ∧
    smallVolume.Stores (smallVolume.image b') 0
      (List.replicate (editorMaxFilesize - 1) 0x41) ∧
    ¬smallVolume.Stores (smallVolume.image b') 0 (List.replicate editorMaxFilesize 0x41) := by
  obtain ⟨b, chains, slot, hcreate, hchained, hfile, hopens, hfound⟩ :=
    created_letterA (List.replicate editorMaxFilesize 0x41)
      (by rw [List.length_replicate]; decide)
  obtain ⟨ed', b', hrun, hsame, -⟩ := loadAndSave_disk hchained hfile hopens
    ⟨fun _ => 0, 0, 0, false⟩
  have hcut := hsame hfound
  rw [List.take_replicate, Nat.min_eq_left (Nat.sub_le _ _)] at hcut
  refine ⟨b, ed', b', hcreate, ⟨_, _, hfile⟩, hrun, hcut, ?_⟩
  rintro ⟨_, _, hkept⟩
  obtain ⟨_, _, hcut⟩ := hcut
  have hlength := hkept.length_unique hcut
  rw [List.length_replicate, List.length_replicate] at hlength
  exact absurd hlength (by decide)

end GeckoOS.Editor
