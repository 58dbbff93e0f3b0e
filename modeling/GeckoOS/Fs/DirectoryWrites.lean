/-
# Writing to a directory

The search for a name passes over volume labels and long names, and over nothing
else.  An entry with the directory attribute is found like a file, and neither
`fat32_write_file` nor `fat32_append_file` looks at its attributes: the chain of the
directory is freed and its entry gets the size and the clusters of the new content.

On a drive whose transfers do not fail the only way to an error is to run out of
clusters, and writing no content never does.
-/

import GeckoOS.Fs.UniqueNames

namespace GeckoOS.Fs

open GeckoOS.Math ByteMap

/-! ## Drives on which no transfer fails -/

section Disk

variable {v : Volume} {b : ByteMap} {d : Drive} {cluster value lba prev first n : Nat}
  {content : List UInt8}

theorem writeFat_on_disk : ∃ rc b', writeFat (disk b) v cluster value = (rc, disk b') := by
  simp only [writeFat, read_disk, write_disk]
  split
  · exact ⟨0, _, rfl⟩
  · exact ⟨0, _, rfl⟩

theorem allocClusterFrom_on_disk (more s : Nat) :
    ∃ k b', allocClusterFrom v more s (disk b) = (k, disk b') := by
  induction more generalizing s with
  | zero => exact ⟨0, b, rfl⟩
  | succ more ih =>
      simp only [allocClusterFrom, read_disk, write_disk]
      split
      · exact ih (s + 1)
      · split
        · exact ⟨_, _, rfl⟩
        · exact ⟨_, _, rfl⟩

theorem fillCluster_on_disk (sectors : List Nat) (rest : List UInt8) :
    ∃ rest' b', fillCluster lba sectors rest (disk b) = (rest', disk b') := by
  induction sectors generalizing rest b with
  | nil => exact ⟨rest, b, rfl⟩
  | cons s more ih =>
      simp only [fillCluster, write_disk]
      exact ih _

theorem writeClusterChainFrom_on_disk :
    ∃ k b', writeClusterChainFrom v n first prev content (disk b) = (k, disk b') := by
  induction n generalizing first prev content b with
  | zero => exact ⟨first, b, rfl⟩
  | succ n ih =>
      obtain ⟨k, b₁, halloc⟩ := @allocClusterFrom_on_disk v b v.sectorsPerFat 0
      rw [writeClusterChainFrom, allocCluster, halloc]
      by_cases hzero : k = 0
      · exact ⟨0, b₁, by simp only [if_pos hzero]⟩
      · have hlinked : ∃ b₂, (if prev ≠ 0 then (writeFat (disk b₁) v prev k).2
            else disk b₁) = disk b₂ := by
          obtain ⟨rc, b₂, hwrite⟩ := @writeFat_on_disk v b₁ prev k
          split
          · exact ⟨b₂, by rw [hwrite]⟩
          · exact ⟨b₁, rfl⟩
        obtain ⟨b₂, hdrive⟩ := hlinked
        obtain ⟨rest, b₃, hfill⟩ := @fillCluster_on_disk b₂ (clusterToLba v k)
          (List.range v.sectorsPerCluster) content
        simp only [if_neg hzero]
        rw [hdrive, hfill]
        exact ih

theorem freeClusterChain_on_disk (hfreed : freeClusterChain (disk b) v cluster = some d) :
    ∃ b', d = disk b' := by
  suffices hall : ∀ s a, loop (freeClusterChainRound v) s = some a →
      (∃ b, s.2 = disk b) → ∃ b', a = disk b' from hall _ _ hfreed ⟨b, rfl⟩
  intro s a hloop
  refine loop_induct (motive := fun s a => (∃ b, s.2 = disk b) → ∃ b', a = disk b') ?_ ?_ hloop
  · rintro ⟨c, d⟩ a hleave hdisk
    rw [freeClusterChainRound] at hleave
    split at hleave
    · cases hleave
    · cases hleave
      exact hdisk
  · rintro ⟨c, d⟩ t a hround hlater hdisk
    obtain ⟨b, rfl⟩ : ∃ b, d = disk b := hdisk
    refine hlater ?_
    rw [freeClusterChainRound] at hround
    split at hround
    · obtain ⟨rc, b', hwrite⟩ := @writeFat_on_disk v b c clusterFree
      cases hround
      exact ⟨b', congrArg Prod.snd hwrite⟩
    · cases hround

theorem writeDirEntry_on_disk {idx : Nat} {entry : DirEntry} :
    ∃ b', writeDirEntry (disk b) lba idx entry = (0, disk b') := ⟨_, rfl⟩

end Disk

/-! ## An entry that is found -/

variable {v : Volume} {b : ByteMap} {d : Drive} {name content : List UInt8} {ctx : DirSearchCtx}
  {r : Int}

/-- Replacing an existing file by an empty one reports no error. -/
theorem writeFile_empty (hsearch : dirIterate (disk b) v v.rootCluster dirSearchCb
      (.forName name) = some (ctx, disk b)) (hfound : ctx.found = true)
    (hresult : writeFile (disk b) v name [] = some (r, d)) : r = 0 := by
  rw [writeFile, hsearch, Option.bind_some] at hresult
  simp only [hfound, if_true] at hresult
  obtain ⟨d₁, hfreed, hrest⟩ := Option.bind_eq_some_iff.mp hresult
  obtain ⟨b₁, rfl⟩ := freeClusterChain_on_disk hfreed
  obtain ⟨k, b₂, hchain⟩ := @writeClusterChainFrom_on_disk v b₁ 0 0
    (clustersNeeded v ([] : List UInt8).length) []
  rw [writeClusterChain, hchain] at hrest
  obtain ⟨b₃, hentry⟩ := @writeDirEntry_on_disk b₂ ctx.foundLba ctx.foundIdx
    (updatedEntry ctx.result k ([] : List UInt8).length)
  simp only [List.length_nil, lt_irrefl, and_false, if_false] at hrest
  rw [List.length_nil] at hentry
  rw [hentry] at hrest
  cases hrest
  rfl

/-- The search for the name ends at an entry with the directory attribute. -/
structure FindsDirectory (b : ByteMap) (v : Volume) (name : List UInt8) (ctx : DirSearchCtx) :
    Prop where
  search : dirIterate (disk b) v v.rootCluster dirSearchCb (.forName name) = some (ctx, disk b)
  found : ctx.found = true
  directory : DirEntry.attributes ctx.result &&& attrDirectory ≠ 0

/-- **Directories are written like files.** On no volume are the writers harmless for a
name that finds a directory: with no content `fat32_write_file` frees its chain and
reports no error. -/
theorem directory_not_protected (hfinds : FindsDirectory b v name ctx) :
    ¬ ∀ content, writeFile (disk b) v name content = some (-1, disk b) ∧
      appendFile (disk b) v name content = some (-1, disk b) := by
  intro hharmless
  have herror := writeFile_empty hfinds.search hfinds.found (hharmless []).1
  exact absurd herror (by decide)

namespace Geometry

variable {g : Geometry} {img : Image} {i : Nat} {slot : Slot} {nodes : List Nat} {name : CString}

/-- What replacing an entry that owns its chain reports and leaves: with enough
clusters once the chain is freed, the entry has the new size and clusters; an error
means that there were too few. -/
theorem writeFile_result (hroot : g.RootChain (g.image b).fat)
    (hfind : findName (encode83Name name.1) (g.image b).dir = some i)
    (hget : (g.image b).dir[i]? = some slot) (howns : g.Owns (g.image b).fat slot nodes) :
    ∃ r b', writeFile (disk b) g.vol name.1 content = some (r, disk b') ∧
      ((r = -1 ∧ content ≠ [] ∧ (g.free ((g.image b).release nodes).fat).length <
          clustersNeeded g.vol content.length) ∨
        (r = 0 ∧ (g.image b').dir[i]? = some
          { slot with
            cluster := (g.taken ((g.image b).release nodes) content.length).headD 0
            size := content.length % 2 ^ 32 })) := by
  obtain ⟨r, b', hrun, hstep⟩ := @writeFile_disk g b name content (fun _ => nodes) hroot
    fun j s hfind' hget' => by
      obtain rfl := Option.some.inj (hfind.symm.trans hfind')
      obtain rfl := Option.some.inj (hget.symm.trans hget')
      exact howns
  refine ⟨r, b', hrun, ?_⟩
  generalize g.image b' = img' at hstep
  cases hstep with
  | writeNew hnone _ => rw [hfind] at hnone; cases hnone
  | write hfind' hget' hstored =>
      obtain rfl := Option.some.inj (hfind.symm.trans hfind')
      obtain rfl := Option.some.inj (hget.symm.trans hget')
      cases hstored with
      | short hcontent hshort _ => exact .inl ⟨rfl, hcontent, hshort⟩
      | done _ hlaid =>
          refine .inr ⟨rfl, ?_⟩
          rw [Image.setSlot_dir, hlaid.dir]
          exact List.getElem?_set_self (List.getElem?_eq_some_iff.mp hget).1

/-! ## A directory that becomes a file -/

/-- `mkdir D`. -/
def mkdirD : FileCall := .mkdir ⟨[0x44], by decide⟩

/-- The directory of a fresh volume after `mkdir D`. -/
theorem mkdirD_image : ∃ b, exec (disk smallVolume.formatted) smallVolume.vol mkdirD =
    some (0, disk b) ∧ smallVolume.image b = (smallVolume.image smallVolume.formatted).setSlot 0
      ⟨encode83Name [0x44], attrDirectory, 0, 0⟩ := by
  have hcontained : smallVolume.Contained (smallVolume.image smallVolume.formatted) :=
    formatted_contained rfl
  obtain ⟨r, b, hrun, hstep⟩ := @mkdir_disk smallVolume smallVolume.formatted
    ⟨[0x44], by decide⟩ (fun _ => []) hcontained.root
  generalize himage : smallVolume.image b = img at hstep
  cases hstep with
  | mkdirFull hslot => rw [freeSlot_formatted] at hslot; cases hslot
  | mkdir hslot =>
      obtain rfl := Option.some.inj (freeSlot_formatted.symm.trans hslot)
      exact ⟨b, hrun, himage⟩

/-- The directory made by `mkdirD` is found, and it is one. -/
theorem mkdirD_found (himage : smallVolume.image b = (smallVolume.image
      smallVolume.formatted).setSlot 0 ⟨encode83Name [0x44], attrDirectory, 0, 0⟩) :
    smallVolume.RootChain (smallVolume.image b).fat ∧
      findName (encode83Name [0x44]) (smallVolume.image b).dir = some 0 ∧
      (smallVolume.image b).dir[0]? = some ⟨encode83Name [0x44], attrDirectory, 0, 0⟩ ∧
      ∃ ctx, FindsDirectory b smallVolume.vol [0x44] ctx := by
  have hcontained : smallVolume.Contained (smallVolume.image smallVolume.formatted) :=
    formatted_contained rfl
  have hroot : smallVolume.RootChain (smallVolume.image b).fat := by
    rw [himage]
    exact hcontained.root
  have hfind : findName (encode83Name [0x44]) (smallVolume.image b).dir = some 0 := by
    rw [himage, Image.setSlot_dir, image_formatted]
    rfl
  have hget : (smallVolume.image b).dir[0]? = some ⟨encode83Name [0x44], attrDirectory, 0, 0⟩ := by
    rw [himage, Image.setSlot_dir, image_formatted]
    rfl
  obtain ⟨p, hp, hsearch⟩ := search_name_some hroot hfind
  obtain ⟨q, hq, hslot⟩ := slots_of_dir hget
  obtain rfl := Option.some.inj (hp.symm.trans hq)
  refine ⟨hroot, hfind, hget, _, hsearch, rfl, ?_⟩
  have hattributes : DirEntry.attributes (entryAt b p) = attrDirectory :=
    congrArg Slot.attributes hslot
  rw [hattributes]
  decide

/-- With an empty content the writer reports no error for it. -/
theorem mkdirD_not_protected : ∃ b ctx, FindsDirectory b smallVolume.vol [0x44] ctx ∧
    ¬ ∀ content, writeFile (disk b) smallVolume.vol [0x44] content = some (-1, disk b) ∧
      appendFile (disk b) smallVolume.vol [0x44] content = some (-1, disk b) := by
  obtain ⟨b, -, himage⟩ := mkdirD_image
  obtain ⟨-, -, -, ctx, hfinds⟩ := mkdirD_found himage
  exact ⟨b, ctx, hfinds, directory_not_protected hfinds⟩

/-- One byte written to it turns its entry into that of a file of one byte. -/
theorem mkdirD_overwritten : ∃ b ctx, FindsDirectory b smallVolume.vol [0x44] ctx ∧
    (∃ b', writeFile (disk b) smallVolume.vol [0x44] [0x41] = some (0, disk b') ∧
      (smallVolume.image b').dir[0]?.map Slot.size = some 1) ∧
    ¬ ∀ content, writeFile (disk b) smallVolume.vol [0x44] content = some (-1, disk b) ∧
      appendFile (disk b) smallVolume.vol [0x44] content = some (-1, disk b) := by
  obtain ⟨b, -, himage⟩ := mkdirD_image
  obtain ⟨hroot, hfind, hget, ctx, hfinds⟩ := mkdirD_found himage
  have howns : smallVolume.Owns (smallVolume.image b).fat
      ⟨encode83Name [0x44], attrDirectory, 0, 0⟩ [] :=
    ⟨chain_nil, rfl, fun c hc => absurd hc List.not_mem_nil⟩
  obtain ⟨r, b', hrun, hresult⟩ := @writeFile_result b [0x41] smallVolume 0 _ []
    ⟨[0x44], by decide⟩ hroot hfind hget howns
  have hfree : 3 ∈ smallVolume.free ((smallVolume.image b).release []).fat := by
    rw [Image.release_nil, himage, Image.setSlot_fat, image_formatted, mem_free]
    decide
  rcases hresult with ⟨rfl, -, hfew⟩ | ⟨rfl, hslot⟩
  · have henough : clustersNeeded smallVolume.vol [(0x41 : UInt8)].length = 1 := rfl
    have hsome := List.length_pos_of_mem hfree
    omega
  · refine ⟨b, ctx, hfinds, ⟨b', hrun, by rw [hslot]; rfl⟩, fun hharmless => ?_⟩
    have herror := (hharmless [0x41]).1
    have hok : writeFile (disk b) smallVolume.vol [0x44] [0x41] = some (0, disk b') := hrun
    rw [hok, Option.some.injEq, Prod.mk.injEq] at herror
    exact absurd herror.1 (by decide)

end Geometry

end GeckoOS.Fs
