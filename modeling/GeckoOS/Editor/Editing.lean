/-
# Editing a file of a volume

`editor_run` on a mounted volume: the file is opened, keys are typed, and Ctrl+S gives the text
to `fat32_write_file`.  As a replacement frees the old clusters first, room for a full buffer at
the beginning is room for every save of the session.

The volume then holds, under the name of the file, the text of the last save, and as long as
the editor does not count its text as changed this is the text on the screen.  So Ctrl+Q leaves
without a question only when nothing would be lost.
-/

import GeckoOS.Editor.RoundTrip
import GeckoOS.Fs.StoreFiles

namespace GeckoOS.Editor

open GeckoOS.Math ByteMap GeckoOS.Fs Geometry

/-! ## Sessions on a drive -/

/-- The next key, with the drive that a save writes to. -/
noncomputable def stepOn (v : Volume) (filename : List UInt8) (s : Session) (e : KeyEvent)
    (d : Drive) : Option (Session × Drive) :=
  if s.phase = .editing ∧ action s.ctrlHeld e = .save then
    (edSave d v filename s.ed).map fun (ed, d) => ({ s with ed := ed }, d)
  else some (s.step e, d)

/-- A row of keys. -/
noncomputable def runOn (v : Volume) (filename : List UInt8) :
    Session → List KeyEvent → Drive → Option (Session × Drive)
  | s, [], d => some (s, d)
  | s, e :: events, d =>
      (stepOn v filename s e d).bind fun (s, d) => runOn v filename s events d

/-- `editor_run` on a file system. -/
noncomputable def editorRunOn (v : Volume) (filename : List UInt8) (before : EdState)
    (events : List KeyEvent) (d : Drive) : Option (Session × Drive) :=
  (edLoadFrom d v filename { before with cur := 0, dirty := false }).bind fun (ed, d) =>
    runOn v filename ⟨ed, false, .editing⟩ events d

/-! ## Sessions whose saves succeed -/

/-- The key when the volume has room for a save. -/
def KeyEvent.saving (e : KeyEvent) : KeyEvent := { e with writes := true }

/-- The text of the last save, or else `saved`. -/
def lastSave : Session → List KeyEvent → List UInt8 → List UInt8
  | _, [], saved => saved
  | s, e :: events, saved =>
      lastSave (s.step e) events
        (if s.phase = .editing ∧ action s.ctrlHeld e = .save then s.ed.text else saved)

variable {g : Geometry} {b : ByteMap} {chains : Nat → List Nat} {store : Store} {i : Nat}
  {slot : Slot} {content saved : List UInt8} {name : CString} {ed : EdState} {s : Session}
  {img : Image} {nodes : List Nat}

/-! ## What counts as changed -/

/-- A key changes nothing that is saved, or marks the text as changed. -/
theorem press_changes (key : EdKey) (ed : EdState) :
    (press key ed).dirty = true ∨
      (press key ed).dirty = ed.dirty ∧ (press key ed).text = ed.text := by
  have hinsert (c : UInt8) : (edInsert c ed).dirty = true ∨
      (edInsert c ed).dirty = ed.dirty ∧ (edInsert c ed).text = ed.text := by
    rw [edInsert]
    split_ifs
    · exact .inr ⟨rfl, rfl⟩
    · exact .inl rfl
  cases key with
  | char c => exact hinsert c
  | enter => exact hinsert newline
  | backspace =>
      rw [press, edBackspace]
      split_ifs
      · exact .inr ⟨rfl, rfl⟩
      · exact .inl rfl
  | left =>
      rw [press, edMoveLeft]
      split_ifs <;> exact .inr ⟨rfl, rfl⟩
  | right =>
      rw [press, edMoveRight]
      split_ifs <;> exact .inr ⟨rfl, rfl⟩
  | up =>
      rw [press, edMoveUp]
      dsimp only
      split_ifs <;> exact .inr ⟨rfl, rfl⟩
  | down =>
      rw [press, edMoveDown]
      dsimp only
      split_ifs <;> exact .inr ⟨rfl, rfl⟩

/-- Text that does not count as changed stays what was saved. -/
theorem step_changes (hclean : s.ed.dirty = false → s.ed.text = saved) (e : KeyEvent)
    (hkey : ¬(s.phase = .editing ∧ action s.ctrlHeld e = .save)) :
    (s.step e).ed.dirty = false → (s.step e).ed.text = saved := by
  rw [Session.step]
  cases hphase : s.phase with
  | closed => exact hclean
  | asking =>
      dsimp only
      split_ifs <;> exact hclean
  | editing =>
      cases haction : action s.ctrlHeld e with
      | edit key =>
          dsimp only
          intro hdirty
          rcases press_changes key s.ed with hchanged | ⟨hsame, htext⟩
          · rw [hchanged] at hdirty
            cases hdirty
          · rw [htext]
            exact hclean (hsame ▸ hdirty)
      | save => exact absurd ⟨hphase, haction⟩ hkey
      | ctrl | quit | ignore => exact hclean

/-! ## Room for every save -/

theorem clustersNeeded_text_le (htext : content.length ≤ editorMaxFilesize - 1) :
    clustersNeeded g.vol content.length ≤ g.clustersFor (editorMaxFilesize - 1) := by
  have hlong : editorMaxFilesize - 1 ≤ g.clustersFor (editorMaxFilesize - 1) * g.clusterBytes :=
    clustersFor_le.mp le_rfl
  rw [clustersNeeded_eq]
  split_ifs with hnil
  · rw [Nat.succ_le_iff, Nat.pos_iff_ne_zero]
    intro hzero
    rw [hzero, Nat.zero_mul] at hlong
    exact absurd hlong (by decide)
  · exact clustersFor_le.mpr (htext.trans hlong)

/-- A volume with the file that is edited: the name leads to slot `i`, and a full buffer has room
once the clusters of the file are freed. -/
structure Edits (g : Geometry) (b : ByteMap) (chains : Nat → List Nat) (store : Store)
    (name : CString) (i : Nat) : Prop where
  holds : g.Holds (g.image b) chains store
  found : findName (encode83Name name.1) (g.image b).dir = some i
  file : store (encode83Name name.1) ≠ some .directory
  room : g.clustersFor (editorMaxFilesize - 1) ≤
    (g.free ((g.image b).release (chains i)).fat).length

/-- After new content is laid out for the file the same clusters are at hand. -/
theorem free_release_taken {img₁ : Image} {ks : List Nat}
    (hlaid : g.Laid (img.release nodes) img₁ 0 ks content)
    (hsub : ∀ c ∈ ks, c ∈ g.free (img.release nodes).fat) :
    (img₁.release ks).fat = (img.release nodes).fat := by
  funext c
  rw [Image.release_fat]
  split_ifs with hmem
  · exact (mem_free.mp (hsub c hmem)).2.symm
  · exact hlaid.fat_frame c hmem (.inr rfl)

theorem setSlot_dir_self (hi : i < img.dir.length) : (img.setSlot i slot).dir[i]? = some slot := by
  rw [Image.setSlot_dir]
  exact List.getElem?_set_self hi

/-- A save succeeds, and leaves room for the next one. -/
theorem Edits.save (hedits : Edits g b chains store name i)
    (htext : content.length ≤ editorMaxFilesize - 1) :
    ∃ b' chains', writeFile (disk b) g.vol name.1 content = some (0, disk b') ∧
      Edits g b' chains' (Function.update store (encode83Name name.1) (some (.file content)))
        name i := by
  have hholds := hedits.holds
  have hsmall : content.length < 2 ^ 32 := htext.trans_lt (by decide)
  have hneeded := (clustersNeeded_text_le (g := g) htext).trans hedits.room
  obtain ⟨r, b', hexec, hstep⟩ := hholds.exec (.writeFile name content)
  generalize himg : g.image b' = img' at hstep
  cases hstep with
  | writeNew hfind _ =>
      rw [hedits.found] at hfind
      cases hfind
  | write hfind hget hstored =>
      obtain rfl := Option.some.inj (hedits.found.symm.trans hfind)
      cases hstored with
      | short _ hshort _ => exact absurd hneeded (Nat.not_le.mpr hshort)
      | @done img₁ henough hlaid =>
          obtain ⟨slot, item, hget', hlive, hname, -⟩ := hholds.find hfind
          obtain rfl := Option.some.inj (hget'.symm.trans hget)
          have hi := (List.getElem?_eq_some_iff.mp hget).1
          have hkept := hholds.write hfind hget hedits.file hsmall (.done henough hlaid)
          refine ⟨b', _, hexec, himg ▸ hkept, ?_, ?_, ?_⟩
          · have hlen : i < img₁.dir.length := by rwa [hlaid.dir, Image.release_dir]
            have hfound := hkept.findName_eq (setSlot_dir_self hlen)
              ((live_congr rfl rfl).trans hlive)
            rw [himg, ← hname]
            exact hfound
          · rw [Function.update_self]
            exact fun hdirectory => by cases hdirectory
          · rw [Function.update_self, himg]
            have hfat := free_release_taken hlaid taken_subset
            have hsame : ((img₁.setSlot i
                { slot with
                  cluster := (g.taken ((g.image b).release (chains i)) content.length).headD 0
                  size := content.length % 2 ^ 32 }).release
                (g.taken ((g.image b).release (chains i)) content.length)).fat =
                ((g.image b).release (chains i)).fat := hfat
            rw [hsame]
            exact hedits.room

/-! ## Keys -/

/-- Between two keys: the volume holds the last save under the name of the file, and the text
fits the buffer and is this save unless it counts as changed. -/
structure Between (g : Geometry) (b : ByteMap) (chains : Nat → List Nat) (store : Store)
    (name : CString) (i : Nat) (s : Session) (d : TextCursor) (saved : List UInt8) : Prop where
  edits : Edits g b chains (Function.update store (encode83Name name.1) (some (.file saved))) name i
  text : Shows s.ed d
  clean : s.ed.dirty = false → s.ed.text = saved

variable {d : TextCursor}

/-- One key. -/
theorem Between.step (hbetween : Between g b chains store name i s d saved) (e : KeyEvent) :
    ∃ b' chains', stepOn g.vol name.1 s e (disk b) = some (s.step e.saving, disk b') ∧
      Between g b' chains' store name i (s.step e.saving) (d.run (s.keys [e.saving]))
        (if s.phase = .editing ∧ action s.ctrlHeld e.saving = .save then s.ed.text else saved) := by
  have htext := hbetween.text.step e.saving
  have haction : action s.ctrlHeld e.saving = action s.ctrlHeld e := rfl
  rw [stepOn]
  by_cases hsave : s.phase = .editing ∧ action s.ctrlHeld e = .save
  · have hfits : s.ed.text.length ≤ editorMaxFilesize - 1 := by
      rw [EdState.text, length_slice]
      exact hbetween.text.len_le
    obtain ⟨b', chains', hwrite, hedits⟩ := hbetween.edits.save hfits
    rw [Function.update_idem] at hedits
    have hstep : s.step e.saving = { s with ed := { s.ed with dirty := false } } := by
      rw [Session.step, hsave.1]
      dsimp only
      rw [haction, hsave.2]
      simp [KeyEvent.saving]
    refine ⟨b', chains', ?_, ?_⟩
    · rw [if_pos hsave, edSave, hwrite, hstep]
      rfl
    · rw [if_pos (haction ▸ hsave)]
      refine ⟨hedits, htext, fun _ => ?_⟩
      rw [hstep]
      rfl
  · rw [if_neg hsave, if_neg (haction ▸ hsave)]
    have hsame : s.step e = s.step e.saving := by
      rw [Session.step, Session.step, haction]
      cases hphase : s.phase with
      | closed | asking => rfl
      | editing =>
          cases hkey : action s.ctrlHeld e with
          | save => exact absurd ⟨hphase, hkey⟩ hsave
          | ctrl | edit | quit | ignore => rfl
    rw [hsame]
    exact ⟨b, chains, rfl, hbetween.edits, htext,
      step_changes hbetween.clean e.saving (haction ▸ hsave)⟩

/-- Any number of keys. -/
theorem Between.run (hbetween : Between g b chains store name i s d saved)
    (events : List KeyEvent) :
    ∃ b' chains', runOn g.vol name.1 s events (disk b) =
        some (s.run (events.map KeyEvent.saving), disk b') ∧
      Between g b' chains' store name i (s.run (events.map KeyEvent.saving))
        (d.run (s.keys (events.map KeyEvent.saving)))
        (lastSave s (events.map KeyEvent.saving) saved) := by
  induction events generalizing b chains s d saved with
  | nil => exact ⟨b, chains, rfl, hbetween⟩
  | cons e events ih =>
      obtain ⟨b₁, chains₁, hstep, hbetween₁⟩ := hbetween.step e
      obtain ⟨b₂, chains₂, hrun, hbetween₂⟩ := ih hbetween₁
      refine ⟨b₂, chains₂, ?_, ?_⟩
      · rw [runOn, hstep, Option.bind_some]
        exact hrun
      · rw [List.map_cons, Session.keys_cons, TextCursor.run, List.foldl_append, lastSave]
        exact hbetween₂

/-! ## Whole sessions -/

/-- `ed_load` on a volume is the loop over the content of the file. -/
theorem edLoadFrom_eq (hholds : g.Holds (g.image b) chains store) (hproper : store.Proper)
    (hslots : g.slots.length < 2 ^ 31) (hspace : space ∉ name.1)
    (hfinds : store.Finds name.1 content) (ed : EdState) :
    edLoadFrom (disk b) g.vol name.1 ed =
      some (edLoad (some fun offset => (content.drop offset).take 128) ed, disk b) := by
  rw [edLoadFrom, getRootEntries_disk hholds.chained.root, Option.bind_some]
  dsimp only
  cases hfound : foundFile name.1 (entriesSeen (rootEntries (g.image b).dir)) with
  | none => exact absurd hfinds (hholds.foundFile_none hproper hslots hspace hfound)
  | some file =>
      obtain ⟨i, slot, found, hfile, rfl, hfinds'⟩ :=
        hholds.foundFile_spec hproper hslots hspace hfound
      obtain rfl : found = content := by
        have hsame := hfinds'.2.symm.trans hfinds.2
        cases hsame
        rfl
      dsimp only
      rw [@loop_loadRound b g.vol slot.driveFile _
        (fun offset => hfile.fileRead offset 128 (by decide)) editorMaxFilesize 0 _ (Nat.zero_le _)
        le_rfl]
      rfl

/-- A file that was just made can be edited. -/
theorem Edits.created (hholds : g.Holds (g.image b) chains store)
    (hfresh : store (encode83Name name.1) = none)
    (hmark : (encode83Name name.1).headD 0 ≠ entryFree)
    (htext : content.length ≤ editorMaxFilesize - 1)
    (hroom : g.clustersFor (editorMaxFilesize - 1) ≤ (g.free (g.image b).fat).length)
    (hslot : freeSlot (g.image b).dir = some i) :
    ∃ b' chains', createFile (disk b) g.vol name.1 content = some (0, disk b') ∧
      Edits g b' chains' (Function.update store (encode83Name name.1) (some (.file content)))
        name i := by
  have hsmall : content.length < 2 ^ 32 := htext.trans_lt (by decide)
  have hneeded := (clustersNeeded_text_le (g := g) htext).trans hroom
  obtain ⟨hi, hbase, hdead⟩ := hholds.at_freeSlot hslot
  obtain ⟨r, b', hexec, hstep⟩ := hholds.exec (.createFile name content)
  generalize himg : g.image b' = img' at hstep
  cases hstep with
  | createFull hfull =>
      rw [hslot] at hfull
      cases hfull
  | create hslot' hstored =>
      obtain rfl := Option.some.inj (hslot.symm.trans hslot')
      cases hstored with
      | short _ hshort _ => exact absurd hneeded (Nat.not_le.mpr hshort)
      | @done img₁ henough hlaid =>
          have hfile := isFile_archive hmark 0 0
          have hkept := hholds.stored hbase hi hfile
            (fun j t hlt ht => before_freeSlot hslot hlt ht)
            (fun s hs hlive => absurd hlive (hdead s hs)) (fun _ => hfresh) hsmall henough hlaid
          have hlen : i < img₁.dir.length := by rwa [hlaid.dir]
          have hfound := hkept.findName_eq (setSlot_dir_self hlen)
            ((live_congr rfl rfl).trans (Slot.live_of_isFile hfile))
          have hlaid' : g.Laid ((g.image b).release []) img₁ 0
              (g.taken (g.image b) content.length) content := by
            rwa [Image.release_nil]
          have hfat := free_release_taken hlaid' (by rw [Image.release_nil]; exact taken_subset)
          rw [Image.release_nil] at hfat
          refine ⟨b', _, hexec, himg ▸ hkept, himg ▸ hfound, ?_, ?_⟩
          · rw [Function.update_self]
            exact fun hdirectory => by cases hdirectory
          · rw [Function.update_self, himg]
            have hsame : ((img₁.setSlot i
                { (⟨encode83Name name.1, attrArchive, 0, 0⟩ : Slot) with
                  cluster := (g.taken (g.image b) content.length).headD 0
                  size := content.length % 2 ^ 32 }).release
                (g.taken (g.image b) content.length)).fat = (g.image b).fat := hfat
            rw [hsame]
            exact hroom

theorem properNew {raw : List UInt8} (hnamed : ∃ base ext, IsName raw base ext)
    (htext : content.length ≤ editorMaxFilesize - 1) :
    Store.Proper (Function.update (fun _ => none) raw (some (.file content))) := by
  have hlimit : editorMaxFilesize - 1 + 128 ≤ 2 ^ 31 := by decide
  refine ⟨fun raw' hsome => ?_, fun raw' found hfile => ?_⟩ <;> by_cases hraw : raw' = raw
  · exact hraw ▸ hnamed
  · rw [Function.update_of_ne hraw] at hsome
    exact absurd rfl hsome
  · rw [hraw, Function.update_self] at hfile
    cases hfile
    omega
  · rw [Function.update_of_ne hraw] at hfile
    cases hfile

end GeckoOS.Editor
