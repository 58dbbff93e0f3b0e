/-
# Sessions at the shell

The commands on files, told by what they print and do on a map: an item is listed once, `cat`
prints the bytes of a file, and a command that makes, extends, copies, moves or deletes one either
reports this and has done it, or reports a failure and has done nothing.

The commands on a volume that holds a map do what is told here.  By induction this holds for every
run of lines: the outputs are those of a run of the map, and what the volume shows afterwards is
the map that this run ends in.
-/

import GeckoOS.Shell.FileCommands

namespace GeckoOS.Shell

open GeckoOS.Math ByteMap GeckoOS.Gk GeckoOS.Fs Geometry

/-! ## The commands on a map -/

/-- What `ls` prints for an item. -/
def itemLine (color : UInt8) (raw : List UInt8) : Item → Output
  | .file _ => lsLine color (.file ⟨format83Name raw, 0, 0⟩)
  | .directory => lsLine color (.directory (format83Name raw))

/-- A new name: an 8.3 name that is not taken. -/
structure Fresh (store : Store) (name : CString) : Prop where
  free : store (encode83Name name.1) = none
  named : ∃ base ext, IsName (encode83Name name.1) base ext
  mark : (encode83Name name.1).headD 0 ≠ entryFree

/-- The arguments with which a command keeps the names apart and the files in range. -/
def Accepts (store : Store) (args : CString) : FileCommand → Prop
  | .touch | .mkdir => (argOf args 0 32).1 ≠ [] → Fresh store (argOf args 0 32)
  | .cp | .mv => (argOf args 1 32).1 ≠ [] → Fresh store (argOf args 1 32)
  | .write => (argOf args 0 32).1 ≠ [] →
      (∃ base ext, IsName (encode83Name (argOf args 0 32).1) base ext) ∧
      (encode83Name (argOf args 0 32).1).headD 0 ≠ entryFree ∧
      store (encode83Name (argOf args 0 32).1) ≠ some .directory ∧
      (store.bytes (encode83Name (argOf args 0 32).1)).length + (argOf args 1 255).1.length + 128 ≤
        2 ^ 31
  | .ls | .cat | .rm | .echo => True

/-- What a command prints on a map, and the map that it leaves. -/
inductive Serves (color : UInt8) (store : Store) (args : CString) (answer : List UInt8) :
    FileCommand → Output → Store → Prop
  | ls {raws : List (List UInt8)} (hnodup : raws.Nodup)
      (hall : ∀ raw, raw ∈ raws ↔ store raw ≠ none) :
      Serves color store args answer .ls
        (raws.flatMap fun raw => ((store raw).map (itemLine color raw)).getD []) store
  | catUsage (hname : (argOf args 0 32).1 = []) :
      Serves color store args answer .cat (printc (ascii "Usage: cat <filename>\n") red) store
  | catMissing (hname : (argOf args 0 32).1 ≠ [])
      (hmissing : ∀ content, ¬store.Finds (argOf args 0 32).1 content) :
      Serves color store args answer .cat
        (printc (ascii "File not found: ") red ++ printc (argOf args 0 32).1 red ++
          printc (ascii "\n") color) store
  | cat (hname : (argOf args 0 32).1 ≠ []) {content : List UInt8}
      (hfinds : store.Finds (argOf args 0 32).1 content) :
      Serves color store args answer .cat
        (content.map (fun c => (c, color)) ++ printc (ascii "\n") color) store
  | touchUsage (hname : (argOf args 0 32).1 = []) :
      Serves color store args answer .touch
        (printc (ascii "Usage: touch <filename> <content>\n") red) store
  | touchFailed (hname : (argOf args 0 32).1 ≠ []) :
      Serves color store args answer .touch
        (printc (ascii "Failed to create file (disk full or root dir full?)\n") red) store
  | touch (hname : (argOf args 0 32).1 ≠ []) :
      Serves color store args answer .touch (report "File created: " (argOf args 0 32) color)
        (store.after (.createFile (argOf args 0 32) (argOf args 1 255).1))
  | rmUsage (hname : (argOf args 0 32).1 = []) :
      Serves color store args answer .rm (printc (ascii "Usage: rm <filename>\n") red) store
  | rmCancelled (hname : (argOf args 0 32).1 ≠ [])
      (hno : answer.headD 0 ≠ 0x79 ∧ answer.headD 0 ≠ 0x59) :
      Serves color store args answer .rm
        (rmPrompt (argOf args 0 32) color ++ printc (ascii "Cancelled.\n") color) store
  | rmMissing (hname : (argOf args 0 32).1 ≠ [])
      (hmissing : store (encode83Name (argOf args 0 32).1) = none) :
      Serves color store args answer .rm
        (rmPrompt (argOf args 0 32) color ++
          printc (ascii "Failed to delete (file not found or FS error).\n") red) store
  | rm (hname : (argOf args 0 32).1 ≠ [])
      (hfound : store (encode83Name (argOf args 0 32).1) ≠ none) :
      Serves color store args answer .rm
        (rmPrompt (argOf args 0 32) color ++ report "Deleted: " (argOf args 0 32) color)
        (store.after (.deleteFile (argOf args 0 32)))
  | cpUsage (hname : (argOf args 0 32).1 = [] ∨ (argOf args 1 32).1 = []) :
      Serves color store args answer .cp (printc (ascii "Usage: cp <src> <dst>\n") red) store
  | cpMissing (hname : ¬((argOf args 0 32).1 = [] ∨ (argOf args 1 32).1 = []))
      (hmissing : ∀ content, ¬store.Finds (argOf args 0 32).1 content) :
      Serves color store args answer .cp (printc (ascii "Source not found.\n") red) store
  | cpFailed (hname : ¬((argOf args 0 32).1 = [] ∨ (argOf args 1 32).1 = []))
      {content : List UInt8} (hfinds : store.Finds (argOf args 0 32).1 content) :
      Serves color store args answer .cp (printc (ascii "Copy failed.\n") red) store
  | cp (hname : ¬((argOf args 0 32).1 = [] ∨ (argOf args 1 32).1 = []))
      {content : List UInt8} (hfinds : store.Finds (argOf args 0 32).1 content) :
      Serves color store args answer .cp (report "Copied to: " (argOf args 1 32) color)
        (store.after (.createFile (argOf args 1 32) (content.take copyLimit)))
  | mvUsage (hname : (argOf args 0 32).1 = [] ∨ (argOf args 1 32).1 = []) :
      Serves color store args answer .mv (printc (ascii "Usage: mv <src> <dst>\n") red) store
  | mvMissing (hname : ¬((argOf args 0 32).1 = [] ∨ (argOf args 1 32).1 = []))
      (hmissing : ∀ content, ¬store.Finds (argOf args 0 32).1 content) :
      Serves color store args answer .mv (printc (ascii "Source not found.\n") red) store
  | mvFailed (hname : ¬((argOf args 0 32).1 = [] ∨ (argOf args 1 32).1 = []))
      {content : List UInt8} (hfinds : store.Finds (argOf args 0 32).1 content) :
      Serves color store args answer .mv
        (printc (ascii "Move failed (could not create dst).\n") red) store
  | mv (hname : ¬((argOf args 0 32).1 = [] ∨ (argOf args 1 32).1 = []))
      {content : List UInt8} (hfinds : store.Finds (argOf args 0 32).1 content) :
      Serves color store args answer .mv (mvDone (argOf args 0 32) (argOf args 1 32) color)
        ((store.after (.createFile (argOf args 1 32) (content.take copyLimit))).after
          (.deleteFile (argOf args 0 32)))
  | mkdirUsage (hname : (argOf args 0 32).1 = []) :
      Serves color store args answer .mkdir
        (printc (ascii "Usage: mkdir <directory_name>\n") red) store
  | mkdirFailed (hname : (argOf args 0 32).1 ≠ []) :
      Serves color store args answer .mkdir
        (printc (ascii "Failed to create directory.\n") red) store
  | mkdir (hname : (argOf args 0 32).1 ≠ []) :
      Serves color store args answer .mkdir (report "Directory created: " (argOf args 0 32) color)
        (store.after (.mkdir (argOf args 0 32)))
  | echo : Serves color store args answer .echo (cmdEcho args color) store
  | writeUsage (hname : (argOf args 0 32).1 = []) :
      Serves color store args answer .write
        (printc (ascii "Usage: write <filename> <text>\n") red) store
  | writeFailed (hname : (argOf args 0 32).1 ≠ []) :
      Serves color store args answer .write
        (printc (ascii "Failed (file not found or FS error).\n") red) store
  | write (hname : (argOf args 0 32).1 ≠ []) :
      Serves color store args answer .write (report "Appended to: " (argOf args 0 32) color)
        (store.after (.appendFile (argOf args 0 32) (argOf args 1 255).1))

/-- A line on a map. -/
inductive ServesLine (color : UInt8) (store : Store) (typed : Typed) : Output → Store → Prop
  | run {command : Command} {args : List UInt8} {fileCommand : FileCommand} {out : Output}
      {store' : Store} (hrun : runCommand typed.line.1 = .run command args)
      (hfiles : command.onFiles = some fileCommand)
      (hserves : Serves color store (argsOf typed.line) typed.answer fileCommand out store') :
      ServesLine color store typed out store'
  | unknown (hunknown : runCommand typed.line.1 = .unknown) :
      ServesLine color store typed
        (printc (ascii "Unknown command. Type 'help' for available commands\n") color) store
  | nothing (hnothing : runCommand typed.line.1 = .nothing) : ServesLine color store typed [] store

/-- Lines one after the other on a map. -/
inductive ServesLines (color : UInt8) : Store → List Typed → List Output → Store → Prop
  | nil {store : Store} : ServesLines color store [] [] store
  | cons {store store₁ store' : Store} {typed : Typed} {rest : List Typed} {out : Output}
      {outs : List Output} (hline : ServesLine color store typed out store₁)
      (hrest : ServesLines color store₁ rest outs store') :
      ServesLines color store (typed :: rest) (out :: outs) store'

/-- A line whose command is one on files, with arguments that it accepts. -/
def AcceptsLine (store : Store) (typed : Typed) : Prop :=
  ∀ command args, runCommand typed.line.1 = .run command args →
    ∃ fileCommand, command.onFiles = some fileCommand ∧
      Accepts store (argsOf typed.line) fileCommand

/-- Every line is accepted on every map that the lines before it can leave. -/
def AcceptsLines (color : UInt8) : Store → List Typed → Prop
  | _, [] => True
  | store, typed :: rest => AcceptsLine store typed ∧
      ∀ out store', ServesLine color store typed out store' → AcceptsLines color store' rest

variable {g : Geometry} {b b' : ByteMap} {chains chains' : Nat → List Nat} {store store' : Store}
  {args name : CString} {content answer raw : List UInt8} {color : UInt8} {out done failed : Output}
  {command : FileCommand} {call : FileCall} {typed : Typed} {lines : List Typed}
  {serves : Output → Store → Prop} {run : Option (Output × Drive)}

/-! ## Arguments -/

theorem blank_not_mem_getArg (args : List UInt8) (n m : Nat) : blank ∉ getArg args n m := by
  induction n generalizing args with
  | zero =>
      rw [getArg]
      split_ifs
      · exact List.not_mem_nil
      · exact fun hmem => sep_not_mem_firstWord (List.mem_of_mem_take hmem)
  | succ n ih =>
      rw [getArg]
      split_ifs
      · exact List.not_mem_nil
      · exact ih _

theorem space_not_mem_argOf (args : CString) (n m : Nat) : space ∉ (argOf args n m).1 :=
  blank_not_mem_getArg args.1 n m

theorem length_argOf_le (args : CString) (n m : Nat) : (argOf args n m).1.length ≤ m - 1 := by
  change (getArg args.1 n m).length ≤ m - 1
  rw [getArg_eq]
  exact List.length_take_le _ _

/-! ## Proper maps -/

theorem Proper.update {item : Option Item} (hproper : store.Proper)
    (hnamed : item ≠ none → ∃ base ext, IsName raw base ext)
    (hsmall : ∀ content, item = some (.file content) → content.length + 128 ≤ 2 ^ 31) :
    Store.Proper (Function.update store raw item) := by
  refine ⟨fun raw' hsome => ?_, fun raw' content hfile => ?_⟩
  · by_cases hraw : raw' = raw
    · subst hraw
      rw [Function.update_self] at hsome
      exact hnamed hsome
    · rw [Function.update_of_ne hraw] at hsome
      exact hproper.named raw' hsome
  · by_cases hraw : raw' = raw
    · subst hraw
      rw [Function.update_self] at hfile
      exact hsmall content hfile
    · rw [Function.update_of_ne hraw] at hfile
      exact hproper.small raw' content hfile

theorem Proper.create (hproper : store.Proper) (hfresh : Fresh store name)
    (hsmall : content.length ≤ copyLimit) :
    (store.after (.createFile name content)).Proper := by
  refine Proper.update hproper (fun _ => hfresh.named) fun new hnew => ?_
  cases hnew
  have hlimit : copyLimit + 128 ≤ 2 ^ 31 := by decide
  omega

theorem Proper.delete (hproper : store.Proper) : (store.after (.deleteFile name)).Proper :=
  Proper.update hproper (fun hsome => absurd rfl hsome) fun new hnew => by cases hnew

/-! ## Commands on a volume -/

/-- A command was run, and its output and the volume that it leaves are as they should be. -/
def Answered (g : Geometry) (serves : Output → Store → Prop) (run : Option (Output × Drive)) :
    Prop :=
  ∃ out b' chains' store', run = some (out, disk b') ∧ serves out store' ∧
    g.Holds (g.image b') chains' store' ∧ store'.Proper

/-- Nothing was changed. -/
theorem Answered.same (hholds : g.Holds (g.image b) chains store) (hproper : store.Proper)
    (hserves : serves out store) : Answered g serves (some (out, disk b)) :=
  ⟨out, b, chains, store, rfl, hserves, hholds, hproper⟩

/-- A call of the driver that is no replacement does what it says or nothing. -/
theorem exists_exec (hholds : g.Holds (g.image b) chains store) (hadmits : store.Admits call)
    (hfresh : ¬store.Replaces call) : ∃ r b' chains', exec (disk b) g.vol call = some (r, disk b') ∧
      g.Holds (g.image b') chains' (if r = 0 then store.after call else store) := by
  obtain ⟨r, b', hexec, hstep⟩ := hholds.exec call
  obtain ⟨chains', hholds'⟩ := hholds.step hadmits (.inr hfresh) hstep
  exact ⟨r, b', chains', hexec, hholds'⟩

/-- The command reports what one call of the driver returns. -/
theorem Answered.attempt (hholds : g.Holds (g.image b) chains store) (hproper : store.Proper)
    (hadmits : store.Admits call) (hfresh : ¬store.Replaces call)
    (hafter : (store.after call).Proper) (hdone : serves done (store.after call))
    (hfailed : serves failed store) :
    Answered g serves ((exec (disk b) g.vol call).map fun (result, d) =>
      if result = 0 then (done, d) else (failed, d)) := by
  obtain ⟨r, b', chains', hexec, hholds'⟩ := exists_exec hholds hadmits hfresh
  rw [hexec, Option.map_some]
  dsimp only
  split_ifs at hholds' ⊢ with hr
  · exact ⟨done, b', chains', _, rfl, hdone, hholds', hafter⟩
  · exact ⟨failed, b', chains', _, rfl, hfailed, hholds', hproper⟩

theorem delete_result {img img' : Image} {r : Int}
    (hstep : g.Step chains img (.deleteFile name) r img') :
    r = if findName (encode83Name name.1) img.dir = none then -1 else 0 := by
  cases hstep with
  | deleteMissing hfind => rw [if_pos hfind]
  | delete hfind _ =>
      rw [hfind, if_neg]
      exact Option.some_ne_none _

/-- A deletion fails only if there is nothing of this name. -/
theorem exists_delete (hholds : g.Holds (g.image b) chains store) (name : CString) :
    ∃ b' chains', exec (disk b) g.vol (.deleteFile name) =
        some (if store (encode83Name name.1) = none then -1 else 0, disk b') ∧
      g.Holds (g.image b') chains' (store.after (.deleteFile name)) := by
  obtain ⟨r, b', hexec, hstep⟩ := hholds.exec (.deleteFile name)
  have hadmits : store.Admits (.deleteFile name) := trivial
  obtain ⟨chains', hholds'⟩ := hholds.step hadmits (.inr id) hstep
  have hresult := delete_result hstep
  simp only [hholds.find_none] at hresult
  refine ⟨b', chains', by rw [hexec, hresult], ?_⟩
  by_cases hnone : store (encode83Name name.1) = none
  · rw [hresult, if_pos hnone, if_neg (by decide)] at hholds'
    rwa [Store.after, ← hnone, Function.update_eq_self]
  · rwa [hresult, if_neg hnone, if_pos rfl] at hholds'

/-- A file found under a typed name, or none. -/
theorem lookup_cases (hholds : g.Holds (g.image b) chains store) (hproper : store.Proper)
    (hslots : g.slots.length < 2 ^ 31) (args : CString) (n m : Nat) :
    (foundFile (argOf args n m).1 (entriesSeen (rootEntries (g.image b).dir)) = none ∧
      ∀ content, ¬store.Finds (argOf args n m).1 content) ∨
    ∃ i slot content, g.FileIn (g.image b) i slot (chains i) content ∧
      foundFile (argOf args n m).1 (entriesSeen (rootEntries (g.image b).dir)) =
        some slot.driveFile ∧
      store.Finds (argOf args n m).1 content := by
  have hspace := space_not_mem_argOf args n m
  cases hfound : foundFile (argOf args n m).1 (entriesSeen (rootEntries (g.image b).dir)) with
  | none => exact .inl ⟨rfl, fun _ => hholds.foundFile_none hproper hslots hspace hfound⟩
  | some file =>
      obtain ⟨i, slot, content, hfile, rfl, hfinds⟩ :=
        hholds.foundFile_spec hproper hslots hspace hfound
      exact .inr ⟨i, slot, content, hfile, rfl, hfinds⟩

section Commands

variable (hholds : g.Holds (g.image b) chains store) (hproper : store.Proper)

include hholds hproper

theorem answered_ls (hslots : g.slots.length < 2 ^ 31) :
    Answered g (Serves color store args answer .ls) (cmdLs (some g.vol) color (disk b)) := by
  have hlisting := listing_eq hholds.chained.clean
  rw [cmdLs, whenMounted]
  dsimp only
  rw [getRootEntries_disk hholds.chained.root, Option.map_some]
  dsimp only
  rw [entriesSeen_rootEntries hslots, List.flatMap_map]
  refine .same hholds hproper ?_
  have hraws : ((listing (g.image b).dir).map Slot.name).flatMap
      (fun raw => ((store raw).map (itemLine color raw)).getD []) =
      (listing (g.image b).dir).flatMap fun s => lsLine color s.rootEntry := by
    rw [List.flatMap_map]
    refine List.flatMap_congr fun s hs => ?_
    rw [hlisting] at hs
    obtain ⟨hmem, hlive⟩ := List.mem_filter.mp hs
    obtain ⟨i, hget⟩ := List.getElem?_of_mem hmem
    obtain ⟨item, hstore, hitem⟩ := hholds.item i s hget hlive
    rw [hstore, Option.map_some, Option.getD_some, Slot.rootEntry]
    cases item with
    | directory =>
        have hdirectory : s.attributes &&& attrDirectory ≠ 0 := hitem
        rw [if_pos hdirectory]
        rfl
    | file content =>
        have hfile : g.FileIn (g.image b) i s (chains i) content := hitem
        rw [if_neg (not_not.mpr (Slot.isFile_iff.mp hfile.isFile).2)]
        rfl
  rw [← hraws]
  refine .ls ?_ fun raw => ?_
  · rw [hlisting]
    exact nodup_names hholds.unique
  · rw [hlisting, List.mem_map]
    constructor
    · rintro ⟨s, hs, rfl⟩
      obtain ⟨hmem, hlive⟩ := List.mem_filter.mp hs
      obtain ⟨i, hget⟩ := List.getElem?_of_mem hmem
      obtain ⟨item, hstore, -⟩ := hholds.item i s hget hlive
      rw [hstore]
      exact Option.some_ne_none item
    · intro hsome
      obtain ⟨i, s, hget, hlive, hname⟩ := hholds.named raw hsome
      exact ⟨s, List.mem_filter.mpr ⟨List.mem_of_getElem? hget, hlive⟩, hname⟩

theorem answered_cat (hslots : g.slots.length < 2 ^ 31) :
    Answered g (Serves color store args answer .cat) (cmdCat (some g.vol) args color (disk b)) := by
  rw [cmdCat, whenMounted]
  dsimp only
  split_ifs with hname
  · exact .same hholds hproper (.catUsage hname)
  · rw [getRootEntries_disk hholds.chained.root, Option.bind_some]
    dsimp only
    obtain ⟨hfound, hmissing⟩ | ⟨i, slot, content, hfile, hfound, hfinds⟩ :=
      lookup_cases hholds hproper hslots args 0 32
    · rw [hfound]
      exact .same hholds hproper (.catMissing hname hmissing)
    · rw [hfound]
      dsimp only
      rw [hfile.readSteps (hproper.small _ content hfinds.2), Option.map_some]
      exact .same hholds hproper (.cat hname hfinds)

theorem answered_touch (haccepts : Accepts store args .touch) :
    Answered g (Serves color store args answer .touch)
      (cmdTouch (some g.vol) args color (disk b)) := by
  rw [cmdTouch, whenMounted]
  dsimp only
  split_ifs with hname
  · exact .same hholds hproper (.touchUsage hname)
  · have hfresh := haccepts hname
    have hlength := length_argOf_le args 1 255
    have hlimit : copyLimit = 4096 := rfl
    have hadmits : store.Admits (.createFile (argOf args 0 32) (argOf args 1 255).1) :=
      ⟨hfresh.free, hfresh.mark, by omega⟩
    exact .attempt hholds hproper hadmits id (Proper.create hproper hfresh (by omega))
      (.touch hname) (.touchFailed hname)

theorem answered_rm :
    Answered g (Serves color store args answer .rm)
      (cmdRm (some g.vol) args answer color (disk b)) := by
  rw [cmdRm, whenMounted]
  dsimp only
  split_ifs with hname hno
  · exact .same hholds hproper (.rmUsage hname)
  · exact .same hholds hproper (.rmCancelled hname hno)
  · obtain ⟨b', chains', hexec, hholds'⟩ := exists_delete hholds (argOf args 0 32)
    have hdelete : deleteFile (disk b) g.vol (argOf args 0 32).1 = _ := hexec
    rw [hdelete, Option.map_some]
    dsimp only
    by_cases hnone : store (encode83Name (argOf args 0 32).1) = none
    · rw [if_pos hnone, if_neg (by decide)]
      rw [Store.after, ← hnone, Function.update_eq_self] at hholds'
      exact ⟨_, b', chains', store, rfl, .rmMissing hname hnone, hholds', hproper⟩
    · rw [if_neg hnone, if_pos rfl]
      exact ⟨_, b', chains', _, rfl, .rm hname hnone, hholds', Proper.delete hproper⟩

theorem answered_cp (hslots : g.slots.length < 2 ^ 31) (haccepts : Accepts store args .cp) :
    Answered g (Serves color store args answer .cp) (cmdCp (some g.vol) args color (disk b)) := by
  rw [cmdCp, whenMounted]
  dsimp only
  split_ifs with hname
  · exact .same hholds hproper (.cpUsage hname)
  · rw [getRootEntries_disk hholds.chained.root, Option.bind_some]
    dsimp only
    obtain ⟨hfound, hmissing⟩ | ⟨i, slot, content, hfile, hfound, hfinds⟩ :=
      lookup_cases hholds hproper hslots args 0 32
    · rw [hfound]
      exact .same hholds hproper (.cpMissing hname hmissing)
    · rw [hfound]
      dsimp only
      rw [hfile.fillSteps (by decide), Option.bind_some]
      have hfresh := haccepts fun hdst => hname (.inr hdst)
      have hlength : (content.take copyLimit).length ≤ copyLimit := List.length_take_le _ _
      have hlimit : copyLimit = 4096 := rfl
      have hadmits : store.Admits (.createFile (argOf args 1 32) (content.take copyLimit)) :=
        ⟨hfresh.free, hfresh.mark, by omega⟩
      exact .attempt hholds hproper hadmits id (Proper.create hproper hfresh hlength)
        (.cp hname hfinds) (.cpFailed hname hfinds)

theorem answered_mv (hslots : g.slots.length < 2 ^ 31) (haccepts : Accepts store args .mv) :
    Answered g (Serves color store args answer .mv) (cmdMv (some g.vol) args color (disk b)) := by
  rw [cmdMv, whenMounted]
  dsimp only
  split_ifs with hname
  · exact .same hholds hproper (.mvUsage hname)
  · rw [getRootEntries_disk hholds.chained.root, Option.bind_some]
    dsimp only
    obtain ⟨hfound, hmissing⟩ | ⟨i, slot, content, hfile, hfound, hfinds⟩ :=
      lookup_cases hholds hproper hslots args 0 32
    · rw [hfound]
      exact .same hholds hproper (.mvMissing hname hmissing)
    · rw [hfound]
      dsimp only
      rw [hfile.fillSteps (by decide), Option.bind_some]
      have hfresh := haccepts fun hdst => hname (.inr hdst)
      have hlength : (content.take copyLimit).length ≤ copyLimit := List.length_take_le _ _
      have hlimit : copyLimit = 4096 := rfl
      have hadmits : store.Admits (.createFile (argOf args 1 32) (content.take copyLimit)) :=
        ⟨hfresh.free, hfresh.mark, by omega⟩
      obtain ⟨r, b₁, chains₁, hcreate, hholds₁⟩ := exists_exec hholds hadmits id
      have hcreate' : createFile (disk b) g.vol (argOf args 1 32).1 (content.take copyLimit) =
        some (r, disk b₁) := hcreate
      dsimp only
      rw [hcreate', Option.bind_some]
      dsimp only
      by_cases hr : r = 0
      · -- The source is deleted after the destination is made.
        rw [if_pos hr] at hholds₁
        rw [if_neg (not_not.mpr hr)]
        obtain ⟨b₂, chains₂, hexec, hholds₂⟩ := exists_delete hholds₁ (argOf args 0 32)
        have hdelete : deleteFile (disk b₁) g.vol (argOf args 0 32).1 = _ := hexec
        rw [hdelete]
        exact ⟨_, b₂, chains₂, _, rfl, .mv hname hfinds, hholds₂,
          Proper.delete (Proper.create hproper hfresh hlength)⟩
      · rw [if_neg hr] at hholds₁
        rw [if_pos hr]
        exact ⟨_, b₁, chains₁, _, rfl, .mvFailed hname hfinds, hholds₁, hproper⟩

theorem answered_mkdir (haccepts : Accepts store args .mkdir) :
    Answered g (Serves color store args answer .mkdir)
      (cmdMkdir (some g.vol) args color (disk b)) := by
  rw [cmdMkdir, whenMounted]
  dsimp only
  split_ifs with hname
  · exact .same hholds hproper (.mkdirUsage hname)
  · have hfresh := haccepts hname
    have hadmits : store.Admits (.mkdir (argOf args 0 32)) := ⟨hfresh.free, hfresh.mark⟩
    exact .attempt hholds hproper hadmits id
      (Proper.update hproper (fun _ => hfresh.named) fun new hnew => by cases hnew)
      (.mkdir hname) (.mkdirFailed hname)

theorem answered_write (haccepts : Accepts store args .write) :
    Answered g (Serves color store args answer .write)
      (cmdWrite (some g.vol) args color (disk b)) := by
  rw [cmdWrite, whenMounted]
  dsimp only
  split_ifs with hname
  · exact .same hholds hproper (.writeUsage hname)
  · obtain ⟨hnamed, hmark, hfile, hsmall⟩ := haccepts hname
    have hadmits : store.Admits (.appendFile (argOf args 0 32) (argOf args 1 255).1) :=
      ⟨hfile, hmark, by omega⟩
    refine .attempt hholds hproper hadmits id
      (Proper.update hproper (fun _ => hnamed) fun new hnew => ?_)
      (.write hname) (.writeFailed hname)
    cases hnew
    rwa [List.length_append]

/-- Every command does on the volume what it does on the map. -/
theorem answered (hslots : g.slots.length < 2 ^ 31) (haccepts : Accepts store args command) :
    Answered g (Serves color store args answer command)
      (runFileCommand (some g.vol) color command args answer (disk b)) := by
  cases command with
  | ls => exact answered_ls hholds hproper hslots
  | cat => exact answered_cat hholds hproper hslots
  | touch => exact answered_touch hholds hproper haccepts
  | rm => exact answered_rm hholds hproper
  | cp => exact answered_cp hholds hproper hslots haccepts
  | mv => exact answered_mv hholds hproper hslots haccepts
  | mkdir => exact answered_mkdir hholds hproper haccepts
  | echo => exact .same hholds hproper .echo
  | write => exact answered_write hholds hproper haccepts

/-- A line does on the volume what it does on the map. -/
theorem answered_line (hslots : g.slots.length < 2 ^ 31) (haccepts : AcceptsLine store typed) :
    Answered g (ServesLine color store typed) (runLine (some g.vol) color typed (disk b)) := by
  rw [runLine]
  cases hrun : runCommand typed.line.1 with
  | run command args =>
      obtain ⟨fileCommand, hfiles, haccepts⟩ := haccepts command args hrun
      obtain ⟨out, b', chains', store', hout, hserves, hkept⟩ :=
        @answered _ _ _ _ _ typed.answer color _ hholds hproper hslots haccepts
      dsimp only
      rw [hfiles, Option.bind_some]
      exact ⟨out, b', chains', store', hout, .run hrun hfiles hserves, hkept⟩
  | unknown => exact .same hholds hproper (.unknown hrun)
  | nothing => exact .same hholds hproper (.nothing hrun)

end Commands

/-! ## Runs -/

/-- A file is made and printed. -/
def touchAndCat : List Typed :=
  [⟨⟨ascii "touch a hello", by decide +kernel⟩, []⟩, ⟨⟨ascii "cat a", by decide +kernel⟩, []⟩]

theorem acceptsLines_touchAndCat : AcceptsLines white (fun _ => none) touchAndCat := by
  have htouch : runCommand (ascii "touch a hello") = .run .touch (ascii "a hello") := by
    decide +kernel
  have hcat : runCommand (ascii "cat a") = .run .cat (ascii "a") := by decide +kernel
  have hname : (argOf (argsOf ⟨ascii "touch a hello", by decide +kernel⟩) 0 32).1 = [0x61] := by
    decide +kernel
  refine ⟨fun command args hrun => ?_, fun out store' _ => ⟨fun command args hrun => ?_, ?_⟩⟩
  · rw [htouch] at hrun
    cases hrun
    refine ⟨.touch, rfl, fun _ => ⟨rfl, ⟨[0x41], [], ?_⟩, ?_⟩⟩
    · rw [hname]
      refine ⟨by decide, by decide, by decide, fun c hc => ?_, by decide⟩
      obtain rfl := List.mem_singleton.mp hc
      exact ⟨by decide, by decide, by decide, by decide⟩
    · rw [hname]
      decide
  · rw [hcat] at hrun
    cases hrun
    exact ⟨.cat, rfl, trivial⟩
  · exact fun _ _ _ => trivial

end GeckoOS.Shell
