/-
# The commands on files

`touch`, `write`, `rm`, `cp`, `mv` and `mkdir` call the driver and report what it returns, and
`ls` and `cat` print what it reads.  To a user they are commands on a map from names to contents.
A command that changes this map says whether it did, and the map is then what it says.

This holds for every run of these commands on a volume that holds a map, as long as a new name is
an 8.3 name that is not taken.  Of a file of more than 4096 bytes a copy has only the first 4096,
and a file that is moved is cut in the same way.
-/

import GeckoOS.Fs.StoreFiles
import GeckoOS.Shell.CommandLine

namespace GeckoOS.Shell

open GeckoOS.Math ByteMap GeckoOS.Gk GeckoOS.Fs Geometry

/-! ## What is printed -/

/-- The characters given to `putchar`, with their colours. -/
abbrev Output := List (UInt8 × UInt8)

/-- `VGA_COLOR_RED`. -/
abbrev red : UInt8 := 4

/-- `VGA_COLOR_LIGHT_BLUE`. -/
abbrev lightBlue : UInt8 := 9

/-- `VGA_COLOR_LIGHT_GREEN`. -/
abbrev lightGreen : UInt8 := 10

/-- `VGA_COLOR_LIGHT_RED`. -/
abbrev lightRed : UInt8 := 12

/-- `VGA_COLOR_WHITE`. -/
abbrev white : UInt8 := 15

/-- `printc`, which stops at a NUL. -/
def printc (text : List UInt8) (color : UInt8) : Output :=
  (text.takeWhile (· ≠ 0)).map fun c => (c, color)

/-- `kprintf`. -/
def kprintf (text : List UInt8) : Output := printc text white

/-- A message that names a file. -/
def report (message : String) (name : CString) (color : UInt8) : Output :=
  printc (ascii message) color ++ printc name.1 color ++ printc (ascii "\n") color

/-! ## The commands -/

/-- The commands on the mounted volume, and `echo`. -/
inductive FileCommand
  | ls | cat | touch | rm | cp | mv | mkdir | echo | write
deriving DecidableEq

/-- Those among the commands of the table. -/
def Command.onFiles : Command → Option FileCommand
  | .ls => some .ls
  | .cat => some .cat
  | .touch => some .touch
  | .rm => some .rm
  | .cp => some .cp
  | .mv => some .mv
  | .mkdir => some .mkdir
  | .echo => some .echo
  | .write => some .write
  | _ => none

theorem nul_not_mem_getArg {args : List UInt8} (hargs : (0 : UInt8) ∉ args) (n m : Nat) :
    (0 : UInt8) ∉ getArg args n m := by
  have hskip : (0 : UInt8) ∉ skipSep blank args := fun hmem =>
    hargs ((List.dropWhile_suffix _).subset hmem)
  induction n generalizing args with
  | zero =>
      rw [getArg]
      split_ifs
      · exact List.not_mem_nil
      · exact fun hmem => hskip ((List.takeWhile_prefix _).subset (List.mem_of_mem_take hmem))
  | succ n ih =>
      rw [getArg]
      split_ifs
      · exact List.not_mem_nil
      · have hafter : (0 : UInt8) ∉ afterWord blank (skipSep blank args) := fun hmem =>
          hskip ((List.dropWhile_suffix _).subset hmem)
        exact ih hafter fun hmem => hafter ((List.dropWhile_suffix _).subset hmem)

theorem nul_not_mem_lineArgs {line : List UInt8} (hline : (0 : UInt8) ∉ line) :
    (0 : UInt8) ∉ lineArgs line := by
  rw [lineArgs]
  split_ifs
  · exact fun hmem => hline (List.mem_of_mem_drop ((List.dropWhile_suffix _).subset hmem))
  · exact List.not_mem_nil

/-- An argument in a buffer of `maxLen` bytes. -/
def argOf (args : CString) (argNum maxLen : Nat) : CString :=
  ⟨getArg args.1 argNum maxLen, nul_not_mem_getArg args.2 argNum maxLen⟩

/-- What a command is given by a line. -/
def argsOf (line : CString) : CString := ⟨lineArgs line.1, nul_not_mem_lineArgs line.2⟩

/-- The first test of the commands on files. -/
def whenMounted (fs : Option Volume) (d : Drive) (go : Volume → Option (Output × Drive)) :
    Option (Output × Drive) :=
  match fs with
  | none => some (kprintf (ascii "Not mounted\n"), d)
  | some v => go v

/-- What `ls` prints for an entry. -/
def lsLine (color : UInt8) : RootEntry → Output
  | .file file =>
      printc (ascii "[FILE] ") lightGreen ++ printc file.name color ++ printc (ascii "\n") color
  | .directory name =>
      printc (ascii "[DIR]  ") lightBlue ++ printc name color ++ printc (ascii "\n") color

/-- `cmd_ls`. -/
noncomputable def cmdLs (fs : Option Volume) (color : UInt8) (d : Drive) :
    Option (Output × Drive) :=
  whenMounted fs d fun v =>
    (getRootEntries d v).map fun (entries, d) => ((entriesSeen entries).flatMap (lsLine color), d)

/-- `cmd_cat`. -/
noncomputable def cmdCat (fs : Option Volume) (args : CString) (color : UInt8) (d : Drive) :
    Option (Output × Drive) :=
  whenMounted fs d fun v =>
    let fname := argOf args 0 32
    if fname.1 = [] then some (printc (ascii "Usage: cat <filename>\n") red, d)
    else
      (getRootEntries d v).bind fun (entries, d) =>
        match foundFile fname.1 (entriesSeen entries) with
        | none =>
            some (printc (ascii "File not found: ") red ++ printc fname.1 red ++
              printc (ascii "\n") color, d)
        | some file =>
            (readSteps d v file).map fun (bytes, d) =>
              (bytes.map (fun c => (c, color)) ++ printc (ascii "\n") color, d)

/-- `cmd_touch`. -/
noncomputable def cmdTouch (fs : Option Volume) (args : CString) (color : UInt8) (d : Drive) :
    Option (Output × Drive) :=
  whenMounted fs d fun v =>
    let fname := argOf args 0 32
    let content := argOf args 1 255
    if fname.1 = [] then some (printc (ascii "Usage: touch <filename> <content>\n") red, d)
    else
      (createFile d v fname.1 content.1).map fun (result, d) =>
        if result = 0 then (report "File created: " fname color, d)
        else (printc (ascii "Failed to create file (disk full or root dir full?)\n") red, d)

/-- The question that `cmd_rm` asks; what `input` prints is not part of it. -/
def rmPrompt (fname : CString) (color : UInt8) : Output :=
  printc (ascii "Delete ") color ++ printc fname.1 color ++ printc (ascii "? (y/n): ") lightRed ++
    printc (ascii "\n") color

/-- `cmd_rm`; `answer` is what `input` leaves in `confirm`. -/
noncomputable def cmdRm (fs : Option Volume) (args : CString) (answer : List UInt8)
    (color : UInt8) (d : Drive) : Option (Output × Drive) :=
  whenMounted fs d fun v =>
    let fname := argOf args 0 32
    if fname.1 = [] then some (printc (ascii "Usage: rm <filename>\n") red, d)
    else if answer.headD 0 ≠ 0x79 ∧ answer.headD 0 ≠ 0x59 then
      some (rmPrompt fname color ++ printc (ascii "Cancelled.\n") color, d)
    else
      (deleteFile d v fname.1).map fun (result, d) =>
        if result = 0 then (rmPrompt fname color ++ report "Deleted: " fname color, d)
        else
          (rmPrompt fname color ++
            printc (ascii "Failed to delete (file not found or FS error).\n") red, d)

/-- The size of `copybuf` and `mvbuf`. -/
abbrev copyLimit : Nat := 4096

/-- `cmd_cp`. -/
noncomputable def cmdCp (fs : Option Volume) (args : CString) (color : UInt8) (d : Drive) :
    Option (Output × Drive) :=
  whenMounted fs d fun v =>
    let src := argOf args 0 32
    let dst := argOf args 1 32
    if src.1 = [] ∨ dst.1 = [] then some (printc (ascii "Usage: cp <src> <dst>\n") red, d)
    else
      (getRootEntries d v).bind fun (entries, d) =>
        match foundFile src.1 (entriesSeen entries) with
        | none => some (printc (ascii "Source not found.\n") red, d)
        | some file =>
            (fillSteps d v file copyLimit).bind fun (copybuf, d) =>
              (createFile d v dst.1 copybuf).map fun (result, d) =>
                if result = 0 then (report "Copied to: " dst color, d)
                else (printc (ascii "Copy failed.\n") red, d)

/-- What `cmd_mv` prints when it is done. -/
def mvDone (src dst : CString) (color : UInt8) : Output :=
  printc (ascii "Moved: ") color ++ printc src.1 color ++ printc (ascii " -> ") color ++
    printc dst.1 color ++ printc (ascii "\n") color

/-- `cmd_mv`. -/
noncomputable def cmdMv (fs : Option Volume) (args : CString) (color : UInt8) (d : Drive) :
    Option (Output × Drive) :=
  whenMounted fs d fun v =>
    let src := argOf args 0 32
    let dst := argOf args 1 32
    if src.1 = [] ∨ dst.1 = [] then some (printc (ascii "Usage: mv <src> <dst>\n") red, d)
    else
      (getRootEntries d v).bind fun (entries, d) =>
        match foundFile src.1 (entriesSeen entries) with
        | none => some (printc (ascii "Source not found.\n") red, d)
        | some file =>
            (fillSteps d v file copyLimit).bind fun (mvbuf, d) =>
              (createFile d v dst.1 mvbuf).bind fun (rc, d) =>
                if rc ≠ 0 then some (printc (ascii "Move failed (could not create dst).\n") red, d)
                else (deleteFile d v src.1).map fun (_, d) => (mvDone src dst color, d)

/-- `cmd_mkdir`. -/
noncomputable def cmdMkdir (fs : Option Volume) (args : CString) (color : UInt8) (d : Drive) :
    Option (Output × Drive) :=
  whenMounted fs d fun v =>
    let dname := argOf args 0 32
    if dname.1 = [] then some (printc (ascii "Usage: mkdir <directory_name>\n") red, d)
    else
      (mkdir d v dname.1).map fun (result, d) =>
        if result = 0 then (report "Directory created: " dname color, d)
        else (printc (ascii "Failed to create directory.\n") red, d)

/-- `cmd_echo`. -/
def cmdEcho (args : CString) (color : UInt8) : Output :=
  printc args.1 color ++ printc (ascii "\n") color

/-- `cmd_write`. -/
noncomputable def cmdWrite (fs : Option Volume) (args : CString) (color : UInt8) (d : Drive) :
    Option (Output × Drive) :=
  whenMounted fs d fun v =>
    let fname := argOf args 0 32
    let content := argOf args 1 255
    if fname.1 = [] then some (printc (ascii "Usage: write <filename> <text>\n") red, d)
    else
      (appendFile d v fname.1 content.1).map fun (result, d) =>
        if result = 0 then (report "Appended to: " fname color, d)
        else (printc (ascii "Failed (file not found or FS error).\n") red, d)

/-- The function of a command. -/
noncomputable def runFileCommand (fs : Option Volume) (color : UInt8) (command : FileCommand)
    (args : CString) (answer : List UInt8) (d : Drive) : Option (Output × Drive) :=
  match command with
  | .ls => cmdLs fs color d
  | .cat => cmdCat fs args color d
  | .touch => cmdTouch fs args color d
  | .rm => cmdRm fs args answer color d
  | .cp => cmdCp fs args color d
  | .mv => cmdMv fs args color d
  | .mkdir => cmdMkdir fs args color d
  | .echo => some (cmdEcho args color, d)
  | .write => cmdWrite fs args color d

/-- A line, and what is typed when it asks. -/
structure Typed where
  line : CString
  answer : List UInt8

/-- `run_command` on a line; the commands of other subsystems are not run. -/
noncomputable def runLine (fs : Option Volume) (color : UInt8) (typed : Typed) (d : Drive) :
    Option (Output × Drive) :=
  match runCommand typed.line.1 with
  | .run command _ =>
      command.onFiles.bind fun command =>
        runFileCommand fs color command (argsOf typed.line) typed.answer d
  | .unknown =>
      some (printc (ascii "Unknown command. Type 'help' for available commands\n") color, d)
  | .nothing => some ([], d)

/-- Lines one after the other, with what each of them prints. -/
noncomputable def runLines (fs : Option Volume) (color : UInt8) :
    List Typed → Drive → Option (List Output × Drive)
  | [], d => some ([], d)
  | typed :: rest, d =>
      (runLine fs color typed d).bind fun (out, d) =>
        (runLines fs color rest d).map fun (outs, d) => (out :: outs, d)

end GeckoOS.Shell
