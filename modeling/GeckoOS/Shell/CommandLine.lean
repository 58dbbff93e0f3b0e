/-
# The command line

`run_command` cuts a line at its first blank.  What stands before it is looked up in the table
of commands, and what follows, from its first other character on, is given to the command.  A
command takes single words out of this by `get_arg`.

The name is copied into a buffer of 32 bytes.  Longer first words are cut there, and since no
name in the table is that long they are unknown like any other.
-/

import GeckoOS.Gk.Syntax
import GeckoOS.Math.Words
import Mathlib.Data.List.Nodup

namespace GeckoOS.Shell

open GeckoOS.Math GeckoOS.Gk

/-- The byte `' '`. -/
abbrev blank : UInt8 := 0x20

/-- `get_arg`: what it leaves in a buffer of `maxLen` bytes, up to the NUL. -/
def getArg (args : List UInt8) (argNum maxLen : Nat) : List UInt8 :=
  let p := skipSep blank args
  if p = [] then []
  else
    match argNum with
    | 0 => (firstWord blank p).take (maxLen - 1)
    | argNum + 1 => getArg (afterWord blank p) argNum maxLen

/-- The functions in the table of commands. -/
inductive Command
  | help | hello | contributors | clear | version | chars | uptime | meminfo | lspci | processes
  | setkeyswe | setkeyus | setkeyuk
  | sleep5 | reboot | printTicks
  | gk
  | fsmount | ls | cat | fsinfo | touch | rm | cp | mv | mkdir | echo | write | dumpelf | runelf
  | ping | udpsend | dns | listhostfiles | hostfilesize | pullhostfile
deriving DecidableEq

/-- `commands[]`. -/
def commands : List (List UInt8 × Command) :=
  [(ascii "help", .help), (ascii "hello", .hello), (ascii "contributors", .contributors),
    (ascii "clear", .clear), (ascii "version", .version), (ascii "chars", .chars),
    (ascii "uptime", .uptime), (ascii "meminfo", .meminfo), (ascii "lspci", .lspci),
    (ascii "processes", .processes), (ascii "setkeyswe", .setkeyswe),
    (ascii "setkeyus", .setkeyus), (ascii "setkeyuk", .setkeyuk), (ascii "sleep", .sleep5),
    (ascii "reboot", .reboot), (ascii "ticks", .printTicks), (ascii "gk", .gk),
    (ascii "fsmount", .fsmount), (ascii "ls", .ls), (ascii "cat", .cat),
    (ascii "fsinfo", .fsinfo), (ascii "touch", .touch), (ascii "rm", .rm), (ascii "cp", .cp),
    (ascii "mv", .mv), (ascii "mkdir", .mkdir), (ascii "echo", .echo), (ascii "write", .write),
    (ascii "dumpelf", .dumpelf), (ascii "runelf", .runelf), (ascii "ping", .ping),
    (ascii "udpsend", .udpsend), (ascii "dns", .dns), (ascii "listhostfiles", .listhostfiles),
    (ascii "hostfilesize", .hostfilesize), (ascii "pullhostfile", .pullhostfile)]

/-- `streq`. -/
def streq : List UInt8 → List UInt8 → Bool
  | a :: as, b :: bs => if a ≠ b then false else streq as bs
  | [], [] => true
  | _, _ => false

/-- What `run_command` does with a line: a call, the message for unknown commands, or nothing. -/
inductive Dispatch
  | run (command : Command) (args : List UInt8)
  | unknown
  | nothing
deriving DecidableEq

/-- The length of the name in `name_buf`. -/
def nameLen (line : List UInt8) : Nat :=
  let len := (firstWord blank line).length
  if 32 ≤ len then 31 else len

/-- What a command is given as its arguments. -/
def lineArgs (typed : List UInt8) : List UInt8 :=
  if nameLen typed < 32 ∧ typed[nameLen typed]? = some blank then
    skipSep blank (typed.drop (nameLen typed + 1))
  else []

/-- `run_command`. -/
def runCommand (line : List UInt8) : Dispatch :=
  match commands.find? fun entry => streq (line.take (nameLen line)) entry.1 with
  | some entry => .run entry.2 (lineArgs line)
  | none => if line.length ≠ 0 then .unknown else .nothing

variable {line args name rest : List UInt8} {command : Command} {n m : Nat}

theorem streq_iff (as bs : List UInt8) : streq as bs = true ↔ as = bs := by
  induction as generalizing bs with
  | nil => cases bs <;> simp [streq]
  | cons a as ih =>
      cases bs with
      | nil => simp [streq]
      | cons b bs =>
          rw [streq, List.cons.injEq]
          by_cases hab : a = b
          · rw [if_neg (not_not.mpr hab), ih, and_iff_right hab]
          · rw [if_pos hab]
            exact iff_of_false Bool.false_ne_true fun hboth => hab hboth.1

/-- `get_arg` finds the words of its argument string, as long as they have room. -/
theorem getArg_eq (args : List UInt8) (n m : Nat) :
    getArg args n m = (((words blank args)[n]?).getD []).take (m - 1) := by
  induction n generalizing args with
  | zero =>
      rw [getArg]
      split_ifs with hnone
      · rw [words_eq_nil hnone, List.getElem?_nil, Option.getD_none, List.take_nil]
      · rw [words_eq hnone, List.getElem?_cons_zero, Option.getD_some]
  | succ n ih =>
      rw [getArg]
      split_ifs with hnone
      · rw [words_eq_nil hnone, List.getElem?_nil, Option.getD_none, List.take_nil]
      · rw [words_eq hnone, List.getElem?_cons_succ, ih]

/-! ## The table -/

/-- Shorter than the buffer: a first word that is cut there is no name. -/
theorem commands_names : ∀ entry ∈ commands,
    blank ∉ entry.1 ∧ entry.1 ≠ [] ∧ entry.1.length < 31 := by
  decide +kernel

theorem commands_nodup : (commands.map Prod.fst).Nodup := by
  decide +kernel

/-- The table gives each of its names one command. -/
theorem find_commands_iff {entry : List UInt8 × Command} :
    (commands.find? fun entry => streq name entry.1) = some entry ↔
      entry ∈ commands ∧ entry.1 = name := by
  constructor
  · intro hfind
    have hname := List.find?_some hfind
    exact ⟨List.mem_of_find?_eq_some hfind, ((streq_iff _ _).mp hname).symm⟩
  · rintro ⟨hmem, rfl⟩
    cases hfind : commands.find? fun other => streq entry.1 other.1 with
    | none => exact absurd ((streq_iff _ _).mpr rfl) (List.find?_eq_none.mp hfind entry hmem)
    | some other =>
        have hname := List.find?_some hfind
        have hother := List.mem_of_find?_eq_some hfind
        rw [List.inj_on_of_nodup_map commands_nodup hother hmem ((streq_iff _ _).mp hname).symm]

/-! ## Names and arguments -/

theorem nameLen_eq (hshort : (firstWord blank line).length < 32) :
    nameLen line = (firstWord blank line).length :=
  if_neg (Nat.not_le.mpr hshort)

/-- A name and what follows it, where the first word has room. -/
theorem line_parts (hshort : (firstWord blank line).length < 32) :
    line.take (nameLen line) = firstWord blank line ∧
      lineArgs line = skipSep blank (afterWord blank line) := by
  rw [nameLen_eq hshort, lineArgs, nameLen_eq hshort, getElem?_firstWord, ← List.drop_drop,
    drop_firstWord]
  refine ⟨take_firstWord, ?_⟩
  cases hrest : afterWord blank line with
  | nil => rw [List.head?_nil, if_neg (by simp), skipSep, List.dropWhile_nil]
  | cons c rest =>
      rw [head_afterWord hrest, if_pos ⟨hshort, rfl⟩, skipSep_cons_self]
      rfl

/-- A long first word is no name. -/
theorem short_of_run (hrun : runCommand line = .run command args) :
    (firstWord blank line).length < 32 ∧ args = lineArgs line ∧
      (line.take (nameLen line), command) ∈ commands := by
  rw [runCommand] at hrun
  split at hrun
  · next entry hfind =>
      obtain ⟨hmem, hname⟩ := find_commands_iff.mp hfind
      cases hrun
      refine ⟨?_, rfl, hname ▸ hmem⟩
      by_contra hlong
      have hlen := (commands_names entry hmem).2.2
      have hline := congrArg List.length (@firstWord_append_afterWord _ _ blank line)
      rw [List.length_append] at hline
      rw [hname, nameLen, if_pos (Nat.le_of_not_lt hlong), List.length_take] at hlen
      omega
  · split_ifs at hrun

/-- A name in the table that begins a line is its first word. -/
theorem firstWord_of_name (hmem : (name, command) ∈ commands)
    (hline : line = name ∨ ∃ rest, line = name ++ blank :: rest) :
    firstWord blank line = name := by
  have hblank := (commands_names _ hmem).1
  have hall : ∀ c ∈ name, decide (c ≠ blank) = true := fun c hc =>
    decide_eq_true fun hsep => hblank (hsep ▸ hc)
  obtain rfl | ⟨rest, rfl⟩ := hline
  · exact List.takeWhile_eq_self_iff.mpr hall
  · rw [firstWord, List.takeWhile_append_of_pos hall, List.takeWhile_cons_of_neg (by simp),
      List.append_nil]

/-- **Dispatch.** A line calls a command exactly if it is the name of this command in the table,
alone or followed by a blank.  The words of the line are then the name and the words that the
command finds with `get_arg`. -/
theorem runCommand_run_iff (line args : List UInt8) (command : Command) :
    runCommand line = .run command args ↔ ∃ name, (name, command) ∈ commands ∧
      (line = name ∨ ∃ rest, line = name ++ blank :: rest) ∧
      args = skipSep blank (line.drop name.length) ∧
      words blank line = name :: words blank args ∧
      ∀ n m, getArg args n m = (((words blank line)[n + 1]?).getD []).take (m - 1) := by
  constructor
  · intro hrun
    obtain ⟨hshort, hargs, hmem⟩ := short_of_run hrun
    obtain ⟨hname, hrest⟩ := line_parts hshort
    rw [hname] at hmem
    rw [hrest] at hargs
    have hwords : words blank line = firstWord blank line :: words blank args := by
      have hfirst := words_append sep_not_mem_firstWord (commands_names _ hmem).2.1
        fun _ _ => @head_afterWord _ _ blank _ line _
      rwa [firstWord_append_afterWord, ← @words_skipSep _ _ _ (afterWord blank line),
        ← hargs] at hfirst
    refine ⟨firstWord blank line, hmem, ?_, by rw [hargs, drop_firstWord], hwords, ?_⟩
    · have hline := @firstWord_append_afterWord _ _ blank line
      cases hafter : afterWord blank line with
      | nil =>
          rw [hafter, List.append_nil] at hline
          exact .inl hline.symm
      | cons c rest =>
          rw [hafter, head_afterWord hafter] at hline
          exact .inr ⟨rest, hline.symm⟩
    · intro n m
      rw [getArg_eq, hwords, List.getElem?_cons_succ]
  · rintro ⟨name, hmem, hline, rfl, -, -⟩
    have hfirst := firstWord_of_name hmem hline
    have hlen := (commands_names _ hmem).2.2
    have hshort : (firstWord blank line).length < 32 := by
      rw [hfirst]
      exact Nat.lt_succ_of_lt hlen
    obtain ⟨hname, hrest⟩ := line_parts hshort
    rw [runCommand, hname, find_commands_iff.mpr ⟨hmem, hfirst.symm⟩]
    simp only [hrest]
    rw [← drop_firstWord, hfirst]

end GeckoOS.Shell
