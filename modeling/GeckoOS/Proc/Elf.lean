/-
# ELF images

`runelf` and `dumpelf` go through the section headers of an image in memory.  Both step to the
next header before they look at it, so they begin with the second header and end with what
comes after the table.

The images are as `readfile` left them.  An offset is a 64-bit number, like the sums that it comes
from, and the memory behind the file holds whatever it holds.  What is printed is not the subject
here, except that the characters of a name have to be read for it.
-/

import GeckoOS.Math.Outcome

namespace GeckoOS.Proc

open GeckoOS.Math

/-! ## Reading -/

/-- A `Buffer_t` with the memory at its `bytes`. -/
structure ElfFile where
  bytes : UInt64 → UInt8
  size : UInt64

/-- A byte is read, or a section header is taken up by the loop. -/
inductive Access where
  | read (offset : UInt64)
  | examine (header : UInt64)
  deriving DecidableEq

/-- A computation that reads; the error is that a process has taken over. -/
abbrev Reader := EStateM Unit (List Access)

/-- The little-endian word of `n` bytes at an offset. -/
def wordAt (f : ElfFile) : Nat → UInt64 → UInt64
  | 0, _ => 0
  | n + 1, o => (f.bytes o).toUInt64 + 256 * wordAt f n (o + 1)

/-- Read a field of `n` bytes. -/
def readWord (f : ElfFile) (n : Nat) (o : UInt64) : Reader UInt64 := do
  modify (· ++ (List.range n).map fun k => .read (o + .ofNat k))
  return wordAt f n o

/-- Read a character. -/
def readByte (f : ElfFile) (o : UInt64) : Reader UInt8 := do
  modify (· ++ [.read o])
  return f.bytes o

/-! ## Headers -/

/-- `ELFMAG0` to `ELFMAG3`. -/
def elfMag : List UInt8 := [0x7F, 0x45, 0x4C, 0x46]

/-- `SHF_EXECINSTR`. -/
abbrev shfExecinstr : UInt64 := 0x4

/-- The size of an `Elf64_Shdr`. -/
abbrev shdrSize : UInt64 := 64

/-- The `e_shoff` of the `Elf64_Ehdr`. -/
def eShoff (f : ElfFile) : Reader UInt64 := readWord f 8 40

/-- The `e_shnum` of the `Elf64_Ehdr`. -/
def eShnum (f : ElfFile) : Reader UInt64 := readWord f 2 60

/-- The `e_shstrndx` of the `Elf64_Ehdr`. -/
def eShstrndx (f : ElfFile) : Reader UInt64 := readWord f 2 62

/-- The `sh_name` of a section. -/
def shName (f : ElfFile) (s : UInt64) : Reader UInt32 := do
  let name ← readWord f 4 s
  return name.toUInt32

/-- The `sh_flags` of a section. -/
def shFlags (f : ElfFile) (s : UInt64) : Reader UInt64 := readWord f 8 (s + 8)

/-- The `sh_offset` of a section. -/
def shOffset (f : ElfFile) (s : UInt64) : Reader UInt64 := readWord f 8 (s + 24)

/-- The `sh_size` of a section. -/
def shSize (f : ElfFile) (s : UInt64) : Reader UInt64 := readWord f 8 (s + 32)

/-- The comparison of `MagicBytes`, from the byte at `o` on. -/
def hasMagic (f : ElfFile) : UInt64 → List UInt8 → Reader Bool
  | _, [] => return true
  | o, c :: rest => do
      if (← readByte f o) = c then hasMagic f (o + 1) rest else return false

/-- The `string_table`, with the section headers at `curl`. -/
def stringTable (f : ElfFile) (curl : UInt64) : Reader UInt64 := do
  shOffset f (curl + shdrSize * (← eShstrndx f))

/-- The comparison of the name of a section, each character with its place in the name, whose
offset is a 32-bit sum. -/
def nameMatches (f : ElfFile) (strings s : UInt64) : List (UInt32 × UInt8) → Reader Bool
  | [] => return true
  | (k, c) :: rest => do
      let name ← shName f s
      if (← readByte f (strings + (name + k).toUInt64)) = c then nameMatches f strings s rest
      else return false

/-- What comes after the dot of `.text`. -/
def textName : List (UInt32 × UInt8) := [(1, 0x74), (2, 0x65), (3, 0x78), (4, 0x74)]

/-! ## The two commands -/

/-- The loop over the sections with so many to go, as the condition finds by reading `e_shnum`
each time. -/
def eachSection (f : ElfFile) (body : Nat → UInt64 → Reader Unit) : Nat → Nat → UInt64 → Reader Unit
  | 0, _, _ => do
      let _ ← eShnum f
  | left + 1, i, curl => do
      let _ ← eShnum f
      let curl := curl + shdrSize
      modify (· ++ [.examine curl])
      body i curl
      eachSection f body left (i + 1) curl

/-- A section of `runelf`.  `create_process` returns in the round `i` if `back i` says so. -/
def runSection (f : ElfFile) (back : Nat → Bool) (strings : UInt64) (i : Nat) (s : UInt64) :
    Reader Unit := do
  if (← shFlags f s) &&& shfExecinstr ≠ 0 then
    if ← nameMatches f strings s textName then
      let _ ← shOffset f s
      if back i then return () else throw ()

/-- Both commands: the checks, a first line, and the loop. -/
def throughSections (f : ElfFile) (firstLine : Reader Unit)
    (body : UInt64 → Nat → UInt64 → Reader Unit) : Reader Unit := do
  if ← hasMagic f 0 elfMag then
    let curl ← eShoff f
    let strings ← stringTable f curl
    firstLine
    eachSection f (body strings) (wordAt f 2 60).toNat 0 curl

/-- `runelf`. -/
def runelf (f : ElfFile) (back : Nat → Bool) : Reader Unit :=
  throughSections f (return ()) (runSection f back)

/-- The characters that `%s` reads, which are those up to a zero. -/
def printString (f : ElfFile) : Nat → UInt64 → Reader Unit
  | 0, _ => return ()
  | fuel + 1, o => do
      if (← readByte f o) = 0 then return () else printString f fuel (o + 1)

/-- The line that `dumpelf` prints about a section, except for the last one. -/
def printSection (f : ElfFile) (strings : UInt64) (i : Nat) (s : UInt64) : Reader Unit := do
  let shnum ← eShnum f
  if i ≠ shnum.toNat - 1 then
    let _ ← shFlags f s
    let name ← shName f s
    let _ ← eShstrndx f
    -- a string without a zero ends nowhere in the address space
    printString f UInt64.size (strings + name.toUInt64)

/-- The bytes of a section, from the `y`-th on with so many to go. -/
def dumpBytes (f : ElfFile) (s : UInt64) : Nat → UInt64 → Reader Unit
  | 0, _ => do
      let _ ← shSize f s
  | left + 1, y => do
      let _ ← shSize f s
      let offset ← shOffset f s
      let _ ← readByte f (offset + y)
      dumpBytes f s left (y + 1)

/-- A section of `dumpelf`. -/
def dumpSection (f : ElfFile) (strings : UInt64) (i : Nat) (s : UInt64) : Reader Unit := do
  printSection f strings i s
  if (← shFlags f s) &&& shfExecinstr ≠ 0 then
    if ← nameMatches f strings s textName then
      dumpBytes f s (wordAt f 8 (s + 32)).toNat 0

/-- The number of the string table, which `dumpelf` prints first. -/
def printTableNumber (f : ElfFile) : Reader Unit := do
  let _ ← eShstrndx f

/-- `dumpelf`. -/
def dumpelf (f : ElfFile) : Reader Unit := throughSections f (printTableNumber f) (dumpSection f)

/-! ## What is examined -/

/-- The log at the end of a computation, whichever end it is. -/
def logAfter {α : Type} : EStateM.Result Unit (List Access) α → List Access
  | .ok _ log => log
  | .error _ log => log

/-- The header that is taken up, if this is not a read. -/
def Access.header? : Access → Option UInt64
  | read _ => none
  | examine header => some header

/-- The headers that the loop takes up. -/
def examined (log : List Access) : List UInt64 := log.filterMap Access.header?

/-- A computation that only reads. -/
def Quiet {α : Type} (x : Reader α) : Prop := ∀ log, examined (logAfter (x log)) = examined log

variable {α β : Type} {x : Reader α} {y : α → Reader β} {f : ElfFile} {log : List Access}

theorem examined_append (log log' : List Access) :
    examined (log ++ log') = examined log ++ examined log' := List.filterMap_append

theorem Quiet.pure (a : α) : Quiet (Pure.pure a : Reader α) := fun _ => rfl

theorem Quiet.throw : Quiet (throw () : Reader α) := fun _ => rfl

theorem Quiet.bind (hx : Quiet x) (hy : ∀ a, Quiet (y a)) : Quiet (x >>= y) := by
  intro log
  have hfirst := hx log
  change examined (logAfter (EStateM.bind x y log)) = _
  rw [EStateM.bind]
  cases hrun : x log with
  | ok a log' =>
      rw [hrun] at hfirst
      exact (hy a log').trans hfirst
  | error e log' =>
      rw [hrun] at hfirst
      exact hfirst

theorem Quiet.ite {c : Prop} [Decidable c] {x y : Reader α} (hx : Quiet x) (hy : Quiet y) :
    Quiet (if c then x else y) := by
  split
  · exact hx
  · exact hy

theorem Quiet.readWord (f : ElfFile) (n : Nat) (o : UInt64) : Quiet (readWord f n o) := by
  intro log
  have hreads : examined ((List.range n).map fun k => .read (o + .ofNat k)) = [] := by
    apply List.filterMap_eq_nil_iff.mpr
    intro access haccess
    obtain ⟨k, -, rfl⟩ := List.mem_map.mp haccess
    rfl
  change examined (log ++ (List.range n).map fun k => .read (o + .ofNat k)) = _
  rw [examined_append, hreads, List.append_nil]

theorem Quiet.readByte (f : ElfFile) (o : UInt64) : Quiet (readByte f o) := by
  intro log
  change examined (log ++ [.read o]) = _
  rw [examined_append]
  exact List.append_nil _

theorem Quiet.shName (f : ElfFile) (s : UInt64) : Quiet (shName f s) :=
  .bind (.readWord f 4 s) fun _ => .pure _

theorem Quiet.hasMagic (f : ElfFile) (o : UInt64) (chars : List UInt8) :
    Quiet (hasMagic f o chars) := by
  induction chars generalizing o with
  | nil => exact .pure _
  | cons c chars ih => exact .bind (.readByte f o) fun _ => .ite (ih (o + 1)) (.pure _)

theorem Quiet.stringTable (f : ElfFile) (curl : UInt64) : Quiet (stringTable f curl) :=
  .bind (.readWord f 2 62) fun _ => .readWord f 8 _

theorem Quiet.nameMatches (f : ElfFile) (strings s : UInt64) (chars : List (UInt32 × UInt8)) :
    Quiet (nameMatches f strings s chars) := by
  induction chars with
  | nil => exact .pure _
  | cons c chars ih =>
      exact .bind (.shName f s) fun _ => .bind (.readByte f _) fun _ => .ite ih (.pure _)

theorem Quiet.printString (f : ElfFile) (fuel : Nat) (o : UInt64) :
    Quiet (printString f fuel o) := by
  induction fuel generalizing o with
  | zero => exact .pure _
  | succ fuel ih => exact .bind (.readByte f o) fun _ => .ite (.pure _) (ih (o + 1))

theorem Quiet.dumpBytes (f : ElfFile) (s : UInt64) (left : Nat) (y : UInt64) :
    Quiet (dumpBytes f s left y) := by
  induction left generalizing y with
  | zero => exact .bind (.readWord f 8 _) fun _ => .pure _
  | succ left ih =>
      apply Quiet.bind (.readWord f 8 _)
      intro _
      apply Quiet.bind (.readWord f 8 _)
      intro _
      exact .bind (.readByte f _) fun _ => ih (y + 1)

theorem Quiet.runSection (f : ElfFile) (back : Nat → Bool) (strings : UInt64) (i : Nat)
    (s : UInt64) : Quiet (runSection f back strings i s) := by
  apply Quiet.bind (.readWord f 8 _)
  intro _
  apply Quiet.ite _ (.pure _)
  apply Quiet.bind (.nameMatches f strings s _)
  intro _
  apply Quiet.ite _ (.pure _)
  exact .bind (.readWord f 8 _) fun _ => .ite (.pure _) .throw

theorem Quiet.printSection (f : ElfFile) (strings : UInt64) (i : Nat) (s : UInt64) :
    Quiet (printSection f strings i s) := by
  apply Quiet.bind (.readWord f 2 60)
  intro _
  apply Quiet.ite _ (.pure _)
  apply Quiet.bind (.readWord f 8 _)
  intro _
  apply Quiet.bind (.shName f s)
  intro _
  exact .bind (.readWord f 2 _) fun _ => .printString f _ _

theorem Quiet.dumpSection (f : ElfFile) (strings : UInt64) (i : Nat) (s : UInt64) :
    Quiet (dumpSection f strings i s) := by
  apply Quiet.bind (.printSection f strings i s)
  intro _
  apply Quiet.bind (.readWord f 8 _)
  intro _
  apply Quiet.ite _ (.pure _)
  apply Quiet.bind (.nameMatches f strings s _)
  intro _
  exact .ite (.dumpBytes f s _ 0) (.pure _)

/-- The first headers after the one at `curl`. -/
def headersAfter (curl : UInt64) (k : Nat) : List UInt64 :=
  (List.range k).map fun j => curl + shdrSize * .ofNat (j + 1)

theorem headersAfter_succ (curl : UInt64) (k : Nat) :
    headersAfter curl (k + 1) = (curl + shdrSize) :: headersAfter (curl + shdrSize) k := by
  rw [headersAfter, headersAfter, List.range_succ_eq_map, List.map_cons, List.map_map]
  have hnext : ∀ j, curl + shdrSize * .ofNat (j + 1 + 1) =
      curl + shdrSize + shdrSize * .ofNat (j + 1) := by
    intro j
    rw [UInt64.ofNat_add (j + 1) 1, UInt64.mul_add, UInt64.add_assoc,
      UInt64.add_comm (shdrSize * _)]
    rfl
  exact congrArg (_ :: ·) (List.map_congr_left fun j _ => hnext j)

/-- The loop takes up the headers after the one that it starts from, as many as there are to go
unless a process takes over, and at least one if there are any to go. -/
theorem examined_eachSection {body : Nat → UInt64 → Reader Unit} (hbody : ∀ i s, Quiet (body i s))
    (left i : Nat) (curl : UInt64) (log : List Access) :
    ∃ k ≤ left, (0 < left → 0 < k) ∧
      examined (logAfter (eachSection f body left i curl log)) =
        examined log ++ headersAfter curl k ∧
      ∀ log', eachSection f body left i curl log = .ok () log' → k = left := by
  induction left generalizing i curl log with
  | zero =>
      have hread := Quiet.bind (Quiet.readWord f 2 60) (fun _ => Quiet.pure ()) log
      exact ⟨0, Nat.le_refl 0, id, hread.trans (List.append_nil _).symm, fun _ _ => rfl⟩
  | succ left ih =>
      obtain ⟨log₁, hread, hlog₁⟩ : ∃ log₁, readWord f 2 60 log = .ok (wordAt f 2 60) log₁ ∧
          examined log₁ = examined log := ⟨_, rfl, Quiet.readWord f 2 60 log⟩
      obtain ⟨log₂, hlog₂⟩ : ∃ log₂, log₂ = log₁ ++ [.examine (curl + shdrSize)] := ⟨_, rfl⟩
      have hexamined : examined log₂ = examined log ++ [curl + shdrSize] := by
        rw [hlog₂, examined_append, hlog₁]
        rfl
      have hrun : eachSection f body (left + 1) i curl log =
          (body i (curl + shdrSize) >>= fun _ => eachSection f body left (i + 1)
            (curl + shdrSize)) log₂ := by
        rw [eachSection, eShnum, bind_run hread, hlog₂]
        rfl
      rw [hrun]
      have hquiet := hbody i (curl + shdrSize) log₂
      cases hbodyRun : body i (curl + shdrSize) log₂ with
      | error e log₃ =>
          rw [hbodyRun] at hquiet
          rw [bind_error hbodyRun]
          refine ⟨1, Nat.succ_le_succ (Nat.zero_le left), fun _ => Nat.one_pos, ?_, ?_⟩
          · exact hquiet.trans (hexamined.trans (by rw [headersAfter_succ]; rfl))
          · intro log' hok
            cases hok
      | ok u log₃ =>
          rw [hbodyRun] at hquiet
          rw [bind_run hbodyRun]
          obtain ⟨k, hk, -, hheaders, hfinished⟩ := ih (i + 1) (curl + shdrSize) log₃
          refine ⟨k + 1, Nat.succ_le_succ hk, fun _ => Nat.succ_pos k, ?_, ?_⟩
          · rw [hheaders, show examined log₃ = _ from hquiet, hexamined, headersAfter_succ,
              List.append_assoc]
            rfl
          · exact fun log' hok => congrArg (· + 1) (hfinished log' hok)

/-! ## Images -/

/-- The section header table. -/
def tableOf (f : ElfFile) : UInt64 := wordAt f 8 40

/-- The number of section headers. -/
def sectionCount (f : ElfFile) : Nat := (wordAt f 2 60).toNat

/-- The section header with an index. -/
def headerAt (f : ElfFile) (i : Nat) : UInt64 := tableOf f + shdrSize * .ofNat i

/-- The string table. -/
def stringsOf (f : ElfFile) : UInt64 :=
  wordAt f 8 (tableOf f + shdrSize * wordAt f 2 62 + 24)

/-- The name of the section with an index. -/
def nameAt (f : ElfFile) (i : Nat) : UInt64 :=
  stringsOf f + (wordAt f 4 (headerAt f i)).toUInt32.toUInt64

/-- The characters are at an offset. -/
def StartsWith (f : ElfFile) : UInt64 → List UInt8 → Prop
  | _, [] => True
  | o, c :: rest => f.bytes o = c ∧ StartsWith f (o + 1) rest

/-- An image that passes the check, with all of it inside the file. -/
structure WellFormed (f : ElfFile) : Prop where
  magic : StartsWith f 0 elfMag
  header : 64 ≤ f.size
  table : (tableOf f).toNat + 64 * sectionCount f ≤ f.size.toNat
  strings : (wordAt f 2 62).toNat < sectionCount f
  contents : ∀ i < sectionCount f,
    (wordAt f 8 (headerAt f i + 24)).toNat + (wordAt f 8 (headerAt f i + 32)).toNat ≤ f.size.toNat
  names : ∀ i < sectionCount f, ∃ n,
    (stringsOf f).toNat + (wordAt f 4 (headerAt f i)).toNat + n < f.size.toNat ∧
      f.bytes (nameAt f i + .ofNat n) = 0

/-- Only bytes of the file are read, and the headers of the table are taken up in their order,
all of them unless a process takes over. -/
structure ReadsTable (f : ElfFile) (result : EStateM.Result Unit (List Access) Unit) : Prop where
  inside : ∀ o, .read o ∈ logAfter result → o < f.size
  inOrder : examined (logAfter result) <+: (List.range (sectionCount f)).map (headerAt f)
  all : ∀ log, result = .ok () log → examined log = (List.range (sectionCount f)).map (headerAt f)

/-- The check finds characters that are there. -/
theorem hasMagic_run {chars : List UInt8} {o : UInt64} (hstarts : StartsWith f o chars)
    (log : List Access) : ∃ log', hasMagic f o chars log = .ok true log' := by
  induction chars generalizing o log with
  | nil => exact ⟨log, rfl⟩
  | cons c chars ih =>
      obtain ⟨log', hrest⟩ := ih hstarts.2 (log ++ [.read o])
      refine ⟨log', ?_⟩
      have hread : readByte f o log = .ok (f.bytes o) (log ++ [.read o]) := rfl
      rw [hasMagic, bind_run hread, if_pos hstarts.1]
      exact hrest

/-- An image that passes the check comes to the loop. -/
theorem throughSections_run {firstLine : Reader Unit} {body : UInt64 → Nat → UInt64 → Reader Unit}
    (hmagic : StartsWith f 0 elfMag) (hquiet : Quiet firstLine)
    (hline : ∀ log, ∃ log', firstLine log = .ok () log') :
    ∃ log, examined log = [] ∧ throughSections f firstLine body [] =
      eachSection f (body (stringsOf f)) (sectionCount f) 0 (tableOf f) log := by
  obtain ⟨log₁, hchecked⟩ := hasMagic_run hmagic []
  have hlog₁ := Quiet.hasMagic f 0 elfMag []
  rw [hchecked] at hlog₁
  obtain ⟨log₂, htable, hlog₂⟩ : ∃ log₂, eShoff f log₁ = .ok (tableOf f) log₂ ∧
      examined log₂ = examined log₁ := ⟨_, rfl, Quiet.readWord f 8 40 log₁⟩
  obtain ⟨log₃, hstrings, hlog₃⟩ : ∃ log₃, stringTable f (tableOf f) log₂ =
      .ok (stringsOf f) log₃ ∧ examined log₃ = examined log₂ :=
    ⟨_, rfl, Quiet.stringTable f (tableOf f) log₂⟩
  obtain ⟨log₄, hfirst⟩ := hline log₃
  have hlog₄ := hquiet log₃
  rw [hfirst] at hlog₄
  refine ⟨log₄, hlog₄.trans (hlog₃.trans (hlog₂.trans hlog₁)), ?_⟩
  rw [throughSections, bind_run hchecked, if_pos rfl, bind_run htable, bind_run hstrings,
    bind_run hfirst]
  rfl

theorem headersAfter_tableOf (f : ElfFile) (k : Nat) :
    headersAfter (tableOf f) k = (List.range k).map fun i => headerAt f (i + 1) := rfl

theorem headerAt_one_ne (f : ElfFile) : headerAt f 1 ≠ headerAt f 0 := by
  intro heq
  exact absurd ((UInt64.add_right_inj (tableOf f)).mp heq) (by decide)

/-- What both commands have in common: the headers taken up are the second one and so on, up to
what is after the table. -/
theorem examined_throughSections {firstLine : Reader Unit}
    {body : UInt64 → Nat → UInt64 → Reader Unit} (hf : WellFormed f) (hquiet : Quiet firstLine)
    (hline : ∀ log, ∃ log', firstLine log = .ok () log')
    (hbody : ∀ strings i s, Quiet (body strings i s)) :
    ∃ k, 0 < k ∧ k ≤ sectionCount f ∧
      examined (logAfter (throughSections f firstLine body [])) =
        (List.range k).map (fun i => headerAt f (i + 1)) ∧
      ∀ log, throughSections f firstLine body [] = .ok () log → k = sectionCount f := by
  obtain ⟨log, hlog, hrun⟩ := @throughSections_run f _ body hf.magic hquiet hline
  obtain ⟨k, hk, hpos, hheaders, hfinished⟩ := examined_eachSection (hbody (stringsOf f))
    (sectionCount f) 0 (tableOf f) log
  rw [hrun]
  refine ⟨k, hpos (Nat.lt_of_le_of_lt (Nat.zero_le _) hf.strings), hk, ?_, hfinished⟩
  rw [hheaders, hlog, List.nil_append, headersAfter_tableOf]

/-- A list of headers that begins with the second one is not a part of the table from its start. -/
theorem not_prefix_table {k n : Nat} (hpos : 0 < k) :
    ¬(List.range k).map (fun i => headerAt f (i + 1)) <+: (List.range n).map (headerAt f) := by
  intro hbelow
  obtain ⟨k, rfl⟩ := Nat.exists_eq_succ_of_ne_zero (Nat.ne_of_gt hpos)
  rw [List.range_succ_eq_map, List.map_cons] at hbelow
  cases n with
  | zero => exact absurd (List.prefix_nil.mp hbelow) (by simp)
  | succ n =>
      rw [List.range_succ_eq_map, List.map_cons, List.cons_prefix_cons] at hbelow
      exact headerAt_one_ne f hbelow.1

theorem not_readsTable {firstLine : Reader Unit} {body : UInt64 → Nat → UInt64 → Reader Unit}
    (hf : WellFormed f) (hquiet : Quiet firstLine)
    (hline : ∀ log, ∃ log', firstLine log = .ok () log')
    (hbody : ∀ strings i s, Quiet (body strings i s)) :
    ¬ReadsTable f (throughSections f firstLine body []) := by
  intro hreads
  obtain ⟨k, hpos, -, hheaders, -⟩ := examined_throughSections hf hquiet hline hbody
  have hbelow := hreads.inOrder
  rw [hheaders] at hbelow
  exact not_prefix_table hpos hbelow

/-- There is no image for which the headers that are taken up are those of the table. -/
theorem elf_misses_table (hf : WellFormed f) (back : Nat → Bool) :
    ¬ReadsTable f (runelf f back []) ∧ ¬ReadsTable f (dumpelf f []) := by
  constructor
  · exact not_readsTable hf (.pure ()) (fun log => ⟨log, rfl⟩) (.runSection f back)
  · apply not_readsTable hf _ _ (.dumpSection f)
    · exact .bind (.readWord f 2 62) fun _ => .pure ()
    · exact fun log => ⟨_, rfl⟩

/-- An image with the header of no section, that of the section `.shstrtab`, and this section. -/
def namesOnly : ElfFile where
  bytes o :=
    (List.lookup o.toNat
      [(0, 0x7F), (1, 0x45), (2, 0x4C), (3, 0x46), (40, 80), (60, 2), (62, 1),
        (65, 0x2E), (66, 0x73), (67, 0x68), (68, 0x73), (69, 0x74), (70, 0x72), (71, 0x74),
        (72, 0x61), (73, 0x62), (144, 1), (148, 3), (168, 64), (176, 11)]).getD 0
  size := 208

theorem namesOnly_wellFormed : WellFormed namesOnly := by
  have hcount : sectionCount namesOnly = 2 := by decide
  refine ⟨?_, by decide, by decide, by decide, fun i hi => ?_, fun i hi => ?_⟩
  · exact ⟨rfl, rfl, rfl, rfl, trivial⟩
  all_goals
    rw [hcount] at hi
    obtain rfl | rfl : i = 0 ∨ i = 1 := by omega
  · decide
  · decide
  · exact ⟨0, by decide, by decide⟩
  · exact ⟨9, by decide, by decide⟩

theorem elf_misses_table_namesOnly :
    ¬ReadsTable namesOnly (runelf namesOnly (fun _ => true) []) ∧
      ¬ReadsTable namesOnly (dumpelf namesOnly []) :=
  elf_misses_table namesOnly_wellFormed fun _ => true

/-- The first header is not looked at, and the flags of a third one are read. -/
theorem namesOnly_log :
    examined (logAfter (runelf namesOnly (fun _ => true) [])) = [144, 208] ∧
      Access.read 216 ∈ logAfter (runelf namesOnly (fun _ => true) []) ∧
      examined (logAfter (dumpelf namesOnly [])) = [144, 208] ∧
      Access.read 216 ∈ logAfter (dumpelf namesOnly []) := by
  decide

/-- They are behind the file. -/
theorem namesOnly_reads_outside : WellFormed namesOnly ∧
    ¬ReadsTable namesOnly (runelf namesOnly (fun _ => true) []) ∧
      ¬ReadsTable namesOnly (dumpelf namesOnly []) := by
  obtain ⟨-, hrun, -, hdump⟩ := namesOnly_log
  refine ⟨namesOnly_wellFormed, fun hreads => ?_, fun hreads => ?_⟩
  · exact absurd (hreads.inside 216 hrun) (by decide)
  · exact absurd (hreads.inside 216 hdump) (by decide)

end GeckoOS.Proc
