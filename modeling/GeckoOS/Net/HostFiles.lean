/-
# Files of the host

`cmd_listhostfiles`, `cmd_hostfilesize` and `cmd_pullhostfile` ask a server on the host for its
files and read its answers, which are texts with numbers in them.  An answer is copied into a
`udp_reply_t` on the stack, over what was there, and its end is marked by nothing but its length.

The commands read it through pointers.  What a pointer can go on to read is the list of bytes
from it on: the rest of the payload, what it leaves of the array and what lies behind the
array, up to the end of the memory.  A loop that comes to that end is a page fault, and returns
nothing.
-/

import GeckoOS.Gk.Rendering

namespace GeckoOS.Net

/-! ## The reply -/

/-- The payload of a captured reply, of at most `UDP_REPLY_PAYLOAD_MAX` bytes. -/
abbrev ReplyPayload := { payload : List UInt8 // payload.length ≤ 1472 }

/-- A `udp_reply_t`, as far as the commands read it. -/
structure ReplySlot where
  /-- What can be read from `payload` on: the array and what lies behind it. -/
  memory : List UInt8
  array_le : 1472 ≤ memory.length
  payloadLen : Nat

/-- `udp_request_try_reply` copies a payload into the structure. -/
def ReplySlot.receive (slot : ReplySlot) (reply : ReplyPayload) : ReplySlot where
  memory := reply.val ++ slot.memory.drop reply.val.length
  array_le := by
    have harray := slot.array_le
    have hreply := reply.property
    rw [List.length_append, List.length_drop]
    omega
  payloadLen := reply.val.length

/-! ## Reading text -/

/-- `starts_with`, whether it finds the prefix. -/
def startsWith : List UInt8 → List UInt8 → Option Bool
  | _, [] => some true
  | [], _ :: _ => none
  | c :: str, d :: lead => if c ≠ d then some false else startsWith str lead

/-- `while (*p == ' ') p++`. -/
def skipSpaces : List UInt8 → Option (List UInt8)
  | [] => none
  | c :: p => if c = 32 then skipSpaces p else some (c :: p)

/-- `pull_parse_dec`, with the value so far; the second component is where it leaves the
pointer. -/
def pullParseDec : UInt32 → List UInt8 → Option (UInt32 × List UInt8)
  | _, [] => none
  | v, c :: s =>
      if Gk.isDigit c then pullParseDec (v * 10 + (c - 48).toUInt32) s else some (v, c :: s)

/-- Spaces are skipped and a number is read. -/
def nextNumber (p : List UInt8) : Option (UInt32 × List UInt8) := do
  let p ← skipSpaces p
  pullParseDec 0 p

/-! ## The commands -/

/-- What `cmd_hostfilesize` reads from its reply: the size, or that there is no such file. -/
def hostFileSize (slot : ReplySlot) : Option (Option UInt32) := do
  if ← startsWith slot.memory (Gk.ascii "OK") then
    let (size, _) ← nextNumber (slot.memory.drop 2)
    return some size
  else return none

/-- What `cmd_listhostfiles` reads from one line, from `pos` to `stop`: a name and a size. -/
def listEntry (slot : ReplySlot) (pos stop : Nat) : Option (Option (List UInt8 × UInt32)) := do
  let line := (slot.memory.drop pos).take (stop - pos)
  let sp := line.idxOf 32
  if sp < line.length then
    let (size, _) ← pullParseDec 0 (slot.memory.drop (pos + sp + 1))
    return some (line.take sp, size)
  else return none

/-- The loop of `cmd_listhostfiles` over the lines, with so many of the 64 to go. -/
def listLines (slot : ReplySlot) : Nat → Nat → Nat → Option (List (List UInt8 × UInt32))
  | 0, _, _ => some []
  | left + 1, lines, pos =>
      if pos < slot.payloadLen then do
        let stop := pos + ((slot.memory.take slot.payloadLen).drop pos).idxOf 10
        let entry ← if 0 < lines ∧ pos < stop then listEntry slot pos stop else some none
        let entries ← listLines slot left (lines + 1) (stop + 1)
        return entry.toList ++ entries
      else some []

/-- What `cmd_listhostfiles` prints: the names with their sizes, or that it did not expect the
reply. -/
def listHostFiles (slot : ReplySlot) : Option (Option (List (List UInt8 × UInt32))) := do
  if ← startsWith slot.memory (Gk.ascii "OK") then
    let entries ← listLines slot 64 0 0
    return some entries
  else return none

/-- The three numbers in the reply to `GET`. -/
structure GetNumbers where
  off : UInt32
  total : UInt32
  len : UInt32
  deriving DecidableEq

/-- The numbers that `cmd_pullhostfile` reads, or that the server reports an error. -/
def getNumbers (slot : ReplySlot) : Option (Option GetNumbers) := do
  if ← startsWith slot.memory (Gk.ascii "OK") then
    let (off, p) ← nextNumber (slot.memory.drop 2)
    let (total, p) ← nextNumber p
    let (len, _) ← nextNumber p
    return some ⟨off, total, len⟩
  else return none

/-- `data_start`: behind the first newline, or behind the payload and one byte more. -/
def dataStart (slot : ReplySlot) : Nat := (slot.memory.take slot.payloadLen).idxOf 10 + 1

/-- `avail`. -/
def available (slot : ReplySlot) (len : UInt32) : UInt32 :=
  if (slot.payloadLen : Int) < (Int32.ofNat (dataStart slot) + len.toInt32).toInt then
    UInt32.ofInt (slot.payloadLen - dataStart slot)
  else len

/-- The loop that copies from the payload to `pull_stage`: the bytes it copies, and whether it
gets to its end. -/
def stagedBytes (slot : ReplySlot) : Nat → UInt32 → List UInt8 × Bool
  | 0, _ => ([], true)
  | left + 1, source =>
      match slot.memory[source.toNat]? with
      | none => ([], false)
      | some b =>
          let (bytes, complete) := stagedBytes slot left (source + 1)
          (b :: bytes, complete)

/-- What `cmd_pullhostfile` does about a reply to `GET`. -/
inductive GetDecision
  | mismatch
  /-- There is nothing more to get. -/
  | leave
  /-- It stages bytes, or begins to. -/
  | stage (bytes : List UInt8) (complete : Bool)
  deriving DecidableEq

/-- The decision about a reply with these numbers, in a pull that has come to `off`. -/
def getDecision (slot : ReplySlot) (off : UInt32) (numbers : GetNumbers) : GetDecision :=
  if numbers.off ≠ off then .mismatch
  else
    let avail := available slot numbers.len
    if avail = 0 then .leave
    else
      let (bytes, complete) := stagedBytes slot avail.toNat (UInt32.ofNat (dataStart slot))
      .stage bytes complete

end GeckoOS.Net
