/-
# Pulling a file

`cmd_pullhostfile` asks for the size of a file and then for one chunk after the other, until it
has as many bytes as the size says.  A chunk is copied into `pull_stage`, and when that is full
it is appended to the file on the disk.

Whether it is full is tested behind the copy, so a chunk that does not end where the buffer ends
is copied beyond it.  What the server says of a chunk's length is limited to what the payload
holds, but the limit is computed with signed numbers, and takes the data to begin behind the
payload if there is no newline.  The theorem of this module says at which step of which run a
byte is copied from behind the payload or to behind the buffer.
-/

import GeckoOS.Math.ByteMap
import GeckoOS.Math.Runs
import GeckoOS.Math.SignedArith
import GeckoOS.Net.HostFiles

namespace GeckoOS.Net

open GeckoOS.Math ByteMap

/-! ## The command -/

/-- Where `cmd_pullhostfile` is: it waits for the size, or for a chunk, or has returned. -/
inductive PullPhase
  | size
  | chunk
  | ended
  deriving DecidableEq

/-- The variables of `cmd_pullhostfile` and what it does to the file. -/
structure Pull where
  phase : PullPhase
  reply : ReplySlot
  total : UInt32
  off : UInt32
  stageOff : UInt32
  /-- `pull_stage`. -/
  stage : ByteMap
  /-- The contents passed to `fat32_append_file`. -/
  appended : List (List UInt8)

/-- What comes next: a reply, or none in time, and whether the call of the file system that is
made then, if any, succeeds. -/
structure PullEvent where
  reply : Option ReplyPayload
  stored : Bool

/-- A loop that copies `count` bytes. -/
structure Copying where
  dest : UInt32
  source : UInt32
  count : UInt32
  deriving DecidableEq

/-- Every byte is copied to a place in `pull_stage` and from a place in the payload. -/
def Copying.Inside (copying : Copying) (payloadLen : Nat) : Prop :=
  ∀ k < copying.count.toNat, (copying.dest + UInt32.ofNat k).toNat < 16384 ∧
    (copying.source + UInt32.ofNat k).toNat < payloadLen

namespace Pull

/-- Behind the loop, what is left is appended. -/
def finish (s : Pull) : Pull :=
  if 0 < s.stageOff then
    { s with phase := .ended, appended := s.appended ++ [s.stage.slice 0 s.stageOff.toNat] }
  else { s with phase := .ended }

/-- `while (off < total)`. -/
def enter (s : Pull) : Pull := if s.off < s.total then { s with phase := .chunk } else s.finish

/-- A full stage is appended. -/
def flush (s : Pull) (stored : Bool) : Pull :=
  let s := { s with appended := s.appended ++ [s.stage.slice 0 s.stageOff.toNat] }
  if stored then { s with stageOff := 0 } else { s with phase := .ended }

/-- The reply to the request for the size. -/
def sizeStep (s : Pull) (stored : Bool) : Pull :=
  match hostFileSize s.reply with
  | some (some total) =>
      if stored then { s with total := total, off := 0, stageOff := 0 }.enter
      else { s with total := total, phase := .ended }
  | _ => { s with phase := .ended }

/-- The bytes have been copied: the stage is flushed if it is full, and the loop goes on. -/
def advance (s : Pull) (avail : UInt32) (stored : Bool) : Pull :=
  let s := { s with stageOff := s.stageOff + avail }
  let s := if 16384 ≤ s.stageOff then s.flush stored else s
  if s.phase = .ended then s else { s with off := s.off + avail }.enter

/-- The reply to a request for a chunk. -/
def chunkStep (s : Pull) (stored : Bool) : Pull :=
  match getNumbers s.reply with
  | some (some numbers) =>
      match getDecision s.reply s.off numbers with
      | .mismatch => { s with phase := .ended }
      | .leave => s.finish
      | .stage bytes complete =>
          let s := { s with stage := s.stage.blit s.stageOff.toNat (ofList bytes) bytes.length }
          if complete then s.advance (available s.reply numbers.len) stored
          else { s with phase := .ended }
  | _ => { s with phase := .ended }

/-- One reply is waited for and dealt with. -/
def step (s : Pull) (event : PullEvent) : Pull :=
  match s.phase, event.reply with
  | .ended, _ => s
  | _, none => { s with phase := .ended }
  | .size, some reply => { s with reply := s.reply.receive reply }.sizeStep event.stored
  | .chunk, some reply => { s with reply := s.reply.receive reply }.chunkStep event.stored

/-- The loop that copies the bytes of the chunk, if the step comes to it. -/
def copying (s : Pull) (event : PullEvent) : Option Copying := do
  if s.phase = .chunk then
    let slot := s.reply.receive (← event.reply)
    let numbers ← (← getNumbers slot)
    if numbers.off = s.off then
      some ⟨s.stageOff, UInt32.ofNat (dataStart slot), available slot numbers.len⟩
    else none
  else none

/-- Every byte copied at this step is copied inside the buffers. -/
def CopiesInside (s : Pull) (event : PullEvent) : Prop :=
  ∀ reply copying, event.reply = some reply → s.copying event = some copying →
    copying.Inside reply.val.length

/-- A chunk that the step would copy has a newline behind its header, and a length that is no
more than a signed number can hold; and as much of it as the payload holds fits in what is left
of the stage. -/
def ChunkFits (s : Pull) (event : PullEvent) : Prop :=
  ∀ reply numbers, event.reply = some reply → s.phase = .chunk →
    getNumbers (s.reply.receive reply) = some (some numbers) → numbers.off = s.off →
      10 ∈ reply.val ∧ reply.val.idxOf 10 + 1 + numbers.len.toNat < 2 ^ 31 ∧
        s.stageOff.toNat + min numbers.len.toNat (reply.val.length - (reply.val.idxOf 10 + 1)) ≤
          16384

/-- The command has sent its first request.  Nothing that it is going to read has been written
but what was on the stack and in the stage. -/
def start (reply : ReplySlot) (stage : ByteMap) : Pull where
  phase := .size
  reply := reply
  total := 0
  off := 0
  stageOff := 0
  stage := stage
  appended := []

end Pull

/-! ## One chunk -/

section Chunk

variable {slot : ReplySlot} {len stageOff : UInt32}

/-- The signed sum that is compared with the length of the payload. -/
theorem toInt_dataStart_add (hstart : dataStart slot ≤ 1473) :
    (Int32.ofNat (dataStart slot) + len.toInt32).toInt =
      ((dataStart slot + len.toNat : Nat) : Int).bmod (2 ^ 32) := by
  rw [Int32.toInt_add, toInt_toInt32, Int32.toInt_ofNat_of_lt (by omega), Int.add_bmod_bmod,
    Int.natCast_add]

/-- With a newline and a length that is not too large, the clamp works. -/
theorem available_of_fits (hpayload : slot.payloadLen ≤ 1472)
    (hnewline : dataStart slot ≤ slot.payloadLen) (hshort : dataStart slot + len.toNat < 2 ^ 31) :
    (available slot len).toNat = min len.toNat (slot.payloadLen - dataStart slot) := by
  rw [available, toInt_dataStart_add (by omega), Int.bmod_eq_of_le (by omega) (by omega)]
  split_ifs with hover
  · rw [toNat_ofInt]
    omega
  · omega

/-- Without, far more is copied than the stage holds. -/
theorem available_of_not_fits (hpayload : slot.payloadLen ≤ 1472)
    (hstart : dataStart slot ≤ slot.payloadLen + 1)
    (hwrong : ¬ (dataStart slot ≤ slot.payloadLen ∧ dataStart slot + len.toNat < 2 ^ 31)) :
    16384 < (available slot len).toNat := by
  have hlen := len.toNat_lt
  rw [available, toInt_dataStart_add (by omega), Int.bmod_def]
  split_ifs with hhalf hover hover
  · rw [toNat_ofInt]
    omega
  · omega
  · rw [toNat_ofInt]
    omega
  · omega

/-- A chunk is copied inside the buffers exactly if it fits. -/
theorem copying_inside_iff (hpayload : slot.payloadLen ≤ 1472)
    (hstart : dataStart slot ≤ slot.payloadLen + 1) (hstage : stageOff.toNat < 16384) :
    Copying.Inside ⟨stageOff, UInt32.ofNat (dataStart slot), available slot len⟩ slot.payloadLen ↔
      dataStart slot ≤ slot.payloadLen ∧ dataStart slot + len.toNat < 2 ^ 31 ∧
        stageOff.toNat + min len.toNat (slot.payloadLen - dataStart slot) ≤ 16384 := by
  have hsize : UInt32.size = 2 ^ 32 := rfl
  have hplus : ∀ (a : UInt32) (k : Nat), a.toNat + k < 2 ^ 32 →
      (a + UInt32.ofNat k).toNat = a.toNat + k := by
    intro a k hk
    rw [UInt32.toNat_add, UInt32.toNat_ofNat_of_lt' (by omega), Nat.mod_eq_of_lt hk]
  have hsource : (UInt32.ofNat (dataStart slot)).toNat = dataStart slot :=
    UInt32.toNat_ofNat_of_lt' (by omega)
  rw [← and_assoc]
  by_cases hgood : dataStart slot ≤ slot.payloadLen ∧ dataStart slot + len.toNat < 2 ^ 31
  · rw [and_iff_right hgood, ← available_of_fits hpayload hgood.1 hgood.2]
    have havail := available_of_fits hpayload hgood.1 hgood.2
    constructor
    · intro hinside
      by_contra hover
      have hk : 16384 - stageOff.toNat < (available slot len).toNat := by omega
      have hlast : (stageOff + UInt32.ofNat (16384 - stageOff.toNat)).toNat < 16384 :=
        (hinside _ hk).1
      rw [hplus _ _ (by omega)] at hlast
      omega
    · intro hfits k hk
      have hk' : k < (available slot len).toNat := hk
      change (stageOff + UInt32.ofNat k).toNat < 16384 ∧
        (UInt32.ofNat (dataStart slot) + UInt32.ofNat k).toNat < slot.payloadLen
      rw [hplus _ _ (by omega), hplus _ _ (by omega), hsource]
      omega
  · rw [iff_false_right fun hboth => hgood hboth.1]
    intro hinside
    have hmany := available_of_not_fits hpayload hstart hgood
    have hlast : (stageOff + UInt32.ofNat 16384).toNat < 16384 := (hinside 16384 hmany).1
    rw [hplus _ _ (by omega)] at hlast
    omega

end Chunk

/-! ## Runs -/

namespace Pull

/-- While chunks are being got, the stage is not full. -/
def NotFull (s : Pull) : Prop := s.phase = .chunk → s.stageOff.toNat < 16384

variable {s : Pull} {event : PullEvent}

theorem notFull_ended (hended : s.phase = .ended) : s.NotFull := by
  intro hphase
  rw [hended] at hphase
  cases hphase

theorem notFull_finish (s : Pull) : s.finish.NotFull := by
  unfold finish
  split_ifs <;> exact notFull_ended rfl

theorem notFull_enter (hroom : s.stageOff.toNat < 16384) : s.enter.NotFull := by
  unfold enter
  split_ifs
  · exact fun _ => hroom
  · exact notFull_finish s

theorem notFull_advance (s : Pull) (avail : UInt32) (stored : Bool) :
    (s.advance avail stored).NotFull := by
  unfold advance
  dsimp only
  by_cases hfull : 16384 ≤ s.stageOff + avail
  · rw [if_pos hfull]
    cases stored with
    | false => exact notFull_ended rfl
    | true =>
        split_ifs with hended
        · exact notFull_ended hended
        · exact notFull_enter (show (0 : UInt32).toNat < 16384 by decide)
  · rw [if_neg hfull]
    have hroom : (s.stageOff + avail).toNat < 16384 := UInt32.not_le.mp hfull
    split_ifs with hended
    · exact notFull_ended hended
    · exact notFull_enter hroom

theorem notFull_sizeStep (s : Pull) (stored : Bool) : (s.sizeStep stored).NotFull := by
  unfold sizeStep
  cases hostFileSize s.reply with
  | none => exact notFull_ended rfl
  | some size =>
      cases size with
      | none => exact notFull_ended rfl
      | some total =>
          cases stored with
          | false => exact notFull_ended rfl
          | true => exact notFull_enter (show (0 : UInt32).toNat < 16384 by decide)

theorem notFull_chunkStep (s : Pull) (stored : Bool) : (s.chunkStep stored).NotFull := by
  unfold chunkStep
  cases getNumbers s.reply with
  | none => exact notFull_ended rfl
  | some answer =>
      cases answer with
      | none => exact notFull_ended rfl
      | some numbers =>
          dsimp only
          cases getDecision s.reply s.off numbers with
          | mismatch => exact notFull_ended rfl
          | leave => exact notFull_finish s
          | stage bytes complete =>
              cases complete with
              | false => exact notFull_ended rfl
              | true => exact notFull_advance _ _ _

theorem NotFull.step (hroom : s.NotFull) (event : PullEvent) : (s.step event).NotFull := by
  unfold Pull.step
  cases hphase : s.phase with
  | ended => exact hroom
  | size =>
      cases event.reply with
      | none => exact notFull_ended rfl
      | some reply => exact notFull_sizeStep _ _
  | chunk =>
      cases event.reply with
      | none => exact notFull_ended rfl
      | some reply => exact notFull_chunkStep _ _

/-- The payload of a reply that has been received. -/
theorem take_receive (slot : ReplySlot) (reply : ReplyPayload) :
    (slot.receive reply).memory.take (slot.receive reply).payloadLen = reply.val :=
  List.take_left

theorem dataStart_receive (slot : ReplySlot) (reply : ReplyPayload) :
    dataStart (slot.receive reply) = reply.val.idxOf 10 + 1 := by
  rw [dataStart, take_receive]

/-- A step copies inside the buffers exactly if its chunk fits. -/
theorem copiesInside_iff (hroom : s.NotFull) : s.CopiesInside event ↔ s.ChunkFits event := by
  have hchunk : ∀ (reply : ReplyPayload) (numbers : GetNumbers), s.phase = .chunk →
      (Copying.Inside ⟨s.stageOff, UInt32.ofNat (dataStart (s.reply.receive reply)),
          available (s.reply.receive reply) numbers.len⟩ reply.val.length ↔
        10 ∈ reply.val ∧ reply.val.idxOf 10 + 1 + numbers.len.toNat < 2 ^ 31 ∧
          s.stageOff.toNat + min numbers.len.toNat (reply.val.length - (reply.val.idxOf 10 + 1)) ≤
            16384) := by
    intro reply numbers hphase
    have hstart := dataStart_receive s.reply reply
    have hlength := List.idxOf_le_length (a := 10) (l := reply.val)
    have hinside := @copying_inside_iff (s.reply.receive reply) numbers.len s.stageOff
      reply.property (by rw [hstart]; exact Nat.succ_le_succ hlength) (hroom hphase)
    rw [hstart] at hinside
    rw [hstart, ← List.idxOf_lt_length_iff]
    exact hinside
  constructor
  · intro hcopies reply numbers hreply hphase hnumbers hoff
    apply (hchunk reply numbers hphase).mp
    apply hcopies reply _ hreply
    rw [copying, if_pos hphase, hreply]
    simp only [Option.bind_eq_bind, Option.bind_some, hnumbers]
    exact if_pos hoff
  · intro hfits reply copying hreply hcopying
    rw [Pull.copying] at hcopying
    split_ifs at hcopying with hphase
    rw [hreply] at hcopying
    simp only [Option.bind_eq_bind, Option.bind_some] at hcopying
    cases hnumbers : getNumbers (s.reply.receive reply) with
    | none =>
        rw [hnumbers] at hcopying
        cases hcopying
    | some answer =>
        rw [hnumbers] at hcopying
        cases answer with
        | none => cases hcopying
        | some numbers =>
            simp only [Option.bind_some] at hcopying
            split_ifs at hcopying with hoff
            rw [← Option.some.inj hcopying]
            exact (hchunk reply numbers hphase).mpr
              (hfits reply numbers hreply hphase hnumbers hoff)

end Pull

/-- In a run of `cmd_pullhostfile` every byte is copied inside the buffers exactly as long as
every chunk fits. -/
theorem pull_copies_inside_iff (reply : ReplySlot) (stage : ByteMap) (events : List PullEvent) :
    AtEveryStep Pull.step Pull.CopiesInside (Pull.start reply stage) events ↔
      AtEveryStep Pull.step Pull.ChunkFits (Pull.start reply stage) events := by
  have hinv : (Pull.start reply stage).NotFull := fun hphase => by cases hphase
  exact atEveryStep_iff (fun s event hroom => Pull.copiesInside_iff hroom)
    (fun s event hroom _ => hroom.step event) hinv

/-- A reply structure with zeros in it and behind it. -/
def blankSlot : ReplySlot := ⟨List.replicate 1472 0, by rw [List.length_replicate], 0⟩

/-- The size is 5, and the chunk is announced as empty and has no newline behind its header. -/
def endlessChunk : List PullEvent :=
  [⟨some ⟨Gk.ascii "OK 5", by decide⟩, true⟩, ⟨some ⟨Gk.ascii "OK 0 5 0", by decide⟩, true⟩]

/-- The chunk is copied from behind the payload. -/
theorem pull_copies_outside :
    ¬ AtEveryStep Pull.step Pull.CopiesInside (Pull.start blankSlot fun _ => 0) endlessChunk := by
  intro hall
  have hinside := hall [endlessChunk.head (by decide)] _ (List.prefix_refl _) _
    ⟨0, 9, 0xFFFFFFFF⟩ rfl (by decide +kernel)
  exact absurd (hinside 0 (by decide)).2 (by decide)

end GeckoOS.Net
