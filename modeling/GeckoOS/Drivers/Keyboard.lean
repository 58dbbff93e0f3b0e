/-
# The PS/2 keyboard

The controller holds one byte and raises IRQ1 for it.  `keyboard_handler` moves the
byte into the mailbox `last_scancode` and sets `kb_ready`; `ps2_kb_wfi` waits for the
flag, takes the code, and for the prefix `0xE0` reads the second byte from the data
port itself.

An interrupt can come between any two steps of the reader.  The mailbox has one slot
and nothing guards it, and the second byte of an extended key raises its own
interrupt, so a run delivers every key only if the handler finds the mailbox empty and
does not run between a prefix and its second byte.  `HandlerMayRun` states this for one
interrupt.
-/

import Mathlib.Logic.Relation
import Mathlib.Data.List.Basic

namespace GeckoOS.Drivers

/-- `LEFT_SHIFT_SC`. -/
abbrev leftShiftSc : UInt8 := 0x2A

/-- `RIGHT_SHIFT_SC`. -/
abbrev rightShiftSc : UInt8 := 0x36

/-- `CAPS_LOCK_SC`. -/
abbrev capsLockSc : UInt8 := 0x3A

/-- The first byte of an extended key. -/
abbrev extendedPrefix : UInt8 := 0xE0

/-- The fields of `KeyState` that `process_keypress` sets. -/
structure KeyState where
  shiftL : Bool
  shiftR : Bool
  capsLock : Bool
  deriving DecidableEq

/-- `ps2_kb_init`. -/
def KeyState.init : KeyState := ⟨false, false, false⟩

/-- `process_keypress`. -/
def processKeypress (keys : KeyState) (sc : UInt8) : KeyState :=
  let released := sc &&& 0x80 ≠ 0
  if sc &&& 0x7F = leftShiftSc then { keys with shiftL := !released }
  else if sc &&& 0x7F = rightShiftSc then { keys with shiftR := !released }
  else if sc &&& 0x7F = capsLockSc then
    if released then keys else { keys with capsLock := !keys.capsLock }
  else keys

/-- What `ps2_kb_wfi` returns for the second byte of an extended key: `KEY_UP`,
`KEY_DOWN`, `KEY_LEFT`, `KEY_RIGHT`, or 0. -/
def extendedKey (ext : UInt8) : UInt8 :=
  if ext &&& 0x80 ≠ 0 then 0
  else if ext = 0x48 then 0x60
  else if ext = 0x50 then 0x61
  else if ext = 0x4B then 0x62
  else if ext = 0x4D then 0x63
  else 0

/-- Where `ps2_kb_wfi` stands. -/
inductive Reader
  /-- The caller has not called it. -/
  | outside
  /-- In the loop that tests `kb_ready`. -/
  | waiting
  /-- The flag was set. -/
  | woken
  /-- The flag has been cleared. -/
  | cleared
  /-- The code has been read from the mailbox. -/
  | loaded (scancode : UInt8)
  /-- A prefix was read; in the loop that tests the status port. -/
  | polling
  /-- The status port showed a byte. -/
  | reading
  deriving DecidableEq

/-- The controller, the mailbox and the reader. -/
structure KbState where
  /-- The byte in the controller's buffer. -/
  buffer : Option UInt8
  /-- What the data port returned last; it returns this again while the buffer is empty. -/
  port : UInt8
  /-- IRQ1 is raised. -/
  irq : Bool
  /-- `kb_ready`. -/
  kbReady : Bool
  /-- `last_scancode`. -/
  lastScancode : UInt8
  /-- `KEYSTATE`. -/
  keys : KeyState
  reader : Reader
  /-- The bytes the controller has delivered. -/
  delivered : List UInt8
  /-- The values `ps2_kb_wfi` has returned. -/
  returned : List UInt8
  deriving DecidableEq

namespace KbState

/-- Before the first byte. -/
def init : KbState := ⟨none, 0, false, false, 0, .init, .outside, [], []⟩

/-- `inb(KEYBOARD_DATA_PORT)`. -/
def inb (s : KbState) : UInt8 := s.buffer.getD s.port

end KbState

/-- Who makes a step. -/
inductive Actor
  | controller
  | handler
  | reader
  deriving DecidableEq

/-- One step of the controller, the interrupt handler, or `ps2_kb_wfi`. -/
inductive KbStep : Actor → KbState → KbState → Prop
  | deliver {s : KbState} (byte : UInt8) (hempty : s.buffer = none) :
      KbStep .controller s { s with
        buffer := some byte
        irq := true
        delivered := s.delivered ++ [byte] }
  /-- `keyboard_handler`. -/
  | handle {s : KbState} (hirq : s.irq = true) :
      KbStep .handler s { s with
        buffer := none
        port := s.inb
        irq := false
        kbReady := true
        lastScancode := s.inb }
  | call {s : KbState} (hreader : s.reader = .outside) :
      KbStep .reader s { s with reader := .waiting }
  /-- `hlt`, as long as the flag is clear. -/
  | halt {s : KbState} (hreader : s.reader = .waiting) (hready : s.kbReady = false) :
      KbStep .reader s s
  | wake {s : KbState} (hreader : s.reader = .waiting) (hready : s.kbReady = true) :
      KbStep .reader s { s with reader := .woken }
  /-- `kb_ready = 0`. -/
  | clear {s : KbState} (hreader : s.reader = .woken) :
      KbStep .reader s { s with kbReady := false, reader := .cleared }
  /-- `scancode = last_scancode`. -/
  | load {s : KbState} (hreader : s.reader = .cleared) :
      KbStep .reader s { s with reader := .loaded s.lastScancode }
  /-- `process_keypress`, and the code is returned. -/
  | finish {s : KbState} {scancode : UInt8} (hreader : s.reader = .loaded scancode)
      (hplain : scancode ≠ extendedPrefix) :
      KbStep .reader s { s with
        keys := processKeypress s.keys scancode
        reader := .outside
        returned := s.returned ++ [scancode] }
  /-- `process_keypress`, and the second byte is awaited. -/
  | extend {s : KbState} (hreader : s.reader = .loaded extendedPrefix) :
      KbStep .reader s { s with keys := processKeypress s.keys extendedPrefix, reader := .polling }
  /-- `pause`, as long as the controller has no byte. -/
  | pause {s : KbState} (hreader : s.reader = .polling) (hempty : s.buffer = none) :
      KbStep .reader s s
  | see {s : KbState} (hreader : s.reader = .polling) (hfull : s.buffer ≠ none) :
      KbStep .reader s { s with reader := .reading }
  /-- The data port is read.  The interrupt of the byte may stay pending or not. -/
  | read {s : KbState} (irq : Bool) (hreader : s.reader = .reading)
      (hirq : irq = true → s.irq = true) :
      KbStep .reader s { s with
        buffer := none
        port := s.inb
        irq := irq
        reader := .outside
        returned := s.returned ++ [extendedKey s.inb] }

/-! ## Keys -/

/-- A key event as the controller sends it. -/
inductive Key
  | plain (code : UInt8)
  /-- A prefix and this second byte. -/
  | extended (ext : UInt8)

namespace Key

/-- The value `ps2_kb_wfi` is to return for it. -/
def event : Key → UInt8
  | plain code => code
  | extended ext => extendedKey ext

/-- What it does to `KEYSTATE`. -/
def press (keys : KeyState) : Key → KeyState
  | plain code => processKeypress keys code
  | extended _ => keys

end Key

/-- The keys a sequence of bytes stands for; a prefix at the end is not one yet. -/
def decode : List UInt8 → List Key
  | [] => []
  | [byte] => if byte = extendedPrefix then [] else [.plain byte]
  | byte :: ext :: rest =>
      if byte = extendedPrefix then .extended ext :: decode rest
      else .plain byte :: decode (ext :: rest)

/-- A sequence of bytes that does not end behind a prefix. -/
inductive Whole : List UInt8 → Prop
  | nil : Whole []
  | plain {byte : UInt8} {rest : List UInt8} (hplain : byte ≠ extendedPrefix) (hrest : Whole rest) :
      Whole (byte :: rest)
  | extended {ext : UInt8} {rest : List UInt8} (hrest : Whole rest) :
      Whole (extendedPrefix :: ext :: rest)

variable {bytes more : List UInt8} {byte ext : UInt8} {s s' : KbState} {actor : Actor}

theorem decode_plain (hplain : byte ≠ extendedPrefix) :
    decode (byte :: bytes) = .plain byte :: decode bytes := by
  cases bytes with
  | nil => simp only [decode, if_neg hplain]
  | cons ext rest => rw [decode, if_neg hplain]

theorem decode_extended :
    decode (extendedPrefix :: ext :: bytes) = .extended ext :: decode bytes := by
  rw [decode, if_pos rfl]

/-- Whole sequences can be decoded one after the other. -/
theorem Whole.decode_append (hwhole : Whole bytes) :
    decode (bytes ++ more) = decode bytes ++ decode more := by
  induction hwhole with
  | nil => rfl
  | plain hplain _ ih =>
      rw [List.cons_append, decode_plain hplain, decode_plain hplain, ih, List.cons_append]
  | extended _ ih =>
      rw [List.cons_append, List.cons_append, decode_extended, decode_extended, ih,
        List.cons_append]

theorem Whole.append (hwhole : Whole bytes) (hmore : Whole more) : Whole (bytes ++ more) := by
  induction hwhole with
  | nil => exact hmore
  | plain hplain _ ih => exact .plain hplain ih
  | extended _ ih => exact .extended ih

namespace KbState

/-! ## In order -/

/-- The codes the reader has taken from the mailbox and not returned an event for. -/
def held (s : KbState) : List UInt8 :=
  match s.reader with
  | .outside | .waiting | .woken => []
  | .cleared => [s.lastScancode]
  | .loaded scancode => [scancode]
  | .polling | .reading => [extendedPrefix]

/-- The code waiting in the mailbox. -/
def mailbox (s : KbState) : List UInt8 := if s.kbReady then [s.lastScancode] else []

/-- The bytes that are under way. -/
def inFlight (s : KbState) : List UInt8 := s.held ++ s.mailbox ++ s.buffer.toList

/-- The events returned are those of all bytes that are no longer under way, each
once and in order, and `KEYSTATE` is what they make of it. -/
def InOrder (s : KbState) : Prop :=
  ∃ taken, s.delivered = taken ++ s.inFlight ∧
    decode s.delivered = decode taken ++ decode s.inFlight ∧
    s.returned = (decode taken).map Key.event ∧ s.keys = (decode taken).foldl Key.press .init

/-- The handler has a byte to read, an empty mailbox to put it in, and does not run
while the reader is between `kb_ready = 0` and the end of its access to the mailbox or
to the second byte. -/
def HandlerMayRun (s : KbState) : Prop :=
  s.buffer ≠ none ∧ s.kbReady = false ∧ match s.reader with
  | .outside | .waiting | .woken => True
  | .loaded scancode => scancode ≠ extendedPrefix
  | .cleared | .polling | .reading => False

/-- Runs in which the handler runs only then. -/
def OrderlyRun : KbState → Prop :=
  Relation.ReflTransGen
    (fun s s' => ∃ actor, KbStep actor s s' ∧ (actor = .handler → s.HandlerMayRun)) init

/-- What the flag and the buffer are like at each point of `ps2_kb_wfi`. -/
def Consistent (s : KbState) : Prop :=
  match s.reader with
  | .outside | .waiting => True
  | .woken => s.kbReady = true
  | .cleared | .polling => s.kbReady = false
  | .loaded scancode => scancode = extendedPrefix → s.kbReady = false
  | .reading => s.kbReady = false ∧ s.buffer ≠ none

/-- No byte is lost, and none is taken twice. -/
structure Tracked (s : KbState) (taken : List UInt8) : Prop where
  delivered : s.delivered = taken ++ s.inFlight
  whole : Whole taken
  returned : s.returned = (decode taken).map Key.event
  keys : s.keys = (decode taken).foldl Key.press .init
  consistent : s.Consistent

variable {taken : List UInt8}

theorem Tracked.inOrder (htracked : Tracked s taken) : s.InOrder := by
  refine ⟨taken, htracked.delivered, ?_, htracked.returned, htracked.keys⟩
  rw [htracked.delivered]
  exact htracked.whole.decode_append

/-- A step that moves no byte out of flight. -/
theorem Tracked.move (htracked : Tracked s taken) (hdelivered : s'.delivered = s.delivered)
    (hflight : s'.inFlight = s.inFlight) (hreturned : s'.returned = s.returned)
    (hkeys : s'.keys = s.keys) (hconsistent : s'.Consistent) : Tracked s' taken where
  delivered := by rw [hdelivered, hflight, htracked.delivered]
  whole := htracked.whole
  returned := by rw [hreturned, htracked.returned]
  keys := by rw [hkeys, htracked.keys]
  consistent := hconsistent

/-- A step that returns the event of the first key in flight. -/
theorem Tracked.answer (htracked : Tracked s taken) {bytes : List UInt8} {key : Key}
    (hdelivered : s'.delivered = s.delivered) (hflight : s.inFlight = bytes ++ s'.inFlight)
    (hbytes : Whole bytes) (hkey : decode bytes = [key])
    (hreturned : s'.returned = s.returned ++ [key.event]) (hkeys : s'.keys = key.press s.keys)
    (hconsistent : s'.Consistent) : Tracked s' (taken ++ bytes) where
  delivered := by rw [hdelivered, htracked.delivered, hflight, List.append_assoc]
  whole := htracked.whole.append hbytes
  returned := by
    rw [hreturned, htracked.returned, htracked.whole.decode_append, hkey, List.map_append]
    rfl
  keys := by
    rw [hkeys, htracked.keys, htracked.whole.decode_append, hkey, List.foldl_append]
    rfl
  consistent := hconsistent

/-! ## Each step keeps track of the bytes -/

theorem init_tracked : Tracked init [] := ⟨rfl, .nil, rfl, rfl, trivial⟩

theorem Tracked.deliver (htracked : Tracked s taken) (hempty : s.buffer = none) :
    Tracked { s with
      buffer := some byte
      irq := true
      delivered := s.delivered ++ [byte] } taken := by
  have hconsistent := htracked.consistent
  refine ⟨?_, htracked.whole, htracked.returned, htracked.keys, ?_⟩
  · change s.delivered ++ [byte] = taken ++ (s.held ++ s.mailbox ++ [byte])
    rw [htracked.delivered, inFlight, hempty, Option.toList_none, List.append_nil,
      List.append_assoc taken]
  · rw [Consistent] at hconsistent ⊢
    cases hreader : s.reader <;> rw [hreader] at hconsistent <;> simp_all

theorem Tracked.handle (htracked : Tracked s taken) (hmay : s.HandlerMayRun) :
    Tracked { s with
      buffer := none
      port := s.inb
      irq := false
      kbReady := true
      lastScancode := s.inb } taken := by
  obtain ⟨hfull, hready, hreader⟩ := hmay
  obtain ⟨byte, hbuffer⟩ := Option.ne_none_iff_exists'.mp hfull
  refine htracked.move rfl ?_ rfl rfl ?_
  · have hinb : s.inb = byte := by rw [inb, hbuffer, Option.getD_some]
    rw [inFlight, inFlight, mailbox, mailbox, hready, hbuffer, hinb, held, held]
    cases hpc : s.reader <;> simp_all
  · rw [Consistent]
    cases hpc : s.reader <;> simp_all

theorem Tracked.wake (htracked : Tracked s taken) (hreader : s.reader = .waiting)
    (hready : s.kbReady = true) : Tracked { s with reader := .woken } taken := by
  refine htracked.move rfl ?_ rfl rfl hready
  rw [inFlight, inFlight, held, held, hreader]
  rfl

theorem Tracked.clear (htracked : Tracked s taken) (hreader : s.reader = .woken) :
    Tracked { s with kbReady := false, reader := .cleared } taken := by
  have hready := htracked.consistent
  rw [Consistent, hreader] at hready
  refine htracked.move rfl ?_ rfl rfl rfl
  rw [inFlight, inFlight, held, held, hreader, mailbox, mailbox, hready]
  rfl

theorem Tracked.load (htracked : Tracked s taken) (hreader : s.reader = .cleared) :
    Tracked { s with reader := .loaded s.lastScancode } taken := by
  have hready := htracked.consistent
  rw [Consistent, hreader] at hready
  refine htracked.move rfl ?_ rfl rfl fun _ => hready
  rw [inFlight, inFlight, held, held, hreader]
  rfl

theorem Tracked.finish (htracked : Tracked s taken) {scancode : UInt8}
    (hreader : s.reader = .loaded scancode) (hplain : scancode ≠ extendedPrefix) :
    Tracked { s with
      keys := processKeypress s.keys scancode
      reader := .outside
      returned := s.returned ++ [scancode] } (taken ++ [scancode]) := by
  refine htracked.answer rfl ?_ (.plain hplain .nil) (decode_plain hplain) rfl rfl trivial
  rw [inFlight, inFlight, held, held, hreader]
  rfl

/-- The prefix is no modifier key. -/
theorem processKeypress_extended (keys : KeyState) :
    processKeypress keys extendedPrefix = keys := by
  rw [processKeypress, if_neg (by decide), if_neg (by decide), if_neg (by decide)]

theorem Tracked.extend (htracked : Tracked s taken) (hreader : s.reader = .loaded extendedPrefix) :
    Tracked { s with
      keys := processKeypress s.keys extendedPrefix
      reader := .polling } taken := by
  have hready := htracked.consistent
  rw [Consistent, hreader] at hready
  refine htracked.move rfl ?_ rfl (processKeypress_extended s.keys) (hready rfl)
  rw [inFlight, inFlight, held, held, hreader]
  rfl

theorem Tracked.see (htracked : Tracked s taken) (hreader : s.reader = .polling)
    (hfull : s.buffer ≠ none) : Tracked { s with reader := .reading } taken := by
  have hready := htracked.consistent
  rw [Consistent, hreader] at hready
  refine htracked.move rfl ?_ rfl rfl ⟨hready, hfull⟩
  rw [inFlight, inFlight, held, held, hreader]
  rfl

theorem Tracked.read (htracked : Tracked s taken) {irq : Bool} (hreader : s.reader = .reading) :
    Tracked { s with
      buffer := none
      port := s.inb
      irq := irq
      reader := .outside
      returned := s.returned ++ [extendedKey s.inb] } (taken ++ [extendedPrefix, s.inb]) := by
  have hconsistent := htracked.consistent
  rw [Consistent, hreader] at hconsistent
  obtain ⟨hready, hfull⟩ := hconsistent
  obtain ⟨byte, hbuffer⟩ := Option.ne_none_iff_exists'.mp hfull
  refine htracked.answer rfl ?_ (.extended .nil) decode_extended rfl rfl trivial
  rw [inFlight, inFlight, held, held, hreader, mailbox, mailbox, hready, inb, hbuffer]
  rfl

theorem Tracked.step (htracked : Tracked s taken) (hstep : KbStep actor s s')
    (horderly : actor = .handler → s.HandlerMayRun) : ∃ taken', Tracked s' taken' := by
  cases hstep with
  | deliver byte hempty => exact ⟨_, htracked.deliver hempty⟩
  | handle _ => exact ⟨_, htracked.handle (horderly rfl)⟩
  | call hreader =>
      refine ⟨taken, htracked.move rfl ?_ rfl rfl trivial⟩
      rw [inFlight, inFlight, held, held, hreader]
      rfl
  | halt _ _ => exact ⟨_, htracked⟩
  | wake hreader hready => exact ⟨_, htracked.wake hreader hready⟩
  | clear hreader => exact ⟨_, htracked.clear hreader⟩
  | load hreader => exact ⟨_, htracked.load hreader⟩
  | finish hreader hplain => exact ⟨_, htracked.finish hreader hplain⟩
  | extend hreader => exact ⟨_, htracked.extend hreader⟩
  | pause _ _ => exact ⟨_, htracked⟩
  | see hreader hfull => exact ⟨_, htracked.see hreader hfull⟩
  | read irq hreader _ => exact ⟨_, htracked.read hreader⟩

/-! ## Runs -/

/-- In every run in which the handler never runs at the wrong time, the events come in
order and `KEYSTATE` follows them. -/
theorem events_inOrder (hrun : OrderlyRun s) : s.InOrder := by
  have htracked : ∃ taken, Tracked s taken := by
    induction hrun with
    | refl => exact ⟨[], init_tracked⟩
    | tail _ hstep ih =>
        obtain ⟨actor, hstep, horderly⟩ := hstep
        obtain ⟨taken, htracked⟩ := ih
        exact htracked.step hstep horderly
  obtain ⟨taken, htracked⟩ := htracked
  exact htracked.inOrder

/-- With nothing under way, every delivered key has been returned. -/
theorem InOrder.all_returned (hinOrder : s.InOrder) (hquiet : s.inFlight = []) :
    s.returned = (decode s.delivered).map Key.event := by
  obtain ⟨taken, hdelivered, -, hreturned, -⟩ := hinOrder
  rw [hdelivered, hquiet, List.append_nil]
  exact hreturned

theorem OrderlyRun.extend (hrun : OrderlyRun s) (hstep : KbStep actor s s')
    (horderly : actor = .handler → s.HandlerMayRun) : OrderlyRun s' :=
  hrun.tail ⟨actor, hstep, horderly⟩

/-- The left shift key is pressed and the event returned. -/
theorem events_inOrder_shift : ∃ s : KbState,
    s.returned = [leftShiftSc] ∧ s.keys.shiftL = true ∧ s.InOrder := by
  have hinit : OrderlyRun init := .refl
  have hdeliver := hinit.extend (.deliver leftShiftSc rfl) nofun
  have hhandle := hdeliver.extend (.handle rfl) fun _ => ⟨by decide, rfl, trivial⟩
  have hcall := hhandle.extend (.call rfl) nofun
  have hwake := hcall.extend (.wake rfl rfl) nofun
  have hclear := hwake.extend (.clear rfl) nofun
  have hload := hclear.extend (.load rfl) nofun
  have hfinish := hload.extend (.finish rfl (by decide)) nofun
  exact ⟨_, by decide, by decide, events_inOrder hfinish⟩

/-- Two interrupts before the reader looks: the first code is lost. -/
theorem events_lost : ∃ s,
    Relation.ReflTransGen (fun s s' => ∃ actor, KbStep actor s s') init s ∧
      s.delivered = [0x1E, 0x9E] ∧ s.inFlight = [] ∧ s.returned = [0x9E] ∧ ¬ s.InOrder := by
  refine ⟨_, (((((((((Relation.ReflTransGen.refl
    |>.tail ⟨_, .deliver 0x1E rfl⟩)
    |>.tail ⟨_, .handle rfl⟩)
    |>.tail ⟨_, .deliver 0x9E rfl⟩)
    |>.tail ⟨_, .handle rfl⟩)
    |>.tail ⟨_, .call rfl⟩)
    |>.tail ⟨_, .wake rfl rfl⟩)
    |>.tail ⟨_, .clear rfl⟩)
    |>.tail ⟨_, .load rfl⟩)
    |>.tail ⟨_, .finish rfl (by decide)⟩), rfl, rfl, rfl, ?_⟩
  exact fun hinOrder => absurd (hinOrder.all_returned rfl) (by decide)

end KbState

end GeckoOS.Drivers
