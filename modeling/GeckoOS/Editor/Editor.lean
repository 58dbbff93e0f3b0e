/-
# The editor

GeckoEdit keeps the text in one flat buffer, `ed_buf`, with its length and the place of
the cursor.  There are no lines in its state: every function that needs a line or a
column scans the buffer for newlines again.

The functions below are those that read or write the text, the file's way into the
buffer, and the loop of `editor_run` with what it does for each key.  The screen is left
out; drawing reads the text and writes only the row shown at the top.
-/

import GeckoOS.Math.ByteMap

namespace GeckoOS.Editor

open GeckoOS.Math

/-- `EDITOR_MAX_FILESIZE`. -/
abbrev editorMaxFilesize : Nat := 4096

/-- A newline. -/
abbrev newline : UInt8 := 10

/-- `ed_buf`, `ed_len`, `ed_cur` and `ed_dirty`. -/
structure EdState where
  buf : ByteMap
  len : Nat
  cur : Nat
  dirty : Bool

/-! ## Lines and columns -/

/-- The loop of `ed_line_start` at `pos`, with `left` bytes of the text to come. -/
def lineStartLoop (buf : ByteMap) (n : Nat) : Nat → Nat → Nat → Nat
  | 0, pos, _ => pos
  | left + 1, pos, line =>
      if line < n then
        lineStartLoop buf n left (pos + 1) (if buf pos = newline then line + 1 else line)
      else pos

/-- `ed_line_start`. -/
def edLineStart (ed : EdState) (n : Nat) : Nat := lineStartLoop ed.buf n ed.len 0 0

/-- The loops of `ed_count_lines` and `ed_offset_to_line` at `i`, with `left` bytes to go. -/
def newlineLoop (buf : ByteMap) : Nat → Nat → Nat → Nat
  | 0, _, line => line
  | left + 1, i, line =>
      newlineLoop buf left (i + 1) (if buf i = newline then line + 1 else line)

/-- `ed_count_lines`. -/
def edCountLines (ed : EdState) : Nat := newlineLoop ed.buf ed.len 0 1

/-- `ed_offset_to_line`. -/
def edOffsetToLine (ed : EdState) (offset : Nat) : Nat :=
  newlineLoop ed.buf (min offset ed.len) 0 0

/-- The loop of `ed_offset_to_col`, back from the byte before the place. -/
def colLoop (buf : ByteMap) : Nat → Nat → Nat
  | 0, col => col
  | i + 1, col => if buf i ≠ newline then colLoop buf i (col + 1) else col

/-- `ed_offset_to_col`. -/
def edOffsetToCol (ed : EdState) (offset : Nat) : Nat := colLoop ed.buf offset 0

/-- The loop of `ed_line_len`, with `left` bytes of the text behind `start + len`. -/
def lineLenLoop (buf : ByteMap) (start : Nat) : Nat → Nat → Nat
  | 0, len => len
  | left + 1, len =>
      if buf (start + len) ≠ newline then lineLenLoop buf start left (len + 1) else len

/-- `ed_line_len`. -/
def edLineLen (ed : EdState) (n : Nat) : Nat :=
  lineLenLoop ed.buf (edLineStart ed n) (ed.len - edLineStart ed n) 0

/-! ## Editing -/

/-- The loop of `ed_insert` that makes room at the cursor, from the end of the text. -/
def shiftUp (cur : Nat) : Nat → ByteMap → ByteMap
  | 0, buf => buf
  | i + 1, buf =>
      if cur < i + 1 then shiftUp cur i (Function.update buf (i + 1) (buf i)) else buf

/-- `ed_insert`. -/
def edInsert (c : UInt8) (ed : EdState) : EdState :=
  if editorMaxFilesize - 1 ≤ ed.len then ed
  else
    let shifted := Function.update (shiftUp ed.cur ed.len ed.buf) ed.cur c
    { buf := Function.update shifted (ed.len + 1) 0, len := ed.len + 1, cur := ed.cur + 1,
      dirty := true }

/-- The loop of `ed_backspace` at `i`, with `left` bytes to move. -/
def shiftDown : Nat → Nat → ByteMap → ByteMap
  | 0, _, buf => buf
  | left + 1, i, buf => shiftDown left (i + 1) (Function.update buf i (buf (i + 1)))

/-- `ed_backspace`. -/
def edBackspace (ed : EdState) : EdState :=
  if ed.cur = 0 then ed
  else
    let cur := ed.cur - 1
    let shifted := shiftDown (ed.len - 1 - cur) cur ed.buf
    { buf := Function.update shifted (ed.len - 1) 0, len := ed.len - 1, cur := cur,
      dirty := true }

/-- `ed_move_left`. -/
def edMoveLeft (ed : EdState) : EdState := if 0 < ed.cur then { ed with cur := ed.cur - 1 } else ed

/-- `ed_move_right`. -/
def edMoveRight (ed : EdState) : EdState :=
  if ed.cur < ed.len then { ed with cur := ed.cur + 1 } else ed

/-- `ed_move_up`. -/
def edMoveUp (ed : EdState) : EdState :=
  let line := edOffsetToLine ed ed.cur
  if line = 0 then ed
  else
    let col := min (edOffsetToCol ed ed.cur) (edLineLen ed (line - 1))
    { ed with cur := edLineStart ed (line - 1) + col }

/-- `ed_move_down`. -/
def edMoveDown (ed : EdState) : EdState :=
  let line := edOffsetToLine ed ed.cur
  if edCountLines ed - 1 ≤ line then ed
  else
    let col := min (edOffsetToCol ed ed.cur) (edLineLen ed (line + 1))
    { ed with cur := edLineStart ed (line + 1) + col }

/-! ## Loading -/

/-- The inner loop of `ed_load`: the bytes read are put behind the text while there is room. -/
def takeBytes : List UInt8 → EdState → EdState
  | [], ed => ed
  | b :: bytes, ed =>
      if ed.len < editorMaxFilesize - 1 then
        takeBytes bytes { ed with buf := Function.update ed.buf ed.len b, len := ed.len + 1 }
      else ed

/-- The outer loop of `ed_load` at `offset`; `read` is the file's own read function for a
buffer of 128 bytes.  Each round but the last adds a byte, so there are not more rounds
than bytes in the buffer. -/
def loadLoop (read : Nat → List UInt8) : Nat → Nat → EdState → EdState
  | 0, _, ed => ed
  | rounds + 1, offset, ed =>
      if ed.len < editorMaxFilesize - 1 then
        if read offset = [] then ed
        else loadLoop read rounds (offset + (read offset).length) (takeBytes (read offset) ed)
      else ed

/-- `ed_load`; `file` is nothing when there is no such file or no file system. -/
def edLoad (file : Option (Nat → List UInt8)) (ed : EdState) : EdState :=
  let empty := { ed with buf := Function.update ed.buf 0 0, len := 0 }
  match file with
  | none => empty
  | some read =>
      let full := loadLoop read editorMaxFilesize 0 empty
      { full with buf := Function.update full.buf full.len 0 }

/-! ## Keys -/

/-- What a key does to the text. -/
inductive EdKey
  | char (c : UInt8)
  | enter
  | backspace
  | left
  | right
  | up
  | down
  deriving DecidableEq

/-- The call that a key makes. -/
def press : EdKey → EdState → EdState
  | .char c => edInsert c
  | .enter => edInsert newline
  | .backspace => edBackspace
  | .left => edMoveLeft
  | .right => edMoveRight
  | .up => edMoveUp
  | .down => edMoveDown

/-- What `ps2_kb_wfi` returned, what `scancode_to_ascii` makes of it, and whether a file
that were saved now would be written. -/
structure KeyEvent where
  sc : UInt8
  ascii : UInt8
  writes : Bool

/-- What the loop of `editor_run` does with a key. -/
inductive Action
  | ctrl (held : Bool)
  | edit (key : EdKey)
  | save
  | quit
  | ignore
  deriving DecidableEq

/-- The tests of the loop, in their order. -/
def action (ctrlHeld : Bool) (e : KeyEvent) : Action :=
  let isBreak := e.sc &&& 0x80 ≠ 0
  if e.sc &&& 0x7F = 0x1D then .ctrl !isBreak
  else if isBreak then .ignore
  else if e.sc = 0x60 then .edit .up
  else if e.sc = 0x61 then .edit .down
  else if e.sc = 0x62 then .edit .left
  else if e.sc = 0x63 then .edit .right
  else if ctrlHeld && e.sc = 0x1F then .save
  else if ctrlHeld && e.sc = 0x10 then .quit
  else if e.sc = 0x0E then .edit .backspace
  else if e.sc = 0x1C then .edit .enter
  else if 0x20 ≤ e.ascii && e.ascii < 0x80 then .edit (.char e.ascii)
  else .ignore

/-- Where `editor_run` stands: in its loop, at the question whether to discard what is not
saved, or behind the loop. -/
inductive Phase
  | editing
  | asking
  | closed
  deriving DecidableEq

/-- `editor_run` between two keys. -/
structure Session where
  ed : EdState
  ctrlHeld : Bool
  phase : Phase

/-- The next key. -/
def Session.step (s : Session) (e : KeyEvent) : Session :=
  match s.phase with
  | .closed => s
  | .asking =>
      if e.sc &&& 0x80 ≠ 0 then s
      else if e.sc = 0x10 && s.ctrlHeld then { s with phase := .closed }
      else { s with phase := .editing }
  | .editing =>
      match action s.ctrlHeld e with
      | .ctrl held => { s with ctrlHeld := held }
      | .edit key => { s with ed := press key s.ed }
      | .save => { s with ed := { s.ed with dirty := s.ed.dirty && !e.writes } }
      | .quit => { s with phase := if s.ed.dirty then .asking else .closed }
      | .ignore => s

/-- `editor_run` up to its first key, with what an earlier run left in the buffer. -/
def editorRun (file : Option (Nat → List UInt8)) (before : EdState) : Session :=
  ⟨edLoad file { before with cur := 0, dirty := false }, false, .editing⟩

/-- A row of keys. -/
def Session.run (s : Session) (events : List KeyEvent) : Session := events.foldl Session.step s

end GeckoOS.Editor
