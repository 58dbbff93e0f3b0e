/-
# Reading a line

`input` reads the keyboard until a line is entered.  It edits the caller's buffer and prints what
is typed, and with the arrow keys the line is replaced by one that was entered before.  The line
that was being typed is kept in `saved_input`, an array on the stack, which holds anything before
something is saved.

Whether a key is an arrow is seen from what `ps2_kb_wfi` returns; what any other key types depends
on the keys that are held, so a key comes here with what `scancode_to_ascii` makes of it.

Replacing the line on the screen takes back what was printed: where each character of it went is
computed anew from where the line began.  The state therefore also keeps what the code does not,
the entries each character was put into when it was printed.
-/

import GeckoOS.Math.Marked
import GeckoOS.Terminal.Clearing

namespace GeckoOS.Terminal

open GeckoOS.Math

/-- `KEY_UP`. -/
abbrev keyUp : UInt8 := 0x60

/-- `KEY_DOWN`. -/
abbrev keyDown : UInt8 := 0x61

/-- `HISTORY_SIZE`. -/
abbrev historySize : Nat := 10

/-- What `ps2_kb_wfi` returns for a key, and `scancode_to_ascii` for that. -/
structure KeyPress where
  sc : UInt8
  ascii : UInt8

/-! ## The lines that were entered -/

/-- `history_entries`, `history_head` and `history_count`; each entry ends in its 512 bytes. -/
structure InputHistory where
  entries : Nat → ByteMap
  head : Nat
  count : Nat
  head_lt : head < historySize
  count_le : count ≤ historySize
  ends : ∀ slot, ∃ i < 512, entries slot i = 0

/-- Before the first line. -/
def InputHistory.empty : InputHistory where
  entries := fun _ _ => 0
  head := 0
  count := 0
  head_lt := by decide
  count_le := by decide
  ends := fun _ => ⟨0, by decide, rfl⟩

/-- The entry that `history_push` makes of a line. -/
def pushedEntry (buf old : ByteMap) : ByteMap :=
  let i := ((Marked.known buf).text 511).length
  Function.update (ByteMap.blit old 0 buf i) i 0

theorem pushedEntry_ends (buf old : ByteMap) : ∃ i < 512, pushedEntry buf old i = 0 :=
  ⟨_, Nat.lt_succ_of_le Marked.length_text, Function.update_self _ _ _⟩

/-- `history_push`. -/
def historyPush (buf : ByteMap) (h : InputHistory) : InputHistory :=
  if buf 0 = 0 then h
  else
    { entries := Function.update h.entries h.head (pushedEntry buf (h.entries h.head))
      head := (h.head + 1) % historySize
      count := if h.count < historySize then h.count + 1 else h.count
      head_lt := Nat.mod_lt _ (by decide)
      count_le := by
        have hcount := h.count_le
        split_ifs with hroom
        · exact hroom
        · exact hcount
      ends := by
        intro slot
        rw [Function.update_apply]
        split_ifs
        · exact pushedEntry_ends buf _
        · exact h.ends slot }

/-- The entry that is shown when one has gone so many lines back. -/
def InputHistory.entryAt (h : InputHistory) (idx : Nat) : ByteMap :=
  h.entries ((h.head + historySize - idx) % historySize)

/-! ## Where a text is shown -/

/-- The entries of `console_history` that characters other than a tabulator are put into. -/
def putCells (fb : Framebuffer) (color : UInt8) : List UInt8 → TermState → List (Nat × Nat)
  | [], _ => []
  | c :: text, t =>
      (if c = 0 then [] else putAccesses fb c t) ++ putCells fb color text (putcharOne fb c color t)

/-- The entries that `putchar` puts a character into. -/
def charCells (fb : Framebuffer) (c color : UInt8) (t : TermState) : List (Nat × Nat) :=
  putCells fb color (spelled c) t

/-- The same for each character of a text. -/
def textCells (fb : Framebuffer) (color : UInt8) :
    List UInt8 → TermState → List (List (Nat × Nat))
  | [], _ => []
  | c :: text, t => charCells fb c color t :: textCells fb color text (putchar fb c color t)

/-! ## The call -/

/-- What `input` is called with, and what it finds: on the terminal, in the history, in the buffer
and on the stack from `saved_input` on. -/
structure InputCall where
  screen : Geometry
  term : TermState
  history : InputHistory
  content : ByteMap
  stack : ByteMap
  bufferSize : UInt64
  color : UInt8

/-- `input` between two keys. -/
structure InputState where
  term : TermState
  history : InputHistory
  buff : Marked
  buffCount : Nat
  browseIdx : Nat
  saved : Marked
  /-- The entries that each character of the line was put into. -/
  shown : List (List (Nat × Nat))
  /-- The line was entered. -/
  done : Bool

namespace InputCall

/-- `buffer_size - 1`. -/
def limit (call : InputCall) : Nat := (call.bufferSize - 1).toNat

/-- `start_x`. -/
def startX (call : InputCall) : Nat := call.term.cursorX

/-- `start_line`. -/
def startLine (call : InputCall) : Nat := call.term.totalLines

/-- Before the first key. -/
def start (call : InputCall) : InputState where
  term := call.term
  history := call.history
  buff := .fresh call.content
  buffCount := 0
  browseIdx := 0
  saved := .fresh call.stack
  shown := []
  done := false

end InputCall

namespace InputState

/-- The line is saved if it is left. -/
def leave (sc : UInt8) (s : InputState) : InputState :=
  if sc = keyUp ∧ s.browseIdx = 0 then
    { s with saved := (s.saved.copy s.buff s.buffCount).set s.buffCount 0 }
  else s

/-- `browse_idx` after an arrow key. -/
def nextIdx (sc : UInt8) (s : InputState) : Nat :=
  if sc = keyUp ∧ s.browseIdx < s.history.count then s.browseIdx + 1
  else if sc = keyDown ∧ 0 < s.browseIdx then s.browseIdx - 1
  else s.browseIdx

/-- `src`. -/
def source (s : InputState) : Marked :=
  if s.browseIdx = 0 then s.saved else .known (s.history.entryAt s.browseIdx)

/-- The entries that the erase loop writes. -/
def eraseCells (call : InputCall) (s : InputState) : List (Nat × Nat) :=
  ((List.range s.buffCount).map fun k =>
    (call.startLine + (call.startX + k) / call.screen.cols,
      (call.startX + k) % call.screen.cols)).filter (·.2 < vgaTextWidth)

/-- The line is erased, and what is printed next goes to where it began. -/
def erase (call : InputCall) (s : InputState) : InputState :=
  { s with
    term := renderViewport call.screen.toFramebuffer
      { s.term with
        history := (s.eraseCells call).foldl
          (fun table cell => setAt table cell.1 cell.2 ⟨space, call.color⟩) s.term.history
        cursorX := call.startX
        totalLines := call.startLine } }

/-- `src` is copied into the buffer and printed. -/
def load (call : InputCall) (src : Marked) (s : InputState) : InputState :=
  let text := src.text call.limit
  { s with
    term := writeStream call.screen.toFramebuffer s.term (text.map fun c => (c, call.color))
    buff := (s.buff.copy src text.length).set text.length 0
    buffCount := text.length
    shown := textCells call.screen.toFramebuffer call.color text s.term }

/-- The branch of the arrow keys. -/
def browse (call : InputCall) (sc : UInt8) (s : InputState) : InputState :=
  let s := s.leave sc
  let s := { s with browseIdx := s.nextIdx sc }
  (s.erase call).load call s.source

/-- The line is entered. -/
def enter (call : InputCall) (s : InputState) : InputState :=
  let buff := s.buff.set s.buffCount 0
  { s with
    term := putchar call.screen.toFramebuffer newline call.color s.term
    buff := buff
    history := historyPush buff.bytes s.history
    done := true }

/-- `'\b'`. -/
def back (call : InputCall) (s : InputState) : InputState :=
  if 0 < s.buffCount then
    { s with
      term := putchar call.screen.toFramebuffer backspace call.color s.term
      buffCount := s.buffCount - 1
      buff := s.buff.set (s.buffCount - 1) 0
      shown := s.shown.dropLast }
  else s

/-- A character is typed. -/
def type (call : InputCall) (c : UInt8) (s : InputState) : InputState :=
  if s.buffCount < call.limit ∧ 0x20 ≤ c then
    { s with
      term := putchar call.screen.toFramebuffer c call.color s.term
      buff := s.buff.set s.buffCount c
      buffCount := s.buffCount + 1
      shown := s.shown ++ [charCells call.screen.toFramebuffer c call.color s.term] }
  else s

/-- The next key. -/
def step (call : InputCall) (s : InputState) (key : KeyPress) : InputState :=
  if s.done ∨ key.sc &&& 0x80 ≠ 0 ∨ key.sc = 0 then s
  else if key.sc = keyUp ∨ key.sc = keyDown then s.browse call key.sc
  else if key.ascii = newline then s.enter call
  else if key.ascii = backspace then s.back call
  else s.type call key.ascii

end InputState

end GeckoOS.Terminal
