/-
# The terminal

`putchar` keeps every line that was printed in `console_history`, a table of
`SCROLLBACK_LINES` rows, and shows a window of `fb_rows` of them on the framebuffer.  It
draws the whole window when the window moves, and only the character that changed when it
does not.

The framebuffer is a table of characters in their colours, as `fb_draw_char` puts them at
the corners of the font's grid.  Rows and columns that no draw reached hold what the last
`fb_clear` left, which is what a space looks like.
-/

import Mathlib.Algebra.Group.Nat.Defs
import Mathlib.Logic.Function.Basic

namespace GeckoOS.Terminal

/-- `SCROLLBACK_LINES`. -/
abbrev scrollbackLines : Nat := 1000

/-- `VGA_TEXT_WIDTH`. -/
abbrev vgaTextWidth : Nat := 128

/-- The byte `' '`. -/
abbrev space : UInt8 := 0x20

/-- The byte `'\n'`. -/
abbrev newline : UInt8 := 0x0A

/-- The byte `'\b'`. -/
abbrev backspace : UInt8 := 0x08

/-- The byte `'\t'`. -/
abbrev tab : UInt8 := 0x09

/-- `vga_to_rgb`. -/
def vgaToRgb : List UInt32 :=
  [0x000000, 0x0000AA, 0x00AA00, 0x00AAAA, 0xAA0000, 0xAA00AA, 0xAA5500, 0xAAAAAA,
    0x555555, 0x5555FF, 0x55FF55, 0x55FFFF, 0xFF5555, 0xFF55FF, 0xFFFF55, 0xFFFFFF]

/-- `vga_fg_to_rgb`. -/
def vgaFgToRgb (color : UInt8) : UInt32 := vgaToRgb.getD (color &&& 0xF).toNat 0

/-- `vga_bg_to_rgb`. -/
def vgaBgToRgb (color : UInt8) : UInt32 := vgaToRgb.getD ((color >>> 4) &&& 0xF).toNat 0

/-- `vga_entry`: the two bytes of an entry of the history. -/
structure Entry where
  char : UInt8
  color : UInt8

/-- What `fb_draw_char` draws. -/
structure Cell where
  char : UInt8
  fg : UInt32
  bg : UInt32

/-- `g_fb_width` and `g_fb_height`. -/
structure Framebuffer where
  width : Nat
  height : Nat

/-- `fb_cols`. -/
def Framebuffer.cols (fb : Framebuffer) : Nat := fb.width / 8

/-- `fb_rows`. -/
def Framebuffer.rows (fb : Framebuffer) : Nat := fb.height / 16

/-- The state of the terminal; `history` and `screen` by row and column. -/
structure TermState where
  history : Nat → Nat → Entry
  totalLines : Nat
  cursorX : Nat
  viewportTop : Nat
  followOutput : Bool
  terminalRow : Nat
  terminalColumn : Nat
  screen : Nat → Nat → Cell

/-- One place of a table is changed. -/
def setAt {α : Type} (table : Nat → Nat → α) (y x : Nat) (a : α) : Nat → Nat → α :=
  Function.update table y (Function.update (table y) x a)

/-- `fb_draw_char` at a place of the grid. -/
def fbDrawChar (x y : Nat) (c : UInt8) (fg bg : UInt32) (t : TermState) : TermState :=
  { t with screen := setAt t.screen y x ⟨c, fg, bg⟩ }

/-- The cell that an entry of the history is drawn as. -/
def Entry.cell (e : Entry) : Cell := ⟨e.char, vgaFgToRgb e.color, vgaBgToRgb e.color⟩

/-- `render_viewport`. -/
def renderViewport (fb : Framebuffer) (t : TermState) : TermState :=
  { t with
    screen := fun y x =>
      if y < fb.rows ∧ t.viewportTop + y < scrollbackLines ∧ x < fb.cols then
        (t.history (t.viewportTop + y) x).cell
      else t.screen y x }

/-- The next line, as long as there is a row for it. -/
def nextLine (t : TermState) : TermState :=
  { t with
    cursorX := 0
    totalLines :=
      if scrollbackLines ≤ t.totalLines + 1 then scrollbackLines - 1 else t.totalLines + 1 }

/-- The part of `putchar` that changes the history. -/
def putHistory (fb : Framebuffer) (c color : UInt8) (t : TermState) : TermState :=
  if c = newline then
    nextLine
      { t with
        history := fun y x =>
          if y = t.totalLines ∧ t.cursorX ≤ x ∧ x < fb.cols ∧ x < vgaTextWidth then ⟨space, color⟩
          else t.history y x }
  else if c = backspace then
    let t :=
      if 0 < t.cursorX then { t with cursorX := t.cursorX - 1 }
      else if 0 < t.totalLines then
        { t with
          totalLines := t.totalLines - 1
          cursorX := (if fb.cols < vgaTextWidth then fb.cols else vgaTextWidth) - 1 }
      else t
    { t with history := setAt t.history t.totalLines t.cursorX ⟨space, color⟩ }
  else
    { t with
      history :=
        if t.cursorX < vgaTextWidth then setAt t.history t.totalLines t.cursorX ⟨c, color⟩
        else t.history
      cursorX := t.cursorX + 1 }

/-- The word wrap of `putchar`. -/
def wordWrap (fb : Framebuffer) (t : TermState) : TermState :=
  if fb.cols ≤ t.cursorX then nextLine t else t

/-- The fast path of `putchar`: only the character that changed. -/
def drawChanged (fb : Framebuffer) (c color : UInt8) (t : TermState) : TermState :=
  let screenRow : Int := t.totalLines - t.viewportTop
  let fg := vgaFgToRgb color
  let bg := vgaBgToRgb color
  if 0 ≤ screenRow ∧ screenRow < fb.rows then
    if c = backspace then fbDrawChar t.cursorX screenRow.toNat space fg bg t
    else if c ≠ newline then
      fbDrawChar (if 0 < t.cursorX then t.cursorX - 1 else 0) screenRow.toNat c fg bg t
    else t
  else t

/-- `new_top`. -/
def newTop (fb : Framebuffer) (t : TermState) : Nat := ((t.totalLines : Int) - fb.rows + 1).toNat

/-- The part of `putchar` that changes the screen. -/
def updateScreen (fb : Framebuffer) (c color : UInt8) (t : TermState) : TermState :=
  let t :=
    if t.followOutput ∧ newTop fb t ≠ t.viewportTop then
      renderViewport fb { t with viewportTop := newTop fb t }
    else drawChanged fb c color t
  { t with
    terminalRow := ((t.totalLines : Int) - t.viewportTop).toNat % 2 ^ 16
    terminalColumn := t.cursorX % 2 ^ 16 }

/-- `putchar`, but for a tabulator. -/
def putcharOne (fb : Framebuffer) (c color : UInt8) (t : TermState) : TermState :=
  if c = 0 then t else updateScreen fb c color (wordWrap fb (putHistory fb c color t))

/-- `putchar`; a tabulator is four spaces. -/
def putchar (fb : Framebuffer) (c color : UInt8) (t : TermState) : TermState :=
  if c = tab then (List.replicate 4 space).foldl (fun t c => putcharOne fb c color t) t
  else putcharOne fb c color t

/-- `terminal_clear`. -/
def terminalClear (color : UInt8) (t : TermState) : TermState :=
  { t with
    history := fun _ _ => ⟨space, color⟩
    totalLines := 0
    cursorX := 0
    terminalColumn := 0
    terminalRow := 0
    viewportTop := 0
    screen := fun _ _ => (Entry.mk space color).cell }

end GeckoOS.Terminal
