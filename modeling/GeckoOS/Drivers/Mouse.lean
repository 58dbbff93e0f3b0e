/-
# The PS/2 mouse

A wheel mouse sends packets of four bytes, and `mouse_handler` is called for each of them.  With
the last byte of a packet it moves the position, keeps it from leaving the text grid, and reports
it to the callback with the buttons and the wheel.

The check at the far edges compares with `>`.  A position that has come exactly to the width or
the height of the grid is left as it is, and is outside by one.
-/

import Mathlib.Data.Int.Order.Basic
import Mathlib.Logic.Function.Basic

namespace GeckoOS.Drivers

/-- `VGA_TEXT_WIDTH`, as `terminal.h` defines it for the framebuffer. -/
abbrev gridWidth : Int := 128

/-- `VGA_TEXT_HEIGHT`. -/
abbrev gridHeight : Int := 48

/-- `MOUSE_STATUS`. -/
structure MouseStatus where
  leftButton : Bool
  rightButton : Bool
  middleButton : Bool
  always1 : Bool
  xSign : Bool
  ySign : Bool
  xOverflow : Bool
  yOverflow : Bool

/-- `get_mouse_status`. -/
def getMouseStatus (statusByte : UInt8) : MouseStatus where
  leftButton := statusByte &&& 0x01 ≠ 0
  rightButton := statusByte &&& 0x02 ≠ 0
  middleButton := statusByte &&& 0x04 ≠ 0
  always1 := statusByte &&& 0x08 ≠ 0
  xSign := statusByte &&& 0x10 ≠ 0
  ySign := statusByte &&& 0x20 ≠ 0
  xOverflow := statusByte &&& 0x40 ≠ 0
  yOverflow := statusByte &&& 0x80 ≠ 0

/-- `mouse_event_data_t`. -/
structure MouseEvent where
  x : Int16
  y : Int16
  scroll : Int8
  buttons : UInt8
  eventType : UInt8

/-- `g_mouse_x_pos`, `g_mouse_y_pos`, `g_status`, `mouse_cycle` and `mouse_byte`. -/
structure MouseState where
  xPos : Int
  yPos : Int
  status : MouseStatus
  mouseCycle : Fin 4
  mouseByte : Fin 4 → UInt8

/-- The two checks of one coordinate. -/
def confine (size pos : Int) : Int :=
  let pos := if pos < 0 then 0 else pos
  if pos > size then size - 1 else pos

namespace MouseState

/-- The next byte of a packet. -/
def receive (m : MouseState) (byte : UInt8) : MouseState :=
  { m with
    mouseByte := Function.update m.mouseByte m.mouseCycle byte
    mouseCycle := m.mouseCycle + 1 }

/-- The part of a byte of `mouse_byte`, a `char`, in the movement. -/
def moved (m : MouseState) (i : Fin 4) : Int := (m.mouseByte i).toInt8.toInt

/-- What is reported. -/
def event (m : MouseState) : MouseEvent where
  buttons := m.mouseByte 0
  eventType := 0
  x := .ofInt m.xPos
  y := .ofInt m.yPos
  scroll := (m.mouseByte 3).toInt8

/-- `mouse_handler`, for the byte that it reads, with what it reports. -/
def handler (m : MouseState) (byte : UInt8) : MouseState × Option MouseEvent :=
  if m.mouseCycle = 0 then ({ m.receive byte with status := getMouseStatus byte }, none)
  else if m.mouseCycle = 1 then (m.receive byte, none)
  else if m.mouseCycle = 2 then (m.receive byte, none)
  else
    let m := m.receive byte
    let m :=
      { m with
        xPos := confine gridWidth (m.xPos + m.moved 1)
        yPos := confine gridHeight (m.yPos - m.moved 2) }
    (m, some m.event)

/-- After `mouse_init`, before the first packet. -/
def init : MouseState := ⟨5, 2, getMouseStatus 0, 0, fun _ => 0⟩

/-- The next byte is the last one of a packet. -/
def EndsPacket (m : MouseState) : Prop := m.mouseCycle = 3

/-- The position is one of the grid. -/
def InGrid (m : MouseState) : Prop :=
  0 ≤ m.xPos ∧ m.xPos < gridWidth ∧ 0 ≤ m.yPos ∧ m.yPos < gridHeight

end MouseState

/-- The position that is reported is one of the grid. -/
def MouseEvent.InGrid (md : MouseEvent) : Prop :=
  0 ≤ md.x.toInt ∧ md.x.toInt < gridWidth ∧ 0 ≤ md.y.toInt ∧ md.y.toInt < gridHeight

/-! ## The edges -/

/-- The checks let through one position that is outside. -/
theorem confine_inRange_iff {size pos : Int} (hsize : 0 < size) :
    0 ≤ confine size pos ∧ confine size pos < size ↔ pos ≠ size := by
  rw [confine]
  split_ifs <;> omega

theorem confine_le {size : Int} (hsize : 0 < size) (pos : Int) :
    0 ≤ confine size pos ∧ confine size pos ≤ size := by
  rw [confine]
  split_ifs <;> omega

/-- Any other position is kept, or moved to the edge. -/
theorem confine_of_ne {size pos : Int} (hsize : 0 < size) (hne : pos ≠ size) :
    confine size pos = max 0 (min pos (size - 1)) := by
  rw [confine]
  split_ifs <;> omega

namespace MouseState

variable {m : MouseState} {byte : UInt8}

/-- A byte that ends no packet does not move the position. -/
theorem handler_of_not_ends (hends : ¬m.EndsPacket) :
    (m.handler byte).2 = none ∧ (m.handler byte).1.xPos = m.xPos ∧
      (m.handler byte).1.yPos = m.yPos := by
  rw [handler]
  split_ifs with hfirst hsecond hthird
  · exact ⟨rfl, rfl, rfl⟩
  · exact ⟨rfl, rfl, rfl⟩
  · exact ⟨rfl, rfl, rfl⟩
  · rw [EndsPacket] at hends
    omega

/-- The position that the packet leads to, before the checks. -/
def target (m : MouseState) : Int × Int := (m.xPos + m.moved 1, m.yPos - m.moved 2)

/-- The last byte of a packet is the one of the wheel, and the packet moves the position to its
target, which is checked. -/
theorem handler_of_ends (hends : m.EndsPacket) :
    (m.handler byte).1.xPos = confine gridWidth m.target.1 ∧
      (m.handler byte).1.yPos = confine gridHeight m.target.2 ∧
        (m.handler byte).2 = some (m.handler byte).1.event ∧
          (m.handler byte).1.event.scroll = byte.toInt8 := by
  have hcycle : m.mouseCycle = 3 := hends
  have hbyte : ∀ i, i ≠ 3 → (m.receive byte).moved i = m.moved i := by
    intro i hi
    change (Function.update m.mouseByte m.mouseCycle byte i).toInt8.toInt = _
    rw [hcycle, Function.update_of_ne hi]
    rfl
  have hwheel : (m.receive byte).mouseByte 3 = byte := by
    change Function.update m.mouseByte m.mouseCycle byte 3 = byte
    rw [hcycle, Function.update_self]
  rw [handler, if_neg (by rw [hcycle]; decide), if_neg (by rw [hcycle]; decide),
    if_neg (by rw [hcycle]; decide)]
  dsimp only [event]
  rw [hbyte 1 (by decide), hbyte 2 (by decide), hwheel]
  exact ⟨rfl, rfl, rfl, rfl⟩

/-- What is reported for a packet: the position, which has room in 16 bits, and the wheel. -/
theorem exists_event (hends : m.EndsPacket) (byte : UInt8) : ∃ md,
    (m.handler byte).2 = some md ∧ md.x.toInt = (m.handler byte).1.xPos ∧
      md.y.toInt = (m.handler byte).1.yPos ∧ md.scroll = byte.toInt8 := by
  obtain ⟨hx, hy, hreport, hscroll⟩ := @handler_of_ends m byte hends
  have hsame : ∀ pos : Int, 0 ≤ pos → pos ≤ 128 → (Int16.ofInt pos).toInt = pos := by
    intro pos hlow hhigh
    exact Int16.toInt_ofInt_of_le (by omega) (by omega)
  refine ⟨_, hreport, ?_, ?_, hscroll⟩
  · have hrange := confine_le (by decide : 0 < gridWidth) m.target.1
    rw [← hx] at hrange
    exact hsame _ hrange.1 hrange.2
  · have hrange := confine_le (by decide : 0 < gridHeight) m.target.2
    rw [← hy] at hrange
    exact hsame _ hrange.1 (le_trans hrange.2 (by decide))

/-- A packet keeps the position in the grid exactly if it does not lead to one of the two lines
that the checks leave out. -/
theorem inGrid_handler_iff (hends : m.EndsPacket) :
    (m.handler byte).1.InGrid ↔ m.target.1 ≠ gridWidth ∧ m.target.2 ≠ gridHeight := by
  obtain ⟨hx, hy, -⟩ := @handler_of_ends m byte hends
  rw [InGrid, hx, hy, ← and_assoc, confine_inRange_iff (by decide), confine_inRange_iff (by decide)]

end MouseState

end GeckoOS.Drivers
