/-
# The pointer of the mouse

The mouse reports to `get_mouse_event`, which scrolls by the wheel, redraws the window and draws
the cursor at the position of the mouse.  `draw_cursor` reads `console_history` for the colour of
the cell there, and for the cell where the cursor was drawn before.

The rows of the grid are counted from the top of the window.  A window that the terminal keeps
ends with the last row of the history, and so the cells of the screen have entries.  The grid is
that of a framebuffer with 48 rows: on a screen with fewer rows the window may start further down,
and a position may be below the screen.
-/

import GeckoOS.Drivers.Mouse
import GeckoOS.Math.SignedArith
import GeckoOS.Terminal.Scrolling

namespace GeckoOS.Terminal

open GeckoOS.Math GeckoOS.Drivers

/-! ## The cursor -/

/-- `cursor_t`, but for `original_cell`, which nothing uses. -/
structure Cursor where
  x : Int
  y : Int
  isDrawn : Bool

/-- What `fb_draw_cursor_block` draws: a cell of this colour above two white lines. -/
structure CursorBlock where
  cx : UInt32
  cy : UInt32
  bg : UInt32

/-- The mouse and the terminal, with the block that was drawn last. -/
structure Desktop where
  mouse : MouseState
  term : TermState
  cursor : Cursor
  block : Option CursorBlock

/-- The entry `console_history[viewport_top + cy][cx]`, by row and column. -/
def TermState.cellAt (t : TermState) (x y : Int) : Nat × Nat :=
  ((UInt32.ofNat t.viewportTop + UInt32.ofInt y).toNat, (UInt32.ofInt x).toNat)

namespace Desktop

/-- The part of `draw_cursor` that draws the text of the cell again. -/
def eraseCursor (s : Desktop) : Desktop :=
  if s.cursor.isDrawn then
    let entry := s.term.history (s.term.cellAt s.cursor.x s.cursor.y).1
      (s.term.cellAt s.cursor.x s.cursor.y).2
    { s with
      term := fbDrawChar (UInt32.ofInt s.cursor.x).toNat (UInt32.ofInt s.cursor.y).toNat
        entry.char (vgaFgToRgb entry.color) (vgaBgToRgb entry.color) s.term
      cursor := { s.cursor with isDrawn := false } }
  else s

/-- `draw_cursor`. -/
def drawCursor (s : Desktop) (x y : Int) (visible : Bool) : Desktop :=
  let s := s.eraseCursor
  if visible then
    let entry := s.term.history (s.term.cellAt x y).1 (s.term.cellAt x y).2
    { s with
      cursor := ⟨x, y, true⟩
      block := some ⟨.ofInt x, .ofInt y, vgaBgToRgb entry.color⟩ }
  else s

/-- The entries of `console_history` that `draw_cursor` reads. -/
def drawCursorReads (s : Desktop) (x y : Int) (visible : Bool) : List (Nat × Nat) :=
  (if s.cursor.isDrawn then [s.term.cellAt s.cursor.x s.cursor.y] else []) ++
    if visible then [s.term.cellAt x y] else []

/-- The part of `get_mouse_event` before the cursor is drawn. -/
def scrolled (fb : Framebuffer) (s : Desktop) (scroll : Int8) : Desktop :=
  let amount : Int := if scroll = 0 then 0 else scroll.toInt - 8
  let t :=
    if amount < 0 then scrollDown fb s.term
    else if amount > 0 then scrollUp fb s.term
    else s.term
  { s with term := renderViewport fb t }

/-- `get_mouse_event`. -/
def getMouseEvent (fb : Framebuffer) (s : Desktop) (md : MouseEvent) : Desktop :=
  (s.scrolled fb md.scroll).drawCursor md.x.toInt md.y.toInt true

/-- A byte of the mouse, or a call of the terminal by some program. -/
inductive Event
  | mouse (byte : UInt8)
  | term (call : TermCall)

/-- What the mouse reports in an event. -/
def reported (s : Desktop) : Event → Option MouseEvent
  | .mouse byte => (s.mouse.handler byte).2
  | .term _ => none

/-- An event, with `get_mouse_event` as the callback. -/
def step (fb : Framebuffer) (s : Desktop) (event : Event) : Desktop :=
  match event with
  | .mouse byte =>
      let s' := { s with mouse := (s.mouse.handler byte).1 }
      match s.reported (.mouse byte) with
      | none => s'
      | some md => s'.getMouseEvent fb md
  | .term call => { s with term := s.term.call fb call }

/-- The entries that `draw_cursor` reads in an event. -/
def reads (fb : Framebuffer) (s : Desktop) (event : Event) : List (Nat × Nat) :=
  match s.reported event with
  | none => []
  | some md => (s.scrolled fb md.scroll).drawCursorReads md.x.toInt md.y.toInt true

/-! ## Staying inside -/

/-- After the event the position is one of the grid, and so is the one that was reported, and
`draw_cursor` has read nothing outside the history. -/
structure StaysInside (g : Geometry) (s : Desktop) (event : Event) : Prop where
  position : (s.step g.toFramebuffer event).mouse.InGrid
  reported : ∀ md, s.reported event = some md → md.InGrid
  inArray : InArray (s.reads g.toFramebuffer event)

/-- The first line of the window after the wheel has been turned. -/
def firstShown (g : Geometry) (s : Desktop) (scroll : Int8) : Nat :=
  if scroll = 0 ∨ scroll = 8 then s.term.viewportTop
  else if 8 < scroll then s.term.viewportTop - 1
  else if s.term.viewportTop + g.rows ≤ s.term.totalLines then s.term.viewportTop + 1
  else s.term.viewportTop

/-- A packet with this turn of the wheel does not lead to the column or the row right behind the
grid.  On a screen with fewer rows than the grid, it leads to no row behind the history either,
and there is an entry for the cell where the cursor is. -/
structure PacketSafe (g : Geometry) (s : Desktop) (scroll : Int8) : Prop where
  column : s.mouse.target.1 ≠ gridWidth
  row : s.mouse.target.2 ≠ gridHeight
  shown : g.rows < 48 → s.firstShown g scroll + min 47 s.mouse.target.2.toNat < scrollbackLines
  erased : g.rows < 48 → s.cursor.isDrawn →
    s.firstShown g scroll + s.cursor.y.toNat < scrollbackLines

/-- The last byte of a packet is safe if the packet is. -/
def Safe (g : Geometry) (s : Desktop) : Event → Prop
  | .mouse byte => s.mouse.EndsPacket → s.PacketSafe g byte.toInt8
  | .term _ => True

end Desktop

/-- A line and a window that the terminal keeps. -/
structure TermState.Windowed (g : Geometry) (t : TermState) : Prop where
  line : t.totalLines < scrollbackLines
  top : t.viewportTop ≤ topOf g.toFramebuffer (scrollbackLines - 1)

/-- The position is one of the grid, and so is that of the cursor if it is drawn. -/
structure Desktop.InPlace (g : Geometry) (s : Desktop) : Prop where
  position : s.mouse.InGrid
  window : s.term.Windowed g
  cursor : s.cursor.isDrawn →
    (0 ≤ s.cursor.x ∧ s.cursor.x < gridWidth) ∧ 0 ≤ s.cursor.y ∧ s.cursor.y < gridHeight

/-! ## The window -/

section Window

variable {g : Geometry} {t : TermState} {c color : UInt8}

theorem topOf_le {line : Nat} (hline : line < scrollbackLines) :
    topOf g.toFramebuffer line ≤ topOf g.toFramebuffer (scrollbackLines - 1) := by
  rw [topOf, topOf]
  simp only [scrollbackLines] at *
  omega

theorem topOf_last (g : Geometry) :
    topOf g.toFramebuffer (scrollbackLines - 1) = scrollbackLines - g.rows := by
  rw [topOf]
  simp only [scrollbackLines]
  omega

/-- No character leads behind the last row. -/
theorem wordWrap_line (hline : t.totalLines < scrollbackLines) :
    (wordWrap g.toFramebuffer (putHistory g.toFramebuffer c color t)).totalLines <
      scrollbackLines := by
  have hnext : ∀ u : TermState, (nextLine u).totalLines < scrollbackLines := by
    intro u
    rw [nextLine]
    simp only [scrollbackLines]
    split_ifs <;> omega
  have hput : (putHistory g.toFramebuffer c color t).totalLines < scrollbackLines := by
    by_cases hback : c = backspace
    · have hle : (backspaced g.toFramebuffer t).1 ≤ t.totalLines := by
        rw [backspaced]
        split_ifs <;> simp
      rw [hback, putHistory_backspace]
      exact hle.trans_lt hline
    · rw [putHistory]
      split_ifs
      · exact hnext _
      · exact hline
      · exact hline
  rw [wordWrap]
  split_ifs
  · exact hnext _
  · exact hput

theorem TermState.Windowed.putcharOne (ht : t.Windowed g) :
    (putcharOne g.toFramebuffer c color t).Windowed g := by
  rw [GeckoOS.Terminal.putcharOne]
  split_ifs
  · exact ht
  · have hline := @wordWrap_line g t c color ht.line
    constructor
    · have hplace := @updateScreen_place g.toFramebuffer c color
        (wordWrap g.toFramebuffer (putHistory g.toFramebuffer c color t))
      exact lt_of_eq_of_lt (congrArg Place.line hplace) hline
    · rw [updateScreen_top]
      split_ifs
      · exact topOf_le hline
      · rw [(wordWrap_window t).2]
        exact ht.top

/-- Whatever is called, the window does not come to start behind the last one. -/
theorem TermState.Windowed.call (ht : t.Windowed g) (call : TermCall) :
    (t.call g.toFramebuffer call).Windowed g := by
  have hline := ht.line
  have htop := ht.top
  rw [topOf_last] at htop
  cases call with
  | putchar c color => exact putchar_keeps (fun _ _ hu => hu.putcharOne) ht
  | clear color => exact ⟨Nat.succ_pos _, Nat.zero_le _⟩
  | scrollUp =>
      rw [TermState.call, scrollUp_eq]
      exact ⟨hline, (Nat.sub_le _ _).trans ht.top⟩
  | scrollDown =>
      rw [TermState.call, scrollDown_eq]
      refine ⟨hline, ?_⟩
      rw [topOf_last]
      dsimp only
      split_ifs <;> omega
  | render => exact ⟨hline, ht.top⟩

end Window

/-! ## One event -/

section Events

variable {g : Geometry} {s : Desktop} {t : TermState} {x y : Int} {byte : UInt8} {scroll : Int8}

theorem toNat_ofInt_of_le (hlow : 0 ≤ x) (hhigh : x ≤ 128) : (UInt32.ofInt x).toNat = x.toNat := by
  rw [toNat_ofInt]
  omega

/-- The entry for a cell of the grid. -/
theorem TermState.cellAt_eq (htop : t.viewportTop ≤ scrollbackLines)
    (hx : 0 ≤ x ∧ x ≤ gridWidth) (hy : 0 ≤ y ∧ y ≤ gridWidth) :
    t.cellAt x y = (t.viewportTop + y.toNat, x.toNat) := by
  have hrow := toNat_ofInt_of_le hy.1 hy.2
  have hlt : y.toNat ≤ 128 := Int.toNat_le.mpr hy.2
  rw [cellAt, toNat_ofInt_of_le hx.1 hx.2, UInt32.toNat_add, hrow, UInt32.toNat_ofNat']
  simp only [scrollbackLines] at htop
  congr 1
  omega

namespace Desktop

/-- The wheel moves the window by at most one line. -/
theorem scrolled_top : (s.scrolled g.toFramebuffer scroll).term.viewportTop =
    s.firstShown g scroll := by
  have hzero : scroll = 0 ↔ scroll.toInt = 0 := Int8.toInt_inj.symm
  have height : scroll = 8 ↔ scroll.toInt = 8 := Int8.toInt_inj.symm
  have hmore : 8 < scroll ↔ 8 < scroll.toInt := Int8.lt_iff_toInt_lt
  rw [firstShown, scrolled, scrollDown_eq, scrollUp_eq]
  simp only [renderViewport, hzero, height, hmore]
  split_ifs <;> first | rfl | omega

theorem scrolled_windowed (hs : s.InPlace g) (scroll : Int8) :
    (s.scrolled g.toFramebuffer scroll).term.Windowed g := by
  have hwindow : ∀ amount : Int, (if amount < 0 then scrollDown g.toFramebuffer s.term
      else if amount > 0 then scrollUp g.toFramebuffer s.term else s.term).Windowed g := by
    intro amount
    split_ifs
    · exact hs.window.call .scrollDown
    · exact hs.window.call .scrollUp
    · exact hs.window
  exact (hwindow _).call .render

/-- Drawing the cursor leaves the window as it is. -/
theorem drawCursor_windowed (ht : s.term.Windowed g) (visible : Bool) :
    (s.drawCursor x y visible).term.Windowed g := by
  have herase : s.eraseCursor.term.Windowed g := by
    rw [eraseCursor]
    split_ifs
    · exact ⟨ht.line, ht.top⟩
    · exact ht
  rw [drawCursor]
  split_ifs
  · exact herase
  · exact herase

theorem step_of_some {md : MouseEvent} (hreport : (s.mouse.handler byte).2 = some md)
    (fb : Framebuffer) : s.step fb (.mouse byte) =
      { s with mouse := (s.mouse.handler byte).1 }.getMouseEvent fb md := by
  rw [step, reported, hreport]

theorem step_of_none (hreport : (s.mouse.handler byte).2 = none) (fb : Framebuffer) :
    s.step fb (.mouse byte) = { s with mouse := (s.mouse.handler byte).1 } := by
  rw [step, reported, hreport]

/-- A byte that ends no packet does nothing to the position. -/
theorem staysInside_of_not_ends (hs : s.InPlace g) (hends : ¬s.mouse.EndsPacket) :
    s.StaysInside g (.mouse byte) := by
  obtain ⟨hnone, hx, hy⟩ := @MouseState.handler_of_not_ends s.mouse byte hends
  constructor
  · rw [step_of_none hnone, MouseState.InGrid, hx, hy]
    exact hs.position
  · intro md hmd
    exact absurd (hnone.symm.trans hmd) (Option.some_ne_none md).symm
  · rw [reads, reported, hnone]
    exact inArray_nil

/-- The entries that are read for a packet. -/
theorem reads_of_ends (hs : s.InPlace g) (hends : s.mouse.EndsPacket) :
    s.reads g.toFramebuffer (.mouse byte) =
      (if s.cursor.isDrawn then
        [(s.firstShown g byte.toInt8 + s.cursor.y.toNat, s.cursor.x.toNat)] else []) ++
        [(s.firstShown g byte.toInt8 + (confine gridHeight s.mouse.target.2).toNat,
          (confine gridWidth s.mouse.target.1).toNat)] := by
  obtain ⟨md, hreport, hx, hy, hscroll⟩ := MouseState.exists_event hends byte
  obtain ⟨hxPos, hyPos, -⟩ := @MouseState.handler_of_ends s.mouse byte hends
  have hrange := confine_le (by decide : 0 < gridWidth) s.mouse.target.1
  have hrange' := confine_le (by decide : 0 < gridHeight) s.mouse.target.2
  have hwindow := (scrolled_windowed hs byte.toInt8).top
  rw [topOf_last] at hwindow
  have htop := hwindow.trans (Nat.sub_le _ _)
  rw [reads, reported, hreport]
  dsimp only
  rw [hx, hy, hscroll, hxPos, hyPos, drawCursorReads, if_pos rfl,
    TermState.cellAt_eq htop hrange ⟨hrange'.1, hrange'.2.trans (by decide)⟩, scrolled_top]
  congr 1
  have hcursor : (s.scrolled g.toFramebuffer byte.toInt8).cursor = s.cursor := rfl
  rw [hcursor]
  split_ifs with hdrawn
  · obtain ⟨hx, hy⟩ := hs.cursor hdrawn
    rw [TermState.cellAt_eq htop ⟨hx.1, hx.2.le⟩ ⟨hy.1, hy.2.le.trans (by decide)⟩, scrolled_top]
  · rfl

theorem getMouseEvent_mouse (fb : Framebuffer) (s : Desktop) (md : MouseEvent) :
    (s.getMouseEvent fb md).mouse = s.mouse := by
  rw [getMouseEvent, drawCursor, eraseCursor]
  split_ifs <;> rfl

/-- After a packet the mouse is where the checks have left it. -/
theorem step_mouse (fb : Framebuffer) :
    (s.step fb (.mouse byte)).mouse = (s.mouse.handler byte).1 := by
  cases hreport : (s.mouse.handler byte).2 with
  | none => rw [step_of_none hreport]
  | some md => rw [step_of_some hreport, getMouseEvent_mouse]

theorem toNat_confine {pos : Int} (hne : pos ≠ gridHeight) :
    (confine gridHeight pos).toNat = min 47 pos.toNat := by
  rw [confine_of_ne (by decide) hne]
  simp only [gridHeight]
  omega

/-- On a screen with all the rows of the grid, these have entries. -/
theorem firstShown_add_lt (hs : s.InPlace g) (hrows : ¬g.rows < 48) {row : Nat} (hrow : row < 48) :
    s.firstShown g scroll + row < scrollbackLines := by
  have hwindow := (scrolled_windowed hs scroll).top
  rw [topOf_last, scrolled_top] at hwindow
  simp only [scrollbackLines] at hwindow ⊢
  omega

/-- A safe packet reads only entries of the history. -/
theorem PacketSafe.inArray (hsafe : s.PacketSafe g byte.toInt8) (hs : s.InPlace g)
    (hends : s.mouse.EndsPacket) : InArray (s.reads g.toFramebuffer (.mouse byte)) := by
  have hrow : ∀ {row : Nat}, row < 48 →
      (g.rows < 48 → s.firstShown g byte.toInt8 + row < scrollbackLines) →
        s.firstShown g byte.toInt8 + row < scrollbackLines := by
    intro row hrow hshort
    by_cases hrows : g.rows < 48
    · exact hshort hrows
    · exact firstShown_add_lt hs hrows hrow
  have hcolumn : ∀ {x : Int}, 0 ≤ x ∧ x < gridWidth → x.toNat < vgaTextWidth :=
    fun hx => (Int.toNat_lt hx.1).mpr hx.2
  rw [reads_of_ends hs hends, inArray_append, toNat_confine hsafe.row]
  constructor
  · split_ifs with hdrawn
    · obtain ⟨hx, hy⟩ := hs.cursor hdrawn
      have hlt : s.cursor.y.toNat < 48 := (Int.toNat_lt hy.1).mpr hy.2
      exact List.forall_mem_singleton.mpr
        ⟨hrow hlt fun hrows => hsafe.erased hrows hdrawn, hcolumn hx⟩
    · exact inArray_nil
  · have hx := (confine_inRange_iff (by decide : 0 < gridWidth)).mpr hsafe.column
    have hlt : min 47 s.mouse.target.2.toNat < 48 := (Nat.min_le_left _ _).trans_lt (by decide)
    exact List.forall_mem_singleton.mpr ⟨hrow hlt hsafe.shown, hcolumn hx⟩

/-- A packet stays inside exactly if it is safe. -/
theorem staysInside_iff_packetSafe (hs : s.InPlace g) (hends : s.mouse.EndsPacket) :
    s.StaysInside g (.mouse byte) ↔ s.PacketSafe g byte.toInt8 := by
  have hposition := @MouseState.inGrid_handler_iff s.mouse byte hends
  constructor
  · intro hinside
    have hgrid := hinside.position
    rw [step_mouse, hposition] at hgrid
    have hreads := hinside.inArray
    rw [reads_of_ends hs hends, inArray_append, toNat_confine hgrid.2] at hreads
    refine ⟨hgrid.1, hgrid.2, fun _ => (hreads.2 _ (List.mem_singleton_self _)).1, ?_⟩
    intro _ hdrawn
    rw [if_pos hdrawn] at hreads
    exact (hreads.1 _ (List.mem_singleton_self _)).1
  · intro hsafe
    have hgrid := hposition.mpr ⟨hsafe.column, hsafe.row⟩
    refine ⟨by rwa [step_mouse], fun md hmd => ?_, hsafe.inArray hs hends⟩
    obtain ⟨md', hreport, hx, hy, -⟩ := MouseState.exists_event hends byte
    obtain rfl := Option.some.inj (hmd.symm.trans hreport)
    rwa [MouseEvent.InGrid, hx, hy]

/-- An event stays inside exactly if it is safe. -/
theorem staysInside_iff (hs : s.InPlace g) (event : Event) :
    s.StaysInside g event ↔ s.Safe g event := by
  cases event with
  | term call =>
      refine iff_of_true ⟨hs.position, fun md hmd => ?_, inArray_nil⟩ trivial
      exact absurd hmd (Option.some_ne_none md).symm
  | mouse byte =>
      by_cases hends : s.mouse.EndsPacket
      · rw [Safe, imp_iff_right hends]
        exact staysInside_iff_packetSafe hs hends
      · exact iff_of_true (staysInside_of_not_ends hs hends) fun hyes => absurd hyes hends

/-- A safe event leaves everything in its place. -/
theorem InPlace.step (hs : s.InPlace g) (event : Event) (hsafe : s.Safe g event) :
    (s.step g.toFramebuffer event).InPlace g := by
  have hinside := (staysInside_iff hs event).mpr hsafe
  cases event with
  | term call => exact ⟨hs.position, hs.window.call call, hs.cursor⟩
  | mouse byte =>
      cases hreport : (s.mouse.handler byte).2 with
      | none =>
          have hposition := hinside.position
          rw [step_of_none hreport] at hposition ⊢
          exact ⟨hposition, hs.window, hs.cursor⟩
      | some md =>
          have hposition := hinside.position
          have hmoved : ({ s with mouse := (s.mouse.handler byte).1 } : Desktop).InPlace g := by
            rw [step_mouse] at hposition
            exact ⟨hposition, hs.window, hs.cursor⟩
          rw [step_of_some hreport] at hposition ⊢
          obtain ⟨hleft, hright, htop, hbottom⟩ := hinside.reported md hreport
          exact ⟨hposition, drawCursor_windowed (scrolled_windowed hmoved md.scroll) true,
            fun _ => ⟨⟨hleft, hright⟩, htop, hbottom⟩⟩

end Desktop

end Events

/-! ## Every run -/

/-- From a position of the grid, the mouse and the calls of the terminal in any order keep the
position in the grid, and `draw_cursor` inside the history, exactly as long as no packet leads to
one of the lines that the checks leave out. -/
theorem pointer_staysInside_iff (g : Geometry) (s : Desktop) (hs : s.InPlace g)
    (events : List Desktop.Event) :
    AtEveryStep (Desktop.step g.toFramebuffer) (Desktop.StaysInside g) s events ↔
      AtEveryStep (Desktop.step g.toFramebuffer) (Desktop.Safe g) s events :=
  atEveryStep_iff (fun _ event hs => Desktop.staysInside_iff hs event)
    (fun _ event hs hsafe => hs.step event hsafe) hs

/-- Before the first packet: the position of `mouse_init`, and a cursor that is not drawn. -/
def pointerBoot : Desktop :=
  ⟨.init, boot, ⟨-1, -1, false⟩, none⟩

theorem pointerBoot_inPlace (g : Geometry) : pointerBoot.InPlace g :=
  ⟨⟨by decide, by decide, by decide, by decide⟩, ⟨Nat.succ_pos _, Nat.zero_le _⟩,
    fun hdrawn => absurd hdrawn (by decide)⟩

/-- The bytes of a packet without a turn of the wheel. -/
def packet (dx dy : UInt8) : List Desktop.Event :=
  [.mouse 0x08, .mouse dx, .mouse dy, .mouse 0]

theorem pointer_staysInside_iff_boot :
    AtEveryStep (Desktop.step geometry1024x768.toFramebuffer)
        (Desktop.StaysInside geometry1024x768) pointerBoot (packet 3 0xFF) ↔
      AtEveryStep (Desktop.step geometry1024x768.toFramebuffer)
        (Desktop.Safe geometry1024x768) pointerBoot (packet 3 0xFF) :=
  pointer_staysInside_iff geometry1024x768 pointerBoot (pointerBoot_inPlace _) (packet 3 0xFF)

/-- Right after boot, a packet that leads exactly to the width of the grid leaves it. -/
theorem pointer_leaves_grid : ¬AtEveryStep (Desktop.step geometry1024x768.toFramebuffer)
    (Desktop.StaysInside geometry1024x768) pointerBoot (packet 0x7B 0) := by
  intro hall
  have hinside := hall [.mouse 0x08, .mouse 0x7B, .mouse 0] (.mouse 0) (List.prefix_refl _)
  exact absurd hinside.position.2.1 (by decide)

end GeckoOS.Terminal
