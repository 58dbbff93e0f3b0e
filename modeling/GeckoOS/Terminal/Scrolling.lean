/-
# Scrolling and the bounds of the history

`scroll_up` and `scroll_down` move the window that `putchar` otherwise keeps at the end of the
output.  The place where the next character goes is a line and a column, and what a character
does to it has nothing to do with the window.

A row of `console_history` has `VGA_TEXT_WIDTH` columns, and a line of the screen as many as fit
on the framebuffer.  `putchar` compares with both, but a redraw reads a whole line of the screen,
and `'\b'` goes back from any column.  The window stays where the output is as long as it is
moved by what comes behind it; when lines are taken back while it does not follow, it can come
to lie behind the end.

The boot code prints its first line before anything else of this module can be called, so the
numbers of rows and columns are those of the framebuffer from the beginning.
-/

import GeckoOS.Math.Runs
import GeckoOS.Terminal.Scrollback

namespace GeckoOS.Terminal

open GeckoOS.Math

/-! ## The calls -/

/-- A framebuffer with room for a character. -/
structure Geometry extends Framebuffer where
  width_le : 8 ≤ width
  height_le : 16 ≤ height

/-- `scroll_up`. -/
def scrollUp (fb : Framebuffer) (t : TermState) : TermState :=
  let t :=
    if (t.totalLines : Int) - fb.rows + 1 ≤ t.viewportTop then { t with followOutput := false }
    else t
  if t.viewportTop = 0 then t else { t with viewportTop := t.viewportTop - 1 }

/-- `scroll_down`. -/
def scrollDown (fb : Framebuffer) (t : TermState) : TermState :=
  let t :=
    if (t.totalLines : Int) - fb.rows + 1 ≤ t.viewportTop then { t with followOutput := true }
    else t
  if t.viewportTop + fb.rows ≤ t.totalLines then { t with viewportTop := t.viewportTop + 1 } else t

/-- A call of the terminal. -/
inductive TermCall
  | putchar (c color : UInt8)
  | clear (color : UInt8)
  | scrollUp
  | scrollDown
  | render

/-- The call is made. -/
def TermState.call (fb : Framebuffer) (t : TermState) : TermCall → TermState
  | .putchar c color => GeckoOS.Terminal.putchar fb c color t
  | .clear color => terminalClear color t
  | .scrollUp => GeckoOS.Terminal.scrollUp fb t
  | .scrollDown => GeckoOS.Terminal.scrollDown fb t
  | .render => renderViewport fb t

/-! ## Accesses -/

/-- The entries that `render_viewport` reads, by row and column. -/
def renderAccesses (fb : Framebuffer) (t : TermState) : List (Nat × Nat) :=
  ((List.range fb.rows).filter fun y => t.viewportTop + y < scrollbackLines).flatMap fun y =>
    (List.range fb.cols).map fun x => (t.viewportTop + y, x)

/-- Where a `'\b'` goes back to. -/
def backspaced (fb : Framebuffer) (t : TermState) : Nat × Nat :=
  if 0 < t.cursorX then (t.totalLines, t.cursorX - 1)
  else if 0 < t.totalLines then
    (t.totalLines - 1, (if fb.cols < vgaTextWidth then fb.cols else vgaTextWidth) - 1)
  else (t.totalLines, t.cursorX)

/-- The entries that `putchar` writes. -/
def putAccesses (fb : Framebuffer) (c : UInt8) (t : TermState) : List (Nat × Nat) :=
  if c = newline then
    ((List.range' t.cursorX (fb.cols - t.cursorX)).filter (· < vgaTextWidth)).map
      fun x => (t.totalLines, x)
  else if c = backspace then [backspaced fb t]
  else if t.cursorX < vgaTextWidth then [(t.totalLines, t.cursorX)] else []

/-- The entries that `putchar` accesses, but for a tabulator. -/
def putcharOneAccesses (fb : Framebuffer) (c color : UInt8) (t : TermState) : List (Nat × Nat) :=
  if c = 0 then []
  else
    let t' := wordWrap fb (putHistory fb c color t)
    putAccesses fb c t ++
      if t'.followOutput ∧ newTop fb t' ≠ t'.viewportTop then
        renderAccesses fb { t' with viewportTop := newTop fb t' }
      else []

/-- The entries that so many spaces access. -/
def spacesAccesses (fb : Framebuffer) (color : UInt8) : Nat → TermState → List (Nat × Nat)
  | 0, _ => []
  | n + 1, t =>
      putcharOneAccesses fb space color t ++
        spacesAccesses fb color n (putcharOne fb space color t)

/-- The entries of `console_history` that a call accesses. -/
def TermState.accesses (fb : Framebuffer) (t : TermState) : TermCall → List (Nat × Nat)
  | .putchar c color =>
      if c = tab then spacesAccesses fb color 4 t else putcharOneAccesses fb c color t
  | .clear _ =>
      (List.range scrollbackLines).flatMap fun y => (List.range vgaTextWidth).map fun x => (y, x)
  | .scrollUp => []
  | .scrollDown => []
  | .render => renderAccesses fb t

section Frame

variable {fb : Framebuffer} {t : TermState} {c color : UInt8} {y x : Nat}

theorem setAt_frame {table : Nat → Nat → Entry} {y' x' : Nat} {e : Entry}
    (hout : (y, x) ≠ (y', x')) : setAt table y' x' e y x = table y x := by
  rw [setAt_apply, if_neg]
  rintro ⟨rfl, rfl⟩
  exact hout rfl

/-- The history and the place after a `'\b'`. -/
theorem putHistory_backspace : putHistory fb backspace color t =
    { t with
      totalLines := (backspaced fb t).1
      cursorX := (backspaced fb t).2
      history := setAt t.history (backspaced fb t).1 (backspaced fb t).2 ⟨space, color⟩ } := by
  have hnewline : backspace ≠ newline := by decide
  rw [putHistory, if_neg hnewline, if_pos rfl, backspaced]
  split_ifs <;> rfl

/-- Nothing else of the history is changed by a character. -/
theorem putHistory_frame (hout : (y, x) ∉ putAccesses fb c t) :
    (putHistory fb c color t).history y x = t.history y x := by
  rw [putAccesses] at hout
  by_cases hnewline : c = newline
  · subst hnewline
    rw [if_pos rfl] at hout
    rw [putHistory, if_pos rfl]
    refine if_neg fun hblank => hout ?_
    obtain ⟨rfl, hbehind, hcols, hwidth⟩ := hblank
    rw [List.mem_map]
    refine ⟨x, List.mem_filter.mpr ⟨?_, decide_eq_true hwidth⟩, rfl⟩
    rw [List.mem_range'_1]
    omega
  rw [if_neg hnewline] at hout
  by_cases hback : c = backspace
  · subst hback
    rw [if_pos rfl, List.mem_singleton] at hout
    rw [putHistory_backspace]
    exact setAt_frame hout
  rw [if_neg hback] at hout
  rw [putHistory, if_neg hnewline, if_neg hback]
  dsimp only
  split_ifs at hout ⊢ with hwidth
  · rw [List.mem_singleton] at hout
    exact setAt_frame hout
  · rfl

/-- The history is changed before the screen, and only there. -/
theorem putcharOne_history (hzero : c ≠ 0) :
    (putcharOne fb c color t).history = (putHistory fb c color t).history := by
  have hwrap : ∀ u : TermState, (wordWrap fb u).history = u.history := by
    intro u
    rw [wordWrap]
    split_ifs <;> rfl
  have hscreen : ∀ u : TermState, (updateScreen fb c color u).history = u.history := by
    intro u
    rw [updateScreen, drawChanged]
    split_ifs <;> rfl
  rw [putcharOne, if_neg hzero, hscreen, hwrap]

/-- A character changes only what it accesses. -/
theorem putcharOne_frame (hout : (y, x) ∉ putcharOneAccesses fb c color t) :
    (putcharOne fb c color t).history y x = t.history y x := by
  rw [putcharOneAccesses] at hout
  by_cases hzero : c = 0
  · rw [putcharOne, if_pos hzero]
  · rw [if_neg hzero] at hout
    rw [putcharOne_history hzero]
    exact putHistory_frame fun hmem => hout (List.mem_append_left _ hmem)

/-- What a redraw shows depends on nothing else of the history. -/
theorem renderViewport_congr {history : Nat → Nat → Entry}
    (hsame : ∀ place ∈ renderAccesses fb t,
      history place.1 place.2 = t.history place.1 place.2) :
    (renderViewport fb { t with history := history }).screen = (renderViewport fb t).screen := by
  funext y x
  simp only [renderViewport]
  split_ifs with hshown
  · obtain ⟨hy, hrow, hx⟩ := hshown
    rw [hsame (t.viewportTop + y, x)]
    rw [renderAccesses, List.mem_flatMap]
    refine ⟨y, List.mem_filter.mpr ⟨List.mem_range.mpr hy, decide_eq_true hrow⟩, ?_⟩
    exact List.mem_map.mpr ⟨x, List.mem_range.mpr hx, rfl⟩
  · rfl

end Frame

/-! ## The place of the next character -/

/-- A line of the history and a column. -/
structure Place where
  line : Nat
  col : Nat
  deriving DecidableEq

/-- The beginning of the next line, as long as there is a row for it. -/
def Place.next (p : Place) : Place :=
  ⟨if scrollbackLines ≤ p.line + 1 then scrollbackLines - 1 else p.line + 1, 0⟩

/-- Where a character other than a tabulator leads. -/
def Place.put (fb : Framebuffer) (p : Place) (c : UInt8) : Place :=
  if c = 0 then p
  else if c = newline then p.next
  else if c = backspace then
    if 0 < p.col then ⟨p.line, p.col - 1⟩
    else if 0 < p.line then
      ⟨p.line - 1, (if fb.cols < vgaTextWidth then fb.cols else vgaTextWidth) - 1⟩
    else p
  else if fb.cols ≤ p.col + 1 then p.next
  else ⟨p.line, p.col + 1⟩

/-- The window that shows a line at its end. -/
def topOf (fb : Framebuffer) (line : Nat) : Nat := ((line : Int) - fb.rows + 1).toNat

namespace TermState

/-- Where the next character goes. -/
def place (t : TermState) : Place := ⟨t.totalLines, t.cursorX⟩

end TermState

/-- The entries lie inside the array. -/
def InArray (accesses : List (Nat × Nat)) : Prop :=
  ∀ access ∈ accesses, access.1 < scrollbackLines ∧ access.2 < vgaTextWidth

/-- The call moves the window to where it belongs: it scrolls, or prints while following. -/
def TermCall.MovesWindow (t : TermState) : TermCall → Prop
  | .putchar _ _ => t.followOutput
  | .scrollUp => True
  | .scrollDown => True
  | _ => False

namespace TermState

/-- After the call the place and the window are where they belong, and it has accessed no entry
outside the array. -/
def Bounded (g : Geometry) (t : TermState) (call : TermCall) : Prop :=
  (t.call g.toFramebuffer call).totalLines < scrollbackLines ∧
    (t.call g.toFramebuffer call).cursorX < g.cols ∧
    (call.MovesWindow t → ((t.call g.toFramebuffer call).viewportTop : Int) ≤
      max 0 (((t.call g.toFramebuffer call).totalLines : Int) - g.rows + 1)) ∧
    InArray (t.accesses g.toFramebuffer call)

/-- The character ends the line. -/
def Fills (g : Geometry) (t : TermState) (c : UInt8) : Prop :=
  c = newline ∨ c ≠ 0 ∧ c ≠ backspace ∧ g.cols ≤ t.cursorX + if c = tab then 4 else 1

/-- On a screen that is wider than a row of the history, the character does not scroll the window
that follows it, and no `'\b'` goes back to a column that the row does not have. -/
structure StaysNarrow (g : Geometry) (t : TermState) (c : UInt8) : Prop where
  forward : t.Fills g c → t.followOutput →
    t.totalLines + 1 < g.rows ∨ scrollbackLines ≤ t.totalLines + 1
  back : c = backspace → t.cursorX ≤ vgaTextWidth
  upward : c = backspace → t.cursorX = 0 → t.followOutput → t.totalLines < g.rows

/-- The call takes none of the branches that go wrong. -/
def Safe (g : Geometry) (t : TermState) : TermCall → Prop
  | .putchar c _ => g.cols ≤ vgaTextWidth ∨ t.StaysNarrow g c
  | .clear _ => True
  | .scrollUp => t.viewportTop ≤ topOf g.toFramebuffer t.totalLines + 1
  | .scrollDown => t.viewportTop ≤ topOf g.toFramebuffer t.totalLines
  | .render => g.cols ≤ vgaTextWidth

/-- What every safe call keeps. -/
structure Kept (g : Geometry) (t : TermState) : Prop where
  line : t.totalLines < scrollbackLines
  col : t.cursorX < g.cols
  top : t.viewportTop < scrollbackLines
  follow : t.followOutput → t.viewportTop = topOf g.toFramebuffer t.totalLines

end TermState

section Place

variable {g : Geometry} {fb : Framebuffer} {t : TermState} {c color : UInt8} {p : Place}

theorem Geometry.cols_pos (g : Geometry) : 0 < g.cols := by
  have hwidth := g.width_le
  rw [Framebuffer.cols]
  omega

theorem Geometry.rows_pos (g : Geometry) : 0 < g.rows := by
  have hheight := g.height_le
  rw [Framebuffer.rows]
  omega

/-- The place after the history has been changed and the line has been wrapped. -/
theorem wordWrap_place (hzero : c ≠ 0) (hcursor : t.cursorX < g.cols) :
    (wordWrap g.toFramebuffer (putHistory g.toFramebuffer c color t)).place =
      t.place.put g.toFramebuffer c := by
  have hcols := g.cols_pos
  have hkeep : ∀ u : TermState, u.cursorX < g.cols → wordWrap g.toFramebuffer u = u :=
    fun u hu => if_neg (Nat.not_le.mpr hu)
  rw [Place.put, if_neg hzero]
  by_cases hnewline : c = newline
  · rw [if_pos hnewline, putHistory, if_pos hnewline, hkeep _ hcols]
    rfl
  rw [if_neg hnewline]
  by_cases hback : c = backspace
  · subst hback
    have hback : (backspaced g.toFramebuffer t).2 < g.cols := by
      rw [backspaced]
      split_ifs <;> omega
    rw [if_pos rfl, putHistory_backspace, hkeep _ hback]
    change (⟨(backspaced g.toFramebuffer t).1, (backspaced g.toFramebuffer t).2⟩ : Place) =
      if 0 < t.cursorX then _ else if 0 < t.totalLines then _ else _
    rw [backspaced]
    by_cases hcol : 0 < t.cursorX
    · rw [if_pos hcol, if_pos hcol]
      rfl
    · rw [if_neg hcol, if_neg hcol]
      split_ifs <;> rfl
  rw [if_neg hback, putHistory, if_neg hnewline, if_neg hback, wordWrap]
  by_cases hwrap : g.cols ≤ t.cursorX + 1
  · rw [if_pos hwrap, show t.place.col = t.cursorX from rfl, if_pos hwrap]
    rfl
  · rw [if_neg hwrap, show t.place.col = t.cursorX from rfl, if_neg hwrap]
    rfl

/-- The screen is updated without a look at the place. -/
theorem updateScreen_place (t : TermState) : (updateScreen fb c color t).place = t.place := by
  rw [updateScreen, drawChanged]
  split_ifs <;> rfl

theorem updateScreen_follow (t : TermState) :
    (updateScreen fb c color t).followOutput = t.followOutput := by
  rw [updateScreen, drawChanged]
  split_ifs <;> rfl

/-- The window follows the place. -/
theorem updateScreen_top (t : TermState) : (updateScreen fb c color t).viewportTop =
    if t.followOutput then topOf fb t.totalLines else t.viewportTop := by
  have htop : newTop fb t = topOf fb t.totalLines := rfl
  have hdraw : (drawChanged fb c color t).viewportTop = t.viewportTop := by
    rw [drawChanged]
    split_ifs <;> rfl
  rw [updateScreen, htop]
  by_cases hfollow : t.followOutput
  · rw [if_pos hfollow]
    by_cases hmoved : topOf fb t.totalLines ≠ t.viewportTop
    · rw [if_pos ⟨hfollow, hmoved⟩]
      rfl
    · rw [if_neg fun hboth => hmoved hboth.2, not_not.mp hmoved]
      exact hdraw
  · rw [if_neg hfollow, if_neg fun hboth => hfollow hboth.1]
    exact hdraw

theorem wordWrap_window (t : TermState) :
    (wordWrap fb (putHistory fb c color t)).followOutput = t.followOutput ∧
      (wordWrap fb (putHistory fb c color t)).viewportTop = t.viewportTop := by
  rw [wordWrap, putHistory]
  split_ifs <;> exact ⟨rfl, rfl⟩

/-- Where a character leads. -/
theorem putcharOne_place (hcursor : t.cursorX < g.cols) :
    (putcharOne g.toFramebuffer c color t).place = t.place.put g.toFramebuffer c := by
  rw [putcharOne]
  split_ifs with hzero
  · exact (if_pos hzero).symm
  · rw [updateScreen_place, wordWrap_place hzero hcursor]

theorem putcharOne_follow :
    (putcharOne fb c color t).followOutput = t.followOutput := by
  rw [putcharOne]
  split_ifs
  · rfl
  · rw [updateScreen_follow, (wordWrap_window t).1]

/-- The window after a character. -/
theorem putcharOne_top (hzero : c ≠ 0) (hcursor : t.cursorX < g.cols) :
    (putcharOne g.toFramebuffer c color t).viewportTop =
      if t.followOutput then topOf g.toFramebuffer (t.place.put g.toFramebuffer c).line
      else t.viewportTop := by
  obtain ⟨hfollow, htop⟩ := @wordWrap_window g.toFramebuffer c color t
  have hplace := congrArg Place.line (@wordWrap_place g t c color hzero hcursor)
  rw [putcharOne, if_neg hzero, updateScreen_top, hfollow, htop, ← hplace]
  rfl

theorem Place.put_inRange (hline : p.line < scrollbackLines) (hcol : p.col < g.cols) :
    (p.put g.toFramebuffer c).line < scrollbackLines ∧ (p.put g.toFramebuffer c).col < g.cols := by
  have hcols := g.cols_pos
  rw [Place.put, Place.next]
  split_ifs <;> simp only [scrollbackLines] at * <;> omega

end Place

/-! ## One call -/

section Calls

variable {g : Geometry} {t : TermState} {c color : UInt8} {n : Nat}

open TermState

theorem topOf_lt {line : Nat} (hline : line < scrollbackLines) :
    topOf g.toFramebuffer line < scrollbackLines := by
  have hrows := g.rows_pos
  rw [topOf]
  simp only [scrollbackLines] at *
  omega

theorem inArray_append {first second : List (Nat × Nat)} :
    InArray (first ++ second) ↔ InArray first ∧ InArray second := List.forall_mem_append

theorem inArray_nil : InArray [] := fun _ hmem => absurd hmem List.not_mem_nil

/-- A redraw stays inside the array if a row of it is as wide as the screen. -/
theorem inArray_render (htop : t.viewportTop < scrollbackLines) :
    InArray (renderAccesses g.toFramebuffer t) ↔ g.cols ≤ vgaTextWidth := by
  have hrows := g.rows_pos
  constructor
  · intro hinside
    by_contra hwide
    have hmem : (t.viewportTop, vgaTextWidth) ∈ renderAccesses g.toFramebuffer t := by
      rw [renderAccesses, List.mem_flatMap]
      refine ⟨0, List.mem_filter.mpr ⟨List.mem_range.mpr hrows, decide_eq_true htop⟩, ?_⟩
      exact List.mem_map.mpr ⟨vgaTextWidth, List.mem_range.mpr (Nat.lt_of_not_le hwide), rfl⟩
    exact absurd (hinside _ hmem).2 (Nat.lt_irrefl _)
  · rintro hnarrow ⟨y, x⟩ hmem
    rw [renderAccesses, List.mem_flatMap] at hmem
    obtain ⟨row, hrow, hmem⟩ := hmem
    obtain ⟨col, hcol, hplace⟩ := List.mem_map.mp hmem
    obtain ⟨rfl, rfl⟩ := Prod.mk.inj hplace
    exact ⟨of_decide_eq_true (List.mem_filter.mp hrow).2, (List.mem_range.mp hcol).trans_le hnarrow⟩

/-- What a character writes lies inside the array, unless it goes back from too far. -/
theorem inArray_put (hkept : t.Kept g) :
    InArray (putAccesses g.toFramebuffer c t) ↔ (c = backspace → t.cursorX ≤ vgaTextWidth) := by
  have hline := hkept.line
  rw [putAccesses]
  by_cases hnewline : c = newline
  · subst hnewline
    refine iff_of_true ?_ fun hback => absurd hback (by decide)
    rw [if_pos rfl]
    rintro ⟨y, x⟩ hmem
    obtain ⟨col, hcol, hplace⟩ := List.mem_map.mp hmem
    obtain ⟨rfl, rfl⟩ := Prod.mk.inj hplace
    exact ⟨hline, of_decide_eq_true (List.mem_filter.mp hcol).2⟩
  rw [if_neg hnewline]
  by_cases hback : c = backspace
  · rw [if_pos hback, imp_iff_right hback]
    have hcols := g.cols_pos
    have hsingle : InArray [backspaced g.toFramebuffer t] ↔
        (backspaced g.toFramebuffer t).1 < scrollbackLines ∧
          (backspaced g.toFramebuffer t).2 < vgaTextWidth := List.forall_mem_singleton
    rw [hsingle, backspaced]
    split_ifs <;> simp only [scrollbackLines, vgaTextWidth] at * <;> omega
  · refine iff_of_true ?_ fun hback' => absurd hback' hback
    rw [if_neg hback]
    split_ifs with hcol
    · rintro access hmem
      rw [List.mem_singleton.mp hmem]
      exact ⟨hline, hcol⟩
    · exact inArray_nil

/-- A character keeps the place in range and the window at the place. -/
theorem TermState.Kept.putcharOne (hkept : t.Kept g) :
    (GeckoOS.Terminal.putcharOne g.toFramebuffer c color t).Kept g := by
  by_cases hzero : c = 0
  · rw [GeckoOS.Terminal.putcharOne, if_pos hzero]
    exact hkept
  have hplace := @putcharOne_place g t c color hkept.col
  have hrange := @Place.put_inRange g c t.place hkept.line hkept.col
  have htop := @putcharOne_top g t c color hzero hkept.col
  rw [← hplace] at hrange htop
  have hline : (GeckoOS.Terminal.putcharOne g.toFramebuffer c color t).totalLines <
    scrollbackLines := hrange.1
  refine ⟨hline, hrange.2, ?_, fun hfollow => ?_⟩
  · rw [htop]
    split_ifs
    · exact topOf_lt hline
    · exact hkept.top
  · rw [putcharOne_follow] at hfollow
    rw [htop, if_pos hfollow]
    rfl

/-- The window is redrawn when the line of the place changes it. -/
theorem inArray_putcharOne (hkept : t.Kept g) (hzero : c ≠ 0) :
    InArray (putcharOneAccesses g.toFramebuffer c color t) ↔
      (c = backspace → t.cursorX ≤ vgaTextWidth) ∧
        (t.followOutput → topOf g.toFramebuffer (t.place.put g.toFramebuffer c).line ≠
          topOf g.toFramebuffer t.totalLines → g.cols ≤ vgaTextWidth) := by
  have hplace := @wordWrap_place g t c color hzero hkept.col
  have hwindow := @wordWrap_window g.toFramebuffer c color t
  rw [putcharOneAccesses, if_neg hzero]
  dsimp only
  generalize wordWrap g.toFramebuffer (putHistory g.toFramebuffer c color t) = u at hplace hwindow
  have hline : u.totalLines = (t.place.put g.toFramebuffer c).line := congrArg Place.line hplace
  have hnew : newTop g.toFramebuffer u =
      topOf g.toFramebuffer (t.place.put g.toFramebuffer c).line := by
    rw [← hline]
    rfl
  have hrange := (@Place.put_inRange g c t.place hkept.line hkept.col).1
  rw [inArray_append, inArray_put hkept, hwindow.1, hwindow.2, hnew]
  apply and_congr_right
  intro _
  by_cases hfollow : t.followOutput
  · rw [imp_iff_right hfollow, hkept.follow hfollow]
    by_cases hmoved : topOf g.toFramebuffer (t.place.put g.toFramebuffer c).line ≠
        topOf g.toFramebuffer t.totalLines
    · rw [if_pos ⟨hfollow, hmoved⟩, imp_iff_right hmoved]
      exact inArray_render (topOf_lt hrange)
    · rw [if_neg fun hboth => hmoved hboth.2]
      exact iff_of_true inArray_nil fun hmoved' => absurd hmoved' hmoved
  · rw [if_neg fun hboth => hfollow hboth.1]
    exact iff_of_true inArray_nil fun hfollow' => absurd hfollow' hfollow

/-- The next line moves the window that follows, unless the screen is not full or the history is. -/
theorem topOf_next_eq (g : Geometry) {p : Place} (hline : p.line < scrollbackLines) :
    topOf g.toFramebuffer p.next.line = topOf g.toFramebuffer p.line ↔
      p.line + 1 < g.rows ∨ scrollbackLines ≤ p.line + 1 := by
  simp only [topOf, Place.next, scrollbackLines] at *
  split_ifs <;> omega

/-- The line before moves it, unless the screen is not full. -/
theorem topOf_pred_eq (g : Geometry) {line : Nat} (hline : 0 < line) :
    topOf g.toFramebuffer (line - 1) = topOf g.toFramebuffer line ↔ line < g.rows := by
  simp only [topOf]
  omega

/-- A character that does not go back can only end the line. -/
theorem staysNarrow_iff_forward (hback : c ≠ backspace) : t.StaysNarrow g c ↔
    (t.Fills g c → t.followOutput →
      t.totalLines + 1 < g.rows ∨ scrollbackLines ≤ t.totalLines + 1) :=
  ⟨fun hnarrow => hnarrow.forward, fun hforward =>
    ⟨hforward, fun hgoes => absurd hgoes hback, fun hgoes => absurd hgoes hback⟩⟩

/-- On a wide screen a character that is no tabulator is safe exactly if it does not scroll. -/
theorem staysNarrow_iff (hkept : t.Kept g) (hzero : c ≠ 0) (htab : c ≠ tab) :
    t.StaysNarrow g c ↔ (c = backspace → t.cursorX ≤ vgaTextWidth) ∧
      (t.followOutput → topOf g.toFramebuffer (t.place.put g.toFramebuffer c).line =
        topOf g.toFramebuffer t.totalLines) := by
  have hnext := topOf_next_eq g (p := t.place) hkept.line
  have hfills : t.Fills g c ↔ c = newline ∨ c ≠ backspace ∧ g.cols ≤ t.cursorX + 1 := by
    rw [Fills, if_neg htab, and_iff_right hzero]
  rw [Place.put, if_neg hzero]
  by_cases hback : c = backspace
  · have hnewline : c ≠ newline := by
      rintro rfl
      exact absurd hback (by decide)
    rw [if_neg hnewline, if_pos hback, imp_iff_right hback]
    constructor
    · intro hnarrow
      refine ⟨hnarrow.back hback, fun hfollow => ?_⟩
      have hup := fun hcol => hnarrow.upward hback hcol hfollow
      by_cases hcol : 0 < t.place.col
      · rw [if_pos hcol]
        rfl
      · rw [if_neg hcol]
        by_cases hline : 0 < t.place.line
        · rw [if_pos hline]
          exact (topOf_pred_eq g hline).mpr (hup (Nat.eq_zero_of_not_pos hcol))
        · rw [if_neg hline]
          rfl
    · rintro ⟨hcursor, htop⟩
      refine ⟨fun hfill => ?_, fun _ => hcursor, fun _ hcol hfollow => ?_⟩
      · rcases hfills.mp hfill with h | h
        · exact absurd h hnewline
        · exact absurd hback h.1
      · have hcol' : ¬ 0 < t.place.col := by
          rw [show t.place.col = 0 from hcol]
          exact Nat.lt_irrefl 0
        have hsame := htop hfollow
        rw [if_neg hcol'] at hsame
        rcases Nat.eq_zero_or_pos t.totalLines with hzero' | hpos
        · rw [hzero']
          exact g.rows_pos
        · rw [if_pos (show 0 < t.place.line from hpos)] at hsame
          exact (topOf_pred_eq g hpos).mp hsame
  · rw [if_neg hback]
    have hcursor : c = backspace → t.cursorX ≤ vgaTextWidth := fun hback' => absurd hback' hback
    rw [staysNarrow_iff_forward hback, hfills, and_iff_right hcursor, and_iff_right (show c ≠ backspace from hback)]
    by_cases hends : c = newline ∨ g.cols ≤ t.cursorX + 1
    · have hplace : (if c = newline then t.place.next
          else if g.cols ≤ t.place.col + 1 then t.place.next
          else ⟨t.place.line, t.place.col + 1⟩) = t.place.next := by
        by_cases hnewline : c = newline
        · rw [if_pos hnewline]
        · rw [if_neg hnewline]
          exact if_pos (hends.resolve_left hnewline)
      rw [hplace, imp_iff_right hends]
      exact imp_congr_right fun _ => hnext.symm
    · have hnewline : c ≠ newline := fun h => hends (.inl h)
      have hroom : ¬ g.cols ≤ t.place.col + 1 := fun h => hends (.inr h)
      rw [if_neg hnewline, if_neg hroom]
      exact iff_of_true (fun hfill => absurd hfill hends) fun _ => rfl

/-- A character that is no tabulator is safe exactly if it accesses nothing outside. -/
theorem inArray_putcharOne_iff (hkept : t.Kept g) (htab : c ≠ tab) :
    InArray (putcharOneAccesses g.toFramebuffer c color t) ↔
      g.cols ≤ vgaTextWidth ∨ t.StaysNarrow g c := by
  by_cases hzero : c = 0
  · subst hzero
    refine iff_of_true inArray_nil (.inr ⟨?_, fun h => absurd h (by decide),
      fun h => absurd h (by decide)⟩)
    rintro (hnewline | hfill)
    · exact absurd hnewline (by decide)
    · exact absurd rfl hfill.1
  rw [inArray_putcharOne hkept hzero, staysNarrow_iff hkept hzero htab]
  have hcol := hkept.col
  by_cases hnarrow : g.cols ≤ vgaTextWidth
  · exact iff_of_true ⟨fun _ => (hcol.trans_le hnarrow).le, fun _ _ => hnarrow⟩ (.inl hnarrow)
  · rw [or_iff_right hnarrow]
    apply and_congr_right
    intro _
    apply imp_congr_right
    intro _
    rw [ne_eq, imp_iff_not hnarrow, not_not]

/-- So many spaces are safe exactly if the line does not end in them, or can. -/
theorem inArray_spaces_iff (hkept : t.Kept g) (hwide : vgaTextWidth < g.cols)
    (hn : n ≤ vgaTextWidth) : InArray (spacesAccesses g.toFramebuffer color n t) ↔
      (g.cols ≤ t.cursorX + n → t.followOutput →
        t.totalLines + 1 < g.rows ∨ scrollbackLines ≤ t.totalLines + 1) := by
  induction n generalizing t with
  | zero => exact iff_of_true inArray_nil fun hfull => absurd hfull (Nat.not_le.mpr hkept.col)
  | succ n ih =>
      have hspace : t.StaysNarrow g space ↔ (g.cols ≤ t.cursorX + 1 → t.followOutput →
          t.totalLines + 1 < g.rows ∨ scrollbackLines ≤ t.totalLines + 1) := by
        have hfills : t.Fills g space ↔ g.cols ≤ t.cursorX + 1 := by
          simp [Fills, space, newline, backspace, tab]
        rw [staysNarrow_iff_forward (by decide), hfills]
      have hplace := @putcharOne_place g t space color hkept.col
      rw [spacesAccesses, inArray_append, inArray_putcharOne_iff hkept (by decide),
        or_iff_right (Nat.not_le.mpr hwide), hspace, ih hkept.putcharOne (Nat.le_of_succ_le hn),
        putcharOne_follow]
      have hput : t.place.put g.toFramebuffer space =
          if g.cols ≤ t.cursorX + 1 then t.place.next else ⟨t.totalLines, t.cursorX + 1⟩ := rfl
      rw [hput] at hplace
      by_cases hfull : g.cols ≤ t.cursorX + 1
      · -- the rest of the spaces do not fill another line
        rw [if_pos hfull] at hplace
        have hcol : (GeckoOS.Terminal.putcharOne g.toFramebuffer space color t).cursorX = 0 :=
          congrArg Place.col hplace
        have hshort : ¬ g.cols ≤ 0 + n := by
          rw [Nat.zero_add]
          exact Nat.not_le.mpr ((Nat.le_of_succ_le hn).trans_lt hwide)
        have hfull' : g.cols ≤ t.cursorX + (n + 1) := by omega
        rw [hcol, imp_iff_right hfull, imp_iff_right hfull',
          and_iff_left fun hrest => absurd hrest hshort]
      · rw [if_neg hfull] at hplace
        have hcol : (GeckoOS.Terminal.putcharOne g.toFramebuffer space color t).cursorX =
          t.cursorX + 1 := congrArg Place.col hplace
        have hline : (GeckoOS.Terminal.putcharOne g.toFramebuffer space color t).totalLines =
          t.totalLines := congrArg Place.line hplace
        rw [hcol, hline, Nat.add_assoc, Nat.add_comm 1 n]
        exact and_iff_right fun hfull' => absurd hfull' hfull

/-- What every other character keeps, a tabulator keeps as well. -/
theorem putchar_keeps {motive : TermState → Prop}
    (hone : ∀ t c, motive t → motive (GeckoOS.Terminal.putcharOne fb c color t))
    (hstart : motive t) : motive (GeckoOS.Terminal.putchar fb c color t) := by
  rw [GeckoOS.Terminal.putchar]
  split_ifs
  · apply List.foldlRecOn _ _ hstart
    exact fun u hu c _ => hone u c hu
  · exact hone t c hstart

theorem TermState.Kept.putchar (hkept : t.Kept g) :
    (GeckoOS.Terminal.putchar g.toFramebuffer c color t).Kept g :=
  putchar_keeps (fun _ _ hkept => hkept.putcharOne) hkept

theorem scrollUp_eq (fb : Framebuffer) : GeckoOS.Terminal.scrollUp fb t =
    { t with
      viewportTop := t.viewportTop - 1
      followOutput :=
        if (t.totalLines : Int) - fb.rows + 1 ≤ t.viewportTop then false else t.followOutput } := by
  have hzero : t.viewportTop = 0 → t.viewportTop - 1 = t.viewportTop := fun h => by rw [h]
  rw [GeckoOS.Terminal.scrollUp]
  split_ifs with hend htop htop
  · rw [hzero htop]
  · rfl
  · rw [hzero htop]
  · rfl

theorem scrollDown_eq (fb : Framebuffer) : GeckoOS.Terminal.scrollDown fb t =
    { t with
      viewportTop :=
        if t.viewportTop + fb.rows ≤ t.totalLines then t.viewportTop + 1 else t.viewportTop
      followOutput :=
        if (t.totalLines : Int) - fb.rows + 1 ≤ t.viewportTop then true else t.followOutput } := by
  rw [GeckoOS.Terminal.scrollDown]
  split_ifs <;> rfl

/-- Scrolling up ends the following. -/
theorem TermState.Kept.scrollUp (hkept : t.Kept g) :
    (GeckoOS.Terminal.scrollUp g.toFramebuffer t).Kept g := by
  have htop := hkept.top
  rw [scrollUp_eq]
  refine ⟨hkept.line, hkept.col, by dsimp only; omega, fun hfollow => ?_⟩
  dsimp only at hfollow
  split_ifs at hfollow with hend
  have hsame := hkept.follow hfollow
  rw [topOf] at hsame
  omega

/-- Scrolling down from a window that is not behind the end follows again at the end. -/
theorem TermState.Kept.scrollDown (hkept : t.Kept g)
    (hsafe : t.viewportTop ≤ topOf g.toFramebuffer t.totalLines) :
    (GeckoOS.Terminal.scrollDown g.toFramebuffer t).Kept g := by
  have htop := hkept.top
  have hline := hkept.line
  have hrows := g.rows_pos
  simp only [topOf, scrollbackLines] at *
  rw [scrollDown_eq]
  refine ⟨hkept.line, hkept.col, ?_, fun hfollow => ?_⟩
  · dsimp only
    split_ifs <;> simp only [scrollbackLines] <;> omega
  · have hsame := hkept.follow
    rw [topOf] at hsame ⊢
    dsimp only at hfollow ⊢
    by_cases hmore : t.viewportTop + g.rows ≤ t.totalLines
    · have hbefore : ¬ (t.totalLines : Int) - g.rows + 1 ≤ t.viewportTop := by omega
      rw [if_neg hbefore] at hfollow
      have hend := hsame hfollow
      omega
    · rw [if_neg hmore]
      omega

theorem topOf_zero (g : Geometry) : topOf g.toFramebuffer 0 = 0 := by
  have hrows := g.rows_pos
  rw [topOf]
  omega

/-- A cleared terminal is in order, whatever it was before. -/
theorem kept_terminalClear (t : TermState) : (terminalClear color t).Kept g :=
  ⟨Nat.succ_pos _, g.cols_pos, Nat.succ_pos _, fun _ => (topOf_zero g).symm⟩

theorem TermState.Kept.call (hkept : t.Kept g) (call : TermCall) (hsafe : t.Safe g call) :
    (t.call g.toFramebuffer call).Kept g := by
  cases call with
  | putchar c color => exact hkept.putchar
  | clear color => exact kept_terminalClear t
  | scrollUp => exact hkept.scrollUp
  | scrollDown => exact hkept.scrollDown hsafe
  | render => exact ⟨hkept.line, hkept.col, hkept.top, hkept.follow⟩

/-- A window that follows is where it belongs. -/
theorem TermState.Kept.window (hkept : t.Kept g) (hfollow : t.followOutput) :
    (t.viewportTop : Int) ≤ max 0 ((t.totalLines : Int) - g.rows + 1) := by
  rw [hkept.follow hfollow, topOf]
  omega

theorem putchar_follow (fb : Framebuffer) :
    (GeckoOS.Terminal.putchar fb c color t).followOutput = t.followOutput :=
  putchar_keeps (motive := fun u => u.followOutput = t.followOutput)
    (fun _ _ hsame => putcharOne_follow.trans hsame) rfl

theorem inArray_spaces_of_narrow (hkept : t.Kept g) (hnarrow : g.cols ≤ vgaTextWidth) (n : Nat) :
    InArray (spacesAccesses g.toFramebuffer color n t) := by
  induction n generalizing t with
  | zero => exact inArray_nil
  | succ n ih =>
      have hfirst : InArray (putcharOneAccesses g.toFramebuffer space color t) :=
        (inArray_putcharOne_iff hkept (by decide)).mpr (.inl hnarrow)
      exact inArray_append.mpr ⟨hfirst, ih hkept.putcharOne⟩

/-- A character accesses nothing outside exactly if it is safe. -/
theorem inArray_putchar_iff (hkept : t.Kept g) :
    InArray (t.accesses g.toFramebuffer (.putchar c color)) ↔
      g.cols ≤ vgaTextWidth ∨ t.StaysNarrow g c := by
  rw [TermState.accesses]
  by_cases htab : c = tab
  · subst htab
    have hnarrow : t.StaysNarrow g tab ↔ (g.cols ≤ t.cursorX + 4 → t.followOutput →
        t.totalLines + 1 < g.rows ∨ scrollbackLines ≤ t.totalLines + 1) := by
      have hfills : t.Fills g tab ↔ g.cols ≤ t.cursorX + 4 := by
        simp [Fills, newline, backspace, tab]
      rw [staysNarrow_iff_forward (by decide), hfills]
    rw [if_pos rfl, hnarrow]
    by_cases hnarrow' : g.cols ≤ vgaTextWidth
    · exact iff_of_true (inArray_spaces_of_narrow hkept hnarrow' 4) (.inl hnarrow')
    · rw [or_iff_right hnarrow']
      exact inArray_spaces_iff hkept (Nat.lt_of_not_le hnarrow') (by decide)
  · rw [if_neg htab]
    exact inArray_putcharOne_iff hkept htab

/-- A call is safe exactly if it leaves everything where it belongs. -/
theorem bounded_iff (hkept : t.Kept g) (call : TermCall) : t.Bounded g call ↔ t.Safe g call := by
  have hline := hkept.line
  have hcol := hkept.col
  have hrows := g.rows_pos
  cases call with
  | putchar c color =>
      have hafter := @TermState.Kept.putchar g t c color hkept
      constructor
      · exact fun hbounded => (inArray_putchar_iff hkept).mp hbounded.2.2.2
      · intro hsafe
        refine ⟨hafter.line, hafter.col, fun hfollow => hafter.window ?_,
          (inArray_putchar_iff hkept).mpr hsafe⟩
        exact (putchar_follow _).trans hfollow
  | clear color =>
      refine iff_of_true ⟨Nat.succ_pos _, g.cols_pos, False.elim, ?_⟩ trivial
      rintro ⟨y, x⟩ hmem
      obtain ⟨row, hrow, hmem⟩ := List.mem_flatMap.mp hmem
      obtain ⟨col, hcol, hplace⟩ := List.mem_map.mp hmem
      obtain ⟨rfl, rfl⟩ := Prod.mk.inj hplace
      exact ⟨List.mem_range.mp hrow, List.mem_range.mp hcol⟩
  | scrollUp =>
      rw [Bounded, TermState.call, scrollUp_eq, Safe, topOf]
      constructor
      · intro hbounded
        have hwindow := hbounded.2.2.1 trivial
        dsimp only at hwindow
        omega
      · intro hsafe
        refine ⟨hline, hcol, fun _ => ?_, inArray_nil⟩
        dsimp only
        omega
  | scrollDown =>
      rw [Bounded, TermState.call, scrollDown_eq, Safe, topOf]
      constructor
      · intro hbounded
        have hwindow := hbounded.2.2.1 trivial
        dsimp only at hwindow
        split_ifs at hwindow <;> omega
      · intro hsafe
        refine ⟨hline, hcol, fun _ => ?_, inArray_nil⟩
        dsimp only
        split_ifs <;> omega
  | render =>
      constructor
      · exact fun hbounded => (inArray_render hkept.top).mp hbounded.2.2.2
      · exact fun hsafe => ⟨hline, hcol, False.elim, (inArray_render hkept.top).mpr hsafe⟩

end Calls

theorem kept_boot (g : Geometry) : boot.Kept g :=
  ⟨Nat.succ_pos _, g.cols_pos, Nat.succ_pos _, fun _ => (topOf_zero g).symm⟩

/-- From boot on, the calls of the terminal leave the place and the window where they belong and
stay inside the history exactly as long as none of them takes a branch that goes wrong. -/
theorem terminal_bounded_iff (g : Geometry) (calls : List TermCall) :
    AtEveryStep (TermState.call g.toFramebuffer) (TermState.Bounded g) boot calls ↔
      AtEveryStep (TermState.call g.toFramebuffer) (TermState.Safe g) boot calls :=
  atEveryStep_iff (fun _ call hkept => bounded_iff hkept call)
    (fun _ call hkept hsafe => hkept.call call hsafe) (kept_boot g)

/-- The framebuffer that the boot code asks for. -/
abbrev geometry1024x768 : Geometry := ⟨fb1024x768, by decide, by decide⟩

/-- A framebuffer of 160 columns and 45 rows. -/
abbrev geometry1280x720 : Geometry := ⟨⟨1280, 720⟩, by decide, by decide⟩

/-- A redraw of the first window reads behind the end of its first row. -/
theorem render_reads_outside : ¬ AtEveryStep (TermState.call geometry1280x720.toFramebuffer)
    (TermState.Bounded geometry1280x720) boot [.render] := by
  intro hall
  have hinside := (hall [] .render (List.prefix_refl _)).2.2.2
  have hmem : (0, 128) ∈ boot.accesses geometry1280x720.toFramebuffer .render := by
    refine List.mem_flatMap.mpr ⟨0, List.mem_filter.mpr ⟨List.mem_range.mpr (by decide), rfl⟩, ?_⟩
    exact List.mem_map.mpr ⟨128, List.mem_range.mpr (by decide), rfl⟩
  exact absurd (hinside _ hmem).2 (by decide)

end GeckoOS.Terminal
