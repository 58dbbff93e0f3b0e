/-
# What the terminal shows

A stream of characters is cut into lines: a newline ends one, and so does the character
that fills the last column.  `Wrapped` is the text so cut, with the line that is being
written, which is never full.  `Written` says that the history holds its lines row by row
and that the screen shows the window at the end.

A step keeps this unless it takes one of two branches.  The history has no row for a line
behind row 999, and what is printed then goes over that row again.  And the fast path
finds the column of the character from the cursor behind it, which for a character in the
last column is the start of the next line.
-/

import GeckoOS.Terminal.Terminal
import Mathlib.Algebra.Order.Ring.Nat
import Mathlib.Data.List.GetD
import Mathlib.Tactic.SplitIfs

namespace GeckoOS.Terminal

/-! ## Lines of characters -/

/-- The character in a row and column, a space where there is none. -/
def charIn (lines : List (List UInt8)) (y x : Nat) : UInt8 := (lines.getD y []).getD x space

variable {front : List (List UInt8)} {line : List UInt8} {c : UInt8} {x y : Nat}

theorem charIn_of_lt (hy : y < front.length) : charIn (front ++ [line]) y x = charIn front y x := by
  rw [charIn, List.getD_append _ _ _ _ hy, charIn]

theorem charIn_last : charIn (front ++ [line]) front.length x = line.getD x space := by
  rw [charIn, List.getD_append_right _ _ _ _ le_rfl, Nat.sub_self, List.getD_cons_zero]

theorem charIn_of_le (hy : front.length ≤ y) : charIn front y x = space := by
  rw [charIn, List.getD_eq_default _ _ hy]
  rfl

/-- An empty line at the end shows nowhere. -/
theorem charIn_concat_nil : charIn (front ++ [[]]) y x = charIn front y x := by
  rcases Nat.lt_trichotomy y front.length with hlt | rfl | hgt
  · exact charIn_of_lt hlt
  · rw [charIn_last, charIn_of_le le_rfl]
    rfl
  · rw [charIn_of_le, charIn_of_le hgt.le]
    rw [List.length_append, List.length_singleton]
    exact hgt

theorem getD_concat :
    (line ++ [c]).getD x space = if x = line.length then c else line.getD x space := by
  rcases Nat.lt_trichotomy x line.length with hlt | rfl | hgt
  · rw [List.getD_append _ _ _ _ hlt, if_neg hlt.ne]
  · rw [List.getD_append_right _ _ _ _ le_rfl, Nat.sub_self, if_pos rfl, List.getD_cons_zero]
  · rw [if_neg hgt.ne', List.getD_eq_default, List.getD_eq_default _ _ hgt.le]
    rw [List.length_append, List.length_singleton]
    exact hgt

/-- A character behind the last line shows at its place only. -/
theorem charIn_put : charIn (front ++ [line ++ [c]]) y x =
    if y = front.length ∧ x = line.length then c else charIn (front ++ [line]) y x := by
  rcases Nat.lt_trichotomy y front.length with hlt | rfl | hgt
  · rw [charIn_of_lt hlt, charIn_of_lt hlt, if_neg fun hplace => hlt.ne hplace.1]
  · simp only [charIn_last, getD_concat, true_and]
  · rw [charIn_of_le, charIn_of_le, if_neg fun hplace => hgt.ne' hplace.1]
    · rw [List.length_append, List.length_singleton]
      exact hgt
    · rw [List.length_append, List.length_singleton]
      exact hgt

/-! ## Wrapped text -/

/-- A text in lines of at most `width` characters. -/
structure Wrapped (width : Nat) where
  /-- The lines that ended. -/
  done : List (List UInt8)
  /-- The line that is being written. -/
  current : List UInt8
  hcurrent : current.length < width

namespace Wrapped

variable {width : Nat} (w : Wrapped width)

/-- All lines, the newest last. -/
def lines : List (List UInt8) := w.done ++ [w.current]

/-- The current line is ended. -/
def endLine (line : List UInt8) : Wrapped width :=
  ⟨w.done ++ [line], [], Nat.zero_lt_of_lt w.hcurrent⟩

/-- One more character. -/
def put (c : UInt8) : Wrapped width :=
  if c = newline then w.endLine w.current
  else if hfull : w.current.length + 1 < width then
    ⟨w.done, w.current ++ [c], by rwa [List.length_append, List.length_singleton]⟩
  else w.endLine (w.current ++ [c])

theorem length_lines : w.lines.length = w.done.length + 1 := by
  rw [lines, List.length_append, List.length_singleton]

theorem charIn_endLine (line : List UInt8) :
    charIn (w.endLine line).lines y x = charIn (w.done ++ [line]) y x := charIn_concat_nil

/-- A newline changes no character. -/
theorem charIn_newline : charIn (w.put newline).lines y x = charIn w.lines y x := by
  rw [put, if_pos rfl, charIn_endLine, lines]

/-- Any other character is put behind the current line. -/
theorem charIn_char (hc : c ≠ newline) : charIn (w.put c).lines y x =
    if y = w.done.length ∧ x = w.current.length then c else charIn w.lines y x := by
  rw [put, if_neg hc, show w.lines = w.done ++ [w.current] from rfl, ← charIn_put]
  split_ifs with hroom
  · rfl
  · exact charIn_endLine w _

theorem done_endLine (line : List UInt8) : (w.endLine line).done = w.done ++ [line] := rfl

end Wrapped

/-! ## The terminal after a text -/

/-- A framebuffer of 128 columns and 48 rows. -/
abbrev fb1024x768 : Framebuffer := ⟨1024, 768⟩

/-- The history holds the text, and the screen shows its end. -/
structure Written (t : TermState) (w : Wrapped 128) : Prop where
  total : t.totalLines = w.done.length
  total_lt : w.done.length < scrollbackLines
  cursor : t.cursorX = w.current.length
  top : t.viewportTop = w.done.length - 47
  follow : t.followOutput = true
  history : ∀ y x, x < 128 → (t.history y x).char = charIn w.lines y x
  screen : ∀ r < 48, ∀ x < 128, (t.screen r x).char = charIn w.lines (t.viewportTop + r) x

/-- A newline or a printable character. -/
def IsText (c : UInt8) : Prop := c = newline ∨ 0x20 ≤ c ∧ c ≤ 0x7E

/-- The character ends the line. -/
def EndsLine (t : TermState) (c : UInt8) : Prop := c = newline ∨ t.cursorX = 127

/-- The next step takes neither of the branches that go wrong. -/
structure Sound (t : TermState) (c : UInt8) : Prop where
  room : EndsLine t c → t.totalLines + 1 < scrollbackLines
  drawn : t.cursorX = 127 → c = newline ∨ c = space ∨ 47 ≤ t.totalLines

theorem setAt_apply {α : Type} (table : Nat → Nat → α) (y x : Nat) (a : α) (y' x' : Nat) :
    setAt table y x a y' x' = if y' = y ∧ x' = x then a else table y' x' := by
  rw [setAt]
  by_cases hy : y' = y
  · subst hy
    rw [Function.update_self]
    by_cases hx : x' = x
    · rw [hx, Function.update_self, if_pos ⟨rfl, rfl⟩]
    · rw [Function.update_of_ne hx, if_neg fun hplace => hx hplace.2]
  · rw [Function.update_of_ne hy, if_neg fun hplace => hy hplace.1]

theorem newTop_eq (t : TermState) : newTop fb1024x768 t = t.totalLines - 47 := by
  rw [newTop, show fb1024x768.rows = 48 from rfl]
  omega

/-- The history after a character, before the screen is changed. -/
structure Put (t t' : TermState) (w w' : Wrapped 128) : Prop where
  total : t'.totalLines = w'.done.length
  total_lt : w'.done.length < scrollbackLines
  cursor : t'.cursorX = w'.current.length
  top : t'.viewportTop = t.viewportTop
  follow : t'.followOutput = true
  history : ∀ y x, x < 128 → (t'.history y x).char = charIn w'.lines y x
  screen : t'.screen = t.screen

variable {t t' : TermState} {w w' : Wrapped 128} {color : UInt8}

theorem wordWrap_eq (hcursor : t.cursorX < 128) : wordWrap fb1024x768 t = t :=
  if_neg (Nat.not_le.mpr hcursor)

theorem wordWrap_full (hfull : 128 ≤ t.cursorX) : wordWrap fb1024x768 t = nextLine t :=
  if_pos hfull

theorem nextLine_total {n : Nat} (hroom : n + 1 < scrollbackLines) (htotal : t.totalLines = n) :
    (nextLine t).totalLines = n + 1 := by
  subst htotal
  exact if_neg (Nat.not_le.mpr hroom)

theorem putHistory_newline : putHistory fb1024x768 newline color t =
    nextLine
      { t with
        history := fun y x =>
          if y = t.totalLines ∧ t.cursorX ≤ x ∧ x < fb1024x768.cols ∧ x < vgaTextWidth then
            ⟨space, color⟩
          else t.history y x } := if_pos rfl

theorem putHistory_char (hnewline : c ≠ newline) (hback : c ≠ backspace)
    (hcursor : t.cursorX < 128) : putHistory fb1024x768 c color t =
      { t with
        history := setAt t.history t.totalLines t.cursorX ⟨c, color⟩
        cursorX := t.cursorX + 1 } := by
  rw [putHistory, if_neg hnewline, if_neg hback, if_pos hcursor]

/-- A newline leaves spaces behind the line. -/
theorem Written.put_newline (hwritten : Written t w) (hsound : Sound t newline) :
    Put t (wordWrap fb1024x768 (putHistory fb1024x768 newline color t)) w (w.put newline) := by
  have hroom := hsound.room (.inl rfl)
  have hdone : (w.put newline).done.length = w.done.length + 1 := by
    rw [Wrapped.put, if_pos rfl, Wrapped.done_endLine, List.length_append, List.length_singleton]
  rw [putHistory_newline, wordWrap_eq (Nat.zero_lt_succ _)]
  refine ⟨?_, ?_, ?_, rfl, hwritten.follow, fun y x hx => ?_, rfl⟩
  · rw [hdone, ← hwritten.total]
    exact nextLine_total hroom rfl
  · rwa [hdone, ← hwritten.total]
  · rw [Wrapped.put, if_pos rfl]
    rfl
  · rw [Wrapped.charIn_newline, nextLine]
    dsimp only
    split_ifs with hblank
    · obtain ⟨rfl, hbehind, -⟩ := hblank
      rw [hwritten.cursor] at hbehind
      rw [hwritten.total, Wrapped.lines, charIn_last, List.getD_eq_default _ _ hbehind]
    · exact hwritten.history y x hx

/-- A character is put behind the line, which ends if it is full. -/
theorem Written.put_char (hwritten : Written t w) (hnewline : c ≠ newline) (hback : c ≠ backspace)
    (hsound : Sound t c) :
    Put t (wordWrap fb1024x768 (putHistory fb1024x768 c color t)) w (w.put c) := by
  have hcurrent := w.hcurrent
  rw [← hwritten.cursor] at hcurrent
  have hhistory : ∀ y x, x < 128 →
      (setAt t.history t.totalLines t.cursorX ⟨c, color⟩ y x).char =
        charIn (w.put c).lines y x := by
    intro y x hx
    rw [Wrapped.charIn_char w hnewline, setAt_apply, hwritten.total, hwritten.cursor]
    split_ifs
    · rfl
    · exact hwritten.history y x hx
  rw [putHistory_char hnewline hback hcurrent]
  by_cases hroom : t.cursorX + 1 < 128
  · have hput : w.put c = ⟨w.done, w.current ++ [c], by
        rwa [List.length_append, List.length_singleton, ← hwritten.cursor]⟩ := by
      rw [hwritten.cursor] at hroom
      rw [Wrapped.put, if_neg hnewline, dif_pos hroom]
    rw [wordWrap_eq hroom]
    refine ⟨?_, ?_, ?_, rfl, hwritten.follow, hhistory, rfl⟩
    · rw [hput]
      exact hwritten.total
    · rw [hput]
      exact hwritten.total_lt
    · rw [hput, List.length_append, List.length_singleton, ← hwritten.cursor]
  · have hput : w.put c = w.endLine (w.current ++ [c]) := by
      rw [hwritten.cursor] at hroom
      rw [Wrapped.put, if_neg hnewline, dif_neg hroom]
    have hdone : (w.put c).done.length = w.done.length + 1 := by
      rw [hput, Wrapped.done_endLine, List.length_append, List.length_singleton]
    have hnext := hsound.room (.inr (by omega))
    rw [wordWrap_full (Nat.le_of_not_lt hroom)]
    refine ⟨?_, ?_, ?_, rfl, hwritten.follow, hhistory, rfl⟩
    · rw [hdone, ← hwritten.total]
      exact nextLine_total hnext rfl
    · rwa [hdone, ← hwritten.total]
    · rw [hput]
      rfl

/-- When the window moves, all of it is drawn. -/
theorem Put.moved (hput : Put t t' w w') (hmoved : newTop fb1024x768 t' ≠ t'.viewportTop) :
    Written (updateScreen fb1024x768 c color t') w' := by
  have htop : newTop fb1024x768 t' = w'.done.length - 47 := by rw [newTop_eq, hput.total]
  have hlt := hput.total_lt
  rw [updateScreen, if_pos ⟨hput.follow, hmoved⟩]
  refine ⟨hput.total, hlt, hput.cursor, htop, hput.follow, hput.history, fun r hr x hx => ?_⟩
  have hrow : newTop fb1024x768 t' + r < scrollbackLines := by
    rw [htop]
    simp only [scrollbackLines] at hlt ⊢
    omega
  exact (congrArg Cell.char (if_pos ⟨hr, hrow, hx⟩)).trans (hput.history _ x hx)

/-- When it does not, one character is enough. -/
theorem Put.kept (hput : Put t t' w w') (hkept : newTop fb1024x768 t' = t'.viewportTop)
    (hscreen : ∀ r < 48, ∀ x < 128, ((drawChanged fb1024x768 c color t').screen r x).char =
      charIn w'.lines (t'.viewportTop + r) x) :
    Written (updateScreen fb1024x768 c color t') w' := by
  have hsame : ∀ u, drawChanged fb1024x768 c color t' = u → u = { t' with screen := u.screen } := by
    intro u hu
    rw [← hu, drawChanged]
    split_ifs <;> rfl
  have hdraw := hsame _ rfl
  rw [updateScreen, if_neg fun hmoved => hmoved.2 hkept, hdraw]
  refine ⟨hput.total, hput.total_lt, hput.cursor, ?_, hput.follow, hput.history, hscreen⟩
  rw [← hput.total, ← newTop_eq, hkept]

/-- The fast path draws in front of the cursor. -/
theorem drawChanged_screen (hnewline : c ≠ newline) (hback : c ≠ backspace)
    (hkept : newTop fb1024x768 t = t.viewportTop) :
    (drawChanged fb1024x768 c color t).screen =
      setAt t.screen (t.totalLines - t.viewportTop) (t.cursorX - 1)
        ⟨c, vgaFgToRgb color, vgaBgToRgb color⟩ := by
  rw [newTop_eq] at hkept
  have hrow : ((t.totalLines : Int) - t.viewportTop).toNat = t.totalLines - t.viewportTop := by
    omega
  have hcolumn : (if 0 < t.cursorX then t.cursorX - 1 else 0) = t.cursorX - 1 := by
    split_ifs <;> omega
  have hinside : 0 ≤ (t.totalLines : Int) - t.viewportTop ∧
      (t.totalLines : Int) - t.viewportTop < (fb1024x768.rows : Nat) := by
    rw [show fb1024x768.rows = 48 from rfl]
    omega
  rw [drawChanged]
  rw [if_pos hinside, if_neg hback, if_pos hnewline, hrow, hcolumn]
  rfl

theorem drawChanged_newline : drawChanged fb1024x768 newline color t = t := by
  have hback : newline ≠ backspace := by decide
  simp only [drawChanged, hback, ne_eq, not_true_eq_false, if_false, ite_self]

/-- What a step draws is what it put into the history. -/
theorem Written.drawn (hwritten : Written t w) (hnewline : c ≠ newline) (hback : c ≠ backspace)
    (hsound : Sound t c) (hput : Put t t' w (w.put c))
    (hkept : newTop fb1024x768 t' = t'.viewportTop) {r x : Nat} (hr : r < 48) (hx : x < 128) :
    ((drawChanged fb1024x768 c color t').screen r x).char =
      charIn (w.put c).lines (t'.viewportTop + r) x := by
  have htop := hkept
  rw [newTop_eq, hput.total] at htop
  rw [drawChanged_screen hnewline hback hkept, setAt_apply, Wrapped.charIn_char w hnewline,
    hput.screen, hput.total, hput.cursor]
  have hold := hwritten.screen r hr x hx
  rw [← hput.top] at hold
  by_cases hroom : w.current.length + 1 < 128
  · have hdone : (w.put c).done = w.done := by
      rw [Wrapped.put, if_neg hnewline, dif_pos hroom]
    have hcursor : (w.put c).current.length - 1 = w.current.length := by
      rw [Wrapped.put, if_neg hnewline, dif_pos hroom, List.length_append, List.length_singleton,
        Nat.add_sub_cancel]
    rw [hdone, hcursor]
    have hplace : (r = w.done.length - t'.viewportTop ∧ x = w.current.length) ↔
        (t'.viewportTop + r = w.done.length ∧ x = w.current.length) := by
      rw [hdone] at htop
      omega
    simp only [hplace]
    split_ifs
    · rfl
    · exact hold
  · -- A full line: what is drawn is a space, and so is what it is drawn over.
    have hput' : w.put c = w.endLine (w.current ++ [c]) := by
      rw [Wrapped.put, if_neg hnewline, dif_neg hroom]
    have hdone : (w.put c).done.length = w.done.length + 1 := by
      rw [hput', Wrapped.done_endLine, List.length_append, List.length_singleton]
    have hcurrent := w.hcurrent
    have hspace : c = space := by
      rcases hsound.drawn (by rw [hwritten.cursor]; omega) with h | h | h
      · exact absurd h hnewline
      · exact h
      · rw [hwritten.total] at h
        rw [hdone, hput.top, hwritten.top] at htop
        omega
    have hlength : w.lines.length = w.done.length + 1 := Wrapped.length_lines w
    split_ifs with hdraw hplace hplace
    · rw [hspace]
    · have hrow : w.lines.length ≤ t'.viewportTop + r := by
        rw [hdone] at htop hdraw
        omega
      rw [charIn_of_le hrow, hspace]
    · rw [hold, hplace.1, Wrapped.lines, charIn_last, List.getD_eq_default _ _ hplace.2.ge, hspace]
    · exact hold

/-- One step of the terminal. -/
theorem Written.putchar (hwritten : Written t w) (htext : IsText c) (hsound : Sound t c) :
    Written (GeckoOS.Terminal.putchar fb1024x768 c color t) (w.put c) := by
  have hplain : c ≠ backspace ∧ c ≠ tab ∧ c ≠ 0 := by
    rcases htext with rfl | hprintable
    · decide
    · refine ⟨?_, ?_, ?_⟩
      · rintro rfl
        exact absurd hprintable.1 (by decide)
      · rintro rfl
        exact absurd hprintable.1 (by decide)
      · rintro rfl
        exact absurd hprintable.1 (by decide)
  obtain ⟨hback, htab, hzero⟩ := hplain
  rw [GeckoOS.Terminal.putchar, if_neg htab, putcharOne, if_neg hzero]
  by_cases hnewline : c = newline
  · subst hnewline
    have hput := @Written.put_newline t w color hwritten hsound
    by_cases hmoved : newTop fb1024x768
        (wordWrap fb1024x768 (putHistory fb1024x768 newline color t)) =
          (wordWrap fb1024x768 (putHistory fb1024x768 newline color t)).viewportTop
    · refine hput.kept hmoved fun r hr x hx => ?_
      rw [Wrapped.charIn_newline, hput.top, ← hwritten.screen r hr x hx, ← hput.screen,
        drawChanged_newline]
    · exact hput.moved hmoved
  · have hput := @Written.put_char c t w color hwritten hnewline hback hsound
    by_cases hmoved : newTop fb1024x768 (wordWrap fb1024x768 (putHistory fb1024x768 c color t)) =
        (wordWrap fb1024x768 (putHistory fb1024x768 c color t)).viewportTop
    · exact hput.kept hmoved fun r hr x hx =>
        hwritten.drawn hnewline hback hsound hput hmoved hr hx
    · exact hput.moved hmoved

/-! ## Runs -/

/-- A text with nothing in it. -/
def Wrapped.empty : Wrapped 128 := ⟨[], [], by decide⟩

/-- The lines of a text. -/
def wrap (text : List UInt8) : List (List UInt8) :=
  (text.foldl (fun w c => w.put c) Wrapped.empty).lines

/-- The terminal, cleared and then written to, with the steps that are sound. -/
inductive Reached (start : TermState) (clearColor : UInt8) : TermState → List UInt8 → Prop
  | cleared : Reached start clearColor (terminalClear clearColor start) []
  | put {t : TermState} {text : List UInt8} (hreached : Reached start clearColor t text)
      (c color : UInt8) (htext : IsText c) (hsound : Sound t c) :
      Reached start clearColor (putchar fb1024x768 c color t) (text ++ [c])

/-- The history up to `total_lines` is the last `SCROLLBACK_LINES` lines, and the window the
last `fb_rows` of them. -/
structure Shows (t : TermState) (lines : List (List UInt8)) : Prop where
  total : t.totalLines + 1 = min lines.length scrollbackLines
  history : ∀ y < min lines.length scrollbackLines, ∀ x < 128,
    (t.history y x).char = charIn (lines.drop (lines.length - scrollbackLines)) y x
  screen : ∀ y < min lines.length 48, ∀ x < 128,
    (t.screen y x).char = charIn (lines.drop (lines.length - 48)) y x

theorem charIn_drop (front : List (List UInt8)) (n y x : Nat) :
    charIn (front.drop n) y x = charIn front (n + y) x := by
  have hline : (front.drop n).getD y [] = front.getD (n + y) [] := by
    rw [List.getD_eq_getElem?_getD, List.getD_eq_getElem?_getD, List.getElem?_drop]
  rw [charIn, charIn, hline]

theorem Written.shows (hwritten : Written t w) : Shows t w.lines := by
  have hlt := hwritten.total_lt
  have hlength := Wrapped.length_lines w
  simp only [scrollbackLines] at hlt
  refine ⟨?_, fun y _ x hx => ?_, fun y hy x hx => ?_⟩
  · rw [hwritten.total, hlength, scrollbackLines]
    omega
  · rw [charIn_drop, hlength, show w.done.length + 1 - scrollbackLines = 0 from by
      rw [scrollbackLines]; omega, Nat.zero_add]
    exact hwritten.history y x hx
  · have htop : t.viewportTop = w.lines.length - 48 := by
      rw [hwritten.top, hlength]
      omega
    rw [charIn_drop, ← htop]
    exact hwritten.screen y (by omega) x hx

theorem written_cleared (start : TermState) (hfollow : start.followOutput = true) (color : UInt8) :
    Written (terminalClear color start) Wrapped.empty := by
  have hblank : ∀ y x, charIn Wrapped.empty.lines y x = space := fun _ _ => charIn_concat_nil
  refine ⟨rfl, by decide, rfl, rfl, hfollow, fun y x _ => ?_, fun r _ x _ => ?_⟩
  · rw [hblank]
    rfl
  · rw [hblank]
    rfl

/-- As long as no step takes a branch that goes wrong, the terminal shows the text. -/
theorem reached_shows (start : TermState) (hfollow : start.followOutput = true)
    (clearColor : UInt8) {text : List UInt8} (hreached : Reached start clearColor t text) :
    Shows t (wrap text) := by
  have hwritten : Written t (text.foldl (fun w c => w.put c) Wrapped.empty) := by
    induction hreached with
    | cleared => exact written_cleared start hfollow clearColor
    | put _ c color htext hsound ih =>
        rw [List.foldl_append, List.foldl_cons, List.foldl_nil]
        exact ih.putchar htext hsound
  exact hwritten.shows

/-! ## Two texts -/

/-- A terminal that nothing was written to. -/
def boot : TermState := ⟨fun _ _ => ⟨0, 0⟩, 0, 0, 0, true, 0, 0, fun _ _ => ⟨0, 0, 0⟩⟩

theorem reached_shows_hi :
    boot.followOutput = true ∧
      Shows (putchar fb1024x768 0x69 0x0F (putchar fb1024x768 newline 0x0F
        (putchar fb1024x768 0x48 0x0F (terminalClear 0x0F boot))))
      (wrap [0x48, newline, 0x69]) := by
  have hcleared : Reached boot 0x0F (terminalClear 0x0F boot) [] := .cleared
  have hfirst := hcleared.put 0x48 0x0F (.inr (by decide))
    ⟨fun _ => by decide, fun h => absurd h (by decide)⟩
  have hsecond := Reached.put hfirst newline 0x0F (.inl rfl)
    ⟨fun _ => by decide, fun h => absurd h (by decide)⟩
  have hthird := Reached.put hsecond 0x69 0x0F (.inr (by decide))
    ⟨fun _ => by decide, fun h => absurd h (by decide)⟩
  exact ⟨rfl, reached_shows boot rfl 0x0F hthird⟩

/-- A full line: its last character is not where it belongs. -/
theorem full_line_not_shown :
    ¬ Shows ((List.replicate 128 0x41).foldl (fun t c => putchar fb1024x768 c 0x0F t)
      (terminalClear 0x0F boot)) (wrap (List.replicate 128 0x41)) := by
  intro hshows
  have hcell := hshows.screen 0 (by decide +kernel) 127 (by decide)
  exact absurd hcell (by decide +kernel)

end GeckoOS.Terminal
