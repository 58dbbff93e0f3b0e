/-
# Clearing the terminal

`terminal_clear` sets the place of the next character and the window back to the beginning.  It
does not set `follow_output` back, and a terminal that was scrolled up does not follow what is
written to it.  The place does not depend on that; the window does, once the text has more lines
than the screen.
-/

import GeckoOS.Terminal.Scrolling

namespace GeckoOS.Terminal

/-- A text is written, each character in a colour. -/
def writeStream (fb : Framebuffer) (t : TermState) (stream : List (UInt8 × UInt8)) : TermState :=
  stream.foldl (fun t char => putchar fb char.1 char.2 t) t

/-- The characters that `putchar` puts for one. -/
def spelled (c : UInt8) : List UInt8 := if c = tab then List.replicate 4 space else [c]

/-- Where a text leads that begins at the first place. -/
def endOfText (g : Geometry) (stream : List (UInt8 × UInt8)) : Place :=
  (stream.flatMap fun char => spelled char.1).foldl (Place.put g.toFramebuffer) ⟨0, 0⟩

/-- The next character goes to the same place, and the same lines are visible. -/
def SameWindow (t u : TermState) : Prop :=
  t.totalLines = u.totalLines ∧ t.cursorX = u.cursorX ∧ t.viewportTop = u.viewportTop

section Streams

variable {g : Geometry} {t : TermState} {c color : UInt8} {stream : List (UInt8 × UInt8)}

theorem spaces_place (hkept : t.Kept g) (n : Nat) :
    ((List.replicate n space).foldl (fun t c => putcharOne g.toFramebuffer c color t) t).place =
      (List.replicate n space).foldl (Place.put g.toFramebuffer) t.place := by
  induction n generalizing t with
  | zero => rfl
  | succ n ih =>
      rw [List.replicate_succ, List.foldl_cons, List.foldl_cons, ih hkept.putcharOne,
        putcharOne_place hkept.col]

theorem putchar_place (hkept : t.Kept g) : (putchar g.toFramebuffer c color t).place =
    (spelled c).foldl (Place.put g.toFramebuffer) t.place := by
  rw [putchar, spelled]
  split_ifs
  · exact spaces_place hkept 4
  · exact putcharOne_place hkept.col

theorem putcharOne_top_of_not_follow (hkept : t.Kept g) (hstays : ¬ t.followOutput) :
    (putcharOne g.toFramebuffer c color t).viewportTop = t.viewportTop := by
  by_cases hzero : c = 0
  · rw [putcharOne, if_pos hzero]
  · rw [putcharOne_top hzero hkept.col, if_neg hstays]

/-- A window that does not follow stays. -/
theorem putchar_top_of_not_follow (hkept : t.Kept g) (hstays : ¬ t.followOutput) :
    (putchar g.toFramebuffer c color t).viewportTop = t.viewportTop := by
  refine (putchar_keeps (motive := fun u => u.Kept g ∧ u.followOutput = t.followOutput ∧
    u.viewportTop = t.viewportTop) ?_ ⟨hkept, rfl, rfl⟩).2.2
  rintro u c ⟨hkept, hfollow, htop⟩
  rw [putcharOne_follow, putcharOne_top_of_not_follow hkept (by rwa [hfollow])]
  exact ⟨hkept.putcharOne, hfollow, htop⟩

theorem writeStream_follow :
    (writeStream g.toFramebuffer t stream).followOutput = t.followOutput := by
  induction stream generalizing t with
  | nil => rfl
  | cons char stream ih => exact ih.trans (putchar_follow _)

theorem writeStream_kept (hkept : t.Kept g) : (writeStream g.toFramebuffer t stream).Kept g := by
  induction stream generalizing t with
  | nil => exact hkept
  | cons char stream ih => exact ih hkept.putchar

/-- The place after a text. -/
theorem writeStream_place (hkept : t.Kept g) : (writeStream g.toFramebuffer t stream).place =
    (stream.flatMap fun char => spelled char.1).foldl (Place.put g.toFramebuffer) t.place := by
  induction stream generalizing t with
  | nil => rfl
  | cons char stream ih =>
      rw [List.flatMap_cons, List.foldl_append, ← @putchar_place g t char.1 char.2 hkept]
      exact ih hkept.putchar

theorem writeStream_top_of_not_follow (hkept : t.Kept g) (hstays : ¬ t.followOutput) :
    (writeStream g.toFramebuffer t stream).viewportTop = t.viewportTop := by
  induction stream generalizing t with
  | nil => rfl
  | cons char stream ih =>
      have hnext := @ih (putchar g.toFramebuffer char.1 char.2 t) hkept.putchar
        (by rwa [putchar_follow])
      exact hnext.trans (putchar_top_of_not_follow hkept hstays)

end Streams

/-- After `terminal_clear`, a text is shown as on a terminal that has just been booted exactly if
the terminal followed its output or the text ends on the first screen. -/
theorem sameWindow_iff (g : Geometry) (t : TermState) (color : UInt8)
    (stream : List (UInt8 × UInt8)) :
    SameWindow (writeStream g.toFramebuffer (terminalClear color t) stream)
        (writeStream g.toFramebuffer boot stream) ↔
      t.followOutput ∨ (endOfText g stream).line < g.rows := by
  have hrows := g.rows_pos
  have hclear := @kept_terminalClear g color t
  have hboot := kept_boot g
  have hplace := @writeStream_place g _ stream hclear
  have hplace' := @writeStream_place g _ stream hboot
  have hfresh := (@writeStream_kept g _ stream hboot).follow writeStream_follow
  have hend : (writeStream g.toFramebuffer (terminalClear color t) stream).place =
      endOfText g stream := hplace
  have hend' : (writeStream g.toFramebuffer boot stream).place = endOfText g stream := hplace'
  have hline := congrArg Place.line hend
  have hline' := congrArg Place.line hend'
  have htotal : (writeStream g.toFramebuffer (terminalClear color t) stream).totalLines =
      (writeStream g.toFramebuffer boot stream).totalLines := hline.trans hline'.symm
  have hcursor : (writeStream g.toFramebuffer (terminalClear color t) stream).cursorX =
      (writeStream g.toFramebuffer boot stream).cursorX :=
    congrArg Place.col (hend.trans hend'.symm)
  rw [SameWindow, and_iff_right htotal, and_iff_right hcursor, hfresh]
  by_cases hfollow : t.followOutput
  · refine iff_of_true ?_ (.inl hfollow)
    rw [(@writeStream_kept g _ stream hclear).follow (writeStream_follow.trans hfollow),
      htotal]
  · rw [or_iff_right hfollow, writeStream_top_of_not_follow hclear hfollow, ← hline']
    change 0 = topOf g.toFramebuffer (writeStream g.toFramebuffer boot stream).totalLines ↔
      (writeStream g.toFramebuffer boot stream).totalLines < g.rows
    rw [topOf]
    omega

/-- So many newlines in the colour 0x0F. -/
def newlines (n : Nat) : List (UInt8 × UInt8) := List.replicate n (newline, 0x0F)

/-- On a terminal that was scrolled up once, the end of 48 lines does not show. -/
theorem not_sameWindow : ¬ SameWindow
    (writeStream fb1024x768 (terminalClear 0x0F (scrollUp fb1024x768 boot)) (newlines 48))
    (writeStream fb1024x768 boot (newlines 48)) := by
  intro hsame
  exact absurd hsame.2.2 (by decide +kernel)

end GeckoOS.Terminal
