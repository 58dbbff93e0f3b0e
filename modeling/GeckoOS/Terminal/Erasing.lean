/-
# Taking a line back from the screen

When an arrow key replaces the line, `input` erases what it printed.  It counts on from the line
and the column where it began, 128 columns to a line, while `putchar` went on from character to
character.  The two agree in the table of 1000 lines.  Behind its last place `putchar` begins the
last line again, and the loop does not.

The framebuffer here is one of 1024x768, where a line of the screen is as wide as the table.
-/

import GeckoOS.Terminal.LineEditor

namespace GeckoOS.Terminal

open GeckoOS.Math

/-- A call of `input` on a framebuffer of 1024x768, with the next character somewhere in the
table. -/
structure Prompt extends InputCall where
  full : toInputCall.screen.toFramebuffer = fb1024x768
  line_lt : toInputCall.term.totalLines < scrollbackLines
  col_lt : toInputCall.term.cursorX < vgaTextWidth

/-- How many entries lie before the line. -/
def Prompt.first (p : Prompt) : Nat := p.startLine * 128 + p.startX

/-- The entries of the table, one line after the other. -/
def cellAt (i : Nat) : Nat × Nat := (i / 128, i % 128)

/-- Where the next character goes when so many entries lie before it. -/
def placeAt (i : Nat) : Place := if i < 128000 then ⟨i / 128, i % 128⟩ else ⟨999, 0⟩

namespace InputState

/-- The line that an arrow key recalls. -/
def recalled (call : InputCall) (sc : UInt8) (s : InputState) : List UInt8 :=
  if s.nextIdx sc = 0 then if sc = keyUp then s.line else s.saved.text call.limit
  else (Marked.known (s.history.entryAt (s.nextIdx sc))).text call.limit

/-- The erase loop writes just the entries where the line is shown, all of them inside the table
and holding the line, and the first character of the line recalled goes to where the line
began. -/
structure ErasesLine (call : InputCall) (s : InputState) (key : KeyPress) : Prop where
  shown : s.eraseCells call = s.shown.flatten
  inside : InArray (s.eraseCells call)
  holds : ((s.eraseCells call).map fun cell => s.term.history cell.1 cell.2) =
    s.line.map fun c => ⟨c, call.color⟩
  begins : ∀ cells, (s.step call key).shown.head? = some cells →
    cells = [(call.startLine, call.startX)]

/-- If the key recalls a line, the line shown is erased. -/
def ErasesRight (call : InputCall) (s : InputState) (key : KeyPress) : Prop :=
  s.done = false → key.meaning = some .up ∨ key.meaning = some .down → s.ErasesLine call key

/-- A line of characters without control characters ends in the table. -/
def StaysInTable (p : Prompt) (text : List UInt8) : Prop :=
  (∀ c ∈ text, 0x20 ≤ c) ∧ p.first + text.length ≤ 128000

/-- The key does not lead behind the end of the table, and recalls no control characters. -/
def KeepsInTable (p : Prompt) (s : InputState) : EditKey → Prop
  | .up => (s.browseIdx = 0 → s.buffCount < 512) ∧ StaysInTable p (s.recalled p.toInputCall keyUp)
  | .down => StaysInTable p (s.recalled p.toInputCall keyDown)
  | .enter => True
  | .erase => 0 < s.buffCount → p.first + s.buffCount < 128000
  | .char _ => s.buffCount < p.limit → p.first + s.buffCount < 128000

/-- The same of any key. -/
def SafeToErase (p : Prompt) (s : InputState) (key : KeyPress) : Prop :=
  s.done = false → ∀ meant, key.meaning = some meant → s.KeepsInTable p meant

end InputState

/-! ## Places -/

section Places

variable {i j : Nat} {c color : UInt8} {t : TermState} {fb : Framebuffer}
  {g : Geometry} {text : List UInt8}

theorem cellAt_ne (hne : i ≠ j) : cellAt i ≠ cellAt j := by
  intro hsame
  have hrow : i / 128 = j / 128 := congrArg Prod.fst hsame
  have hcol : i % 128 = j % 128 := congrArg Prod.snd hsame
  omega

theorem setAt_same {table : Nat → Nat → Entry} {e : Entry} :
    setAt table (cellAt i).1 (cellAt i).2 e (cellAt i).1 (cellAt i).2 = e := by
  rw [setAt_apply]
  exact if_pos ⟨rfl, rfl⟩

theorem setAt_of_ne {table : Nat → Nat → Entry} {e : Entry} (hne : j ≠ i) :
    setAt table (cellAt i).1 (cellAt i).2 e (cellAt j).1 (cellAt j).2 =
      table (cellAt j).1 (cellAt j).2 :=
  setAt_frame (cellAt_ne hne)

theorem cellAt_inside (hi : i < 128000) :
    (cellAt i).1 < scrollbackLines ∧ (cellAt i).2 < vgaTextWidth :=
  ⟨Nat.div_lt_of_lt_mul hi, Nat.mod_lt _ (by decide)⟩

theorem placeAt_of_lt (hi : i < 128000) : placeAt i = ⟨i / 128, i % 128⟩ := if_pos hi

/-- A character that is not a control character. -/
theorem control_ne (hchar : 0x20 ≤ c) : c ≠ 0 ∧ c ≠ newline ∧ c ≠ backspace ∧ c ≠ tab := by
  refine ⟨?_, ?_, ?_, ?_⟩ <;> rintro rfl <;> exact absurd hchar (by decide)

theorem put_placeAt (hi : i < 128000) (hchar : 0x20 ≤ c) :
    (placeAt i).put fb1024x768 c = placeAt (i + 1) := by
  obtain ⟨hzero, hnewline, hback, -⟩ := control_ne hchar
  rw [placeAt_of_lt hi, Place.put, if_neg hzero, if_neg hnewline, if_neg hback]
  change (if 128 ≤ i % 128 + 1 then Place.next ⟨i / 128, i % 128⟩ else ⟨i / 128, i % 128 + 1⟩) = _
  by_cases hlast : 128 ≤ i % 128 + 1
  · rw [if_pos hlast]
    change Place.mk (if 1000 ≤ i / 128 + 1 then 999 else i / 128 + 1) 0 = _
    by_cases hend : i + 1 < 128000
    · have hrow : (i + 1) / 128 = i / 128 + 1 := by omega
      have hcol : (i + 1) % 128 = 0 := by omega
      rw [placeAt_of_lt hend, hrow, hcol, if_neg (by omega)]
    · rw [placeAt, if_neg hend, if_pos (by omega)]
  · have hrow : (i + 1) / 128 = i / 128 := by omega
    have hcol : (i + 1) % 128 = i % 128 + 1 := by omega
    rw [if_neg hlast, placeAt_of_lt (by omega), hrow, hcol]

theorem put_backspace (hi : i + 1 < 128000) :
    (placeAt (i + 1)).put fb1024x768 backspace = placeAt i := by
  have hzero : backspace ≠ 0 := by decide
  have hnewline : backspace ≠ newline := by decide
  rw [placeAt_of_lt hi, placeAt_of_lt (Nat.lt_of_succ_lt hi), Place.put, if_neg hzero,
    if_neg hnewline, if_pos rfl]
  dsimp only
  by_cases hcol : 0 < (i + 1) % 128
  · have hrow : (i + 1) / 128 = i / 128 := by omega
    have hpred : (i + 1) % 128 - 1 = i % 128 := by omega
    rw [if_pos hcol, hrow, hpred]
  · have hrow : (i + 1) / 128 - 1 = i / 128 := by omega
    have hpred : i % 128 = 127 := by omega
    rw [if_neg hcol, if_pos (by omega), hrow, hpred]
    rfl

/-! ## Printing a line -/

theorem at_cell (hplace : t.place = placeAt i) (hi : i < 128000) :
    t.totalLines = (cellAt i).1 ∧ t.cursorX = (cellAt i).2 := by
  rw [placeAt_of_lt hi] at hplace
  exact ⟨congrArg Place.line hplace, congrArg Place.col hplace⟩

/-- A character goes to the place where it is shown, and nowhere else. -/
theorem history_char (hchar : 0x20 ≤ c) (hplace : t.place = placeAt i) (hi : i < 128000) :
    (putchar fb c color t).history = setAt t.history (cellAt i).1 (cellAt i).2 ⟨c, color⟩ := by
  obtain ⟨hzero, hnewline, hback, htab⟩ := control_ne hchar
  obtain ⟨hrow, hcol⟩ := at_cell hplace hi
  rw [putchar, if_neg htab, putcharOne_history hzero, putHistory, if_neg hnewline, if_neg hback,
    hrow, hcol]
  exact if_pos (cellAt_inside hi).2

theorem charCells_char (hchar : 0x20 ≤ c) (hplace : t.place = placeAt i) (hi : i < 128000) :
    charCells fb c color t = [cellAt i] := by
  obtain ⟨hzero, hnewline, hback, htab⟩ := control_ne hchar
  obtain ⟨hrow, hcol⟩ := at_cell hplace hi
  rw [charCells, spelled, if_neg htab, putCells, if_neg hzero, putAccesses, if_neg hnewline,
    if_neg hback, hrow, hcol, if_pos (cellAt_inside hi).2]
  rfl

/-- And the next one goes to the next place. -/
theorem place_char (hfull : g.toFramebuffer = fb1024x768) (hchar : 0x20 ≤ c)
    (hplace : t.place = placeAt i) (hi : i < 128000) :
    (putchar g.toFramebuffer c color t).place = placeAt (i + 1) := by
  have hcursor : t.cursorX < g.cols := by
    rw [hfull, (at_cell hplace hi).2]
    exact (cellAt_inside hi).2
  rw [putchar, if_neg (control_ne hchar).2.2.2, putcharOne_place hcursor, hfull, hplace,
    put_placeAt hi hchar]

/-- The characters of a text. -/
theorem place_text (hfull : g.toFramebuffer = fb1024x768) (hchars : ∀ c ∈ text, 0x20 ≤ c)
    (hplace : t.place = placeAt i) (hfits : i + text.length ≤ 128000) :
    (writeStream g.toFramebuffer t (text.map fun c => (c, color))).place =
      placeAt (i + text.length) := by
  induction text generalizing t i with
  | nil => exact hplace
  | cons c text ih =>
      rw [List.length_cons] at hfits ⊢
      rw [List.forall_mem_cons] at hchars
      have hnext := @place_char i c color t g hfull hchars.1 hplace (by omega)
      have hrest := ih hchars.2 hnext (by omega)
      rw [Nat.add_right_comm, Nat.add_assoc] at hrest
      exact hrest

theorem textCells_text (hfull : g.toFramebuffer = fb1024x768) (hchars : ∀ c ∈ text, 0x20 ≤ c)
    (hplace : t.place = placeAt i) (hfits : i + text.length ≤ 128000) :
    textCells g.toFramebuffer color text t =
      (List.range text.length).map fun k => [cellAt (i + k)] := by
  induction text generalizing t i with
  | nil => rfl
  | cons c text ih =>
      rw [List.length_cons] at hfits
      rw [List.forall_mem_cons] at hchars
      have hnext := @place_char i c color t g hfull hchars.1 hplace (by omega)
      rw [textCells, charCells_char hchars.1 hplace (by omega), ih hchars.2 hnext (by omega),
        List.length_cons, List.range_succ_eq_map, List.map_cons, List.map_map, Nat.add_zero]
      congr 1
      apply List.map_congr_left
      intro k _
      rw [Function.comp_apply, Nat.succ_eq_add_one, Nat.add_right_comm, Nat.add_assoc]

/-- What lies before a text is not changed by it. -/
theorem history_before (hfull : g.toFramebuffer = fb1024x768) (hchars : ∀ c ∈ text, 0x20 ≤ c)
    (hplace : t.place = placeAt i) (hfits : i + text.length ≤ 128000) (hj : j < i) :
    (writeStream g.toFramebuffer t (text.map fun c => (c, color))).history
      (cellAt j).1 (cellAt j).2 = t.history (cellAt j).1 (cellAt j).2 := by
  induction text generalizing t i with
  | nil => rfl
  | cons c text ih =>
      rw [List.length_cons] at hfits
      rw [List.forall_mem_cons] at hchars
      have hnext := @place_char i c color t g hfull hchars.1 hplace (by omega)
      refine (ih hchars.2 hnext (by omega) (by omega)).trans ?_
      rw [history_char hchars.1 hplace (by omega)]
      exact setAt_of_ne hj.ne

/-- And the text is found where it was put. -/
theorem history_text (hfull : g.toFramebuffer = fb1024x768) (hchars : ∀ c ∈ text, 0x20 ≤ c)
    (hplace : t.place = placeAt i) (hfits : i + text.length ≤ 128000) :
    ∀ k, ∀ hk : k < text.length,
      (writeStream g.toFramebuffer t (text.map fun c => (c, color))).history
        (cellAt (i + k)).1 (cellAt (i + k)).2 = ⟨text[k], color⟩ := by
  induction text generalizing t i with
  | nil => exact fun k hk => absurd hk (Nat.not_lt_zero k)
  | cons c text ih =>
      intro k hk
      rw [List.length_cons] at hfits hk
      rw [List.forall_mem_cons] at hchars
      have hnext := @place_char i c color t g hfull hchars.1 hplace (by omega)
      cases k with
      | zero =>
          refine (history_before hfull hchars.2 hnext (by omega) (Nat.lt_succ_self i)).trans ?_
          rw [history_char hchars.1 hplace (by omega)]
          exact setAt_same
      | succ k =>
          have hrest := ih hchars.2 hnext (by omega) k (Nat.lt_of_succ_lt_succ hk)
          rw [Nat.add_right_comm, Nat.add_assoc] at hrest
          exact hrest

theorem put_eq_backspaced : t.place.put fb backspace =
    ⟨(backspaced fb t).1, (backspaced fb t).2⟩ := by
  have hzero : backspace ≠ 0 := by decide
  have hnewline : backspace ≠ newline := by decide
  rw [Place.put, if_neg hzero, if_neg hnewline, if_pos rfl, backspaced]
  change (if 0 < t.cursorX then _ else if 0 < t.totalLines then _ else _) = _
  split_ifs <;> rfl

/-- A `'\b'` clears the place before. -/
theorem history_backspace (hfull : g.toFramebuffer = fb1024x768)
    (hplace : t.place = placeAt (i + 1)) (hi : i + 1 < 128000) :
    (putchar g.toFramebuffer backspace color t).history =
      setAt t.history (cellAt i).1 (cellAt i).2 ⟨space, color⟩ := by
  have hzero : backspace ≠ 0 := by decide
  have htab : backspace ≠ tab := by decide
  have hput := put_backspace hi
  rw [← hplace, put_eq_backspaced, placeAt_of_lt (Nat.lt_of_succ_lt hi)] at hput
  have hgone : backspaced fb1024x768 t = cellAt i :=
    Prod.ext (congrArg Place.line hput) (congrArg Place.col hput)
  rw [putchar, if_neg htab, putcharOne_history hzero, putHistory_backspace, hfull, hgone]

theorem place_backspace (hfull : g.toFramebuffer = fb1024x768)
    (hplace : t.place = placeAt (i + 1)) (hi : i + 1 < 128000) :
    (putchar g.toFramebuffer backspace color t).place = placeAt i := by
  have htab : backspace ≠ tab := by decide
  have hcursor : t.cursorX < g.cols := by
    rw [hfull, (at_cell hplace hi).2]
    exact (cellAt_inside hi).2
  rw [putchar, if_neg htab, putcharOne_place hcursor, hfull, hplace, put_backspace hi]

end Places

/-! ## The line on the screen -/

/-- What every key keeps that does not lead behind the end: the line is shown from where it began,
one character after the other, and the next one goes behind it. -/
structure OnScreen (p : Prompt) (s : InputState) : Prop where
  place : s.term.place = placeAt (p.first + s.buffCount)
  fits : p.first + s.buffCount ≤ 128000
  shown : s.shown = (List.range s.buffCount).map fun k => [cellAt (p.first + k)]
  holds : ∀ k < s.buffCount, s.term.history (cellAt (p.first + k)).1 (cellAt (p.first + k)).2 =
    ⟨s.buff.bytes k, p.color⟩
  chars : ∀ k < s.buffCount, 0x20 ≤ s.buff.bytes k
  count : s.buffCount ≤ p.limit

section Prompts

variable {p : Prompt} {s : InputState} {key : KeyPress} {sc c : UInt8}

theorem first_lt (p : Prompt) : p.first < 128000 := by
  have hline : p.startLine < 1000 := p.line_lt
  have hcol : p.startX < 128 := p.col_lt
  rw [Prompt.first]
  omega

theorem cellAt_first (p : Prompt) (k : Nat) : cellAt (p.first + k) =
    (p.startLine + (p.startX + k) / 128, (p.startX + k) % 128) := by
  rw [cellAt, Prompt.first, Nat.add_assoc, Nat.mul_comm,
    Nat.mul_add_div (by decide), Nat.mul_add_mod]

/-- The line begins where the next character was to go. -/
theorem placeAt_first (p : Prompt) : placeAt p.first = ⟨p.startLine, p.startX⟩ := by
  have hcol : p.startX < 128 := p.col_lt
  have hcell := cellAt_first p 0
  rw [Nat.add_zero, Nat.add_zero, Nat.div_eq_of_lt hcol, Nat.mod_eq_of_lt hcol,
    Nat.add_zero] at hcell
  rw [placeAt_of_lt (first_lt p)]
  exact congrArg (fun cell => Place.mk cell.1 cell.2) hcell

theorem onScreen_start (p : Prompt) : OnScreen p p.start where
  place := (placeAt_first p).symm
  fits := (first_lt p).le
  shown := rfl
  holds := fun _ hk => absurd hk (Nat.not_lt_zero _)
  chars := fun _ hk => absurd hk (Nat.not_lt_zero _)
  count := Nat.zero_le _

/-- The erase loop counts on from there. -/
theorem eraseCells_eq (p : Prompt) (s : InputState) : s.eraseCells p.toInputCall =
    (List.range s.buffCount).map fun k => cellAt (p.first + k) := by
  have hcols : p.screen.cols = 128 := by
    rw [p.full]
    rfl
  rw [InputState.eraseCells, hcols, List.filter_eq_self.mpr]
  · apply List.map_congr_left
    intro k _
    exact (cellAt_first p k).symm
  · intro cell hcell
    obtain ⟨k, -, rfl⟩ := List.mem_map.mp hcell
    exact decide_eq_true (Nat.mod_lt _ (by decide))

theorem length_line : s.line.length = s.buffCount := by
  rw [InputState.line, List.length_map, List.length_range]

theorem chars_line (hscreen : OnScreen p s) : ∀ c ∈ s.line, 0x20 ≤ c := by
  intro c hmem
  obtain ⟨k, hk, rfl⟩ := List.mem_map.mp hmem
  exact hscreen.chars k (List.mem_range.mp hk)

theorem onScreen_type (hscreen : OnScreen p s) (hchar : 0x20 ≤ c)
    (hinside : s.buffCount < p.limit → p.first + s.buffCount < 128000) :
    OnScreen p (s.type p.toInputCall c) := by
  rw [InputState.type]
  by_cases htyped : s.buffCount < p.toInputCall.limit ∧ 0x20 ≤ c
  · rw [if_pos htyped]
    have hlt := hinside htyped.1
    refine ⟨place_char p.full hchar hscreen.place hlt, hlt, ?_, ?_, ?_, htyped.1⟩
    · dsimp only
      rw [charCells_char hchar hscreen.place hlt, hscreen.shown, List.range_succ, List.map_append]
      rfl
    · intro k hk
      dsimp only
      rw [history_char hchar hscreen.place hlt]
      rcases Nat.lt_succ_iff_lt_or_eq.mp hk with hbefore | rfl
      · have hne : p.first + k ≠ p.first + s.buffCount := by omega
        rw [setAt_of_ne hne, Marked.bytes_set_of_ne hbefore.ne]
        exact hscreen.holds k hbefore
      · rw [Marked.bytes_set_same]
        exact setAt_same
    · intro k hk
      dsimp only
      rcases Nat.lt_succ_iff_lt_or_eq.mp hk with hbefore | rfl
      · rw [Marked.bytes_set_of_ne hbefore.ne]
        exact hscreen.chars k hbefore
      · rw [Marked.bytes_set_same]
        exact hchar
  · rw [if_neg htyped]
    exact hscreen

theorem onScreen_back (hscreen : OnScreen p s)
    (hinside : 0 < s.buffCount → p.first + s.buffCount < 128000) :
    OnScreen p (s.back p.toInputCall) := by
  rw [InputState.back]
  by_cases hpos : 0 < s.buffCount
  · rw [if_pos hpos]
    obtain ⟨n, hn⟩ : ∃ n, s.buffCount = n + 1 := ⟨s.buffCount - 1, by omega⟩
    have hlt := hinside hpos
    have hplace := hscreen.place
    rw [hn, ← Nat.add_assoc] at hlt hplace
    have hpred : s.buffCount - 1 = n := by omega
    rw [hpred]
    refine ⟨place_backspace p.full hplace hlt, (Nat.lt_of_succ_lt hlt).le, ?_, ?_, ?_, ?_⟩
    · dsimp only
      rw [hscreen.shown, hn, List.range_succ, List.map_append, List.map_singleton,
        List.dropLast_concat]
    · intro k hk
      dsimp only at hk ⊢
      have hne : p.first + k ≠ p.first + n := by omega
      rw [history_backspace p.full hplace hlt, setAt_of_ne hne, Marked.bytes_set_of_ne hk.ne]
      exact hscreen.holds k (by omega)
    · intro k hk
      dsimp only at hk ⊢
      rw [Marked.bytes_set_of_ne hk.ne]
      exact hscreen.chars k (by omega)
    · exact hpred ▸ (Nat.sub_le _ _).trans hscreen.count
  · rw [if_neg hpos]
    exact hscreen

/-- A line of characters is loaded where the line began. -/
theorem onScreen_load {src : Marked} (s : InputState)
    (hstays : InputState.StaysInTable p (src.text p.limit)) :
    OnScreen p ((s.erase p.toInputCall).load p.toInputCall src) := by
  obtain ⟨hchars, hfits⟩ := hstays
  have hplace : (s.erase p.toInputCall).term.place = placeAt p.first := (placeAt_first p).symm
  have hbytes : ∀ k, ∀ hk : k < (src.text p.limit).length,
      (((s.erase p.toInputCall).load p.toInputCall src).buff).bytes k = (src.text p.limit)[k] := by
    intro k hk
    rw [Marked.getElem_text]
    exact (Marked.bytes_set_of_ne hk.ne).trans (Marked.bytes_copy hk)
  refine ⟨place_text p.full hchars hplace hfits, hfits,
    textCells_text p.full hchars hplace hfits, ?_, ?_, Marked.length_text⟩
  · intro k hk
    rw [hbytes k hk]
    exact history_text p.full hchars hplace hfits k hk
  · intro k hk
    rw [hbytes k hk]
    exact hchars _ (List.getElem_mem _)

/-- What an arrow key loads. -/
theorem source_text (hscreen : OnScreen p s) (harrow : sc = keyUp ∨ sc = keyDown) :
    (InputState.source { s.leave sc with browseIdx := s.nextIdx sc }).text p.limit =
      s.recalled p.toInputCall sc := by
  rw [InputState.source, InputState.recalled]
  dsimp only
  rw [leave_history]
  by_cases hlive : s.nextIdx sc = 0
  · rw [if_pos hlive, if_pos hlive]
    rcases harrow with rfl | rfl
    · have hidx : s.browseIdx = 0 := by
        rw [InputState.nextIdx] at hlive
        split_ifs at hlive with hback hdown
        · exact absurd hdown.1 (by decide)
        · exact hlive
      rw [if_pos rfl, InputState.leave, if_pos ⟨rfl, hidx⟩]
      apply Marked.text_of_bytes
      · intro i hi
        have hcount : i < s.buffCount := length_line ▸ hi
        refine (Marked.bytes_set_of_ne hcount.ne).trans ((Marked.bytes_copy hcount).trans ?_)
        simp only [InputState.line, List.getElem_map, List.getElem_range]
      · rw [length_line]
        exact Marked.bytes_set_same
      · intro hzero
        exact absurd (chars_line hscreen 0 hzero) (by decide)
      · exact length_line.trans_le hscreen.count
    · rw [if_neg (by decide), leave_down]
  · rw [if_neg hlive, if_neg hlive]

theorem onScreen_browse (hscreen : OnScreen p s) (harrow : sc = keyUp ∨ sc = keyDown)
    (hstays : InputState.StaysInTable p (s.recalled p.toInputCall sc)) :
    OnScreen p (s.browse p.toInputCall sc) := by
  rw [browse_eq rfl]
  apply onScreen_load
  rw [source_text hscreen harrow]
  exact hstays

/-- What is kept while the line is edited. -/
theorem onScreen_act (hscreen : OnScreen p s) {meant : EditKey} (hmeant : key.meaning = some meant)
    (hkeeps : s.KeepsInTable p meant) :
    (s.act p.toInputCall meant).done = true ∨ OnScreen p (s.act p.toInputCall meant) := by
  cases meant with
  | up => exact .inr (onScreen_browse hscreen (.inl rfl) hkeeps.2)
  | down => exact .inr (onScreen_browse hscreen (.inr rfl) hkeeps)
  | enter => exact .inl rfl
  | erase => exact .inr (onScreen_back hscreen hkeeps)
  | char c => exact .inr (onScreen_type hscreen (char_of_meaning hmeant) hkeeps)

/-- The first character is shown where the line began. -/
theorem OnScreen.begins (hscreen : OnScreen p s) {cells : List (Nat × Nat)}
    (hhead : s.shown.head? = some cells) : cells = [(p.startLine, p.startX)] := by
  have hfirst : cellAt p.first = (p.startLine, p.startX) := by
    have hplace := placeAt_first p
    rw [placeAt_of_lt (first_lt p)] at hplace
    exact Prod.ext (congrArg Place.line hplace) (congrArg Place.col hplace)
  rw [hscreen.shown, List.head?_map] at hhead
  obtain ⟨k, hk, rfl⟩ := Option.map_eq_some_iff.mp hhead
  have hzero : k = 0 := by
    rw [List.head?_range] at hk
    split_ifs at hk
    exact (Option.some.inj hk).symm
  rw [hzero, Nat.add_zero, hfirst]

/-- The line that is erased is the line that is shown. -/
theorem OnScreen.erasesLine (hscreen : OnScreen p s)
    (hnext : OnScreen p (s.step p.toInputCall key)) : s.ErasesLine p.toInputCall key := by
  refine ⟨?_, ?_, ?_, fun cells hhead => hnext.begins hhead⟩
  · rw [eraseCells_eq, hscreen.shown, ← List.flatMap_def, List.map_eq_flatMap]
  · rw [eraseCells_eq]
    intro cell hcell
    obtain ⟨k, hk, rfl⟩ := List.mem_map.mp hcell
    have hfits := hscreen.fits
    have hcount := List.mem_range.mp hk
    exact cellAt_inside (by omega)
  · rw [eraseCells_eq, InputState.line, List.map_map, List.map_map]
    apply List.map_congr_left
    intro k hk
    exact hscreen.holds k (List.mem_range.mp hk)

/-- The line was entered, or is on the screen. -/
def InputState.Kept (p : Prompt) (s : InputState) : Prop := s.done = true ∨ OnScreen p s

theorem InputState.Kept.step (hinv : s.Kept p) (hsafe : s.SafeToErase p key) :
    (s.step p.toInputCall key).Kept p := by
  rw [step_eq]
  by_cases hdone : s.done = true
  · rw [if_pos hdone]
    exact hinv
  rw [if_neg hdone]
  cases hmeant : key.meaning with
  | none => exact hinv
  | some meant =>
      have hkeeps := hsafe (Bool.eq_false_of_not_eq_true hdone) meant hmeant
      exact onScreen_act (Or.resolve_left hinv hdone) hmeant hkeeps

theorem InputState.Kept.erasesRight (hinv : s.Kept p) (hsafe : s.SafeToErase p key) :
    s.ErasesRight p.toInputCall key := by
  intro hlive harrow
  have hdone : ¬ s.done = true := by
    rw [hlive]
    decide
  have hscreen := Or.resolve_left hinv hdone
  apply hscreen.erasesLine
  rw [step_eq, if_neg hdone]
  rcases harrow with hup | hdown
  · rw [hup]
    exact onScreen_browse hscreen (.inl rfl) (hsafe hlive _ hup).2
  · rw [hdown]
    exact onScreen_browse hscreen (.inr rfl) (hsafe hlive _ hdown)

end Prompts

/-- As long as the line ends in the table and no control characters are recalled, an arrow key
erases just the line that is shown, and the next one begins where that began. -/
theorem input_erases_line (p : Prompt) (keys : List KeyPress)
    (hsafe : AtEveryStep (InputState.step p.toInputCall) (InputState.SafeToErase p) p.start keys) :
    AtEveryStep (InputState.step p.toInputCall) (InputState.ErasesRight p.toInputCall) p.start
      keys := by
  intro before key hprefix
  have hbefore := hsafe.of_prefix ((List.prefix_append before [key]).trans hprefix)
  have hkeeps : ∀ (s : InputState) (key : KeyPress), s.Kept p → s.SafeToErase p key →
      (s.step p.toInputCall key).Kept p := fun _ _ hinv hkey => hinv.step hkey
  exact (hbefore.inv_foldl hkeeps (.inr (onScreen_start p))).erasesRight
    (hsafe before key hprefix)

/-- The shell's prompt behind some output; the line `hi` was entered before. -/
def promptAfter (output : List (UInt8 × UInt8)) : Prompt where
  screen := geometry1024x768
  term := writeStream fb1024x768 boot output
  history := historyPush (ByteMap.ofList [0x68, 0x69]) .empty
  content := fun _ => 0
  stack := fun _ => 0
  bufferSize := 512
  color := 0x0F
  full := rfl
  line_lt := (writeStream_kept (kept_boot geometry1024x768)).line
  col_lt := (writeStream_kept (kept_boot geometry1024x768)).col

/-- The key of a letter. -/
def letter (c : UInt8) : KeyPress := ⟨0x1E, c⟩

theorem input_erases_line_hi : AtEveryStep (InputState.step (promptAfter []).toInputCall)
    (InputState.ErasesRight (promptAfter []).toInputCall) (promptAfter []).start
    [letter 0x61, ⟨keyUp, 0⟩] := by
  apply input_erases_line
  rw [atEveryStep_cons, atEveryStep_cons]
  refine ⟨fun _ meant hmeant => ?_, fun _ meant hmeant => ?_, atEveryStep_nil⟩
  · obtain rfl : EditKey.char 0x61 = meant := Option.some.inj hmeant
    exact fun _ => by decide +kernel
  · obtain rfl : EditKey.up = meant := Option.some.inj hmeant
    exact ⟨by decide +kernel, by decide +kernel, by decide +kernel⟩

/-- So many newlines and then so many characters. -/
def outputTo (lines columns : Nat) : List (UInt8 × UInt8) :=
  List.replicate lines (newline, 0x0F) ++ List.replicate columns (0x78, 0x0F)

theorem first_promptAfter (output : List (UInt8 × UInt8)) : (promptAfter output).first =
    (writeStream fb1024x768 boot output).place.line * 128 +
      (writeStream fb1024x768 boot output).place.col := rfl

/-- The line begins in the last place of the table.  Its second character is put into the first
place of the last line, and the erase loop clears one behind the table instead. -/
theorem erase_writes_outside : ¬ AtEveryStep
    (InputState.step (promptAfter (outputTo 999 127)).toInputCall)
    (InputState.ErasesRight (promptAfter (outputTo 999 127)).toInputCall)
    (promptAfter (outputTo 999 127)).start [letter 0x61, letter 0x62, ⟨keyUp, 0⟩] := by
  intro hright
  have hplace : (writeStream fb1024x768 boot (outputTo 999 127)).place = ⟨999, 127⟩ := by
    refine (writeStream_place (kept_boot geometry1024x768)).trans ?_
    decide +kernel
  have hfirst := first_promptAfter (outputTo 999 127)
  rw [hplace] at hfirst
  rw [atEveryStep_cons, atEveryStep_cons, atEveryStep_cons] at hright
  have hinside := (hright.2.2.1 (by decide +kernel) (.inl (meaning_eq_up.mpr rfl))).inside
  rw [eraseCells_eq, hfirst] at hinside
  exact absurd (hinside (1000, 0) (by decide +kernel)).1 (by decide)

end GeckoOS.Terminal
