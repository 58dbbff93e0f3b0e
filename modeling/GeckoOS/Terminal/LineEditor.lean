/-
# The line editor

What is expected of `input` while a line is edited: characters are added and taken back at the end
of the line, the lines entered before are shown one after the other, and the line that was left
for them comes back unchanged.

The code agrees with that as long as `saved_input` holds what it is read for.  Nothing has been
saved before the line was first left, yet the key that goes forward reads it then too.
-/

import GeckoOS.Terminal.Input

namespace GeckoOS.Terminal

open GeckoOS.Math

/-! ## The editor -/

/-- What a key means to the editor. -/
inductive EditKey
  | up
  | down
  | enter
  | erase
  | char (c : UInt8)

/-- The meaning of a key; releases and control characters have none. -/
def KeyPress.meaning (key : KeyPress) : Option EditKey :=
  if key.sc &&& 0x80 ≠ 0 ∨ key.sc = 0 then none
  else if key.sc = keyUp then some .up
  else if key.sc = keyDown then some .down
  else if key.ascii = newline then some .enter
  else if key.ascii = backspace then some .erase
  else if 0x20 ≤ key.ascii then some (.char key.ascii)
  else none

/-- The line, how many lines one has gone back, and the line that was left for that. -/
structure LineEditor where
  line : List UInt8
  browse : Nat
  saved : List UInt8
  done : Bool

namespace LineEditor

/-- An empty line. -/
def empty : LineEditor := ⟨[], 0, [], false⟩

/-- The line left is shown again, or as much of one entered before as there is room for. -/
def goTo (room : Nat) (past : List (List UInt8)) (idx : Nat) (e : LineEditor) : LineEditor :=
  { e with
    browse := idx
    line := if idx = 0 then e.saved else (past.getD (idx - 1) []).take room }

/-- A key; `past` are the lines entered before, the last one first. -/
def press (room : Nat) (past : List (List UInt8)) (e : LineEditor) : EditKey → LineEditor
  | .up =>
      if past = [] then e
      else
        { e with saved := if e.browse = 0 then e.line else e.saved }.goTo room past
          (min (e.browse + 1) past.length)
  | .down => if e.browse = 0 then e else e.goTo room past (e.browse - 1)
  | .enter => { e with done := true }
  | .erase => { e with line := e.line.dropLast }
  | .char c => if e.line.length < room then { e with line := e.line ++ [c] } else e

/-- The next key. -/
def step (room : Nat) (past : List (List UInt8)) (e : LineEditor) (key : KeyPress) : LineEditor :=
  if e.done then e else key.meaning.elim e (e.press room past)

end LineEditor

namespace InputHistory

/-- The lines entered before, the last one first. -/
def lines (h : InputHistory) : List (List UInt8) :=
  (List.range h.count).map fun k => (Marked.known (h.entryAt (k + 1))).text 512

variable {h : InputHistory} {idx room : Nat}

theorem length_lines : h.lines.length = h.count := by
  rw [lines, List.length_map, List.length_range]

theorem getD_lines (hpos : 0 < idx) (hidx : idx ≤ h.count) :
    h.lines.getD (idx - 1) [] = (Marked.known (h.entryAt idx)).text 512 := by
  have hlt : idx - 1 < h.lines.length := by
    rw [length_lines]
    omega
  rw [List.getD_eq_getElem _ _ hlt]
  simp only [lines, List.getElem_map, List.getElem_range, Nat.sub_add_cancel hpos]

/-- Every entry ends, so with less room its text is cut off. -/
theorem take_entry : ((Marked.known (h.entryAt idx)).text 512).take room =
    (Marked.known (h.entryAt idx)).text room := by
  obtain ⟨i, hi, hzero⟩ := h.ends ((h.head + historySize - idx) % historySize)
  exact Marked.text_take (.inr (Marked.length_text_lt hi hzero))

end InputHistory

/-! ## The code and the editor -/

namespace InputCall

/-- How many characters fit into the buffer. -/
def room (call : InputCall) : Nat := call.bufferSize.toNat - 1

/-- The buffer has room for the text, and the text ends where it is said to. -/
structure Fits (call : InputCall) (text : List UInt8) : Prop where
  clean : 0 ∉ text
  length_le : text.length ≤ call.room

variable {call : InputCall}

theorem limit_eq (hsize : call.bufferSize ≠ 0) : call.limit = call.room := by
  have hpos : 1 ≤ call.bufferSize := by
    rw [UInt64.le_iff_toNat_le]
    exact Nat.pos_of_ne_zero fun hzero => hsize (UInt64.toNat_inj.mp hzero)
  rw [limit, room, UInt64.toNat_sub_of_le _ _ hpos]
  rfl

theorem limit_of_zero (hsize : call.bufferSize = 0) : call.limit = UInt64.size - 1 := by
  rw [limit, hsize]
  rfl

theorem room_of_zero (hsize : call.bufferSize = 0) : call.room = 0 := by
  rw [room, hsize]
  rfl

theorem room_le_limit : call.room ≤ call.limit := by
  by_cases hsize : call.bufferSize = 0
  · rw [room_of_zero hsize]
    exact Nat.zero_le _
  · exact (limit_eq hsize).ge

end InputCall

namespace InputState

/-- What a key with a meaning does. -/
def act (call : InputCall) (s : InputState) : EditKey → InputState
  | .up => s.browse call keyUp
  | .down => s.browse call keyDown
  | .enter => s.enter call
  | .erase => s.back call
  | .char c => s.type call c

/-- The line. -/
def line (s : InputState) : List UInt8 := (List.range s.buffCount).map s.buff.bytes

/-- The buffer holds just this line, and all of it was written. -/
def Shows (s : InputState) (line : List UInt8) : Prop :=
  s.buffCount = line.length ∧ s.buff.Holds line

/-- The bytes of `saved_input` that a key writes. -/
def saveWrites (s : InputState) (key : KeyPress) : List Nat :=
  if ¬ s.done ∧ key.sc = keyUp ∧ s.browseIdx = 0 then List.range (s.buffCount + 1) else []

/-- A buffer without a byte is not given a line that was entered before, unless it is empty. -/
def KeepsEmpty (call : InputCall) (sc : UInt8) (s : InputState) : Prop :=
  call.bufferSize = 0 → s.nextIdx sc ≠ 0 → s.history.entryAt (s.nextIdx sc) 0 = 0

/-- The key takes none of the branches that go wrong. -/
def Allows (call : InputCall) (s : InputState) : EditKey → Prop
  | .up => (s.browseIdx = 0 → s.buffCount < 512) ∧ s.KeepsEmpty call keyUp
  | .down =>
      (s.browseIdx = 0 → s.saved.text call.limit = s.line ∧ s.saved.Holds s.line) ∧
        s.KeepsEmpty call keyDown
  | .enter => True
  | .erase => True
  | .char _ => call.bufferSize ≠ 0

/-- The same of any key. -/
def Safe (call : InputCall) (s : InputState) (key : KeyPress) : Prop :=
  s.done = false → ∀ meant, key.meaning = some meant → s.Allows call meant

end InputState

/-- What the code makes of the keys, and what the editor does. -/
structure Typing where
  code : InputState
  editor : LineEditor

namespace Typing

/-- Before the first key. -/
def start (call : InputCall) : Typing := ⟨call.start, .empty⟩

/-- Both are given a key. -/
def step (call : InputCall) (both : Typing) (key : KeyPress) : Typing :=
  ⟨both.code.step call key, both.editor.step call.room call.history.lines key⟩

/-- After the key the buffer holds the editor's line, each byte of it was written by this call or
comes from the history, and the key has written nothing behind the end of `saved_input`. -/
def Right (call : InputCall) (both : Typing) (key : KeyPress) : Prop :=
  (both.step call key).code.Shows (both.step call key).editor.line ∧
    ∀ i ∈ both.code.saveWrites key, i < 512

/-- What every such key keeps. -/
structure Follows (call : InputCall) (s : InputState) (e : LineEditor) : Prop where
  shows : s.Shows e.line
  fits : call.Fits e.line
  idx : s.browseIdx = e.browse
  idx_le : e.browse ≤ call.history.count
  done : s.done = e.done
  history : s.done = false → s.history = call.history
  saved : 0 < e.browse → s.saved.Holds (e.saved ++ [0])
  saved_fits : call.Fits e.saved

end Typing

section Keys

variable {call : InputCall} {s : InputState} {e : LineEditor} {src : Marked} {line : List UInt8}
  {key : KeyPress} {sc c : UInt8} {idx : Nat}

/-- The tests of the loop come to the meaning of the key. -/
theorem step_eq : s.step call key = if s.done then s else key.meaning.elim s (s.act call) := by
  rw [InputState.step, KeyPress.meaning]
  by_cases hdone : s.done
  · rw [if_pos (.inl hdone), if_pos hdone]
  rw [if_neg hdone]
  by_cases hignored : key.sc &&& 0x80 ≠ 0 ∨ key.sc = 0
  · rw [if_pos (.inr hignored), if_pos hignored]
    rfl
  rw [if_neg (not_or.mpr ⟨hdone, hignored⟩), if_neg hignored]
  by_cases hup : key.sc = keyUp
  · rw [if_pos (.inl hup), if_pos hup, hup]
    rfl
  rw [if_neg hup]
  by_cases hdown : key.sc = keyDown
  · rw [if_pos (.inr hdown), if_pos hdown, hdown]
    rfl
  rw [if_neg (not_or.mpr ⟨hup, hdown⟩), if_neg hdown]
  split_ifs with henter hback hchar
  · rfl
  · rfl
  · rfl
  · rw [InputState.type, if_neg fun htyped => hchar htyped.2]
    rfl

theorem line_of_shows (hshows : s.Shows line) : s.line = line := by
  obtain ⟨hcount, hholds⟩ := hshows
  have hlength : s.line.length = line.length := by
    rw [InputState.line, List.length_map, List.length_range, hcount]
  apply List.ext_getElem hlength
  intro i hi hi'
  simp only [InputState.line, List.getElem_map, List.getElem_range, Marked.bytes, hholds i hi']

theorem load_shows_iff :
    (s.load call src).Shows line ↔ src.text call.limit = line ∧ src.Holds line := by
  have hcopied : ∀ hlength : line.length = (src.text call.limit).length,
      (s.load call src).buff.Holds line ↔ src.Holds line := by
    intro hlength
    exact (Marked.holds_set_iff hlength.le).trans (Marked.holds_copy hlength)
  constructor
  · rintro ⟨hcount, hholds⟩
    have hsource := (hcopied hcount.symm).mp hholds
    exact ⟨hsource.text_eq hcount, hsource⟩
  · rintro ⟨htext, hsource⟩
    have hlength : line.length = (src.text call.limit).length := by rw [htext]
    exact ⟨hlength.symm, (hcopied hlength).mpr hsource⟩

/-- A line is loaded as it is to be shown, unless the buffer has no byte for it. -/
theorem goTo_shows_iff (hidx : idx ≤ call.history.count) (hhistory : s.history = call.history)
    (hsaved : s.saved.Holds (e.saved ++ [0])) (hfits : call.Fits e.saved) :
    (({ s with browseIdx := idx }.erase call).load call
        (InputState.source { s with browseIdx := idx })).Shows
      (e.goTo call.room call.history.lines idx).line ↔
      (call.bufferSize = 0 → idx ≠ 0 → call.history.entryAt idx 0 = 0) := by
  rw [load_shows_iff, InputState.source, LineEditor.goTo]
  dsimp only
  by_cases hlive : idx = 0
  · rw [if_pos hlive, if_pos hlive]
    apply iff_of_true
    · have hroom := hfits.length_le.trans InputCall.room_le_limit
      exact ⟨Marked.text_of_holds hsaved hfits.clean hroom,
        hsaved.of_prefix (List.prefix_append _ _)⟩
    · exact fun _ hne => absurd hlive hne
  rw [if_neg hlive, if_neg hlive, hhistory,
    InputHistory.getD_lines (Nat.pos_of_ne_zero hlive) hidx, InputHistory.take_entry,
    and_iff_left (Marked.holds_text _)]
  by_cases hsize : call.bufferSize = 0
  · rw [InputCall.room_of_zero hsize, imp_iff_right hsize, imp_iff_right hlive]
    apply Marked.text_eq_nil_iff
    rw [InputCall.limit_of_zero hsize]
    decide
  · rw [InputCall.limit_eq hsize]
    exact iff_of_true rfl fun hzero => absurd hzero hsize

theorem fits_goTo (hidx : idx ≤ call.history.count) (hfits : call.Fits e.saved) :
    call.Fits (e.goTo call.room call.history.lines idx).line := by
  rw [LineEditor.goTo]
  dsimp only
  split_ifs with hlive
  · exact hfits
  · rw [InputHistory.getD_lines (Nat.pos_of_ne_zero hlive) hidx, InputHistory.take_entry]
    exact ⟨Marked.zero_notMem_text, Marked.length_text⟩

/-- What is kept when a line is loaded as it is to be shown. -/
theorem follows_goTo (hidx : idx ≤ call.history.count) (hdone : s.done = e.done)
    (hhistory : s.history = call.history) (hsaved : s.saved.Holds (e.saved ++ [0]))
    (hfits : call.Fits e.saved)
    (hshows : (({ s with browseIdx := idx }.erase call).load call src).Shows
      (e.goTo call.room call.history.lines idx).line) :
    Typing.Follows call (({ s with browseIdx := idx }.erase call).load call src)
      (e.goTo call.room call.history.lines idx) where
  shows := hshows
  fits := fits_goTo hidx hfits
  idx := rfl
  idx_le := hidx
  done := hdone
  history := fun _ => hhistory
  saved := fun _ => hsaved
  saved_fits := hfits

/-! ## A key -/

theorem nextIdx_keyUp (s : InputState) : s.nextIdx keyUp =
    if s.browseIdx < s.history.count then s.browseIdx + 1 else s.browseIdx := by
  have hup : keyUp ≠ keyDown := by decide
  simp only [InputState.nextIdx, true_and, hup, false_and, if_false]

theorem nextIdx_up (hfollows : Typing.Follows call s e) (hhistory : s.history = call.history) :
    s.nextIdx keyUp = min (e.browse + 1) call.history.lines.length := by
  have hle := hfollows.idx_le
  rw [nextIdx_keyUp, InputHistory.length_lines, hhistory, hfollows.idx]
  split_ifs <;> omega

theorem nextIdx_down (hfollows : Typing.Follows call s e) :
    s.nextIdx keyDown = e.browse - 1 := by
  have hdown : keyDown ≠ keyUp := by decide
  rw [InputState.nextIdx, hfollows.idx]
  simp only [true_and, hdown, false_and, if_false]
  split_ifs <;> omega

/-- The line that is left is saved. -/
theorem saved_leave (hfollows : Typing.Follows call s e) :
    (s.leave keyUp).saved.Holds ((if e.browse = 0 then e.line else e.saved) ++ [0]) := by
  obtain ⟨hcount, hholds⟩ := hfollows.shows
  rw [InputState.leave, hfollows.idx]
  by_cases hlive : e.browse = 0
  · rw [if_pos ⟨rfl, hlive⟩, if_pos hlive, hcount]
    exact ((Marked.holds_copy rfl).mpr hholds).set_length
  · rw [if_neg fun hup => hlive hup.2, if_neg hlive]
    exact hfollows.saved (Nat.pos_of_ne_zero hlive)

theorem leave_history : (s.leave sc).history = s.history := by
  rw [InputState.leave]
  split_ifs <;> rfl

theorem leave_done : (s.leave sc).done = s.done := by
  rw [InputState.leave]
  split_ifs <;> rfl

theorem leave_down : s.leave keyDown = s := by
  rw [InputState.leave, if_neg]
  exact fun hup => absurd hup.1 (by decide)

theorem nextIdx_leave : (s.leave sc).nextIdx sc = s.nextIdx sc := by
  rw [InputState.leave]
  split_ifs <;> rfl

/-- An arrow loads the line that lies so many lines back. -/
theorem browse_eq (hidx : s.nextIdx sc = idx) : s.browse call sc =
    ({ s.leave sc with browseIdx := idx }.erase call).load call
      (InputState.source { s.leave sc with browseIdx := idx }) := by
  rw [← hidx, ← nextIdx_leave]
  rfl

/-- The editor, with its line saved as the code saves it. -/
def LineEditor.leave (e : LineEditor) : LineEditor :=
  { e with saved := if e.browse = 0 then e.line else e.saved }

theorem fits_leave (hfollows : Typing.Follows call s e) : call.Fits e.leave.saved := by
  rw [LineEditor.leave]
  dsimp only
  split_ifs
  · exact hfollows.fits
  · exact hfollows.saved_fits

theorem browse_of_nil (hfollows : Typing.Follows call s e) (hnone : call.history.lines = []) :
    e.browse = 0 := by
  apply Nat.le_zero.mp
  rw [← List.length_nil, ← hnone, InputHistory.length_lines]
  exact hfollows.idx_le

/-- Also where there is nothing to show, the line is what the editor recalls. -/
theorem line_press_up (hfollows : Typing.Follows call s e) :
    (e.press call.room call.history.lines .up).line =
      (e.leave.goTo call.room call.history.lines
        (min (e.browse + 1) call.history.lines.length)).line := by
  rw [LineEditor.press]
  by_cases hnone : call.history.lines = []
  · have hlive := browse_of_nil hfollows hnone
    rw [if_pos hnone, hnone, LineEditor.goTo, LineEditor.leave]
    simp only [List.length_nil, Nat.min_zero, if_true, hlive]
  · rw [if_neg hnone]
    rfl

theorem up_shows_iff (hfollows : Typing.Follows call s e) (hlive : s.done = false) :
    (s.browse call keyUp).Shows (e.press call.room call.history.lines .up).line ↔
      s.KeepsEmpty call keyUp := by
  have hhistory := hfollows.history hlive
  rw [line_press_up hfollows, browse_eq (nextIdx_up hfollows hhistory),
    goTo_shows_iff ((Nat.min_le_right _ _).trans_eq InputHistory.length_lines)
      (leave_history.trans hhistory) (saved_leave hfollows) (fits_leave hfollows),
    InputState.KeepsEmpty, nextIdx_up hfollows hhistory, hhistory]

theorem up_follows (hfollows : Typing.Follows call s e) (hlive : s.done = false)
    (hshows : (s.browse call keyUp).Shows (e.press call.room call.history.lines .up).line) :
    Typing.Follows call (s.browse call keyUp) (e.press call.room call.history.lines .up) := by
  have hhistory := hfollows.history hlive
  have hidx := nextIdx_up hfollows hhistory
  by_cases hnone : call.history.lines = []
  · have hpress : e.press call.room call.history.lines .up = e := by
      rw [LineEditor.press, if_pos hnone]
    have hzero := browse_of_nil hfollows hnone
    rw [hpress] at hshows ⊢
    rw [hnone, List.length_nil, Nat.min_zero] at hidx
    rw [browse_eq hidx] at hshows ⊢
    exact
      { hfollows with
        shows := hshows
        idx := hzero.symm
        done := leave_done.trans hfollows.done
        history := fun _ => leave_history.trans hhistory
        saved := fun hpos => absurd hzero hpos.ne' }
  · have hpress : e.press call.room call.history.lines .up = e.leave.goTo call.room
        call.history.lines (min (e.browse + 1) call.history.lines.length) := by
      rw [LineEditor.press, if_neg hnone]
      rfl
    rw [hpress] at hshows ⊢
    rw [browse_eq hidx] at hshows ⊢
    exact follows_goTo ((Nat.min_le_right _ _).trans_eq InputHistory.length_lines)
      (leave_done.trans hfollows.done) (leave_history.trans hhistory) (saved_leave hfollows)
      (fits_leave hfollows) hshows

theorem down_shows_iff (hfollows : Typing.Follows call s e) (hlive : s.done = false) :
    (s.browse call keyDown).Shows (e.press call.room call.history.lines .down).line ↔
      (s.browseIdx = 0 → s.saved.text call.limit = s.line ∧ s.saved.Holds s.line) ∧
        s.KeepsEmpty call keyDown := by
  have hhistory := hfollows.history hlive
  have hidx := nextIdx_down hfollows
  rw [browse_eq hidx, leave_down, LineEditor.press, InputState.KeepsEmpty, hidx, hfollows.idx]
  by_cases hzero : e.browse = 0
  · rw [if_pos hzero, hzero, load_shows_iff, line_of_shows hfollows.shows, imp_iff_right rfl,
      and_iff_left fun _ hne => absurd rfl hne]
    rfl
  · rw [if_neg hzero, and_iff_right fun hpos => absurd hpos hzero, hhistory]
    exact goTo_shows_iff ((Nat.sub_le _ _).trans hfollows.idx_le) hhistory
      (hfollows.saved (Nat.pos_of_ne_zero hzero)) hfollows.saved_fits

theorem down_follows (hfollows : Typing.Follows call s e) (hlive : s.done = false)
    (hshows : (s.browse call keyDown).Shows (e.press call.room call.history.lines .down).line) :
    Typing.Follows call (s.browse call keyDown) (e.press call.room call.history.lines .down) := by
  have hhistory := hfollows.history hlive
  have hidx := nextIdx_down hfollows
  by_cases hzero : e.browse = 0
  · have hpress : e.press call.room call.history.lines .down = e := by
      rw [LineEditor.press, if_pos hzero]
    rw [hpress] at hshows ⊢
    rw [browse_eq hidx, leave_down] at hshows ⊢
    exact
      { hfollows with
        shows := hshows
        idx := by
          rw [hzero]
          rfl
        saved := fun hpos => absurd hzero hpos.ne' }
  · have hpress : e.press call.room call.history.lines .down =
        e.goTo call.room call.history.lines (e.browse - 1) := by
      rw [LineEditor.press, if_neg hzero]
    rw [hpress] at hshows ⊢
    rw [browse_eq hidx, leave_down] at hshows ⊢
    exact follows_goTo ((Nat.sub_le _ _).trans hfollows.idx_le) hfollows.done hhistory
      (hfollows.saved (Nat.pos_of_ne_zero hzero)) hfollows.saved_fits hshows

theorem shows_concat (hshows : s.Shows line) :
    s.buffCount + 1 = (line ++ [c]).length ∧ (s.buff.set s.buffCount c).Holds (line ++ [c]) := by
  obtain ⟨hcount, hholds⟩ := hshows
  rw [hcount, List.length_append, List.length_singleton]
  exact ⟨rfl, hholds.set_length⟩

theorem fits_concat (hfits : call.Fits line) (hroom : line.length < call.room)
    (hzero : (0 : UInt8) ≠ c) : call.Fits (line ++ [c]) := by
  constructor
  · rw [List.mem_append, List.mem_singleton, not_or]
    exact ⟨hfits.clean, hzero⟩
  · rw [List.length_append, List.length_singleton]
    exact hroom

theorem fits_dropLast (hfits : call.Fits line) : call.Fits line.dropLast where
  clean := fun hmem => hfits.clean (List.dropLast_subset _ hmem)
  length_le := (List.dropLast_prefix _).length_le.trans hfits.length_le

theorem shows_dropLast (hshows : s.Shows line) :
    s.buffCount - 1 = line.dropLast.length ∧
      (s.buff.set (s.buffCount - 1) 0).Holds line.dropLast := by
  obtain ⟨hcount, hholds⟩ := hshows
  rw [hcount, List.length_dropLast]
  refine ⟨rfl, (Marked.holds_set_iff List.length_dropLast.le).mpr ?_⟩
  exact hholds.of_prefix (List.dropLast_prefix line)

theorem typed_iff (hfollows : Typing.Follows call s e) (hchar : 0x20 ≤ c)
    (hsize : call.bufferSize ≠ 0) :
    s.buffCount < call.limit ∧ 0x20 ≤ c ↔ e.line.length < call.room := by
  rw [InputCall.limit_eq hsize, hfollows.shows.1, and_iff_left hchar]

/-- A character goes to the end of the line while there is room, if the buffer has a byte. -/
theorem char_shows_iff (hfollows : Typing.Follows call s e) (hchar : 0x20 ≤ c) :
    (s.type call c).Shows (e.press call.room call.history.lines (.char c)).line ↔
      call.bufferSize ≠ 0 := by
  have hcount := hfollows.shows.1
  rw [InputState.type, LineEditor.press]
  by_cases hsize : call.bufferSize = 0
  · have hroom := InputCall.room_of_zero hsize
    have hempty : e.line.length = 0 := Nat.le_zero.mp (hroom ▸ hfollows.fits.length_le)
    have htyped : s.buffCount < call.limit ∧ 0x20 ≤ c := by
      rw [hcount, hempty, InputCall.limit_of_zero hsize]
      exact ⟨by decide, hchar⟩
    rw [if_pos htyped, hroom, if_neg (Nat.not_lt_zero _)]
    refine iff_of_false (fun hshows => ?_) (not_not_intro hsize)
    have hlonger : s.buffCount + 1 = e.line.length := hshows.1
    omega
  · refine iff_of_true ?_ hsize
    have htyped := typed_iff hfollows hchar hsize
    by_cases hroom : e.line.length < call.room
    · rw [if_pos (htyped.mpr hroom), if_pos hroom]
      exact shows_concat hfollows.shows
    · rw [if_neg (mt htyped.mp hroom), if_neg hroom]
      exact hfollows.shows

theorem char_follows (hfollows : Typing.Follows call s e) (hchar : 0x20 ≤ c)
    (hshows : (s.type call c).Shows (e.press call.room call.history.lines (.char c)).line) :
    Typing.Follows call (s.type call c) (e.press call.room call.history.lines (.char c)) := by
  have htyped := typed_iff hfollows hchar ((char_shows_iff hfollows hchar).mp hshows)
  rw [InputState.type, LineEditor.press]
  by_cases hroom : e.line.length < call.room
  · rw [if_pos (htyped.mpr hroom), if_pos hroom]
    have hzero : (0 : UInt8) ≠ c := by
      intro hzero
      exact absurd (hzero ▸ hchar) (by decide)
    exact
      { hfollows with
        shows := shows_concat hfollows.shows
        fits := fits_concat hfollows.fits hroom hzero }
  · rw [if_neg (mt htyped.mp hroom), if_neg hroom]
    exact hfollows

theorem erase_follows (hfollows : Typing.Follows call s e) :
    Typing.Follows call (s.back call) (e.press call.room call.history.lines .erase) := by
  rw [InputState.back, LineEditor.press]
  split_ifs with hpos
  · exact
      { hfollows with
        shows := shows_dropLast hfollows.shows
        fits := fits_dropLast hfollows.fits }
  · have hempty : e.line = [] := by
      apply List.eq_nil_of_length_eq_zero
      rw [← hfollows.shows.1]
      omega
    have hsame : { e with line := e.line.dropLast } = e := by
      rw [hempty, List.dropLast_nil, ← hempty]
    rw [hsame]
    exact hfollows

theorem enter_follows (hfollows : Typing.Follows call s e) :
    Typing.Follows call (s.enter call) (e.press call.room call.history.lines .enter) :=
  { hfollows with
    shows := ⟨hfollows.shows.1, (Marked.holds_set_iff hfollows.shows.1.ge).mpr hfollows.shows.2⟩
    done := rfl
    history := fun hlive => Bool.noConfusion hlive }

/-! ## A run -/

theorem meaning_eq_up : key.meaning = some .up ↔ key.sc = keyUp := by
  rw [KeyPress.meaning]
  constructor
  · intro hmeaning
    by_contra hup
    split_ifs at hmeaning <;> cases hmeaning
  · intro hup
    rw [if_neg, if_pos hup]
    rw [hup]
    decide

theorem char_of_meaning (hmeant : key.meaning = some (.char c)) : 0x20 ≤ c := by
  rw [KeyPress.meaning] at hmeant
  split_ifs at hmeant <;> cases hmeant
  assumption

theorem saveWrites_iff (hlive : s.done = false) : (∀ i ∈ s.saveWrites key, i < 512) ↔
    (key.meaning = some .up → s.browseIdx = 0 → s.buffCount < 512) := by
  rw [InputState.saveWrites, meaning_eq_up]
  by_cases hsaves : key.sc = keyUp ∧ s.browseIdx = 0
  · rw [if_pos ⟨by rw [hlive]; decide, hsaves⟩, imp_iff_right hsaves.1, imp_iff_right hsaves.2]
    constructor
    · intro hinside
      exact hinside _ (List.mem_range.mpr (Nat.lt_succ_self _))
    · intro hcount i hi
      exact (Nat.le_of_lt_succ (List.mem_range.mp hi)).trans_lt hcount
  · rw [if_neg fun hall => hsaves hall.2]
    exact iff_of_true (fun _ hmem => absurd hmem List.not_mem_nil)
      fun hup hzero => absurd ⟨hup, hzero⟩ hsaves

theorem act_right_iff (hfollows : Typing.Follows call s e) (hlive : s.done = false)
    {meant : EditKey} (hmeant : key.meaning = some meant) :
    (s.act call meant).Shows (e.press call.room call.history.lines meant).line ∧
        (∀ i ∈ s.saveWrites key, i < 512) ↔
      s.Allows call meant := by
  rw [saveWrites_iff hlive, hmeant]
  cases meant with
  | up =>
      rw [imp_iff_right rfl, and_comm]
      exact and_congr_right fun _ => up_shows_iff hfollows hlive
  | down =>
      rw [and_iff_left fun hup => absurd hup (by simp)]
      exact down_shows_iff hfollows hlive
  | enter =>
      rw [and_iff_left fun hup => absurd hup (by simp)]
      exact iff_of_true (enter_follows hfollows).shows trivial
  | erase =>
      rw [and_iff_left fun hup => absurd hup (by simp)]
      exact iff_of_true (erase_follows hfollows).shows trivial
  | char c =>
      rw [and_iff_left fun hup => absurd hup (by simp)]
      exact char_shows_iff hfollows (char_of_meaning hmeant)

theorem act_follows (hfollows : Typing.Follows call s e) (hlive : s.done = false)
    {meant : EditKey} (hmeant : key.meaning = some meant)
    (hshows : (s.act call meant).Shows (e.press call.room call.history.lines meant).line) :
    Typing.Follows call (s.act call meant) (e.press call.room call.history.lines meant) := by
  cases meant with
  | up => exact up_follows hfollows hlive hshows
  | down => exact down_follows hfollows hlive hshows
  | enter => exact enter_follows hfollows
  | erase => exact erase_follows hfollows
  | char c => exact char_follows hfollows (char_of_meaning hmeant) hshows

end Keys

namespace Typing

variable {call : InputCall} {both : Typing} {key : KeyPress}

theorem step_of_done (hfollows : Follows call both.code both.editor)
    (hdone : both.code.done = true) : both.step call key = both := by
  have heditor : both.editor.done = true := hfollows.done.symm.trans hdone
  rw [step, step_eq, if_pos hdone, LineEditor.step, if_pos heditor]

theorem step_of_live (hfollows : Follows call both.code both.editor)
    (hlive : both.code.done = false) : both.step call key =
      ⟨key.meaning.elim both.code (both.code.act call),
        key.meaning.elim both.editor (both.editor.press call.room call.history.lines)⟩ := by
  have heditor : both.editor.done = false := hfollows.done.symm.trans hlive
  rw [step, step_eq, hlive, LineEditor.step, heditor]
  rfl

/-- One key does what it is to do exactly if it takes none of the branches that go wrong. -/
theorem right_iff (hfollows : Follows call both.code both.editor) :
    both.Right call key ↔ both.code.Safe call key := by
  rw [Right, InputState.Safe]
  by_cases hdone : both.code.done = true
  · rw [step_of_done hfollows hdone, InputState.saveWrites, if_neg fun hall => hall.1 hdone]
    refine iff_of_true ⟨hfollows.shows, fun _ hmem => absurd hmem List.not_mem_nil⟩ ?_
    exact fun hlive => absurd (hdone.symm.trans hlive) (by decide)
  have hlive := Bool.eq_false_of_not_eq_true hdone
  rw [step_of_live hfollows hlive, imp_iff_right hlive]
  cases hmeant : key.meaning with
  | none =>
      rw [saveWrites_iff hlive, hmeant]
      rw [and_iff_left fun hup => absurd hup (by simp)]
      exact iff_of_true hfollows.shows fun _ hnone => absurd hnone (by simp)
  | some meant =>
      exact (act_right_iff hfollows hlive hmeant).trans
        ⟨fun hallows _ hsame => Option.some.inj hsame ▸ hallows, fun hall => hall meant rfl⟩

/-- And then the code and the editor stay together. -/
theorem follows_step (hfollows : Follows call both.code both.editor)
    (hsafe : both.code.Safe call key) :
    Follows call (both.step call key).code (both.step call key).editor := by
  by_cases hdone : both.code.done = true
  · rw [step_of_done hfollows hdone]
    exact hfollows
  have hlive := Bool.eq_false_of_not_eq_true hdone
  have hright := (right_iff hfollows).mpr hsafe
  rw [Right, step_of_live hfollows hlive] at hright
  rw [step_of_live hfollows hlive]
  cases hmeant : key.meaning with
  | none => exact hfollows
  | some meant =>
      rw [hmeant] at hright
      exact act_follows hfollows hlive hmeant hright.1

theorem follows_start (call : InputCall) : Follows call call.start .empty where
  shows := ⟨rfl, Marked.holds_nil⟩
  fits := ⟨List.not_mem_nil, Nat.zero_le _⟩
  idx := rfl
  idx_le := Nat.zero_le _
  done := rfl
  history := fun _ => rfl
  saved := fun hpos => absurd hpos (Nat.lt_irrefl 0)
  saved_fits := ⟨List.not_mem_nil, Nat.zero_le _⟩

end Typing

/-- Whatever is typed, the buffer holds the line of the editor after each key exactly if the way
forward is only taken from a line of the history, or finds the line itself in `saved_input`, if no
line is left that is longer than `saved_input`, and if nothing is put into a buffer without a
byte. -/
theorem input_edits_iff (call : InputCall) (keys : List KeyPress) :
    AtEveryStep (Typing.step call) (Typing.Right call) (Typing.start call) keys ↔
      AtEveryStep (Typing.step call) (fun both key => both.code.Safe call key)
        (Typing.start call) keys :=
  atEveryStep_iff (fun both _ (hfollows : Typing.Follows call both.code both.editor) =>
    Typing.right_iff hfollows) (fun _ _ hfollows hsafe => Typing.follows_step hfollows hsafe)
    (Typing.follows_start call)

/-- The prompt of the shell, with the stack full of the same byte. -/
def promptOn (stack : UInt8) : InputCall where
  screen := geometry1024x768
  term := boot
  history := .empty
  content := fun _ => 0
  stack := fun _ => stack
  bufferSize := 512
  color := 0x0F

/-- The first key goes forward, and the line is 511 bytes that lay on the stack. -/
theorem down_shows_stack : ¬ AtEveryStep (Typing.step (promptOn 0x41))
    (Typing.Right (promptOn 0x41)) (Typing.start (promptOn 0x41)) [⟨keyDown, 0⟩] := by
  intro hright
  have hfirst := (atEveryStep_cons.mp hright).1
  have hcount := hfirst.1.1
  exact absurd hcount (by decide +kernel)

end GeckoOS.Terminal
