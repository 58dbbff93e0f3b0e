/-
# The editor as a text with a cursor

What a user of the editor sees is a text and a place in it.  `TextCursor` is that and
nothing else, together with its two bounds, and each key is said in its own terms:
typing puts a byte at the place, backspace takes the one before it, the arrows to the
sides move by one byte and the arrows up and down go to the next line, to the same
column or to the end of that line if it is shorter.

`Shows` relates the editor's buffer to it, and every key keeps the relation.  The work
is in the loops: each of the five that scan the buffer finds the number that the lines
of the text give, and the two that shift it move exactly the bytes behind the cursor.
-/

import GeckoOS.Editor.Editor
import GeckoOS.Math.Lines

namespace GeckoOS.Editor

open GeckoOS.Math ByteMap

/-! ## The text and the cursor -/

/-- A text that fits into the editor, and a place in it. -/
structure TextCursor where
  text : List UInt8
  cursor : Nat
  hcursor : cursor ≤ text.length
  hlimit : text.length ≤ editorMaxFilesize - 1

namespace TextCursor

/-- A byte is put at the cursor, unless the text is as long as it may be. -/
def insert (c : UInt8) (d : TextCursor) : TextCursor :=
  if hroom : d.text.length < editorMaxFilesize - 1 then
    { text := d.text.take d.cursor ++ c :: d.text.drop d.cursor
      cursor := d.cursor + 1
      hcursor := by
        have hcursor := d.hcursor
        simp only [List.length_append, List.length_take, List.length_cons, List.length_drop]
        omega
      hlimit := by
        have hcursor := d.hcursor
        simp only [List.length_append, List.length_take, List.length_cons, List.length_drop]
        omega }
  else d

/-- The byte before the cursor is taken away. -/
def backspace (d : TextCursor) : TextCursor :=
  { text := d.text.take (d.cursor - 1) ++ d.text.drop d.cursor
    cursor := d.cursor - 1
    hcursor := by
      have hcursor := d.hcursor
      simp only [List.length_append, List.length_take, List.length_drop]
      omega
    hlimit := by
      have hlimit := d.hlimit
      simp only [List.length_append, List.length_take, List.length_drop]
      omega }

/-- The cursor goes back by a byte. -/
def left (d : TextCursor) : TextCursor :=
  { d with cursor := d.cursor - 1, hcursor := (Nat.sub_le _ _).trans d.hcursor }

/-- The cursor goes on by a byte. -/
def right (d : TextCursor) : TextCursor :=
  { d with cursor := min (d.cursor + 1) d.text.length, hcursor := Nat.min_le_right _ _ }

/-- The line of the cursor. -/
def row (d : TextCursor) : Nat := rowOf newline d.text d.cursor

/-- The column of the cursor. -/
def column (d : TextCursor) : Nat := columnOf newline d.text d.cursor

/-- The number of the last line. -/
def lastRow (d : TextCursor) : Nat := (d.text.splitOn newline).length - 1

theorem lastRow_eq (d : TextCursor) : d.lastRow = d.text.count newline := by
  rw [lastRow, length_splitOn, Nat.add_sub_cancel]

/-- The cursor goes to another line, to its own column as far as that line reaches. -/
def toRow (d : TextCursor) (row : Nat) (hrow : row ≤ d.lastRow) : TextCursor :=
  { d with
    cursor := lineOffset newline d.text row + min d.column (lineLength newline d.text row)
    hcursor := (Nat.add_le_add_left (Nat.min_le_right _ _) _).trans
      (lineOffset_add_lineLength_le (d.lastRow_eq ▸ hrow)) }

theorem row_le (d : TextCursor) : d.row ≤ d.lastRow := d.lastRow_eq ▸ rowOf_le

/-- The cursor goes to the line above, if there is one. -/
def up (d : TextCursor) : TextCursor :=
  if 0 < d.row then d.toRow (d.row - 1) ((Nat.sub_le _ _).trans d.row_le) else d

/-- The cursor goes to the line below, if there is one. -/
def down (d : TextCursor) : TextCursor :=
  if hbelow : d.row < d.lastRow then d.toRow (d.row + 1) hbelow else d

/-- What a key does. -/
def press : EdKey → TextCursor → TextCursor
  | .char c => insert c
  | .enter => insert newline
  | .backspace => backspace
  | .left => left
  | .right => right
  | .up => up
  | .down => down

end TextCursor

/-- The editor's state is this text with this cursor. -/
structure Shows (ed : EdState) (d : TextCursor) : Prop where
  text : slice ed.buf 0 ed.len = d.text
  cursor : ed.cur = d.cursor
  ending : ed.buf ed.len = 0

variable {ed : EdState} {d : TextCursor} {buf : ByteMap}

theorem Shows.len (hshows : Shows ed d) : ed.len = d.text.length := by
  rw [← hshows.text, length_slice]

theorem Shows.cur_le (hshows : Shows ed d) : ed.cur ≤ ed.len := by
  rw [hshows.cursor, hshows.len]
  exact d.hcursor

theorem Shows.len_le (hshows : Shows ed d) : ed.len ≤ editorMaxFilesize - 1 := by
  rw [hshows.len]
  exact d.hlimit

theorem Shows.take (hshows : Shows ed d) {n : Nat} (hn : n ≤ ed.len) :
    slice ed.buf 0 n = d.text.take n := by
  rw [← hshows.text, ← Nat.add_sub_of_le hn, slice_add, List.take_left' (length_slice n)]

theorem Shows.drop (hshows : Shows ed d) {n : Nat} (hn : n ≤ ed.len) :
    slice ed.buf n (ed.len - n) = d.text.drop n := by
  rw [← hshows.text]
  conv_rhs => rw [← Nat.add_sub_of_le hn, slice_add, List.drop_left' (length_slice n), Nat.zero_add]

/-! ## The loops that scan -/

theorem slice_cons (i left : Nat) : slice buf i (left + 1) = buf i :: slice buf (i + 1) left := by
  rw [Nat.add_comm, slice_add]
  rfl

theorem slice_concat (i left : Nat) :
    slice buf i (left + 1) = slice buf i left ++ [buf (i + left)] := by
  rw [slice_add]
  rfl

theorem newlineLoop_eq (left i line : Nat) :
    newlineLoop buf left i line = line + (slice buf i left).count newline := by
  induction left generalizing i line with
  | zero => rfl
  | succ left ih =>
      rw [newlineLoop, ih, slice_cons, List.count_cons]
      by_cases hline : buf i = newline
      · rw [if_pos hline, if_pos (by simp [hline])]
        omega
      · rw [if_neg hline, if_neg (by simpa using hline)]
        rfl

theorem colLoop_eq (i col : Nat) : colLoop buf i col =
    col + ((slice buf 0 i).reverse.takeWhile (· != newline)).length := by
  induction i generalizing col with
  | zero => rfl
  | succ i ih =>
      rw [colLoop, slice_concat, List.reverse_concat, Nat.zero_add]
      by_cases hline : buf i = newline
      · simp [hline]
      · rw [if_pos hline, ih, List.takeWhile_cons, if_pos (by simpa using hline), List.length_cons]
        omega

theorem lineStartLoop_eq (n left pos line : Nat) (hline : line ≤ n) :
    lineStartLoop buf n left pos line = pos + scanLine newline (slice buf pos left) (n - line) := by
  induction left generalizing pos line with
  | zero => rfl
  | succ left ih =>
      rw [lineStartLoop, slice_cons]
      by_cases hfound : line < n
      · obtain ⟨k, hk⟩ := Nat.exists_eq_add_one.mpr (Nat.sub_pos_of_lt hfound)
        rw [if_pos hfound, hk, scanLine]
        by_cases hbyte : buf pos = newline
        · rw [if_pos hbyte, ih _ _ hfound, if_pos (by simp [hbyte]),
            show n - (line + 1) = k by omega, Nat.add_assoc]
        · rw [if_neg hbyte, ih _ _ hline, if_neg (by simpa using hbyte), hk, Nat.add_assoc]
      · rw [if_neg hfound, show n - line = 0 by omega, scanLine]
        · rfl
        · exact List.cons_ne_nil _ _

theorem lineLenLoop_eq (start left len : Nat) : lineLenLoop buf start left len =
    len + ((slice buf (start + len) left).takeWhile (· != newline)).length := by
  induction left generalizing len with
  | zero => rfl
  | succ left ih =>
      rw [lineLenLoop, slice_cons]
      by_cases hline : buf (start + len) = newline
      · simp [hline]
      · rw [if_pos hline, ih, List.takeWhile_cons, if_pos (by simpa using hline), List.length_cons,
          Nat.add_assoc start len 1]
        omega

theorem Shows.countLines (hshows : Shows ed d) : edCountLines ed = d.lastRow + 1 := by
  rw [edCountLines, newlineLoop_eq, hshows.text, d.lastRow_eq, Nat.add_comm]

theorem Shows.offsetToLine (hshows : Shows ed d) : edOffsetToLine ed ed.cur = d.row := by
  rw [edOffsetToLine, Nat.min_eq_left hshows.cur_le, newlineLoop_eq, Nat.zero_add,
    hshows.take hshows.cur_le, hshows.cursor]
  rfl

theorem Shows.offsetToCol (hshows : Shows ed d) : edOffsetToCol ed ed.cur = d.column := by
  rw [edOffsetToCol, colLoop_eq, Nat.zero_add, hshows.take hshows.cur_le, hshows.cursor]
  rfl

theorem Shows.lineStart (hshows : Shows ed d) {n : Nat} (hn : n ≤ d.lastRow) :
    edLineStart ed n = lineOffset newline d.text n := by
  rw [edLineStart, lineStartLoop_eq _ _ _ _ (Nat.zero_le _), Nat.zero_add, hshows.text]
  exact scanLine_eq_lineOffset (d.lastRow_eq ▸ hn)

theorem Shows.lineLen (hshows : Shows ed d) {n : Nat} (hn : n ≤ d.lastRow) :
    edLineLen ed n = lineLength newline d.text n := by
  have hrow : n ≤ d.text.count newline := d.lastRow_eq ▸ hn
  have hstart : lineOffset newline d.text n ≤ ed.len := by
    rw [hshows.len]
    exact (Nat.le_add_right _ _).trans (lineOffset_add_lineLength_le hrow)
  rw [edLineLen, lineLenLoop_eq, Nat.zero_add, Nat.add_zero, hshows.lineStart hn,
    hshows.drop hstart, lineLength_eq_takeWhile hrow]

/-- The line and the column that the loops find for the cursor lead back to it. -/
theorem Shows.lineStart_add_col (hshows : Shows ed d) :
    edLineStart ed (edOffsetToLine ed ed.cur) + edOffsetToCol ed ed.cur = ed.cur := by
  rw [hshows.offsetToLine, hshows.lineStart d.row_le, hshows.offsetToCol, hshows.cursor]
  exact lineOffset_add_columnOf d.hcursor

/-! ## The loops that shift -/

theorem shiftUp_apply (cur i position : Nat) : shiftUp cur i buf position =
    if cur < position ∧ position ≤ i then buf (position - 1) else buf position := by
  induction i generalizing buf with
  | zero =>
      rw [shiftUp, if_neg]
      omega
  | succ i ih =>
      rw [shiftUp]
      by_cases hmore : cur < i + 1
      · rw [if_pos hmore, ih]
        by_cases hlast : position = i + 1
        · subst hlast
          rw [if_neg (by omega), if_pos (by omega), Function.update_self, Nat.add_sub_cancel]
        · rw [Function.update_of_ne hlast]
          by_cases hmoved : cur < position ∧ position ≤ i
          · rw [if_pos hmoved, if_pos (by omega),
              Function.update_of_ne (by omega : position - 1 ≠ i + 1)]
          · rw [if_neg hmoved, if_neg (by omega)]
      · rw [if_neg hmore, if_neg (by omega)]

theorem shiftDown_apply (left i position : Nat) : shiftDown left i buf position =
    if i ≤ position ∧ position < i + left then buf (position + 1) else buf position := by
  induction left generalizing i buf with
  | zero =>
      rw [shiftDown, if_neg]
      omega
  | succ left ih =>
      rw [shiftDown, ih]
      by_cases hfirst : position = i
      · subst hfirst
        rw [if_neg (by omega), if_pos (by omega), Function.update_self]
      · by_cases hmoved : i ≤ position ∧ position < i + (left + 1)
        · rw [if_pos hmoved, if_pos (by omega),
            Function.update_of_ne (by omega : position + 1 ≠ i)]
        · rw [if_neg hmoved, if_neg (by omega), Function.update_of_ne hfirst]

/-! ## The keys -/

theorem Shows.insert (hshows : Shows ed d) (c : UInt8) : Shows (edInsert c ed) (d.insert c) := by
  have hcur := hshows.cur_le
  rw [edInsert, TextCursor.insert]
  by_cases hroom : d.text.length < editorMaxFilesize - 1
  · rw [if_neg (by rw [hshows.len]; omega), dif_pos hroom]
    have hfront : slice (Function.update (Function.update (shiftUp ed.cur ed.len ed.buf) ed.cur c)
        (ed.len + 1) 0) 0 ed.cur = slice ed.buf 0 ed.cur :=
      slice_congr fun i hi => by
        rw [Function.update_of_ne (by omega), Function.update_of_ne (by omega), shiftUp_apply,
          if_neg (by omega)]
    have hback : slice (Function.update (Function.update (shiftUp ed.cur ed.len ed.buf) ed.cur c)
        (ed.len + 1) 0) (ed.cur + 1) (ed.len - ed.cur) = slice ed.buf ed.cur (ed.len - ed.cur) :=
      slice_shift fun i hi => by
        rw [Function.update_of_ne (by omega), Function.update_of_ne (by omega), shiftUp_apply,
          if_pos (by omega)]
        congr 1
        omega
    refine ⟨?_, congrArg (· + 1) hshows.cursor, Function.update_self ..⟩
    dsimp only
    rw [show ed.len + 1 = ed.cur + ((ed.len - ed.cur) + 1) by omega, slice_add, Nat.zero_add,
      slice_cons]
    rw [show ed.cur + (ed.len - ed.cur + 1) = ed.len + 1 by omega, hfront, hback,
      Function.update_of_ne (by omega), Function.update_self, hshows.take hcur, hshows.drop hcur,
      hshows.cursor]
  · rw [if_pos (by rw [hshows.len]; omega), dif_neg hroom]
    exact hshows

theorem Shows.backspace (hshows : Shows ed d) : Shows (edBackspace ed) d.backspace := by
  have hcur := hshows.cur_le
  rw [edBackspace]
  by_cases hstart : ed.cur = 0
  · rw [if_pos hstart]
    have hcursor : d.cursor = 0 := hshows.cursor ▸ hstart
    refine ⟨hshows.text.trans ?_, hshows.cursor.trans ?_, hshows.ending⟩
    · simp [TextCursor.backspace, hcursor]
    · simp [TextCursor.backspace, hcursor]
  · rw [if_neg hstart]
    have hfront : slice (Function.update (shiftDown (ed.len - 1 - (ed.cur - 1)) (ed.cur - 1) ed.buf)
        (ed.len - 1) 0) 0 (ed.cur - 1) = slice ed.buf 0 (ed.cur - 1) :=
      slice_congr fun i hi => by
        rw [Function.update_of_ne (by omega), shiftDown_apply, if_neg (by omega)]
    have hback : slice (Function.update (shiftDown (ed.len - 1 - (ed.cur - 1)) (ed.cur - 1) ed.buf)
        (ed.len - 1) 0) (ed.cur - 1) (ed.len - ed.cur) = slice ed.buf ed.cur (ed.len - ed.cur) :=
      slice_shift fun i hi => by
        rw [Function.update_of_ne (by omega), shiftDown_apply, if_pos (by omega)]
        congr 1
        omega
    refine ⟨?_, congrArg (· - 1) hshows.cursor, Function.update_self ..⟩
    dsimp only
    rw [show ed.len - 1 = (ed.cur - 1) + (ed.len - ed.cur) by omega, slice_add, Nat.zero_add,
      show ed.cur - 1 + (ed.len - ed.cur) = ed.len - 1 by omega, hfront, hback,
      hshows.take (by omega), hshows.drop hcur, hshows.cursor]
    rfl

theorem Shows.left (hshows : Shows ed d) : Shows (edMoveLeft ed) d.left := by
  rw [edMoveLeft]
  refine ⟨?_, ?_, ?_⟩
  · split_ifs <;> exact hshows.text
  · have hcursor : d.left.cursor = ed.cur - 1 := congrArg (· - 1) hshows.cursor.symm
    rw [hcursor]
    split_ifs
    · rfl
    · omega
  · split_ifs <;> exact hshows.ending

theorem Shows.right (hshows : Shows ed d) : Shows (edMoveRight ed) d.right := by
  have hcur := hshows.cur_le
  rw [edMoveRight]
  refine ⟨?_, ?_, ?_⟩
  · split_ifs <;> exact hshows.text
  · have hcursor : d.right.cursor = min (ed.cur + 1) ed.len := by
      rw [hshows.cursor, hshows.len]
      rfl
    rw [hcursor]
    split_ifs
    · exact (Nat.min_eq_left (by omega : ed.cur + 1 ≤ ed.len)).symm
    · omega
  · split_ifs <;> exact hshows.ending

/-- Going to another line, as both arrows do it. -/
theorem Shows.toRow (hshows : Shows ed d) {row : Nat} (hrow : row ≤ d.lastRow) :
    Shows { ed with cur := edLineStart ed row + min (edOffsetToCol ed ed.cur) (edLineLen ed row) }
      (d.toRow row hrow) := by
  refine ⟨hshows.text, ?_, hshows.ending⟩
  dsimp only
  rw [hshows.lineStart hrow, hshows.offsetToCol, hshows.lineLen hrow]
  rfl

theorem Shows.up (hshows : Shows ed d) : Shows (edMoveUp ed) d.up := by
  rw [edMoveUp, TextCursor.up, hshows.offsetToLine]
  dsimp only
  by_cases hrow : d.row = 0
  · rw [if_pos hrow, if_neg (by omega)]
    exact hshows
  · rw [if_neg hrow, if_pos (by omega)]
    exact hshows.toRow _

theorem Shows.down (hshows : Shows ed d) : Shows (edMoveDown ed) d.down := by
  rw [edMoveDown, TextCursor.down, hshows.offsetToLine, hshows.countLines, Nat.add_sub_cancel]
  dsimp only
  by_cases hrow : d.row < d.lastRow
  · rw [if_neg (Nat.not_le.mpr hrow), dif_pos hrow]
    exact hshows.toRow _
  · rw [if_pos (Nat.not_lt.mp hrow), dif_neg hrow]
    exact hshows

/-- Every key does to the buffer what it says. -/
theorem Shows.press (hshows : Shows ed d) (key : EdKey) : Shows (press key ed) (d.press key) := by
  cases key with
  | char c => exact hshows.insert c
  | enter => exact hshows.insert newline
  | backspace => exact hshows.backspace
  | left => exact hshows.left
  | right => exact hshows.right
  | up => exact hshows.up
  | down => exact hshows.down

/-! ## Loading -/

/-- The bytes of the text. -/
def EdState.text (ed : EdState) : List UInt8 := slice ed.buf 0 ed.len

theorem takeBytes_spec (bytes : List UInt8) (hlen : ed.len ≤ editorMaxFilesize - 1) :
    (takeBytes bytes ed).len = ed.len + min bytes.length (editorMaxFilesize - 1 - ed.len) ∧
      (takeBytes bytes ed).text = ed.text ++ bytes.take (editorMaxFilesize - 1 - ed.len) := by
  induction bytes generalizing ed with
  | nil =>
      rw [takeBytes]
      simp
  | cons b bytes ih =>
      rw [takeBytes]
      by_cases hroom : ed.len < editorMaxFilesize - 1
      · rw [if_pos hroom]
        obtain ⟨hmore, htext⟩ := @ih
          { ed with buf := Function.update ed.buf ed.len b, len := ed.len + 1 } hroom
        dsimp only [EdState.text] at hmore htext
        obtain ⟨k, hk⟩ := Nat.exists_eq_add_one.mpr (Nat.sub_pos_of_lt hroom)
        have hkept : slice (Function.update ed.buf ed.len b) 0 ed.len = slice ed.buf 0 ed.len :=
          slice_congr fun i hi => Function.update_of_ne (by omega) _ _
        rw [show editorMaxFilesize - 1 - (ed.len + 1) = k by omega] at hmore htext
        rw [slice_concat, hkept, Nat.zero_add, Function.update_self] at htext
        rw [hk, EdState.text, htext, List.take_succ_cons, List.append_assoc]
        refine ⟨?_, rfl⟩
        rw [hmore, List.length_cons]
        omega
      · rw [if_neg hroom, show editorMaxFilesize - 1 - ed.len = 0 by omega]
        simp

theorem takeBytes_len_le (bytes : List UInt8) (hlen : ed.len ≤ editorMaxFilesize - 1) :
    (takeBytes bytes ed).len ≤ editorMaxFilesize - 1 := by
  rw [(takeBytes_spec bytes hlen).1]
  omega

theorem loadLoop_len_le (read : Nat → List UInt8) (rounds offset : Nat)
    (hlen : ed.len ≤ editorMaxFilesize - 1) :
    (loadLoop read rounds offset ed).len ≤ editorMaxFilesize - 1 := by
  induction rounds generalizing offset ed with
  | zero => exact hlen
  | succ rounds ih =>
      rw [loadLoop]
      split_ifs
      · exact hlen
      · exact ih _ (takeBytes_len_le _ hlen)
      · exact hlen

/-- Reading a file in pieces of 128 bytes fills the buffer with its beginning. -/
theorem loadLoop_text (content : List UInt8) (rounds offset : Nat)
    (hlen : ed.len = min offset (editorMaxFilesize - 1)) (hoffset : offset ≤ content.length)
    (htext : ed.text = content.take ed.len) (hrounds : editorMaxFilesize ≤ rounds + ed.len) :
    (loadLoop (fun start => (content.drop start).take 128) rounds offset ed).text =
      content.take (editorMaxFilesize - 1) := by
  have hsize : 0 < editorMaxFilesize := by decide
  induction rounds generalizing offset ed with
  | zero => omega
  | succ rounds ih =>
      rw [loadLoop]
      by_cases hroom : ed.len < editorMaxFilesize - 1
      · have hhere : ed.len = offset := by omega
        rw [if_pos hroom]
        by_cases hdone : content.length ≤ offset
        · rw [if_pos (by rw [List.drop_eq_nil_of_le hdone, List.take_nil]), htext,
            List.take_of_length_le (by omega), List.take_of_length_le (by omega)]
        · obtain ⟨hnewlen, hnew⟩ := takeBytes_spec ((content.drop offset).take 128) hroom.le
          have hpiece : ((content.drop offset).take 128).length =
              min 128 (content.length - offset) := by
            rw [List.length_take, List.length_drop]
          rw [hpiece] at hnewlen
          rw [if_neg fun hnil => by rw [hnil, List.length_nil] at hpiece; omega]
          refine ih _ ?_ ?_ ?_ ?_
          · rw [hnewlen, hpiece]
            omega
          · rw [hpiece]
            omega
          · rw [hnew, hnewlen, htext, hhere, List.take_take, List.take_add]
            congr 1
            rw [List.take_eq_take_iff, List.length_drop]
            omega
          · rw [hnewlen]
            omega
      · rw [if_neg hroom, htext]
        congr 1
        omega

theorem edLoad_len_le (file : Option (Nat → List UInt8)) (ed : EdState) :
    (edLoad file ed).len ≤ editorMaxFilesize - 1 := by
  cases file with
  | none => exact Nat.zero_le _
  | some read => exact loadLoop_len_le read _ _ (Nat.zero_le _)

theorem edLoad_ending (file : Option (Nat → List UInt8)) (ed : EdState) :
    (edLoad file ed).buf (edLoad file ed).len = 0 := by
  cases file with
  | none => exact Function.update_self 0 0 ed.buf
  | some read =>
      rw [edLoad]
      exact Function.update_self ..

/-- The text of a file in the editor is the file, as much of it as fits. -/
theorem edLoad_text (content : List UInt8) (ed : EdState) :
    (edLoad (some fun start => (content.drop start).take 128) ed).text =
      content.take (editorMaxFilesize - 1) := by
  rw [← @loadLoop_text { ed with buf := Function.update ed.buf 0 0, len := 0 } content
    editorMaxFilesize 0 rfl (Nat.zero_le _) rfl le_rfl]
  refine slice_congr fun i hi => Function.update_of_ne ?_ _ _
  rw [Nat.zero_add]
  exact hi.ne

/-- What is in the editor when it begins: the loaded text, with the cursor at its front. -/
def loaded (file : Option (Nat → List UInt8)) (before : EdState) : TextCursor :=
  { text := (editorRun file before).ed.text
    cursor := 0
    hcursor := Nat.zero_le _
    hlimit := by
      rw [EdState.text, length_slice]
      exact edLoad_len_le _ _ }

theorem takeBytes_cur (bytes : List UInt8) : (takeBytes bytes ed).cur = ed.cur := by
  induction bytes generalizing ed with
  | nil => rfl
  | cons b bytes ih =>
      rw [takeBytes]
      split_ifs
      · exact ih
      · rfl

theorem loadLoop_cur (read : Nat → List UInt8) (rounds offset : Nat) :
    (loadLoop read rounds offset ed).cur = ed.cur := by
  induction rounds generalizing offset ed with
  | zero => rfl
  | succ rounds ih =>
      rw [loadLoop]
      split_ifs
      · rfl
      · exact (ih _).trans (takeBytes_cur _)
      · rfl

theorem edLoad_cur (file : Option (Nat → List UInt8)) (ed : EdState) :
    (edLoad file ed).cur = ed.cur := by
  cases file with
  | none => rfl
  | some read => exact loadLoop_cur read _ _

theorem shows_loaded (file : Option (Nat → List UInt8)) (before : EdState) :
    Shows (editorRun file before).ed (loaded file before) :=
  ⟨rfl, edLoad_cur _ _, edLoad_ending _ _⟩

/-! ## Sessions -/

/-- The editing keys that the loop of `editor_run` finds among the keys typed. -/
def Session.keys : Session → List KeyEvent → List EdKey
  | _, [] => []
  | s, e :: events =>
      match s.phase, action s.ctrlHeld e with
      | .editing, .edit key => key :: Session.keys (s.step e) events
      | _, _ => Session.keys (s.step e) events

/-- A row of editing keys, on the text. -/
def TextCursor.run (d : TextCursor) (keys : List EdKey) : TextCursor :=
  keys.foldl (fun d key => d.press key) d

theorem Shows.saved (hshows : Shows ed d) (dirty : Bool) : Shows { ed with dirty := dirty } d :=
  ⟨hshows.text, hshows.cursor, hshows.ending⟩

/-- One key of a session. -/
theorem Shows.step {s : Session} (hshows : Shows s.ed d) (e : KeyEvent) :
    Shows (s.step e).ed (d.run (s.keys [e])) := by
  rw [Session.step, Session.keys]
  cases s.phase with
  | closed => exact hshows
  | asking => split_ifs <;> exact hshows
  | editing =>
      cases action s.ctrlHeld e with
      | edit key => exact hshows.press key
      | save => exact hshows.saved _
      | ctrl | quit | ignore => exact hshows

theorem Session.keys_cons (s : Session) (e : KeyEvent) (events : List KeyEvent) :
    s.keys (e :: events) = s.keys [e] ++ (s.step e).keys events := by
  rw [Session.keys, Session.keys]
  split <;> rfl

theorem Shows.run {s : Session} (hshows : Shows s.ed d) (events : List KeyEvent) :
    Shows (s.run events).ed (d.run (s.keys events)) := by
  induction events generalizing s d with
  | nil => exact hshows
  | cons e events ih =>
      rw [Session.keys_cons, TextCursor.run, List.foldl_append]
      exact ih (hshows.step e)

/-- While only editing keys are typed, every one of them is found. -/
theorem Session.keys_of_edits {keys : List EdKey} {events : List KeyEvent} {held : Bool}
    (hedits : List.Forall₂ (fun e key => action held e = .edit key) events keys) (ed : EdState) :
    Session.keys ⟨ed, held, .editing⟩ events = keys := by
  induction hedits generalizing ed with
  | nil => rfl
  | @cons e key events keys hedit hedits ih =>
      rw [Session.keys_cons, Session.keys, Session.step]
      dsimp only
      rw [hedit]
      exact congrArg (key :: ·) (ih (GeckoOS.Editor.press key ed))

/-- Whatever is typed, the editor's state is the text with the cursor that the loaded text
becomes by the editing keys among it, within the bounds of the buffer. -/
theorem editor_shows_text (file : Option (Nat → List UInt8)) (before : EdState)
    (events : List KeyEvent) :
    let s := editorRun file before
    let ed := (s.run events).ed
    let d := (loaded file before).run (s.keys events)
    ed.text = d.text ∧ ed.cur = d.cursor ∧
      ed.cur ≤ ed.len ∧ ed.len ≤ editorMaxFilesize - 1 ∧ ed.buf ed.len = 0 := by
  have hshows := (shows_loaded file before).run events
  exact ⟨hshows.text, hshows.cursor, hshows.cur_le, hshows.len_le, hshows.ending⟩

end GeckoOS.Editor
