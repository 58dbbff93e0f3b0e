/-
# Lines of a text

A separator cuts a text into lines, and a place in the text is as well a number of
bytes from its beginning as a line and a column.  The lines are those of
`List.splitOn`; a row counts the separators before a place and a column what stands
between the last of them and the place.

The two descriptions determine each other: the offset of the row and the column of a
place is the place.  `scanLine` is the search for the beginning of a line from the
front, as an editor makes it on a buffer, and finds the offset of the line.
-/

import Mathlib.Data.List.TakeWhile
import Mathlib.Tactic.Ring

namespace GeckoOS.Math

variable {α : Type} [BEq α]

/-- How many separators stand before a place. -/
def rowOf (sep : α) (text : List α) (cursor : Nat) : Nat := (text.take cursor).count sep

/-- How far a place is behind the last separator before it. -/
def columnOf (sep : α) (text : List α) (cursor : Nat) : Nat :=
  ((text.take cursor).reverse.takeWhile (· != sep)).length

/-- The length of a line, 0 behind the last one. -/
def lineLength (sep : α) (text : List α) (row : Nat) : Nat :=
  ((text.splitOn sep)[row]?.map List.length).getD 0

/-- Where a line begins: behind the lines before it and their separators. -/
def lineOffset (sep : α) (text : List α) (row : Nat) : Nat :=
  (((text.splitOn sep).take row).map fun line => line.length + 1).sum

/-- The search for the beginning of a line. -/
def scanLine (sep : α) : List α → Nat → Nat
  | [], _ => 0
  | _, 0 => 0
  | c :: text, row + 1 => 1 + scanLine sep text (if c == sep then row else row + 1)

variable {sep c : α} {text : List α} {row cursor : Nat}

@[simp]
theorem lineOffset_zero : lineOffset sep text 0 = 0 := rfl

theorem scanLine_le : scanLine sep text row ≤ text.length := by
  induction text generalizing row with
  | nil => exact le_rfl
  | cons c text ih =>
      cases row with
      | zero => exact Nat.zero_le _
      | succ row =>
          rw [scanLine, List.length_cons, Nat.add_comm]
          exact Nat.succ_le_succ ih

/-! ## The lines of a longer text -/

variable [LawfulBEq α]

theorem splitOn_cons_self : (sep :: text).splitOn sep = [] :: text.splitOn sep := by
  rw [List.splitOn_cons_eq_if_modifyHead, if_pos (beq_self_eq_true sep)]

/-- Another byte at the front belongs to the first line. -/
theorem splitOn_cons_other (text : List α) (hc : c ≠ sep) : ∃ line rest,
    text.splitOn sep = line :: rest ∧ (c :: text).splitOn sep = (c :: line) :: rest := by
  have hcons := List.splitOn_cons_eq_if_modifyHead (a := sep) c text
  rw [if_neg (by simpa using hc)] at hcons
  cases hlines : text.splitOn sep with
  | nil => exact absurd hlines (List.splitOn_ne_nil sep text)
  | cons line rest =>
      rw [hlines] at hcons
      exact ⟨line, rest, rfl, hcons⟩

theorem length_splitOn : (text.splitOn sep).length = text.count sep + 1 := by
  induction text with
  | nil => rfl
  | cons c text ih =>
      by_cases hc : c = sep
      · subst hc
        rw [splitOn_cons_self, List.length_cons, ih, List.count_cons_self]
      · obtain ⟨line, rest, hlines, hmore⟩ := splitOn_cons_other text hc
        rw [hlines, List.length_cons] at ih
        rw [hmore, List.length_cons, ih, List.count_cons_of_ne hc]

/-! ## Beginnings and lengths of lines -/

theorem lineOffset_cons_self :
    lineOffset sep (sep :: text) (row + 1) = 1 + lineOffset sep text row := by
  rw [lineOffset, splitOn_cons_self, List.take_succ_cons, List.map_cons, List.sum_cons,
    List.length_nil, Nat.zero_add, lineOffset]

theorem lineOffset_cons_other (hc : c ≠ sep) :
    lineOffset sep (c :: text) (row + 1) = 1 + lineOffset sep text (row + 1) := by
  obtain ⟨line, rest, hlines, hmore⟩ := splitOn_cons_other text hc
  simp only [lineOffset, hlines, hmore, List.take_succ_cons, List.map_cons, List.sum_cons,
    List.length_cons]
  ring

/-- The search finds the beginning of every line there is. -/
theorem scanLine_eq_lineOffset (hrow : row ≤ text.count sep) :
    scanLine sep text row = lineOffset sep text row := by
  induction text generalizing row with
  | nil =>
      obtain rfl := Nat.le_zero.mp hrow
      rfl
  | cons c text ih =>
      cases row with
      | zero => rfl
      | succ row =>
          rw [scanLine]
          by_cases hc : c = sep
          · subst hc
            rw [List.count_cons_self] at hrow
            rw [if_pos (beq_self_eq_true c), ih (Nat.le_of_succ_le_succ hrow), lineOffset_cons_self]
          · rw [List.count_cons_of_ne hc] at hrow
            rw [if_neg (by simpa using hc), ih hrow, lineOffset_cons_other hc]

/-- From the beginning of a line, the line is what stands before the next separator. -/
theorem lineLength_eq_takeWhile (hrow : row ≤ text.count sep) :
    ((text.drop (lineOffset sep text row)).takeWhile (· != sep)).length =
      lineLength sep text row := by
  induction text generalizing row with
  | nil =>
      obtain rfl := Nat.le_zero.mp hrow
      rfl
  | cons c text ih =>
      by_cases hc : c = sep
      · subst hc
        cases row with
        | zero => simp [lineLength, splitOn_cons_self]
        | succ row =>
            rw [List.count_cons_self] at hrow
            rw [lineOffset_cons_self, Nat.add_comm, List.drop_succ_cons,
              ih (Nat.le_of_succ_le_succ hrow), lineLength, lineLength, splitOn_cons_self,
              List.getElem?_cons_succ]
      · rw [List.count_cons_of_ne hc] at hrow
        obtain ⟨line, rest, hlines, hmore⟩ := splitOn_cons_other text hc
        cases row with
        | zero =>
            have hfirst := @ih 0 (Nat.zero_le _)
            simp only [lineOffset_zero, List.drop_zero, lineLength, hlines,
              List.getElem?_cons_zero, Option.map_some, Option.getD_some] at hfirst
            have hother : (c != sep) = true := by simpa using hc
            simp [lineLength, hmore, hother, hfirst]
        | succ row =>
            rw [lineOffset_cons_other hc, Nat.add_comm, List.drop_succ_cons, ih hrow, lineLength,
              lineLength, hlines, hmore, List.getElem?_cons_succ, List.getElem?_cons_succ]

/-- Every column of a line is in the text. -/
theorem lineOffset_add_lineLength_le (hrow : row ≤ text.count sep) :
    lineOffset sep text row + lineLength sep text row ≤ text.length := by
  have hstart : lineOffset sep text row ≤ text.length :=
    scanLine_eq_lineOffset hrow ▸ scanLine_le
  have hline := (List.takeWhile_sublist (· != sep)
    (l := text.drop (lineOffset sep text row))).length_le
  rw [lineLength_eq_takeWhile hrow, List.length_drop] at hline
  omega

/-! ## Rows and columns -/

omit [LawfulBEq α] in
theorem rowOf_le : rowOf sep text cursor ≤ text.count sep :=
  (List.take_sublist _ _).count_le _

/-- A place is in the column it has of the row it has. -/
theorem lineOffset_add_columnOf (hcursor : cursor ≤ text.length) :
    lineOffset sep text (rowOf sep text cursor) + columnOf sep text cursor = cursor := by
  induction text generalizing cursor with
  | nil =>
      obtain rfl := Nat.le_zero.mp hcursor
      rfl
  | cons c text ih =>
      cases cursor with
      | zero => rfl
      | succ cursor =>
          have hrest := ih (Nat.le_of_succ_le_succ hcursor)
          have hlength : (text.take cursor).length = cursor :=
            List.length_take_of_le (Nat.le_of_succ_le_succ hcursor)
          rw [columnOf, rowOf] at hrest ⊢
          rw [List.take_succ_cons, List.reverse_cons, List.takeWhile_append]
          by_cases hc : c = sep
          · subst hc
            rw [List.count_cons_self, lineOffset_cons_self, List.takeWhile_cons_of_neg (by simp)]
            split_ifs with hwhole
            · rw [List.append_nil, ← hwhole]
              omega
            · omega
          · have hlast : [c].takeWhile (· != sep) = [c] := by simp [hc]
            rw [List.count_cons_of_ne hc, hlast]
            -- the first line is the only one the byte in front lengthens
            by_cases hfirst : sep ∈ text.take cursor
            · obtain ⟨k, hk⟩ := Nat.exists_eq_add_one.mpr (List.count_pos_iff.mpr hfirst)
              rw [hk] at hrest ⊢
              rw [if_neg, lineOffset_cons_other hc]
              · omega
              · intro hwhole
                have hself := (List.takeWhile_prefix _).eq_of_length hwhole
                have hall := List.takeWhile_eq_self_iff.mp hself sep (List.mem_reverse.mpr hfirst)
                simp at hall
            · rw [List.count_eq_zero.mpr hfirst, if_pos]
              · simp [hlength]
              · rw [List.takeWhile_eq_self_iff.mpr]
                intro x hx
                have hne : x ≠ sep := fun h => hfirst (h ▸ List.mem_reverse.mp hx)
                simpa using hne

end GeckoOS.Math
