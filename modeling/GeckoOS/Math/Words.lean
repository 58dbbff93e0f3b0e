/-
# Words of a text

The words of a text are the pieces between its separators that are not empty.  So they are the
same however many separators stand between two words, before the first and behind the last.

`skipSep`, `firstWord` and `afterWord` are the steps of a scan from the front.  One round of
them takes the first word off, and the words of what is left are the other ones.
-/

import GeckoOS.Math.Lines

namespace GeckoOS.Math

variable {α : Type} [DecidableEq α]

/-- The words of a text. -/
def words (sep : α) (text : List α) : List (List α) := (text.splitOn sep).filter (· ≠ [])

/-- The text from its first character that is no separator. -/
def skipSep (sep : α) (text : List α) : List α := text.dropWhile (· = sep)

/-- The text up to its first separator. -/
def firstWord (sep : α) (text : List α) : List α := text.takeWhile (· ≠ sep)

/-- The text from its first separator on. -/
def afterWord (sep : α) (text : List α) : List α := text.dropWhile (· ≠ sep)

variable {sep c : α} {text word rest : List α} {n : Nat}

theorem firstWord_append_afterWord : firstWord sep text ++ afterWord sep text = text :=
  List.takeWhile_append_dropWhile

theorem take_firstWord : text.take (firstWord sep text).length = firstWord sep text := by
  have htake := @List.take_left _ (firstWord sep text) (afterWord sep text)
  rwa [firstWord_append_afterWord] at htake

theorem drop_firstWord : text.drop (firstWord sep text).length = afterWord sep text := by
  have hdrop := @List.drop_left _ (firstWord sep text) (afterWord sep text)
  rwa [firstWord_append_afterWord] at hdrop

theorem getElem?_firstWord :
    text[(firstWord sep text).length]? = (afterWord sep text).head? := by
  rw [← drop_firstWord, List.head?_drop]

theorem sep_not_mem_firstWord : sep ∉ firstWord sep text := fun hmem =>
  absurd rfl (of_decide_eq_true (List.mem_takeWhile_imp (p := fun c => decide (c ≠ sep)) hmem))

/-- A scan that ends before the end of the text ends at a separator. -/
theorem head_afterWord (hcons : afterWord sep text = c :: rest) : c = sep := by
  have hhead := List.head?_dropWhile_not (fun c => decide (c ≠ sep)) text
  rw [← afterWord, hcons] at hhead
  simpa using hhead

theorem skipSep_cons_self : skipSep sep (sep :: text) = skipSep sep text :=
  List.dropWhile_cons_of_pos (decide_eq_true rfl)

theorem head_skipSep (hcons : skipSep sep text = c :: rest) : c ≠ sep := by
  have hhead := List.head?_dropWhile_not (fun c => decide (c = sep)) text
  rw [← skipSep, hcons] at hhead
  simpa using hhead

/-- A piece without separators becomes the beginning of the first line. -/
theorem splitOn_append (hword : sep ∉ word) : ∃ line lines,
    rest.splitOn sep = line :: lines ∧ (word ++ rest).splitOn sep = (word ++ line) :: lines := by
  induction word with
  | nil =>
      obtain ⟨line, lines, hlines⟩ := List.exists_cons_of_ne_nil (List.splitOn_ne_nil sep rest)
      exact ⟨line, lines, hlines, hlines⟩
  | cons c word ih =>
      obtain ⟨line, lines, hrest, hword'⟩ := ih fun hmem => hword (List.mem_cons_of_mem c hmem)
      have hc : c ≠ sep := fun hsep => hword (hsep ▸ List.mem_cons_self)
      obtain ⟨line', lines', hlines, hmore⟩ := splitOn_cons_other (word ++ rest) hc
      obtain ⟨rfl, rfl⟩ := List.cons.inj (hword'.symm.trans hlines)
      exact ⟨line, lines, hrest, hmore⟩

@[simp]
theorem words_nil : words sep ([] : List α) = [] := by
  simp [words, List.splitOn_nil]

theorem words_cons_self : words sep (sep :: text) = words sep text := by
  rw [words, splitOn_cons_self, List.filter_cons_of_neg (by simp), words]

/-- A word at the front is the first one. -/
theorem words_append (hword : sep ∉ word) (hne : word ≠ [])
    (hrest : ∀ c more, rest = c :: more → c = sep) :
    words sep (word ++ rest) = word :: words sep rest := by
  obtain ⟨line, lines, hlines, hall⟩ : ∃ line lines, rest.splitOn sep = line :: lines ∧
      (word ++ rest).splitOn sep = (word ++ line) :: lines := splitOn_append hword
  obtain rfl : line = [] := by
    cases rest with
    | nil => exact (List.cons.inj (hlines.symm.trans (List.splitOn_nil sep))).1
    | cons c more =>
        rw [hrest c more rfl, splitOn_cons_self] at hlines
        exact (List.cons.inj hlines).1.symm
  rw [words, hall, List.append_nil, List.filter_cons_of_pos (by simpa using hne), words, hlines,
    List.filter_cons_of_neg (by simp)]

theorem words_skipSep : words sep (skipSep sep text) = words sep text := by
  induction text with
  | nil => rfl
  | cons c text ih =>
      rw [skipSep, List.dropWhile_cons]
      split_ifs with hc
      · rw [of_decide_eq_true hc, words_cons_self, ← ih, skipSep]
      · rfl

/-- One round of the scan takes off the first word. -/
theorem words_eq (hsome : skipSep sep text ≠ []) :
    words sep text = firstWord sep (skipSep sep text) ::
      words sep (afterWord sep (skipSep sep text)) := by
  obtain ⟨c, more, hcons⟩ := List.exists_cons_of_ne_nil hsome
  have hne : firstWord sep (skipSep sep text) ≠ [] := by
    rw [hcons, firstWord, List.takeWhile_cons, if_pos (decide_eq_true (head_skipSep hcons))]
    exact List.cons_ne_nil _ _
  rw [← words_append sep_not_mem_firstWord hne fun _ _ => head_afterWord,
    firstWord_append_afterWord, words_skipSep]

theorem words_eq_nil (hnone : skipSep sep text = []) : words sep text = [] := by
  rw [← words_skipSep, hnone, words_nil]

end GeckoOS.Math
