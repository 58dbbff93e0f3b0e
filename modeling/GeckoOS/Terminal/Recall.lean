/-
# The lines that are recalled

`history_push` puts a line that is not empty into a ring of `HISTORY_SIZE` entries, and the arrow
keys of a later call go back through the ring from the place of the next entry.  The ring holds the
last lines, the last one first, and what a line pushes out of it is the oldest one.

No caller of `input` has a buffer of more than 512 bytes, and so a line that was entered has room
in its entry.  Where it is recalled, the buffer may be smaller, and the line is cut off.
-/

import GeckoOS.Terminal.LineEditor

namespace GeckoOS.Terminal

open GeckoOS.Math

/-! ## Calls and lines -/

/-- A call with a buffer that has a byte. -/
structure BufferCall extends InputCall where
  size_ne : bufferSize ≠ 0

namespace BufferCall

/-- The call when these keys have been pressed. -/
def typed (call : BufferCall) (keys : List KeyPress) : InputState :=
  keys.foldl (InputState.step call.toInputCall) call.start

end BufferCall

/-- The history between two calls, with all the lines that were entered, the last one first. -/
inductive Entered : InputHistory → List (List UInt8) → Prop
  | boot : Entered .empty []
  | line {h : InputHistory} {entered : List (List UInt8)} (hbefore : Entered h entered)
      (call : BufferCall) (hhistory : call.history = h) (hsize : call.bufferSize ≤ 512)
      (keys : List KeyPress) (hdone : (call.typed keys).done = true) :
      Entered (call.typed keys).history ((call.typed keys).line :: entered)

/-- Nothing is in the buffer, and no line of the history has been gone back to. -/
structure InputState.AtEmptyPrompt (s : InputState) : Prop where
  live : s.done = false
  empty : s.buffCount = 0
  browse : s.browseIdx = 0

/-- Up is pressed so many times.  Releases come in between, and other codes that mean nothing. -/
def PressesUp (k : Nat) (keys : List KeyPress) : Prop :=
  keys.filterMap KeyPress.meaning = List.replicate k .up

/-- Pressing Up goes back through these lines, as far as they are stored, and cuts them off to the
size of the buffer; behind the oldest one it stays there. -/
structure RecallsLines (call : BufferCall) (s : InputState) (lines : List (List UInt8)) : Prop where
  loads : ∀ k keys, PressesUp k keys → 1 ≤ k → k ≤ min historySize lines.length →
    (keys.foldl (InputState.step call.toInputCall) s).line =
      (lines.getD (k - 1) []).take (call.bufferSize.toNat - 1)
  keeps : ∀ k keys, PressesUp k keys → min historySize lines.length ≤ k → lines ≠ [] →
    (keys.foldl (InputState.step call.toInputCall) s).line =
      (lines.getD (min historySize lines.length - 1) []).take (call.bufferSize.toNat - 1)

/-! ## The ring -/

section Ring

variable {h : InputHistory} {buf : ByteMap} {k : Nat}

/-- An entry holds the line, or as much of it as there is room for. -/
theorem text_pushedEntry (buf old : ByteMap) :
    (Marked.known (pushedEntry buf old)).text 512 = (Marked.known buf).text 511 := by
  have hlength := @Marked.length_text (Marked.known buf) 511
  apply Marked.text_of_bytes _ _ Marked.zero_notMem_text (hlength.trans (Nat.le_succ _))
  · intro i hi
    have hcopied := @ByteMap.blit_apply_of_mem old 0 buf _ i hi
    rw [Nat.zero_add] at hcopied
    rw [Marked.getElem_text hi]
    exact (Function.update_of_ne hi.ne _ _).trans hcopied
  · exact Function.update_self _ _ _

/-- The entry that was pushed is the first one. -/
theorem entryAt_push_one (hne : buf 0 ≠ 0) :
    (historyPush buf h).entryAt 1 = pushedEntry buf (h.entries h.head) := by
  have hhead := h.head_lt
  have hslot : ((h.head + 1) % historySize + historySize - 1) % historySize = h.head := by
    simp only [historySize] at hhead ⊢
    omega
  rw [historyPush, if_neg hne, InputHistory.entryAt]
  dsimp only
  rw [hslot, Function.update_self]

/-- The others are one further back. -/
theorem entryAt_push_succ (hne : buf 0 ≠ 0) (hpos : 1 ≤ k) (hk : k < historySize) :
    (historyPush buf h).entryAt (k + 1) = h.entryAt k := by
  have hhead := h.head_lt
  have hslot : ((h.head + 1) % historySize + historySize - (k + 1)) % historySize =
      (h.head + historySize - k) % historySize := by
    simp only [historySize] at hhead hk ⊢
    omega
  have hother : (h.head + historySize - k) % historySize ≠ h.head := by
    simp only [historySize] at hhead hk ⊢
    omega
  rw [historyPush, if_neg hne, InputHistory.entryAt, InputHistory.entryAt]
  dsimp only
  rw [hslot, Function.update_of_ne hother]

theorem count_push (hne : buf 0 ≠ 0) :
    (historyPush buf h).count = min h.count (historySize - 1) + 1 := by
  have hcount := h.count_le
  rw [historyPush, if_neg hne]
  simp only [historySize] at hcount ⊢
  split_ifs <;> omega

/-- A line that is pushed comes before the others, and at most the oldest one is lost. -/
theorem lines_push (hne : buf 0 ≠ 0) :
    (historyPush buf h).lines = ((Marked.known buf).text 511 :: h.lines).take historySize := by
  have hfirst : (Marked.known ((historyPush buf h).entryAt (0 + 1))).text 512 =
      (Marked.known buf).text 511 := by
    rw [entryAt_push_one hne, text_pushedEntry]
  rw [InputHistory.lines, count_push hne, List.range_succ_eq_map, List.map_cons, hfirst,
    List.take_succ_cons, List.map_map, InputHistory.lines, ← List.map_take, List.take_range,
    Nat.min_comm]
  congr 1
  apply List.map_congr_left
  intro i hi
  rw [List.mem_range] at hi
  have hlt : i + 1 < historySize := Nat.succ_lt_of_lt_pred (hi.trans_le (Nat.min_le_left _ _))
  rw [Function.comp_apply, Nat.succ_eq_add_one, entryAt_push_succ hne (Nat.succ_pos _) hlt]

end Ring

/-! ## The line in the buffer -/

section Lines

variable {call : InputCall} {s : InputState} {src : Marked} {meant : EditKey} {key : KeyPress}
  {keys : List KeyPress} {k : Nat}

/-- What every key keeps: the line has no zero in it and fits into the buffer, and once it was
entered it ends in the buffer and has been pushed. -/
structure InputState.Clean (call : InputCall) (s : InputState) : Prop where
  nonzero : ∀ i < s.buffCount, s.buff.bytes i ≠ 0
  count_le : s.buffCount ≤ call.limit
  history : s.done = false → s.history = call.history
  pushed : s.done = true →
    s.buff.bytes s.buffCount = 0 ∧ s.history = historyPush s.buff.bytes call.history

theorem bytes_load {i : Nat} (hi : i < (src.text call.limit).length) :
    (s.load call src).buff.bytes i = (src.text call.limit)[i] := by
  have hset := @Marked.bytes_set_of_ne (s.buff.copy src (src.text call.limit).length) 0
    (src.text call.limit).length i hi.ne
  rw [Marked.getElem_text hi]
  exact hset.trans (Marked.bytes_copy hi)

/-- What is loaded is the line. -/
theorem line_load : (s.load call src).line = src.text call.limit := by
  apply List.ext_getElem
  · rw [InputState.line, List.length_map, List.length_range]
    rfl
  · intro i hi hi'
    simp only [InputState.line, List.getElem_map, List.getElem_range]
    exact bytes_load hi'

/-- Before the line is entered, only the line and the history matter. -/
theorem clean_of_live (hlive : s.done = false) (hhistory : s.history = call.history)
    (hcount : s.buffCount ≤ call.limit) (hline : ∀ i < s.buffCount, s.buff.bytes i ≠ 0) :
    s.Clean call :=
  ⟨hline, hcount, fun _ => hhistory, fun hdone =>
    absurd (hlive.symm.trans hdone) Bool.false_ne_true⟩

theorem clean_browse (hlive : s.done = false) (hhistory : s.history = call.history) (sc : UInt8) :
    (s.browse call sc).Clean call := by
  refine clean_of_live ?_ ?_ Marked.length_text fun i hi hzero => ?_
  · exact leave_done.trans hlive
  · exact leave_history.trans hhistory
  · exact Marked.zero_notMem_text ((bytes_load hi).symm.trans hzero ▸ List.getElem_mem hi)

theorem clean_act (hs : s.Clean call) (hlive : s.done = false) (meant : EditKey) :
    (s.act call meant).Clean call := by
  have hhistory := hs.history hlive
  cases meant with
  | up => exact clean_browse hlive hhistory keyUp
  | down => exact clean_browse hlive hhistory keyDown
  | enter =>
      refine ⟨fun i hi hzero => hs.nonzero i hi ?_, hs.count_le,
        fun hdone => absurd hdone.symm Bool.false_ne_true, fun _ => ⟨Marked.bytes_set_same, ?_⟩⟩
      · exact (Marked.bytes_set_of_ne hi.ne).symm.trans hzero
      · rw [← hhistory]
        rfl
  | erase =>
      rw [InputState.act, InputState.back]
      split_ifs with hsome
      · refine clean_of_live ?_ ?_ ((Nat.sub_le _ _).trans hs.count_le) fun i hi hzero => ?_
        · exact hlive
        · exact hhistory
        have hold := (Marked.bytes_set_of_ne hi.ne).symm.trans hzero
        exact hs.nonzero i (hi.trans_le (Nat.sub_le _ _)) hold
      · exact hs
  | char c =>
      rw [InputState.act, InputState.type]
      split_ifs with hroom
      · refine clean_of_live ?_ ?_ hroom.1 fun i hi hzero => ?_
        · exact hlive
        · exact hhistory
        rcases Nat.lt_succ_iff_lt_or_eq.mp hi with hold | rfl
        · exact hs.nonzero i hold ((Marked.bytes_set_of_ne hold.ne).symm.trans hzero)
        · rw [Marked.bytes_set_same.symm.trans hzero] at hroom
          exact absurd hroom.2 (by decide)
      · exact hs

theorem clean_step (hs : s.Clean call) (key : KeyPress) : (s.step call key).Clean call := by
  rw [step_eq]
  split_ifs with hdone
  · exact hs
  · cases key.meaning with
    | none => exact hs
    | some meant => exact clean_act hs (Bool.eq_false_of_not_eq_true hdone) meant

theorem clean_start (call : InputCall) : call.start.Clean call :=
  clean_of_live rfl rfl (Nat.zero_le _) fun i hi => absurd hi (Nat.not_lt_zero i)

theorem clean_foldl (hs : s.Clean call) (keys : List KeyPress) :
    (keys.foldl (InputState.step call) s).Clean call := by
  induction keys generalizing s with
  | nil => exact hs
  | cons key keys ih => exact ih (clean_step hs key)

/-- The text in the buffer, once the line was entered. -/
theorem text_of_clean (hs : s.Clean call) (hdone : s.done = true) {room : Nat}
    (hroom : call.limit ≤ room) : (Marked.known s.buff.bytes).text room = s.line := by
  have hlength : s.line.length = s.buffCount := by
    rw [InputState.line, List.length_map, List.length_range]
  apply Marked.text_of_bytes
  · intro i hi
    simp only [InputState.line, List.getElem_map, List.getElem_range, Marked.known]
  · rw [hlength]
    exact (hs.pushed hdone).1
  · intro hmem
    obtain ⟨i, hi, hzero⟩ := List.mem_map.mp hmem
    exact hs.nonzero i (List.mem_range.mp hi) hzero
  · rw [hlength]
    exact hs.count_le.trans hroom

theorem first_eq_zero_iff (hs : s.Clean call) (hdone : s.done = true) :
    s.buff.bytes 0 = 0 ↔ s.line = [] := by
  have htext := text_of_clean hs hdone (Nat.le_succ call.limit)
  rw [← htext, Marked.text_eq_nil_iff (Nat.succ_pos _)]
  rfl

/-! ## Going back -/

/-- Further back than the line that was left, what is loaded is an entry. -/
theorem source_leave (hhistory : s.history = call.history) {idx : Nat} (hpos : 0 < idx) :
    InputState.source { s.leave keyUp with browseIdx := idx } =
      .known (call.history.entryAt idx) := by
  rw [InputState.source, if_neg hpos.ne']
  exact congrArg (fun past => Marked.known (past.entryAt idx)) (leave_history.trans hhistory)

/-- Up has been pressed so many times. -/
structure InputState.WentBack (call : InputCall) (k : Nat) (s : InputState) : Prop where
  live : s.done = false
  history : s.history = call.history
  browse : s.browseIdx = min k call.history.count
  line : 0 < s.browseIdx →
    s.line = (call.history.lines.getD (s.browseIdx - 1) []).take call.limit

theorem WentBack.up (hs : s.WentBack call k) : (s.browse call keyUp).WentBack call (k + 1) := by
  have hhistory := hs.history
  have hidx : s.nextIdx keyUp = min (k + 1) call.history.count := by
    rw [nextIdx_keyUp, hhistory, hs.browse]
    split_ifs <;> omega
  rw [browse_eq hidx]
  refine ⟨leave_done.trans hs.live, leave_history.trans hhistory, rfl, fun hpos => ?_⟩
  have hpos : 0 < min (k + 1) call.history.count := hpos
  rw [line_load, source_leave hhistory hpos]
  exact (InputHistory.take_entry.symm).trans
    (congrArg (List.take call.limit) (InputHistory.getD_lines hpos (Nat.min_le_right _ _)).symm)

/-- The keys that mean nothing do nothing. -/
theorem wentBack_foldl (hs : s.WentBack call k) {more : Nat} (hkeys : PressesUp more keys) :
    (keys.foldl (InputState.step call) s).WentBack call (k + more) := by
  rw [PressesUp] at hkeys
  induction keys generalizing s k more with
  | nil =>
      obtain rfl : more = 0 := (List.length_replicate.symm.trans (congrArg List.length hkeys.symm))
      exact hs
  | cons key keys ih =>
      rw [List.foldl_cons, step_eq, if_neg (Bool.eq_false_iff.mp hs.live)]
      cases hmeant : key.meaning with
      | none =>
          rw [List.filterMap_cons_none hmeant] at hkeys
          exact ih hs hkeys
      | some meant =>
          rw [List.filterMap_cons_some hmeant] at hkeys
          cases more with
          | zero => exact absurd hkeys (List.cons_ne_nil _ _)
          | succ more =>
              rw [List.replicate_succ] at hkeys
              obtain ⟨rfl, hrest⟩ := List.cons.inj hkeys
              rw [Nat.add_comm more 1, ← Nat.add_assoc]
              exact ih (WentBack.up hs) hrest

end Lines

/-! ## All the lines -/

/-- The history holds the last lines that were not empty. -/
theorem Entered.lines_eq {h : InputHistory} {entered : List (List UInt8)}
    (hentered : Entered h entered) :
    h.lines = (entered.filter (· ≠ [])).take historySize := by
  induction hentered with
  | boot => rfl
  | @line h entered _ call hhistory hsize keys hdone ih =>
      have hclean : (call.typed keys).Clean call.toInputCall := clean_foldl (clean_start _) keys
      have hroom : call.limit ≤ 511 := by
        rw [InputCall.limit_eq call.size_ne, InputCall.room]
        exact Nat.sub_le_sub_right (UInt64.le_iff_toNat_le.mp hsize) 1
      rw [(hclean.pushed hdone).2, hhistory]
      by_cases hempty : (call.typed keys).line = []
      · rw [historyPush, if_pos ((first_eq_zero_iff hclean hdone).mpr hempty), hempty,
          List.filter_cons_of_neg (by simp), ih]
      · have hne := mt (first_eq_zero_iff hclean hdone).mp hempty
        rw [lines_push hne, text_of_clean hclean hdone hroom, ih,
          List.filter_cons_of_pos (by simpa using hempty), List.take_succ_cons,
          List.take_succ_cons, List.take_take]
        rfl

/-- Whatever was entered before, Up goes back through the last lines that were not empty. -/
theorem input_recallsLines {h : InputHistory} {entered : List (List UInt8)}
    (hentered : Entered h entered) (call : BufferCall) (hhistory : call.history = h)
    {before : List KeyPress} (hprompt : (call.typed before).AtEmptyPrompt) :
    RecallsLines call (call.typed before) (entered.filter (· ≠ [])) := by
  set lines := entered.filter (· ≠ []) with hlines
  have hstored : call.history.lines = lines.take historySize := hhistory ▸ hentered.lines_eq
  have hcount : call.history.count = min historySize lines.length := by
    rw [← InputHistory.length_lines, hstored, List.length_take]
  have hclean : (call.typed before).Clean call.toInputCall := clean_foldl (clean_start _) before
  have hstart : (call.typed before).WentBack call.toInputCall 0 :=
    ⟨hprompt.live, hclean.history hprompt.live, hprompt.browse.trans (Nat.zero_min _).symm,
      fun hpos => absurd hprompt.browse hpos.ne'⟩
  -- how far one has gone back is a number of lines that are stored
  have hline : ∀ k keys, PressesUp k keys → 0 < min k (min historySize lines.length) →
      (keys.foldl (InputState.step call.toInputCall) (call.typed before)).line =
        (lines.getD (min k (min historySize lines.length) - 1) []).take
          (call.bufferSize.toNat - 1) := by
    intro k keys hkeys hpos
    have hback := wentBack_foldl hstart hkeys
    have hidx := hback.browse
    rw [Nat.zero_add, hcount] at hidx
    have hlt : min k (min historySize lines.length) - 1 < historySize :=
      (Nat.sub_one_lt_of_lt hpos).trans_le ((Nat.min_le_right _ _).trans (Nat.min_le_left _ _))
    rw [hback.line (hidx ▸ hpos), hidx, hstored, InputCall.limit_eq call.size_ne, InputCall.room,
      List.getD_eq_getElem?_getD, List.getElem?_take_of_lt hlt, ← List.getD_eq_getElem?_getD]
  constructor
  · intro k keys hkeys hpos hk
    have hmin := Nat.min_eq_left hk
    rw [hline k keys hkeys (hmin.symm ▸ hpos), hmin]
  · intro k keys hkeys hk hne
    have hmin := Nat.min_eq_right hk
    have hpos : 0 < min historySize lines.length :=
      Nat.lt_min.mpr ⟨by decide, List.length_pos_of_ne_nil hne⟩
    rw [hline k keys hkeys (hmin.symm ▸ hpos), hmin]

theorem shell_size_ne : (promptOn 0).bufferSize ≠ 0 := by decide

/-- The prompt of the shell after these lines. -/
def shellCall (h : InputHistory) : BufferCall :=
  ⟨{ promptOn 0 with history := h }, shell_size_ne⟩

/-- The letter a is typed, and the line is entered. -/
def letterKeys : List KeyPress := [⟨0x1E, 0x61⟩, ⟨0x1C, newline⟩]

theorem input_recallsLines_letter :
    RecallsLines (shellCall ((shellCall .empty).typed letterKeys).history)
      ((shellCall ((shellCall .empty).typed letterKeys).history).typed [])
      ([((shellCall .empty).typed letterKeys).line].filter (· ≠ [])) :=
  input_recallsLines (.line .boot (shellCall .empty) rfl (by decide) letterKeys rfl) _ rfl
    ⟨rfl, rfl, rfl⟩

end GeckoOS.Terminal
