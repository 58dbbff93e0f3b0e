/-
# What the lexer does to memory

`gk_lex` looks at the bytes of the source one by one, and writes to the token array, to a buffer
for a word, to one for a string and to the stack of indentations.  Here every such access is
listed, in the order of the code, with the numbers that are read on the way; a value that one
round of a loop looks at more than once is listed once, and the constant table of keywords and the
constant texts for `error` are left out.

All of them are inside their arrays, whatever the source, except that nothing limits the stack:
it has 64 entries and the first of them is the text itself.  So no access is out of bounds if and
only if no line opens a 64th block, among the lines up to the one where the token array is full.
-/

import GeckoOS.Gk.Blocks

namespace GeckoOS.Gk

inductive LexEvent
  /-- This byte of the source is read at this position. -/
  | source (i : Nat) (c : UInt8)
  /-- An entry of `indent_stack`. -/
  | indentStack (i : Nat)
  /-- An entry of `tokens`. -/
  | token (i : Nat)
  /-- A byte of the `str_val` of a token. -/
  | strVal (i : Nat)
  /-- A byte of the buffer for a string. -/
  | string (i : Nat)
  /-- A byte of the buffer for a word. -/
  | word (i : Nat)
  /-- The value of these digits is computed. -/
  | number (digits : Text)
  deriving DecidableEq

/-- The access is inside its array, and before the terminator of the source. -/
def LexEvent.InBounds (src : Text) : LexEvent → Prop
  | .source i c => src[i]? = some c
  | .indentStack i => i < 64
  | .token i => i < maxTokens
  | .strVal i => i < maxStr
  | .string i => i < maxStr
  | .word i => i < 64
  | .number _ => True

/-! ## One token -/

/-- The read of the first byte of `text`, when `size` bytes are the whole source. -/
def readEvent (size : Nat) (text : Text) : List LexEvent :=
  match text with
  | [] => []
  | c :: _ => [.source (size - text.length) c]

/-- A loop over the bytes for which `p` holds. -/
def scanEvents (size : Nat) (p : UInt8 → Bool) : Text → List LexEvent
  | [] => []
  | c :: rest =>
      readEvent size (c :: rest) ++ if p c then scanEvents size p rest else []

/-- `emit`. -/
def emitEvents (s : Lexer) : List LexEvent :=
  if maxTokens ≤ s.tokens.length then [] else [.token s.tokens.length, .strVal 0]

/-- `emit_str` of a text in a buffer: the text and its terminator are copied. -/
def emitStrEvents (buffer : Nat → LexEvent) (s : Lexer) (text : Text) : List LexEvent :=
  emitEvents s ++
    if maxTokens ≤ s.tokens.length then []
    else (List.range (text.length + 1)).flatMap fun i => [buffer i, .strVal i]

/-- The loop over a string, when `stored` bytes are in the buffer. -/
def stringEvents (size : Nat) (quote : UInt8) (stored : Nat) : Text → List LexEvent
  | [] => []
  | c :: rest =>
      readEvent size (c :: rest) ++
        if c = quote then []
        else
          match c, rest with
          | 92, d :: rest =>
              readEvent size (d :: rest) ++ .string stored ::
                if maxStr - 1 ≤ stored + 1 then [] else stringEvents size quote (stored + 1) rest
          | _, rest =>
              .string stored ::
                if maxStr - 1 ≤ stored + 1 then [] else stringEvents size quote (stored + 1) rest

/-- The loop over a word. -/
def wordEvents (size stored : Nat) : Text → List LexEvent
  | [] => []
  | c :: rest =>
      readEvent size (c :: rest) ++
        if isAlnum c ∧ stored < 63 then .word stored :: wordEvents size (stored + 1) rest else []

/-- `gk_streq` of the buffer and a keyword, from this byte on. -/
def streqEvents (i : Nat) : Text → Text → List LexEvent
  | c :: cs, d :: ds => .word i :: if c = d then streqEvents (i + 1) cs ds else []
  | _, _ => [.word i]

/-- The loop over the keywords, up to the one that the word is. -/
def keywordEvents (word : Text) : List (Text × TokenType) → List LexEvent
  | [] => []
  | keyword :: keywords =>
      streqEvents 0 word keyword.1 ++
        if keyword.1 = word then [] else keywordEvents word keywords

/-- One round of the loop over a line. -/
def tokenEvents (size : Nat) (s : Lexer) (c : UInt8) (rest : Text) : List LexEvent :=
  if isSpace c then []
  else if c = 35 then scanEvents size (· ≠ 10) (c :: rest)
  else if isDigit c then
    scanEvents size isDigit (c :: rest) ++ .number ((c :: rest).takeWhile isDigit) :: emitEvents s
  else if c = 34 ∨ c = 39 then
    let (bytes, _) := lexString c 0 rest
    stringEvents size c 0 rest ++ .string bytes.length :: emitStrEvents .string s bytes
  else if isAlpha c then
    let word := ((c :: rest).takeWhile isAlnum).take 63
    wordEvents size 0 (c :: rest) ++ .word word.length :: keywordEvents word keywords ++
      emitStrEvents .word s word
  else
    readEvent size rest ++
      if doubleOperator c (rest.headD 0) = none ∧ singleOperator c = none then []
      else emitEvents s

/-! ## All lines -/

/-- The loop over a line. -/
def lineEvents (size line : Nat) : Nat → Lexer → Text → List LexEvent
  | 0, _, _ => []
  | fuel + 1, s, text =>
      match text with
      | [] => []
      | c :: rest =>
          readEvent size (c :: rest) ++
            if c = 10 then []
            else
              tokenEvents size s c rest ++
                match lexToken s line c rest with
                | .inl _ => []
                | .inr (s, rest) => lineEvents size line fuel s rest

/-- The width of a line. -/
def indentationEvents (size : Nat) (text : Text) : List LexEvent :=
  scanEvents size (· == 32) text ++ scanEvents size (· == 9) (text.dropWhile (· == 32))

/-- The loop that closes blocks. -/
def closeEvents (indent line : Nat) : Lexer → Indents → List LexEvent
  | _, [] => [.indentStack 0]
  | s, width :: widths =>
      .indentStack (widths.length + 1) ::
        if indent < width then
          emitEvents s ++
            match s.emit .dedent 0 [] line with
            | (true, s) => closeEvents indent line s widths
            | (false, _) => []
        else []

/-- The indentation of a line. -/
def indentEvents (s : Lexer) (indents : Indents) (indent line : Nat) : List LexEvent :=
  .indentStack indents.length ::
    if indents.headD 0 < indent then .indentStack (indents.length + 1) :: emitEvents s
    else closeEvents indent line s indents

/-- The end of the text. -/
def endEvents (line : Nat) : Lexer → Indents → List LexEvent
  | s, [] => emitEvents s
  | s, _ :: widths =>
      emitEvents s ++
        match s.emit .dedent 0 [] line with
        | (true, s) => endEvents line s widths
        | (false, _) => []

/-- The loop over the lines. -/
def linesEvents (size : Nat) : Nat → Lexer → Indents → Nat → Text → List LexEvent
  | 0, s, indents, line, _ => endEvents line s indents
  | fuel + 1, s, indents, line, text =>
      if text = [] then endEvents line s indents
      else
        let (indent, rest) := indentation text
        indentationEvents size text ++ readEvent size rest ++
          if rest = [] ∨ rest.head? = some 10 ∨ rest.head? = some 35 then
            let behind := rest.dropWhile (· ≠ 10)
            scanEvents size (· ≠ 10) rest ++
              linesEvents size fuel s indents (if behind = [] then line else line + 1) behind.tail
          else
            indentEvents s indents indent line ++
              match lexIndent s indents indent line with
              | (false, _, _) => []
              | (true, s, indents) =>
                  lineEvents size line rest.length s rest ++
                    match lexLine line rest.length s rest with
                    | .inl _ => []
                    | .inr (s, rest) =>
                        emitEvents s ++
                          match s.emit .newline 0 [] line with
                          | (false, _) => []
                          | (true, s) =>
                              linesEvents size fuel s indents
                                (if rest = [] then line else line + 1) rest.tail

/-- `gk_lex`, which begins with the entry for the text itself. -/
def lexEvents (src : Text) : List LexEvent :=
  .indentStack 0 :: linesEvents src.length src.length ⟨[], []⟩ [] 1 src

/-! ## The lines that are reached -/

/-- The widths of the lines up to the one whose tokens do not fit into the array, or that has an
unknown character, when `n` tokens have been emitted. -/
def reachedWidths : Nat → Nat → Indents → Text → List Nat
  | 0, _, _, _ => []
  | fuel + 1, n, indents, text =>
      if text = [] then []
      else
        let (indent, rest) := indentation text
        if rest = [] ∨ rest.head? = some 10 ∨ rest.head? = some 35 then
          reachedWidths fuel n indents (rest.dropWhile (· ≠ 10)).tail
        else
          let (change, indents) := indentChange indents indent
          indent ::
            match lexLine 0 rest.length ⟨[], []⟩ rest with
            | .inl _ => []
            | .inr (s, rest) =>
                let n := n + change.length + s.tokens.length
                if n < maxTokens then reachedWidths fuel (n + 1) indents rest.tail else []

/-- At most this many blocks are open at any of these lines. -/
def NestsWithin (depth : Nat) : Indents → List Nat → Prop
  | _, [] => True
  | indents, width :: widths =>
      (indentChange indents width).2.length ≤ depth ∧
        NestsWithin depth (indentChange indents width).2 widths

instance decidableNestsWithin (depth : Nat) :
    ∀ indents widths, Decidable (NestsWithin depth indents widths)
  | _, [] => inferInstanceAs (Decidable True)
  | indents, width :: widths =>
      have := decidableNestsWithin depth (indentChange indents width).2 widths
      inferInstanceAs (Decidable (_ ∧ _))

variable {src text rest bytes : Text} {c quote : UInt8} {s s' : Lexer} {line stored fuel : Nat}
  {indents : Indents}

/-! ## Accesses in bounds -/

/-- Every access is in bounds. -/
def AllIn (src : Text) (events : List LexEvent) : Prop := ∀ e ∈ events, e.InBounds src

@[simp] theorem allIn_nil : AllIn src [] := fun _ he => absurd he List.not_mem_nil

@[simp] theorem allIn_cons {e : LexEvent} {events : List LexEvent} :
    AllIn src (e :: events) ↔ e.InBounds src ∧ AllIn src events :=
  List.forall_mem_cons

@[simp] theorem allIn_append {events events' : List LexEvent} :
    AllIn src (events ++ events') ↔ AllIn src events ∧ AllIn src events' :=
  List.forall_mem_append

/-- What is left of the source is read where it stands. -/
theorem readEvent_inBounds (hsuffix : text <:+ src) : AllIn src (readEvent src.length text) := by
  cases text with
  | nil => exact allIn_nil
  | cons c rest =>
      obtain ⟨before, rfl⟩ := hsuffix
      refine allIn_cons.mpr ⟨?_, allIn_nil⟩
      have hat : (before ++ c :: rest).length - (c :: rest).length = before.length := by
        rw [List.length_append]
        omega
      rw [LexEvent.InBounds, hat, List.getElem?_append_right le_rfl, Nat.sub_self]
      rfl

theorem suffix_of_cons (hsuffix : c :: text <:+ src) : text <:+ src :=
  (List.suffix_cons c text).trans hsuffix

theorem scanEvents_inBounds (p : UInt8 → Bool) (hsuffix : text <:+ src) :
    AllIn src (scanEvents src.length p text) := by
  induction text with
  | nil => exact allIn_nil
  | cons c text ih =>
      rw [scanEvents]
      split_ifs
      · exact allIn_append.mpr ⟨readEvent_inBounds hsuffix, ih (suffix_of_cons hsuffix)⟩
      · exact allIn_append.mpr ⟨readEvent_inBounds hsuffix, allIn_nil⟩

theorem emitEvents_inBounds (s : Lexer) : AllIn src (emitEvents s) := by
  rw [emitEvents]
  split_ifs with hfull
  · exact allIn_nil
  · have hzero : 0 < maxStr := by decide
    simpa [LexEvent.InBounds, hzero] using hfull

theorem emitStrEvents_inBounds {buffer : Nat → LexEvent} (s : Lexer)
    (hbuffer : ∀ i ≤ text.length, (buffer i).InBounds src) (hlength : text.length < maxStr) :
    AllIn src (emitStrEvents buffer s text) := by
  refine allIn_append.mpr ⟨emitEvents_inBounds s, ?_⟩
  split_ifs
  · exact allIn_nil
  · intro e he
    obtain ⟨i, hi, hmem⟩ := List.mem_flatMap.mp he
    have hle : i ≤ text.length := Nat.le_of_lt_succ (List.mem_range.mp hi)
    rcases List.mem_cons.mp hmem with rfl | hmem
    · exact hbuffer i hle
    · obtain rfl := List.mem_singleton.mp hmem
      exact hle.trans_lt hlength

/-- The buffer for a string has room for another byte, and for the terminator after that. -/
theorem stringEvents_inBounds (hsuffix : text <:+ src) (hstored : stored < maxStr - 1) :
    AllIn src (stringEvents src.length quote stored text) := by
  have hbyte : ∀ {stored}, stored < maxStr - 1 → (LexEvent.string stored).InBounds src := by
    intro stored hstored
    exact hstored.trans (by decide)
  -- The loop goes on only if there is room for the next byte.
  have hgo : ∀ {stored text}, stored < maxStr - 1 →
      (stored + 1 < maxStr - 1 → AllIn src (stringEvents src.length quote (stored + 1) text)) →
      AllIn src (.string stored :: if maxStr - 1 ≤ stored + 1 then []
        else stringEvents src.length quote (stored + 1) text) := by
    intro stored text hstored ih
    refine allIn_cons.mpr ⟨hbyte hstored, ?_⟩
    split_ifs with hfull
    · exact allIn_nil
    · exact ih (Nat.not_le.mp hfull)
  induction text using literal.induct quote generalizing stored with
  | case1 => exact allIn_nil
  | case2 more =>
      unfold stringEvents
      rw [if_pos rfl, List.append_nil]
      exact readEvent_inBounds hsuffix
  | case3 d more hquote ih =>
      have hmore := suffix_of_cons hsuffix
      rw [stringEvents, if_neg hquote]
      refine allIn_append.mpr ⟨readEvent_inBounds hsuffix,
        allIn_append.mpr ⟨readEvent_inBounds hmore, ?_⟩⟩
      exact hgo hstored (ih (suffix_of_cons hmore))
  | case4 c more hplain hquote ih =>
      rw [stringEvents, if_neg hquote]
      · refine allIn_append.mpr ⟨readEvent_inBounds hsuffix, ?_⟩
        exact hgo hstored (ih (suffix_of_cons hsuffix))
      · exact hplain

/-- The loop over a word stops when 63 bytes are stored. -/
theorem wordEvents_inBounds (hsuffix : text <:+ src) :
    AllIn src (wordEvents src.length stored text) := by
  induction text generalizing stored with
  | nil => exact allIn_nil
  | cons c text ih =>
      rw [wordEvents]
      refine allIn_append.mpr ⟨readEvent_inBounds hsuffix, ?_⟩
      split_ifs with hroom
      · exact allIn_cons.mpr ⟨hroom.2.trans (by decide), ih (suffix_of_cons hsuffix)⟩
      · exact allIn_nil

/-- A word is compared up to its terminator. -/
theorem streqEvents_inBounds {i : Nat} {word keyword : Text} (hword : i + word.length < 64) :
    AllIn src (streqEvents i word keyword) := by
  induction word generalizing i keyword with
  | nil => exact allIn_cons.mpr ⟨hword, allIn_nil⟩
  | cons c cs ih =>
      rw [List.length_cons] at hword
      have hbyte : (LexEvent.word i).InBounds src := by
        simp only [LexEvent.InBounds]
        omega
      cases keyword with
      | nil => exact allIn_cons.mpr ⟨hbyte, allIn_nil⟩
      | cons d ds =>
          rw [streqEvents]
          refine allIn_cons.mpr ⟨hbyte, ?_⟩
          split_ifs
          · exact ih (by omega)
          · exact allIn_nil

theorem keywordEvents_inBounds {word : Text} (hword : word.length < 64)
    (keywords : List (Text × TokenType)) : AllIn src (keywordEvents word keywords) := by
  induction keywords with
  | nil => exact allIn_nil
  | cons keyword keywords ih =>
      rw [keywordEvents]
      refine allIn_append.mpr ⟨streqEvents_inBounds (by omega), ?_⟩
      split_ifs
      · exact allIn_nil
      · exact ih

/-- One round of the loop over a line stays in bounds. -/
theorem tokenEvents_inBounds (hsuffix : c :: rest <:+ src) :
    AllIn src (tokenEvents src.length s c rest) := by
  have hrest := suffix_of_cons hsuffix
  rw [tokenEvents]
  split_ifs with hspace hhash hdigit hquote halpha
  · exact allIn_nil
  · exact scanEvents_inBounds _ hsuffix
  · exact allIn_append.mpr ⟨scanEvents_inBounds _ hsuffix,
      allIn_cons.mpr ⟨trivial, emitEvents_inBounds s⟩⟩
  · have hbytes : (lexString c 0 rest).1.length < maxStr := by
      have hlength := lexString_length c 0 rest (by decide)
      have hmax : maxStr = 256 := rfl
      omega
    refine allIn_append.mpr ⟨stringEvents_inBounds hrest (by decide),
      allIn_cons.mpr ⟨hbytes, emitStrEvents_inBounds s ?_ hbytes⟩⟩
    exact fun i hi => hi.trans_lt hbytes
  · have hword : (((c :: rest).takeWhile isAlnum).take 63).length < 64 := by
      rw [List.length_take]
      omega
    refine allIn_append.mpr ⟨allIn_append.mpr ⟨wordEvents_inBounds hsuffix,
      allIn_cons.mpr ⟨hword, keywordEvents_inBounds hword keywords⟩⟩, ?_⟩
    exact emitStrEvents_inBounds s (fun i hi => hi.trans_lt hword) (hword.trans (by decide))
  · exact allIn_append.mpr ⟨readEvent_inBounds hrest, allIn_nil⟩
  · exact allIn_append.mpr ⟨readEvent_inBounds hrest, emitEvents_inBounds s⟩

/-! ## What is left of the source -/

theorem lexString_suffix (quote : UInt8) (stored : Nat) (text : Text) :
    (lexString quote stored text).2 <:+ text := by
  fun_induction lexString quote stored text with
  | case1 stored => exact List.suffix_rfl
  | case2 stored rest => exact List.suffix_rfl
  | case3 stored d rest hfull =>
      exact (List.suffix_cons d rest).trans (List.suffix_cons 92 (d :: rest))
  | case4 stored d rest hroom bytes stop hrest _ ih =>
      rw [hrest] at ih
      exact (ih.trans (List.suffix_cons d rest)).trans (List.suffix_cons 92 (d :: rest))
  | case5 stored c rest => exact List.suffix_cons c rest
  | case6 stored c rest _ hroom bytes stop hrest _ ih =>
      rw [hrest] at ih
      exact ih.trans (List.suffix_cons c rest)

theorem lexToken_suffix (hrun : lexToken s line c text = .inr (s', rest)) :
    rest <:+ c :: text := by
  have hcons := List.suffix_cons c text
  rw [lexToken] at hrun
  split_ifs at hrun
  · cases hrun
    exact hcons
  · cases hrun
    exact (List.dropWhile_suffix _).trans hcons
  · split at hrun
    · cases hrun
      exact (List.dropWhile_suffix _).trans hcons
    · cases hrun
  · dsimp only at hrun
    split at hrun
    · cases hrun
      exact ((List.tail_suffix _).trans (lexString_suffix c 0 text)).trans hcons
    · cases hrun
  · dsimp only at hrun
    split at hrun
    · cases hrun
      exact List.drop_suffix _ _
    · cases hrun
  · split at hrun
    · cases hrun
      exact (List.tail_suffix text).trans hcons
    · split at hrun
      · cases hrun
        exact hcons
      · cases hrun

theorem lexLine_suffix (hrun : lexLine line fuel s text = .inr (s', rest)) : rest <:+ text := by
  induction fuel generalizing s text with
  | zero =>
      cases hrun
      exact List.suffix_rfl
  | succ fuel ih =>
      cases text with
      | nil =>
          cases hrun
          exact List.suffix_rfl
      | cons c text =>
          rw [lexLine] at hrun
          split_ifs at hrun
          · cases hrun
            exact List.suffix_rfl
          · split at hrun
            · cases hrun
            · rename_i htoken
              exact (ih hrun).trans (lexToken_suffix htoken)

theorem indentation_suffix (text : Text) : (indentation text).2 <:+ text :=
  (List.dropWhile_suffix _).trans (List.dropWhile_suffix _)

/-! ## All lines stay in bounds -/

theorem lineEvents_inBounds (hsuffix : text <:+ src) :
    AllIn src (lineEvents src.length line fuel s text) := by
  induction fuel generalizing s text with
  | zero => exact allIn_nil
  | succ fuel ih =>
      cases text with
      | nil => exact allIn_nil
      | cons c text =>
          rw [lineEvents]
          refine allIn_append.mpr ⟨readEvent_inBounds hsuffix, ?_⟩
          split_ifs
          · exact allIn_nil
          · refine allIn_append.mpr ⟨tokenEvents_inBounds hsuffix, ?_⟩
            split
            · exact allIn_nil
            · rename_i htoken
              exact ih ((lexToken_suffix htoken).trans hsuffix)

theorem indentationEvents_inBounds (hsuffix : text <:+ src) :
    AllIn src (indentationEvents src.length text) :=
  allIn_append.mpr ⟨scanEvents_inBounds _ hsuffix,
    scanEvents_inBounds _ ((List.dropWhile_suffix _).trans hsuffix)⟩

theorem closeEvents_inBounds {indent : Nat} (hindents : indents.length < 64) :
    AllIn src (closeEvents indent line s indents) := by
  induction indents generalizing s with
  | nil => exact allIn_cons.mpr ⟨hindents, allIn_nil⟩
  | cons width widths ih =>
      rw [List.length_cons] at hindents
      rw [closeEvents]
      refine allIn_cons.mpr ⟨hindents, ?_⟩
      split_ifs
      · refine allIn_append.mpr ⟨emitEvents_inBounds s, ?_⟩
        split
        · exact ih (by omega)
        · exact allIn_nil
      · exact allIn_nil

/-- The stack has room for a line if it has room for the blocks that are then open. -/
theorem indentEvents_inBounds {indent : Nat} (hindents : indents.length ≤ 63) :
    AllIn src (indentEvents s indents indent line) ↔
      (indentChange indents indent).2.length ≤ 63 := by
  have htop : (LexEvent.indentStack indents.length).InBounds src := Nat.lt_succ_of_le hindents
  rw [indentEvents, indentChange]
  split_ifs
  · rw [allIn_cons, allIn_cons, List.length_cons]
    refine ⟨fun hall => Nat.le_of_lt_succ hall.2.1, fun hroom => ?_⟩
    exact ⟨htop, Nat.lt_succ_of_le hroom, emitEvents_inBounds s⟩
  · refine iff_of_true (allIn_cons.mpr ⟨htop, closeEvents_inBounds (by omega)⟩) ?_
    exact (List.dropWhile_sublist _).length_le.trans hindents

theorem endEvents_inBounds : AllIn src (endEvents line s indents) := by
  induction indents generalizing s with
  | nil => exact emitEvents_inBounds s
  | cons width widths ih =>
      rw [endEvents]
      refine allIn_append.mpr ⟨emitEvents_inBounds s, ?_⟩
      split
      · exact ih
      · exact allIn_nil

/-! ## Which lines are reached -/

/-- A round that emits its token in one state emits it in every state with room. -/
theorem lexToken_room {t : Lexer} {line' : Nat} (hrun : lexToken s line c text = .inr (s', rest))
    (hs : s.tokens.length < maxTokens) (ht : t.tokens.length < maxTokens) :
    ∃ t', lexToken t line' c text = .inr (t', rest) ∧
      t'.tokens.length + s.tokens.length = t.tokens.length + s'.tokens.length := by
  have hone : ∀ token token' : Token, (t.tokens ++ [token]).length + s.tokens.length =
      t.tokens.length + (s.tokens ++ [token']).length := by
    intro token token'
    rw [List.length_append, List.length_append, List.length_singleton, List.length_singleton]
    omega
  rw [lexToken] at hrun ⊢
  simp only [Lexer.emit_of_lt hs] at hrun
  simp only [Lexer.emit_of_lt ht]
  split_ifs at hrun ⊢
  · cases hrun
    exact ⟨_, rfl, rfl⟩
  · cases hrun
    exact ⟨_, rfl, rfl⟩
  · cases hrun
    exact ⟨_, rfl, hone _ _⟩
  · cases hrun
    exact ⟨_, rfl, hone _ _⟩
  · cases hrun
    exact ⟨_, rfl, hone _ _⟩
  · split at hrun
    · cases hrun
      exact ⟨_, rfl, hone _ _⟩
    · split at hrun
      · cases hrun
        exact ⟨_, rfl, hone _ _⟩
      · cases hrun

/-- So does the loop. -/
theorem lexLine_room {t : Lexer} {line' : Nat} (hrun : lexLine line fuel s text = .inr (s', rest))
    (hs : s'.tokens.length < maxTokens)
    (ht : t.tokens.length + s'.tokens.length < maxTokens + s.tokens.length) :
    ∃ t', lexLine line' fuel t text = .inr (t', rest) ∧
      t'.tokens.length + s.tokens.length = t.tokens.length + s'.tokens.length := by
  induction fuel generalizing s t text with
  | zero =>
      cases hrun
      exact ⟨t, rfl, rfl⟩
  | succ fuel ih =>
      cases text with
      | nil =>
          cases hrun
          exact ⟨t, rfl, rfl⟩
      | cons c text =>
          have hmore := lexLine_length hrun
          rw [lexLine] at hrun ⊢
          split_ifs at hrun ⊢
          · cases hrun
            exact ⟨t, rfl, rfl⟩
          · split at hrun
            · cases hrun
            · rename_i s₁ rest₁ htoken
              have hmore₁ := lexLine_length hrun
              obtain ⟨t₁, htoken', hlength⟩ :=
                @lexToken_room _ _ _ _ _ _ t line' htoken (by omega) (by omega)
              obtain ⟨t', hline', hlength'⟩ := ih hrun (t := t₁) (by omega)
              refine ⟨t', ?_, by omega⟩
              simp only [htoken']
              exact hline'

/-- The blocks can be closed if there is room for the tokens. -/
theorem closeBlocks_room {indent : Nat}
    (hroom : s.tokens.length + (indents.takeWhile (indent < ·)).length ≤ maxTokens) :
    ∃ s' widths, closeBlocks indent line s indents = (true, s', widths) := by
  induction indents generalizing s with
  | nil => exact ⟨s, [], rfl⟩
  | cons width widths ih =>
      rw [List.takeWhile_cons] at hroom
      rw [closeBlocks]
      split_ifs with hdeeper
      · rw [decide_eq_true hdeeper, if_pos rfl, List.length_cons] at hroom
        have hlt : s.tokens.length < maxTokens := by omega
        simp only [Lexer.emit_of_lt hlt]
        refine ih ?_
        rw [List.length_append, List.length_singleton]
        omega
      · exact ⟨s, _, rfl⟩

theorem lexIndent_room {indent : Nat}
    (hroom : s.tokens.length + (indentChange indents indent).1.length ≤ maxTokens) :
    ∃ s', lexIndent s indents indent line = (true, s', (indentChange indents indent).2) := by
  have hrun : ∃ s' widths, lexIndent s indents indent line = (true, s', widths) := by
    rw [indentChange] at hroom
    rw [lexIndent]
    split_ifs at hroom ⊢ with hdeeper
    · have hlt : s.tokens.length < maxTokens := hroom
      simp only [Lexer.emit_of_lt hlt]
      exact ⟨_, _, rfl⟩
    · rw [List.length_replicate] at hroom
      exact closeBlocks_room hroom
  obtain ⟨s', widths, hrun⟩ := hrun
  obtain ⟨-, rfl⟩ := lexIndent_types hrun
  exact ⟨s', hrun⟩

theorem Lexer.length_types (s : Lexer) : s.types.length = s.tokens.length := List.length_map _

theorem lexIndent_length {indent : Nat} {widths : Indents}
    (hrun : lexIndent s indents indent line = (true, s', widths)) :
    s'.tokens.length = s.tokens.length + (indentChange indents indent).1.length := by
  rw [← s'.length_types, (lexIndent_types hrun).1, List.length_append, s.length_types]

/-- A line is passed if its text can be read on its own and there is room for its tokens. -/
theorem line_passed {indent : Nat} {s₀ : Lexer}
    (hline : lexLine 0 text.length ⟨[], []⟩ text = .inr (s₀, rest))
    (hroom : s.tokens.length + (indentChange indents indent).1.length + s₀.tokens.length
      < maxTokens) :
    ∃ s₁ s₂ s₃, lexIndent s indents indent line = (true, s₁, (indentChange indents indent).2) ∧
      lexLine line text.length s₁ text = .inr (s₂, rest) ∧
      s₂.emit .newline 0 [] line = (true, s₃) ∧
      s₃.tokens.length = s.tokens.length + (indentChange indents indent).1.length +
        s₀.tokens.length + 1 := by
  obtain ⟨s₁, hindent⟩ := @lexIndent_room s line indents indent (by omega)
  have hlength₁ := lexIndent_length hindent
  have hempty : (Lexer.mk [] []).tokens.length = 0 := rfl
  obtain ⟨s₂, hline₂, hlength₂⟩ := @lexLine_room _ _ _ _ _ _ s₁ line hline (by omega) (by omega)
  have hroom₂ : s₂.tokens.length < maxTokens := by omega
  refine ⟨s₁, s₂, _, hindent, hline₂, Lexer.emit_of_lt hroom₂, ?_⟩
  rw [List.length_append, List.length_singleton]
  omega

/-- And only then. -/
theorem line_passed_only {indent : Nat} {s₁ s₂ s₃ : Lexer} {widths : Indents}
    (hindent : lexIndent s indents indent line = (true, s₁, widths))
    (hline : lexLine line text.length s₁ text = .inr (s₂, rest))
    (hnewline : s₂.emit .newline 0 [] line = (true, s₃)) :
    ∃ s₀, lexLine 0 text.length ⟨[], []⟩ text = .inr (s₀, rest) ∧
      s.tokens.length + (indentChange indents indent).1.length + s₀.tokens.length < maxTokens := by
  have hroom₂ : s₂.tokens.length < maxTokens := by
    rw [Lexer.emit] at hnewline
    split_ifs at hnewline with hfull
    · cases hnewline
    · exact Nat.not_le.mp hfull
  have hlength₁ := lexIndent_length hindent
  have hempty : (Lexer.mk [] []).tokens.length = 0 := rfl
  obtain ⟨s₀, hline₀, hlength₀⟩ :=
    @lexLine_room _ _ _ _ _ _ ⟨[], []⟩ 0 hline hroom₂ (by omega)
  exact ⟨s₀, hline₀, by omega⟩

/-- The lines stay in bounds if and only if the lines that are reached do not open too many
blocks. -/
theorem linesEvents_inBounds (hsuffix : text <:+ src) (hindents : indents.length ≤ 63) :
    AllIn src (linesEvents src.length fuel s indents line text) ↔
      NestsWithin 63 indents (reachedWidths fuel s.tokens.length indents text) := by
  induction fuel generalizing s indents line text with
  | zero => exact iff_of_true endEvents_inBounds trivial
  | succ fuel ih =>
      rw [linesEvents, reachedWidths]
      by_cases hempty : text = []
      · rw [if_pos hempty, if_pos hempty]
        exact iff_of_true endEvents_inBounds trivial
      rw [if_neg hempty, if_neg hempty]
      have hsuffix₁ := (indentation_suffix text).trans hsuffix
      dsimp only
      rw [allIn_append, allIn_append]
      have hfirst : AllIn src (indentationEvents src.length text) ∧
          AllIn src (readEvent src.length (indentation text).2) :=
        ⟨indentationEvents_inBounds hsuffix, readEvent_inBounds hsuffix₁⟩
      rw [and_iff_right hfirst]
      by_cases hblank : (indentation text).2 = [] ∨ (indentation text).2.head? = some 10 ∨
          (indentation text).2.head? = some 35
      · rw [if_pos hblank, if_pos hblank, allIn_append,
          and_iff_right (scanEvents_inBounds _ hsuffix₁)]
        exact ih (((List.tail_suffix _).trans (List.dropWhile_suffix _)).trans hsuffix₁) hindents
      rw [if_neg hblank, if_neg hblank, allIn_append, indentEvents_inBounds hindents, NestsWithin]
      refine and_congr_right fun hfits => ?_
      by_cases hpassed : ∃ s₀ rest, lexLine 0 (indentation text).2.length ⟨[], []⟩
          (indentation text).2 = .inr (s₀, rest) ∧ s.tokens.length +
            (indentChange indents (indentation text).1).1.length + s₀.tokens.length < maxTokens
      · obtain ⟨s₀, rest, hline₀, hroom⟩ := hpassed
        obtain ⟨s₁, s₂, s₃, hindent, hline, hnewline, hlength⟩ :=
          @line_passed _ _ s line indents _ _ hline₀ hroom
        simp only [hindent, hline, hnewline, hline₀, if_pos hroom]
        rw [allIn_append, allIn_append, and_iff_right (lineEvents_inBounds hsuffix₁),
          and_iff_right (emitEvents_inBounds s₂), ← hlength]
        exact ih (((List.tail_suffix _).trans (lexLine_suffix hline)).trans hsuffix₁) hfits
      · -- The line is not passed, and nothing is reached behind it.
        refine iff_of_true ?_ ?_
        · split
          · exact allIn_nil
          · rename_i s₁ widths hindent
            refine allIn_append.mpr ⟨lineEvents_inBounds hsuffix₁, ?_⟩
            split
            · exact allIn_nil
            · rename_i s₂ rest hline
              refine allIn_append.mpr ⟨emitEvents_inBounds s₂, ?_⟩
              split
              · exact allIn_nil
              · rename_i s₃ hnewline
                obtain ⟨s₀, hline₀, hroom⟩ := line_passed_only hindent hline hnewline
                exact absurd ⟨s₀, rest, hline₀, hroom⟩ hpassed
        · split
          · trivial
          · rename_i s₀ rest hline₀
            rw [if_neg fun hroom => hpassed ⟨s₀, rest, hline₀, hroom⟩]
            trivial

theorem lexEvents_inBounds (src : Text) : AllIn src (lexEvents src) ↔
    NestsWithin 63 [] (reachedWidths src.length 0 [] src) := by
  have hfirst : (LexEvent.indentStack 0).InBounds src := by
    rw [LexEvent.InBounds]
    decide
  rw [lexEvents, allIn_cons, and_iff_right hfirst]
  exact linesEvents_inBounds List.suffix_rfl (Nat.zero_le 63)

/-- A program that is accepted has one EOF, the last token. -/
theorem gkLex_eof {lexer : Lexer} (hrun : gkLex [] src = (true, lexer)) :
    ∃ types, lexer.types = types ++ [.eof] ∧ .eof ∉ types := by
  obtain ⟨lines, htypes, -, hchanges, hbodies⟩ :=
    lexLines_types (fun _ h => absurd h List.not_mem_nil) hrun
  refine ⟨_, htypes, fun hmem => ?_⟩
  rcases List.mem_append.mp hmem with hmem | hmem
  · rw [show Lexer.types ⟨[], []⟩ = [] from rfl, List.nil_append] at hmem
    obtain ⟨l, hl, hmem⟩ := List.mem_flatMap.mp hmem
    rw [TokenLine.types, List.mem_append, List.mem_append] at hmem
    rcases hmem with (hchange | hbody) | hnewline
    · rcases hchanges.types l hl _ hchange with h | h <;> cases h
    · cases hbodies l hl _ hbody
    · cases List.mem_singleton.mp hnewline
  · cases List.eq_of_mem_replicate hmem

/-- **When the lexer stays in bounds**: every access is inside its array, and a program that is
accepted has one EOF token and that is the last, if and only if none of the lines that are reached
is inside more than 63 blocks. -/
theorem gkLex_inBounds (src : Text) :
    (AllIn src (lexEvents src) ∧ ∀ lexer, gkLex [] src = (true, lexer) →
        ∃ types, lexer.types = types ++ [.eof] ∧ .eof ∉ types) ↔
      NestsWithin 63 [] (reachedWidths src.length 0 [] src) := by
  rw [lexEvents_inBounds]
  exact and_iff_left fun lexer => gkLex_eof

/-- Each of these lines is one space deeper than the line before it. -/
def stairs : Text :=
  (List.range 65).flatMap fun i => List.replicate (i % 4) 32 ++ List.replicate (i / 4) 9 ++ [97, 10]

/-- The last of 65 such lines opens a 64th block, behind the end of the stack. -/
theorem gkLex_outOfBounds : stairs.length < 8192 ∧ ¬ AllIn stairs (lexEvents stairs) := by
  rw [lexEvents_inBounds]
  decide +kernel

end GeckoOS.Gk
