/-
# Lines and blocks

A block is shown by the widths of its lines.  The lexer keeps the widths of the open blocks on a
stack and puts INDENT and DEDENT tokens in front of a line when its width is not that of the
innermost block.

These tokens are always balanced.  That they show the blocks is less: a line that is shallower
than the line before it closes every block deeper than itself, and whether the block that is then
the innermost one has its width is not looked at.  They do show the blocks if and only if every
such line has the width of a block around it.
-/

import GeckoOS.Gk.Lexemes

namespace GeckoOS.Gk

/-! ## Lines -/

/-- The text from the end of the line on. -/
def lineEnd : Nat → Text → Text
  | 0, text => text
  | fuel + 1, text =>
      match text with
      | [] => []
      | c :: rest =>
          if c = 10 then c :: rest
          else
            match lexToken ⟨[], []⟩ 0 c rest with
            | .inl _ => []
            | .inr (_, rest) => lineEnd fuel rest

/-- The widths of the lines that are neither blank nor a comment.  A string may go on behind a
newline, and then no line begins there. -/
def lineWidths : Nat → Text → List Nat
  | 0, _ => []
  | fuel + 1, text =>
      if text = [] then []
      else
        let (indent, rest) := indentation text
        if rest = [] ∨ rest.head? = some 10 ∨ rest.head? = some 35 then
          lineWidths fuel (rest.dropWhile (· ≠ 10)).tail
        else indent :: lineWidths fuel (lineEnd rest.length rest).tail

/-- The types of the tokens so far. -/
def Lexer.types (s : Lexer) : List TokenType := s.tokens.map Token.type

/-- The tokens of a line, with the change of indentation that comes before it. -/
structure TokenLine where
  width : Nat
  change : List TokenType
  body : List TokenType

def TokenLine.types (l : TokenLine) : List TokenType := l.change ++ l.body ++ [.newline]

/-- The types of all tokens, and the lines they make up. -/
structure Divides (types : List TokenType) (lines : List TokenLine) : Prop where
  types_eq : ∃ n, types = lines.flatMap TokenLine.types ++ List.replicate n .dedent ++ [.eof]
  change : ∀ l ∈ lines, ∀ type ∈ l.change, type = .indent ∨ type = .dedent
  body : ∀ l ∈ lines, ∀ type ∈ l.body, type.isLayout = false

/-! ## Blocks -/

/-- Every block that is closed has been opened, and in the end none is open. -/
structure Balanced (types : List TokenType) : Prop where
  before : ∀ first, first <+: types → first.count .dedent ≤ first.count .indent
  all : types.count .indent = types.count .dedent

/-- The changes show the blocks, when blocks of these widths are open, the innermost first: none
is shown for a line of the same width as the line before, one INDENT for a deeper line; and a
shallower line has the width of an open block, or is not indented, and closes the blocks inside
that. -/
def ShowsBlocks : Indents → List TokenLine → Prop
  | _, [] => True
  | widths, l :: lines =>
      if l.width = widths.headD 0 then l.change = [] ∧ ShowsBlocks widths lines
      else if widths.headD 0 < l.width then
        l.change = [.indent] ∧ ShowsBlocks (l.width :: widths) lines
      else
        ∃ n ≤ widths.length, l.change = List.replicate n .dedent ∧
          (widths.drop n).headD 0 = l.width ∧ ShowsBlocks (widths.drop n) lines

/-- A line that is shallower than the line before it is as wide as the last line that is not
deeper, or it is not indented if there is none.  The widths of the earlier lines come with the
last one first. -/
def Consistent : List Nat → List Nat → Prop
  | _, [] => True
  | before, width :: widths =>
      (width < before.headD 0 → (before.find? (· ≤ width)).getD 0 = width) ∧
        Consistent (width :: before) widths

/-- The tokens for a line of this width, and the blocks that are then open. -/
def indentChange (indents : Indents) (indent : Nat) : List TokenType × Indents :=
  if indents.headD 0 < indent then ([.indent], indent :: indents)
  else
    (List.replicate (indents.takeWhile (indent < ·)).length .dedent,
      indents.dropWhile (indent < ·))

/-- The blocks that are open behind the lines. -/
def openBlocks (indents : Indents) (lines : List TokenLine) : Indents :=
  lines.foldl (fun indents l => (indentChange indents l.width).2) indents

/-- The changes in front of the lines are those of the lexer. -/
def Changes : Indents → List TokenLine → Prop
  | _, [] => True
  | indents, l :: lines =>
      l.change = (indentChange indents l.width).1 ∧
        Changes (indentChange indents l.width).2 lines

/-! ## The widths before a line -/

/-- For a later line, the open blocks say the same as all lines before it. -/
structure Tracks (before : List Nat) (widths : Indents) : Prop where
  head : before.headD 0 = widths.headD 0
  find : ∀ width, (before.find? (· ≤ width)).getD 0 = (widths.find? (· ≤ width)).getD 0

variable {before inner outer : List Nat} {widths indents : Indents} {l : TokenLine}
  {lines : List TokenLine}

theorem find_cons_le {width v : Nat} (hle : width ≤ v) (widths : List Nat) :
    (width :: widths).find? (· ≤ v) = some width := by
  rw [List.find?_cons, decide_eq_true hle]

theorem find_cons_lt {width v : Nat} (hlt : v < width) (widths : List Nat) :
    (width :: widths).find? (· ≤ v) = widths.find? (· ≤ v) := by
  rw [List.find?_cons, decide_eq_false (Nat.not_le.mpr hlt)]

theorem find_of_headD {v : Nat} (hhead : widths.headD 0 ≤ v) :
    (widths.find? (· ≤ v)).getD 0 = widths.headD 0 := by
  cases widths with
  | nil => rfl
  | cons width widths => exact congrArg (Option.getD · 0) (find_cons_le hhead widths)

theorem find_append {v : Nat} (hinner : ∀ width ∈ inner, v < width) :
    (inner ++ outer).find? (· ≤ v) = outer.find? (· ≤ v) := by
  induction inner with
  | nil => rfl
  | cons width inner ih =>
      rw [List.cons_append, find_cons_lt (hinner width List.mem_cons_self)]
      exact ih fun width hwidth => hinner width (List.mem_cons_of_mem _ hwidth)

/-- A line opens a block. -/
theorem Tracks.deeper (htracks : Tracks before widths) (width : Nat) :
    Tracks (width :: before) (width :: widths) where
  head := rfl
  find v := by
    rcases Nat.lt_or_ge v width with hlt | hle
    · rw [find_cons_lt hlt, find_cons_lt hlt]
      exact htracks.find v
    · rw [find_cons_le hle, find_cons_le hle]

/-- A line closes blocks, or none, and has then the width of the innermost. -/
theorem Tracks.closed (htracks : Tracks before (inner ++ outer))
    (hinner : ∀ width ∈ inner, outer.headD 0 < width) :
    Tracks (outer.headD 0 :: before) outer where
  head := rfl
  find v := by
    rcases Nat.lt_or_ge v (outer.headD 0) with hlt | hle
    · rw [find_cons_lt hlt, htracks.find v,
        find_append fun width hwidth => hlt.trans (hinner width hwidth)]
    · rw [find_cons_le hle, find_of_headD hle]
      rfl

/-- Nothing happens before the first line. -/
theorem Tracks.nil : Tracks [] [] where
  head := rfl
  find _ := rfl

/-- A block is deeper than the block around it, and the text itself is not indented. -/
def Deepening (widths : Indents) : Prop := (widths ++ [0]).Pairwise (· > ·)

theorem headD_mem (widths : Indents) : widths.headD 0 ∈ widths ++ [0] := by
  cases widths with
  | nil => exact List.mem_singleton_self 0
  | cons width widths => exact List.mem_cons_self

theorem Deepening.deeper {width : Nat} (hdeepening : Deepening widths)
    (hdeeper : widths.headD 0 < width) : Deepening (width :: widths) := by
  refine List.pairwise_cons.mpr ⟨fun width' hwidth => ?_, hdeepening⟩
  cases widths with
  | nil =>
      obtain rfl := List.mem_singleton.mp hwidth
      exact hdeeper
  | cons head widths =>
      rcases List.mem_cons.mp hwidth with rfl | hmem
      · exact hdeeper
      · exact ((List.pairwise_cons.mp hdeepening).1 width' hmem).trans hdeeper

theorem Deepening.of_append (hdeepening : Deepening (inner ++ outer)) : Deepening outer := by
  rw [Deepening, List.append_assoc] at hdeepening
  exact (List.pairwise_append.mp hdeepening).2.1

theorem Deepening.headD_lt (hdeepening : Deepening (inner ++ outer)) :
    ∀ width ∈ inner, outer.headD 0 < width := by
  rw [Deepening, List.append_assoc] at hdeepening
  exact fun width hwidth =>
    (List.pairwise_append.mp hdeepening).2.2 width hwidth _ (headD_mem outer)

/-- The innermost block that is left is not deeper than the line. -/
theorem headD_dropWhile (width : Nat) (widths : Indents) :
    (widths.dropWhile (width < ·)).headD 0 ≤ width := by
  induction widths with
  | nil => exact Nat.zero_le width
  | cons head widths ih =>
      rw [List.dropWhile_cons]
      split_ifs with hhead
      · exact ih
      · exact Nat.not_lt.mp fun hlt => hhead (decide_eq_true hlt)

/-- Where the changes show the blocks, the widths are consistent. -/
theorem ShowsBlocks.consistent (hshows : ShowsBlocks widths lines)
    (htracks : Tracks before widths) (hdeepening : Deepening widths) :
    Consistent before (lines.map TokenLine.width) := by
  induction lines generalizing before widths with
  | nil => trivial
  | cons l lines ih =>
      rw [ShowsBlocks] at hshows
      split_ifs at hshows with hsame hdeeper
      · have hnext := @Tracks.closed _ [] _ htracks fun _ h => absurd h List.not_mem_nil
        rw [← hsame] at hnext
        refine ⟨fun hlt => ?_, ih hshows.2 hnext hdeepening⟩
        rw [htracks.head] at hlt
        omega
      · refine ⟨fun hlt => ?_, ih hshows.2 (htracks.deeper l.width) (hdeepening.deeper hdeeper)⟩
        rw [htracks.head] at hlt
        omega
      · obtain ⟨n, -, -, hhead, hrest⟩ := hshows
        rw [← List.take_append_drop n widths] at htracks hdeepening
        have hnext := htracks.closed (Deepening.headD_lt hdeepening)
        have hfind := htracks.find l.width
        rw [find_append fun width hwidth => hhead ▸ Deepening.headD_lt hdeepening width hwidth,
          find_of_headD hhead.le, hhead] at hfind
        rw [hhead] at hnext
        exact ⟨fun _ => hfind, ih hrest hnext (Deepening.of_append hdeepening)⟩

/-- And where they are consistent, the changes of the lexer show the blocks. -/
theorem Changes.showsBlocks (hchanges : Changes indents lines) (htracks : Tracks before indents)
    (hconsistent : Consistent before (lines.map TokenLine.width)) :
    ShowsBlocks indents lines := by
  induction lines generalizing before indents with
  | nil => trivial
  | cons l lines ih =>
      obtain ⟨hchange, hrest⟩ := hchanges
      obtain ⟨hwidth, hwidths⟩ := hconsistent
      rw [indentChange] at hchange hrest
      rw [ShowsBlocks]
      split_ifs at hchange hrest with hdeeper
      · rw [if_neg (by omega), if_pos hdeeper]
        exact ⟨hchange, ih hrest (htracks.deeper l.width) hwidths⟩
      · have hinner : ∀ width ∈ indents.takeWhile (l.width < ·), l.width < width :=
          fun width hmem => of_decide_eq_true (List.all_eq_true.mp List.all_takeWhile width hmem)
        have hfind : (indents.find? (· ≤ l.width)).getD 0 = l.width := by
          rw [← htracks.find]
          rcases Nat.lt_or_ge l.width (before.headD 0) with hlt | hle
          · exact hwidth hlt
          · have hhead := htracks.head
            rw [find_of_headD hle]
            omega
        have hsplit := List.takeWhile_append_dropWhile (p := (l.width < ·)) (l := indents)
        rw [← hsplit] at hfind htracks
        rw [find_append hinner, find_of_headD (headD_dropWhile l.width indents)] at hfind
        have hnext := htracks.closed (by rwa [hfind])
        rw [hfind] at hnext
        have hshows := ih hrest hnext hwidths
        split_ifs with hsame
        · have hnone : indents.takeWhile (l.width < ·) = [] := by
            cases indents with
            | nil => rfl
            | cons width widths => exact List.takeWhile_cons_of_neg (by simpa using hsame.ge)
          rw [hnone, List.nil_append] at hsplit
          rw [hsplit] at hshows
          rw [hnone] at hchange
          exact ⟨hchange, hshows⟩
        · have hdrop : indents.drop (indents.takeWhile (l.width < ·)).length
              = indents.dropWhile (l.width < ·) := by
            nth_rewrite 2 [← hsplit]
            exact List.drop_left
          refine ⟨_, (List.takeWhile_sublist _).length_le, hchange, ?_, ?_⟩
          · rw [hdrop, hfind]
          · rwa [hdrop]

theorem Changes.types (hchanges : Changes indents lines) :
    ∀ l ∈ lines, ∀ type ∈ l.change, type = .indent ∨ type = .dedent := by
  induction lines generalizing indents with
  | nil => exact fun l hl => absurd hl List.not_mem_nil
  | cons l lines ih =>
      obtain ⟨hchange, hrest⟩ := hchanges
      intro l' hl type htype
      rcases List.mem_cons.mp hl with rfl | hl
      · rw [hchange, indentChange] at htype
        split_ifs at htype
        · exact .inl (List.mem_singleton.mp htype)
        · exact .inr (List.eq_of_mem_replicate htype)
      · exact ih hrest l' hl type htype

/-! ## The tokens of the lexer -/

variable {s s' : Lexer} {line : Nat} {text rest : Text}
  {c : UInt8}

/-- One token. -/
theorem Lexer.emit_types {type : TokenType} (hrun : s.emit type 0 [] line = (true, s')) :
    s'.types = s.types ++ [type] := by
  rw [Lexer.emit] at hrun
  split_ifs at hrun
  · cases hrun
  · cases hrun
    exact List.map_append

theorem closeBlocks_types {indent : Nat}
    (hrun : closeBlocks indent line s widths = (true, s', indents)) :
    s'.types = s.types ++ List.replicate (widths.takeWhile (indent < ·)).length .dedent ∧
      indents = widths.dropWhile (indent < ·) := by
  induction widths generalizing s with
  | nil =>
      cases hrun
      exact ⟨(List.append_nil _).symm, rfl⟩
  | cons width widths ih =>
      rw [closeBlocks] at hrun
      split_ifs at hrun with hdeeper
      · split at hrun
        · rename_i hemit
          obtain ⟨htypes, hindents⟩ := ih hrun
          rw [List.takeWhile_cons, List.dropWhile_cons, decide_eq_true hdeeper, if_pos rfl,
            List.length_cons, List.replicate_succ, htypes, Lexer.emit_types hemit,
            List.append_assoc]
          exact ⟨rfl, hindents⟩
        · cases hrun
      · cases hrun
        rw [List.takeWhile_cons, List.dropWhile_cons, decide_eq_false hdeeper]
        exact ⟨(List.append_nil _).symm, rfl⟩

theorem lexIndent_types {indent : Nat}
    (hrun : lexIndent s widths indent line = (true, s', indents)) :
    s'.types = s.types ++ (indentChange widths indent).1 ∧
      indents = (indentChange widths indent).2 := by
  rw [lexIndent] at hrun
  rw [indentChange]
  split_ifs at hrun ⊢ with hdeeper
  · split at hrun
    · rename_i hemit
      cases hrun
      exact ⟨Lexer.emit_types hemit, rfl⟩
    · cases hrun
  · exact closeBlocks_types hrun

theorem takeWhile_all {p : Nat → Bool} {ns : List Nat} (hall : ∀ n ∈ ns, p n) :
    ns.takeWhile p = ns := by
  rw [← List.append_nil ns, List.takeWhile_append_of_pos hall, List.takeWhile_nil]

/-- At the end every block is closed. -/
theorem lexEnd_types (hpos : ∀ width ∈ widths, 0 < width)
    (hrun : lexEnd s widths line = (true, s')) :
    s'.types = s.types ++ List.replicate widths.length .dedent ++ [.eof] := by
  rw [lexEnd] at hrun
  split at hrun
  · cases hrun
  · rename_i hclose
    have hall : widths.takeWhile (0 < ·) = widths :=
      takeWhile_all fun width hwidth => decide_eq_true (hpos width hwidth)
    have htypes := (closeBlocks_types hclose).1
    rw [hall] at htypes
    rw [Lexer.emit_types hrun, htypes]

/-- The end of a line does not depend on what is before it. -/
theorem lexToken_end (hrun : lexToken s line c text = .inr (s', rest)) :
    ∃ s₀, lexToken ⟨[], []⟩ 0 c text = .inr (s₀, rest) := by
  have hempty : ∀ type intVal strVal, (Lexer.mk [] []).emit type intVal strVal 0
      = (true, ⟨[⟨type, intVal, strVal, 0⟩], []⟩) := fun _ _ _ => rfl
  rw [lexToken] at hrun ⊢
  split_ifs at hrun ⊢
  · cases hrun
    exact ⟨_, rfl⟩
  · cases hrun
    exact ⟨_, rfl⟩
  · rw [hempty]
    split at hrun
    · cases hrun
      exact ⟨_, rfl⟩
    · cases hrun
  · dsimp only at hrun ⊢
    rw [hempty]
    split at hrun
    · cases hrun
      exact ⟨_, rfl⟩
    · cases hrun
  · dsimp only at hrun ⊢
    rw [hempty]
    split at hrun
    · cases hrun
      exact ⟨_, rfl⟩
    · cases hrun
  · split at hrun
    · cases hrun
      exact ⟨_, rfl⟩
    · split at hrun
      · cases hrun
        exact ⟨_, rfl⟩
      · cases hrun

theorem lexLine_end {fuel : Nat} (hrun : lexLine line fuel s text = .inr (s', rest)) :
    lineEnd fuel text = rest := by
  induction fuel generalizing s text with
  | zero =>
      cases hrun
      rfl
  | succ fuel ih =>
      cases text with
      | nil =>
          cases hrun
          rfl
      | cons c text =>
          rw [lexLine] at hrun
          rw [lineEnd]
          split_ifs at hrun ⊢
          · cases hrun
            rfl
          · split at hrun
            · cases hrun
            · rename_i htoken
              obtain ⟨s₀, hend⟩ := lexToken_end htoken
              simp only [hend]
              exact ih hrun

/-- The blocks stay indented. -/
theorem indentChange_pos {indent : Nat} (hpos : ∀ width ∈ widths, 0 < width) :
    ∀ width ∈ (indentChange widths indent).2, 0 < width := by
  rw [indentChange]
  split_ifs with hdeeper
  · intro width hwidth
    rcases List.mem_cons.mp hwidth with rfl | hmem
    · exact Nat.zero_lt_of_lt hdeeper
    · exact hpos width hmem
  · exact fun width hwidth => hpos width ((List.dropWhile_sublist _).mem hwidth)

/-- The tokens of all lines. -/
theorem lexLines_types {fuel : Nat} (hpos : ∀ width ∈ widths, 0 < width)
    (hrun : lexLines fuel s widths line text = (true, s')) :
    ∃ lines, s'.types = s.types ++ lines.flatMap TokenLine.types ++
        List.replicate (openBlocks widths lines).length .dedent ++ [.eof] ∧
      lines.map TokenLine.width = lineWidths fuel text ∧ Changes widths lines ∧
      ∀ l ∈ lines, ∀ type ∈ l.body, type.isLayout = false := by
  have hend : ∀ {s : Lexer} {widths : Indents} {line : Nat}, (∀ width ∈ widths, 0 < width) →
      lexEnd s widths line = (true, s') →
      ∃ lines, s'.types = s.types ++ lines.flatMap TokenLine.types ++
          List.replicate (openBlocks widths lines).length .dedent ++ [.eof] ∧
        lines.map TokenLine.width = [] ∧ Changes widths lines ∧
        ∀ l ∈ lines, ∀ type ∈ l.body, type.isLayout = false := by
    intro s widths line hpos hrun
    refine ⟨[], ?_, rfl, trivial, fun l hl => absurd hl List.not_mem_nil⟩
    rw [lexEnd_types hpos hrun, List.flatMap_nil, List.append_nil]
    rfl
  induction fuel generalizing s widths line text with
  | zero => exact hend hpos hrun
  | succ fuel ih =>
      rw [lexLines] at hrun
      rw [lineWidths]
      split_ifs at hrun ⊢ with hempty
      · exact hend hpos hrun
      dsimp only at hrun ⊢
      split at hrun
      · rename_i hblank
        rw [if_pos hblank]
        exact ih hpos hrun
      · rename_i hblank
        rw [if_neg hblank]
        split at hrun
        · cases hrun
        · rename_i s₁ widths₁ hindent
          split at hrun
          · cases hrun
          · rename_i s₂ rest hline
            split at hrun
            · cases hrun
            · rename_i s₃ hnewline
              obtain ⟨hchange, rfl⟩ := lexIndent_types hindent
              obtain ⟨ts, hts, hbody⟩ := lexLine_tokens hline
              obtain ⟨lines, htypes, hwidths, hchanges, hbodies⟩ :=
                ih (indentChange_pos hpos) hrun
              refine ⟨⟨(indentation text).1, (indentChange widths (indentation text).1).1,
                ts.map Token.type⟩ :: lines, ?_, ?_, ⟨rfl, hchanges⟩, ?_⟩
              · have hline' : s₂.types = s₁.types ++ ts.map Token.type := by
                  rw [Lexer.types, hts, List.map_append, Lexer.types]
                rw [htypes, Lexer.emit_types hnewline, hline', hchange, List.flatMap_cons,
                  TokenLine.types]
                simp only [List.append_assoc]
                rfl
              · rw [List.map_cons, hwidths, lexLine_end hline]
              · rintro l hl type htype
                rcases List.mem_cons.mp hl with rfl | hl
                · obtain ⟨t, ht, rfl⟩ := List.mem_map.mp htype
                  exact hbody t ht
                · exact hbodies l hl type htype

/-! ## Balance -/

/-- No block has been closed that was not opened, and this many are open. -/
structure NestedTo (types : List TokenType) (n : Nat) : Prop where
  before : ∀ first, first <+: types → first.count .dedent ≤ first.count .indent
  depth : types.count .indent = types.count .dedent + n

variable {types ts : List TokenType} {type : TokenType} {n n' : Nat}

/-- One token more. -/
theorem NestedTo.snoc (hnested : NestedTo types n)
    (hdepth : (types ++ [type]).count .indent = (types ++ [type]).count .dedent + n') :
    NestedTo (types ++ [type]) n' where
  before first hfirst := by
    rcases List.prefix_concat_iff.mp hfirst with rfl | hprefix
    · omega
    · exact hnested.before first hprefix
  depth := hdepth

theorem NestedTo.indent (hnested : NestedTo types n) : NestedTo (types ++ [.indent]) (n + 1) := by
  have hdepth := hnested.depth
  refine hnested.snoc ?_
  rw [List.count_append, List.count_append, hdepth]
  simp
  omega

theorem NestedTo.dedents {n : Nat} (hnested : NestedTo types (n + n')) :
    NestedTo (types ++ List.replicate n .dedent) n' := by
  induction n generalizing types with
  | zero =>
      rw [Nat.zero_add] at hnested
      rwa [List.replicate_zero, List.append_nil]
  | succ n ih =>
      have hdepth := hnested.depth
      rw [List.replicate_succ, ← List.singleton_append, ← List.append_assoc]
      refine ih (hnested.snoc ?_)
      rw [List.count_append, List.count_append, hdepth]
      simp
      omega

/-- Other tokens change nothing. -/
theorem NestedTo.others (hnested : NestedTo types n)
    (hts : ∀ type ∈ ts, type ≠ .indent ∧ type ≠ .dedent) : NestedTo (types ++ ts) n := by
  induction ts generalizing types with
  | nil => rwa [List.append_nil]
  | cons type ts ih =>
      obtain ⟨hindent, hdedent⟩ := hts type List.mem_cons_self
      rw [← List.singleton_append, ← List.append_assoc]
      refine ih (hnested.snoc ?_) fun type htype => hts type (List.mem_cons_of_mem _ htype)
      rw [List.count_append, List.count_append, hnested.depth, List.count_singleton,
        List.count_singleton]
      simp [hindent, hdedent]

/-- The change in front of a line. -/
theorem NestedTo.change {indent : Nat} (hnested : NestedTo types widths.length) :
    NestedTo (types ++ (indentChange widths indent).1) (indentChange widths indent).2.length := by
  rw [indentChange]
  split_ifs
  · exact hnested.indent
  · refine NestedTo.dedents ?_
    rwa [← List.length_append, List.takeWhile_append_dropWhile]

theorem NestedTo.allLines (hnested : NestedTo types widths.length) (hchanges : Changes widths lines)
    (hbodies : ∀ l ∈ lines, ∀ type ∈ l.body, type.isLayout = false) :
    NestedTo (types ++ lines.flatMap TokenLine.types) (openBlocks widths lines).length := by
  induction lines generalizing types widths with
  | nil => rwa [List.flatMap_nil, List.append_nil]
  | cons l lines ih =>
      obtain ⟨hchange, hrest⟩ := hchanges
      have hline : NestedTo (types ++ l.types) (indentChange widths l.width).2.length := by
        rw [TokenLine.types, ← List.append_assoc, ← List.append_assoc, hchange]
        refine (hnested.change.others fun type htype => ?_).others fun type htype => ?_
        · have hbody := hbodies l List.mem_cons_self type htype
          constructor <;>
          · rintro rfl
            cases hbody
        · obtain rfl := List.mem_singleton.mp htype
          decide
      rw [List.flatMap_cons, ← List.append_assoc]
      exact ih hline hrest fun l hl => hbodies l (List.mem_cons_of_mem _ hl)

variable {src : Text} {lexer : Lexer}

/-- The tokens of a program that is accepted are balanced. -/
theorem gkLex_balanced (hrun : gkLex [] src = (true, lexer)) : Balanced lexer.types := by
  obtain ⟨lines, htypes, -, hchanges, hbodies⟩ :=
    lexLines_types (fun _ h => absurd h List.not_mem_nil) hrun
  have hstart : NestedTo [] ([] : Indents).length :=
    ⟨fun first hfirst => by rw [List.prefix_nil.mp hfirst]; exact le_rfl, rfl⟩
  have hend : NestedTo lexer.types 0 := by
    rw [htypes]
    refine (NestedTo.dedents ?_).others ?_
    · exact hstart.allLines hchanges hbodies
    · intro type htype
      obtain rfl := List.mem_singleton.mp htype
      decide
  exact ⟨hend.before, hend.depth⟩

/-- A program with two blocks, one inside the other, and a comment. -/
def nesting : Text := ascii "while a:\n  # go\n  if b:\n\tc()\n  d()\ne()"

/-- A program with a line between the widths of the blocks around it. -/
def misaligned : Text := ascii "if a:\n    b\n  c\n  d"

end GeckoOS.Gk
