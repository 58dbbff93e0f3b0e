/-
# Names that are shown

What the listing shows of an entry is typed again to reach the entry.  The encoding splits a
name at its last dot and the display puts a dot back only in front of an extension that is
not empty.  So a dot at the end of a name is lost, and if there is a dot in front of it that
is kept, then this one becomes the last dot.
-/

import GeckoOS.Fs.Lookup

namespace GeckoOS.Fs

variable {base ext name front back chars : List UInt8} {c : UInt8}

/-- The last dot is not at the end of the name, or none of the characters that are kept of
what is in front of it is a dot. -/
def KeepsSplit (name : List UInt8) : Prop :=
  name.getLast? ≠ some dotChar ∨ dotChar ∉ name.dropLast.take 8

instance : Decidable (KeepsSplit name) := inferInstanceAs (Decidable (_ ∨ _))

/-- A base of at most eight characters, and behind a dot an extension of at most three, or
none. -/
inductive Is83 : List UInt8 → Prop
  | plain {base : List UInt8} (hbase : base ≠ []) (hlength : base.length ≤ 8)
      (hdot : dotChar ∉ base) : Is83 base
  | dotted {base ext : List UInt8} (hbase : base ≠ []) (hlength : base.length ≤ 8)
      (hdot : dotChar ∉ base) (hext : ext ≠ []) (hextLength : ext.length ≤ 3)
      (hextDot : dotChar ∉ ext) : Is83 (base ++ dotChar :: ext)

/-! ## Fields -/

/-- What is kept of some characters. -/
def kept (width : Nat) (chars : List UInt8) : List UInt8 := (chars.take width).map upperCase

theorem length_kept (width : Nat) (chars : List UInt8) : (kept width chars).length ≤ width := by
  rw [kept, List.length_map]
  exact List.length_take_le _ _

theorem mem_kept {d : UInt8} (hd : d < 0x41) {width : Nat} :
    d ∈ kept width chars ↔ d ∈ chars.take width := by
  rw [kept, List.mem_map]
  constructor
  · rintro ⟨c, hc, hupper⟩
    exact (upperCase_eq_iff hd).mp hupper ▸ hc
  · exact fun hmem => ⟨d, hmem, (upperCase_eq_iff hd).mpr rfl⟩

theorem space_not_mem_kept (hspace : space ∉ chars) (width : Nat) :
    ∀ c ∈ kept width chars, c ≠ space := by
  rintro c hc rfl
  exact hspace (List.mem_of_mem_take ((mem_kept (by decide)).mp hc))

theorem upperCase_upperCase (c : UInt8) : upperCase (upperCase c) = upperCase c := by
  have hall : ∀ n < 256, upperCase (upperCase (UInt8.ofNat n)) = upperCase (UInt8.ofNat n) := by
    decide +kernel
  have hbyte := hall c.toNat c.toNat_lt
  rwa [UInt8.ofNat_toNat] at hbyte

/-- What is kept is kept again. -/
theorem map_upperCase_kept (width : Nat) (chars : List UInt8) :
    (kept width chars).map upperCase = kept width chars := by
  rw [kept, List.map_map]
  exact List.map_congr_left fun c _ => upperCase_upperCase c

/-! ## A name in two parts -/

theorem encode83Name_plain (hdot : dotChar ∉ name) :
    encode83Name name = padded (kept 8 name) [] := by
  rw [encode83Name, lastDot_eq_none.mpr hdot]
  rfl

theorem encode83Name_dotted (hback : dotChar ∉ back) :
    encode83Name (front ++ dotChar :: back) = padded (kept 8 front) (kept 3 back) := by
  have hdrop : (front ++ dotChar :: back).drop (front.length + 1) = back := by
    rw [List.drop_append, List.drop_of_length_le (Nat.le_succ _), List.nil_append,
      Nat.add_sub_cancel_left]
    rfl
  rw [encode83Name, lastDot_append hback]
  dsimp only
  rw [List.take_left, hdrop]
  rfl

/-- The display of two fields without spaces. -/
theorem format83Name_padded (hbase : ∀ c ∈ base, c ≠ space) (hext : ∀ c ∈ ext, c ≠ space)
    (hbaseLength : base.length ≤ 8) : format83Name (padded base ext) = display base ext := by
  have hpadding := length_padding hbaseLength
  rw [format83Name, padded, List.take_left' hpadding, List.drop_left' hpadding,
    takeWhile_padding hbase, takeWhile_padding hext, any_padding hext, display]
  by_cases hnil : ext = [] <;> simp [hnil]

/-- Only the base of two paddings is compared when the extension is empty. -/
theorem padded_inj (hbase : ∀ c ∈ base, c ≠ space) (hfront : ∀ c ∈ front, c ≠ space)
    (hbaseLength : base.length ≤ 8) (hfrontLength : front.length ≤ 8)
    (hsame : padded base ext = padded front back) : base = front := by
  have htake := congrArg (List.take 8) hsame
  rw [padded, padded, List.take_left' (length_padding hbaseLength),
    List.take_left' (length_padding hfrontLength)] at htake
  have hword := congrArg (List.takeWhile (· ≠ space)) htake
  rwa [takeWhile_padding hbase, takeWhile_padding hfront] at hword

theorem kept_of_upper {width : Nat} (hlength : chars.length ≤ width)
    (hupper : chars.map upperCase = chars) : kept width chars = chars := by
  rw [kept, List.take_of_length_le hlength, hupper]

/-- What is shown of two fields is encoded as them, unless the extension is empty and the
base has a dot. -/
theorem encode_display_iff (hbase : ∀ c ∈ base, c ≠ space) (hbaseLength : base.length ≤ 8)
    (hextLength : ext.length ≤ 3) (hbaseUpper : base.map upperCase = base)
    (hextUpper : ext.map upperCase = ext) (hext : dotChar ∉ ext) :
    encode83Name (display base ext) = padded base ext ↔ (ext = [] → dotChar ∉ base) := by
  by_cases hnil : ext = []
  · subst hnil
    rw [display, if_pos rfl]
    refine ⟨fun hsame _ hdot => ?_, fun hdot => ?_⟩
    · obtain ⟨dot, hlast⟩ := Option.ne_none_iff_exists'.mp
        fun hnone => lastDot_eq_none.mp hnone hdot
      obtain ⟨front, back, rfl, -, hback⟩ := exists_of_lastDot hlast
      rw [encode83Name_dotted hback] at hsame
      have hfront : space ∉ front := fun hmem => hbase _ (List.mem_append_left _ hmem) rfl
      have hshort := padded_inj (space_not_mem_kept hfront 8) hbase (length_kept 8 front)
        hbaseLength hsame
      have hlength := congrArg List.length hshort
      have htake := List.length_take_le' 8 front
      rw [kept, List.length_map, List.length_append, List.length_cons] at hlength
      omega
    · rw [encode83Name_plain (hdot rfl), kept_of_upper hbaseLength hbaseUpper]
  · rw [display, if_neg hnil, encode83Name_dotted hext, kept_of_upper hbaseLength hbaseUpper,
      kept_of_upper hextLength hextUpper]
    exact iff_of_true rfl fun h => absurd h hnil

/-! ## Typed names -/

/-- The two parts of a name that are encoded. -/
structure Parts (name front back : List UInt8) : Prop where
  encode : encode83Name name = padded (kept 8 front) (kept 3 back)
  frontSpace : space ∉ front
  backSpace : space ∉ back
  backDot : dotChar ∉ back
  keeps : KeepsSplit name ↔ (back = [] → dotChar ∉ front.take 8)

theorem exists_parts (hspace : space ∉ name) : ∃ front back, Parts name front back := by
  cases hlast : lastDot name with
  | none =>
      have hdot := lastDot_eq_none.mp hlast
      refine ⟨name, [], encode83Name_plain hdot, hspace, List.not_mem_nil, List.not_mem_nil, ?_⟩
      refine iff_of_true (.inl fun hend => hdot (List.mem_of_getLast? hend)) fun _ hmem => ?_
      exact hdot (List.mem_of_mem_take hmem)
  | some dot =>
      obtain ⟨front, back, rfl, -, hback⟩ := exists_of_lastDot hlast
      refine ⟨front, back, encode83Name_dotted hback, fun hc => ?_, fun hc => ?_, hback, ?_⟩
      · exact hspace (List.mem_append_left _ hc)
      · exact hspace (List.mem_append_right _ (List.mem_cons_of_mem _ hc))
      · rcases List.eq_nil_or_concat' back with rfl | ⟨back, c, rfl⟩
        · simp [KeepsSplit]
        · have hend : (front ++ dotChar :: (back ++ [c])).getLast? = some c := by
            rw [← List.cons_append, ← List.append_assoc, List.getLast?_concat]
          refine iff_of_true (.inl fun hdot => hback ?_) fun hnil => absurd hnil (by simp)
          obtain rfl : c = dotChar := Option.some.inj (hend.symm.trans hdot)
          exact List.mem_append_right _ List.mem_cons_self

theorem kept_eq_nil {width : Nat} (hwidth : width ≠ 0) : kept width chars = [] ↔ chars = [] := by
  rw [kept, List.map_eq_nil_iff, List.take_eq_nil_iff]
  exact or_iff_right hwidth

/-- An 8.3 name is shown in upper case. -/
theorem Is83.display (hname : Is83 name) (hspace : space ∉ name) :
    format83Name (encode83Name name) = name.map upperCase := by
  cases hname with
  | @plain base hbase hlength hdot =>
      rw [encode83Name_plain hdot, format83Name_padded (space_not_mem_kept hspace 8)
        (fun _ hc => absurd hc List.not_mem_nil) (length_kept 8 name), Fs.display, if_pos rfl, kept,
        List.take_of_length_le hlength]
  | @dotted base ext hbase hlength hdot hext hextLength hextDot =>
      have hbaseSpace : space ∉ base := fun hc => hspace (List.mem_append_left _ hc)
      have hextSpace : space ∉ ext := fun hc =>
        hspace (List.mem_append_right _ (List.mem_cons_of_mem _ hc))
      rw [encode83Name_dotted hextDot, format83Name_padded (space_not_mem_kept hbaseSpace 8)
        (space_not_mem_kept hextSpace 3) (length_kept 8 base), Fs.display,
        if_neg (fun hnil => hext ((kept_eq_nil (by decide)).mp hnil)), kept, kept,
        List.take_of_length_le hlength, List.take_of_length_le hextLength, List.map_append,
        List.map_cons, upperCase_eq_dot.mpr rfl]

/-- **Names that are shown.**  An entry is reached by the name that is shown of it exactly if
the split of its name is kept, and an 8.3 name is shown in upper case. -/
theorem display_reaches_iff (name : List UInt8) (hspace : space ∉ name) :
    (encode83Name (format83Name (encode83Name name)) = encode83Name name ↔ KeepsSplit name) ∧
      (Is83 name → format83Name (encode83Name name) = name.map upperCase) := by
  obtain ⟨front, back, hparts⟩ := exists_parts hspace
  have hfront := space_not_mem_kept hparts.frontSpace 8
  have hback := space_not_mem_kept hparts.backSpace 3
  have hbackDot : dotChar ∉ kept 3 back := fun hc =>
    hparts.backDot (List.mem_of_mem_take ((mem_kept (by decide)).mp hc))
  refine ⟨?_, fun hname => hname.display hspace⟩
  rw [hparts.encode, format83Name_padded hfront hback (length_kept 8 front),
    encode_display_iff hfront (length_kept 8 front) (length_kept 3 back)
      (map_upperCase_kept 8 front) (map_upperCase_kept 3 back) hbackDot,
    kept_eq_nil (by decide), mem_kept (by decide), hparts.keeps]

/-- `a.bc` is reached and shown as `A.BC`. -/
theorem display_reaches_dotted :
    (encode83Name (format83Name (encode83Name [0x61, 0x2E, 0x62, 0x63])) =
      encode83Name [0x61, 0x2E, 0x62, 0x63] ↔ KeepsSplit [0x61, 0x2E, 0x62, 0x63]) ∧
      (Is83 [0x61, 0x2E, 0x62, 0x63] →
        format83Name (encode83Name [0x61, 0x2E, 0x62, 0x63]) =
          [0x61, 0x2E, 0x62, 0x63].map upperCase) :=
  display_reaches_iff [0x61, 0x2E, 0x62, 0x63] (by decide)

/-- `a.b.` is shown as `A.B`, and that is encoded as another name. -/
theorem display_of_two_dots : space ∉ ([0x61, 0x2E, 0x62, 0x2E] : List UInt8) ∧
    (0 : UInt8) ∉ ([0x61, 0x2E, 0x62, 0x2E] : List UInt8) ∧
    format83Name (encode83Name [0x61, 0x2E, 0x62, 0x2E]) = [0x41, 0x2E, 0x42] ∧
    encode83Name (format83Name (encode83Name [0x61, 0x2E, 0x62, 0x2E])) ≠
      encode83Name [0x61, 0x2E, 0x62, 0x2E] := by
  decide

end GeckoOS.Fs
