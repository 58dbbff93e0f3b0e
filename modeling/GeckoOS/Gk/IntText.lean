/-
# Numbers as text and back

`int_to_str` takes the digits of a number off its end, from the magnitude that it gets by negating
a negative number, and `int()` puts them together again.  The text is the number in decimal and
the way back leads to the number, for all numbers but one: the least number is its own negation,
so it counts as a number that has no digits left, and all of its text is the sign.
-/

import GeckoOS.Gk.Arithmetic
import GeckoOS.Gk.Indices
import GeckoOS.Gk.Rendering

namespace GeckoOS.Gk

open GeckoOS.Math

/-! ## The digits -/

/-- The loop of `int_to_str` that fills `tmp`, with so much room. -/
def tmpDigits : Nat → Int32 → Text
  | 0, _ => []
  | room + 1, v =>
      if 0 < v then UInt8.ofNat (48 + (v % 10).toInt.toNat) :: tmpDigits room (v / 10) else []

/-- A number in decimal digits, with a sign if it is negative. -/
def decimalText (n : Int) : Text := if n < 0 then 45 :: decimal n.natAbs else decimal n.natAbs

variable {v : Int32} {n : Nat}

theorem lt_zero_iff : v < 0 ↔ v.toInt < 0 := Int32.lt_iff_toInt_lt

theorem zero_lt_iff : 0 < v ↔ 0 < v.toInt := Int32.lt_iff_toInt_lt

theorem toInt_tenth (hpos : 0 < v) :
    (v % 10).toInt.toNat = v.toInt.toNat % 10 ∧ (v / 10).toInt.toNat = v.toInt.toNat / 10 := by
  have hnonneg := zero_lt_iff.mp hpos
  have hten : (10 : Int32).toInt = 10 := rfl
  rw [Int32.toInt_mod, Int32.toInt_div_of_ne_right _ _ (by decide), hten,
    Int.tmod_eq_emod_of_nonneg hnonneg.le, Int.tdiv_eq_ediv_of_nonneg hnonneg.le]
  omega

/-- The loop takes the digits off the end, if there is room for them. -/
theorem tmpDigits_eq (room : Nat) (hroom : v.toInt.toNat < 10 ^ room) :
    tmpDigits room v = (Nat.digits 10 v.toInt.toNat).map fun d => UInt8.ofNat (48 + d) := by
  induction room generalizing v with
  | zero =>
      rw [Nat.pow_zero, Nat.lt_one_iff] at hroom
      rw [tmpDigits, hroom, Nat.digits_zero, List.map_nil]
  | succ room ih =>
      rw [tmpDigits]
      by_cases hpos : 0 < v
      · obtain ⟨hmod, hdiv⟩ := toInt_tenth hpos
        have hnat : 0 < v.toInt.toNat := by
          have hint := zero_lt_iff.mp hpos
          omega
        have hrest : (v / 10).toInt.toNat < 10 ^ room := by
          rw [hdiv]
          rw [Nat.pow_succ] at hroom
          omega
        rw [if_pos hpos, ih hrest, hmod, hdiv, Nat.digits_def' (by decide) hnat, List.map_cons]
      · have hzero : v.toInt.toNat = 0 := by
          have hint := mt zero_lt_iff.mpr hpos
          omega
        rw [if_neg hpos, hzero, Nat.digits_zero, List.map_nil]

/-- `int_to_str` by its loops: the digits and the sign, in the other order. -/
theorem intToStr_loop (hne : v ≠ 0) :
    intToStr v = (tmpDigits 31 (if v < 0 then -v else v) ++
      if v < 0 then ascii "-" else []).reverse := by
  have hroom : (if v < 0 then -v else v).toInt.toNat < 10 ^ 31 := by
    have hlt := (if v < 0 then -v else v).toInt_lt
    omega
  rw [intToStr, if_neg hne, tmpDigits_eq 31 hroom]

/-! ## The text -/

/-- A number in decimal is its digits from the last to the first. -/
theorem decimal_digits (hpos : 0 < n) :
    decimal n = ((Nat.digits 10 n).map fun d => UInt8.ofNat (48 + d)).reverse := by
  induction n using Nat.strong_induction_on with
  | h n ih =>
      rw [Nat.digits_def' (by decide) hpos, List.map_cons, List.reverse_cons]
      rcases Nat.lt_or_ge n 10 with hn | hn
      · rw [decimal_of_lt hn, Nat.div_eq_of_lt hn, Nat.mod_eq_of_lt hn]
        rfl
      · rw [decimal_of_le hn, ih (n / 10) (by omega) (by omega)]

/-- The magnitude that `int_to_str` computes. -/
theorem magnitude_toNat (hmin : v ≠ Int32.minValue) :
    (if v < 0 then -v else v).toInt.toNat = v.toInt.natAbs := by
  by_cases hneg : v < 0
  · have hint := lt_zero_iff.mp hneg
    rw [if_pos hneg, toInt_neg_iff.mpr hmin]
    omega
  · have hint := mt lt_zero_iff.mpr hneg
    rw [if_neg hneg]
    omega

theorem intToStr_eq (hmin : v ≠ Int32.minValue) : intToStr v = decimalText v.toInt := by
  by_cases hzero : v = 0
  · rw [hzero]
    decide
  have hpos : 0 < v.toInt.natAbs := by
    have hne : v.toInt ≠ (0 : Int32).toInt := fun h => hzero (Int32.toInt_inj.mp h)
    exact Int.natAbs_pos.mpr hne
  rw [intToStr, if_neg hzero]
  dsimp only
  rw [magnitude_toNat hmin, List.reverse_append, ← decimal_digits hpos, decimalText]
  by_cases hneg : v < 0
  · rw [if_pos hneg, if_pos (lt_zero_iff.mp hneg)]
    rfl
  · rw [if_neg hneg, if_neg (mt lt_zero_iff.mpr hneg)]
    rfl

/-! ## Back again -/

theorem head_decimal_ne (n : Nat) : (decimal n).head? ≠ some 45 := by
  intro hhead
  have hdigit := isDigit_decimal n 45 (List.mem_of_mem_head? hhead)
  exact absurd hdigit (by decide)

/-- `int()` finds the number that was written, modulo 2 ^ 32. -/
theorem intOfText_decimalText (n : Int) : intOfText (decimalText n) = some (Int32.ofInt n) := by
  have hall : (decimal n.natAbs).all isDigit := List.all_eq_true.mpr (isDigit_decimal n.natAbs)
  have hdigits : decimal n.natAbs ≠ [] ∧ (decimal n.natAbs).all isDigit :=
    ⟨decimal_ne_nil n.natAbs, hall⟩
  rw [intOfText_eq]
  by_cases hneg : n < 0
  · have htext : decimalText n = 45 :: decimal n.natAbs := if_pos hneg
    have hcast : castDigits (decimalText n) = decimal n.natAbs := by
      rw [htext]
      rfl
    rw [hcast, if_pos hdigits, htext, List.head?_cons, if_pos rfl, intValue_decimal, ← Int32.ofInt_eq_ofNat,
      ← Int32.ofInt_neg, Int.ofNat_natAbs_of_nonpos hneg.le, Int.neg_neg]
  · have htext : decimalText n = decimal n.natAbs := if_neg hneg
    have hcast : castDigits (decimalText n) = decimal n.natAbs := by
      rw [htext, castDigits, if_neg (head_decimal_ne n.natAbs)]
    rw [hcast, if_pos hdigits, htext, if_neg (head_decimal_ne n.natAbs), intValue_decimal,
      ← Int32.ofInt_eq_ofNat, Int.natAbs_of_nonneg (not_lt.mp hneg)]

/-! ## In a script -/

/-- A number can be made a text and a number again: appended to the empty string, given to `int()`,
and printed, it is there in decimal. -/
structure RoundTrips (v : Int32) : Prop where
  append : ∀ s, evalBinop (some .plus) (.str []) (.int v) s = .ok (.str (decimalText v.toInt)) s
  cast : ∀ (evalNode : Int → Eval Value) (node : Node) (s s' : GkState), node.child.length = 1 →
    evalNode (node.childAt 0) s = .ok (.str (valToStr (.int v))) s' → s'.error = [] →
      evalIntCast evalNode node s = .ok (.int v) s'
  print : ∀ (evalNode : Int → Eval Value) (child : Nat) (s s' : GkState),
    evalNode child s = .ok (.int v) s' → s'.error = [] →
      evalPrint evalNode [child] s =
        .ok .none { s' with output := s'.output ++ decimalText v.toInt ++ ascii "\n" }

theorem strcat_nil {text : Text} (hshort : text.length ≤ maxStr - 1) : strcat [] text = text := by
  rw [strcat, List.nil_append, List.take_of_length_le (by simpa using hshort)]

theorem failed_run {s : GkState} (hok : s.error = []) : failed s = .ok false s := by
  change EStateM.Result.ok (decide (s.error ≠ [])) s = _
  rw [hok]
  rfl

/-- What `int()` makes of a string. -/
theorem evalIntCast_str {evalNode : Int → Eval Value} {node : Node} {s s' : GkState} {text : Text}
    (hnode : node.child.length = 1) (hchild : evalNode (node.childAt 0) s = .ok (.str text) s')
    (hok : s'.error = []) : evalIntCast evalNode node s = castText text s' := by
  rw [evalIntCast, if_neg (not_not.mpr hnode), bind_run hchild, bind_run (failed_run hok)]
  rfl

/-- What `print` makes of a number. -/
theorem evalPrint_int {evalNode : Int → Eval Value} {child : Nat} {s s' : GkState}
    (hchild : evalNode child s = .ok (.int v) s') (hok : s'.error = []) :
    evalPrint evalNode [child] s =
      .ok .none { s' with output := s'.output ++ intToStr v ++ ascii "\n" } := by
  rw [evalPrint, bind_run hchild, bind_run (failed_run hok)]
  rfl

/-- The least number has the sign for its text, and `int()` does not take that for a number. -/
theorem castText_least (s : GkState) :
    castText (valToStr (.int Int32.minValue)) s =
      .ok .none { s with error := ascii "int() invalid literal" } := by
  have htext : intOfText (valToStr (.int Int32.minValue)) = none := by decide
  rw [castText, htext]
  rfl

/-- An expression with one operand, which is the text of the least number. -/
theorem least_not_cast :
    ¬∀ (evalNode : Int → Eval Value) (node : Node) (s s' : GkState), node.child.length = 1 →
      evalNode (node.childAt 0) s = .ok (.str (valToStr (.int Int32.minValue))) s' →
        s'.error = [] → evalIntCast evalNode node s = .ok (.int Int32.minValue) s' := by
  intro hcast
  have hrun := hcast (fun _ => return .str (valToStr (.int Int32.minValue)))
    { blankNode .intCast 0 with child := [0] } (.start [] []) (.start [] []) rfl rfl rfl
  rw [evalIntCast_str rfl rfl rfl, castText_least] at hrun
  cases hrun

/-- Every number makes the round trip but the least, whose text is a sign without digits. -/
theorem roundTrips_iff (v : Int32) : RoundTrips v ↔ v ≠ Int32.minValue := by
  constructor
  · rintro htrips rfl
    exact least_not_cast htrips.cast
  · intro hmin
    have htext := intToStr_eq hmin
    refine ⟨fun s => ?_, fun evalNode node s s' hnode hchild hok => ?_,
      fun evalNode child s s' hchild hok => ?_⟩
    · rw [← htext, evalBinop, valToStr, strcat_nil ((intToStr_length v).trans (by decide))]
      rfl
    · rw [evalIntCast_str hnode hchild hok, castText, valToStr, htext, intOfText_decimalText,
        Int32.ofInt_toInt]
      rfl
    · rw [evalPrint_int hchild hok, htext]

/-- The least number is printed as a sign, and `int()` of its text is an error. -/
theorem least_not_roundTrips :
    intToStr Int32.minValue = ascii "-" ∧ decimalText Int32.minValue.toInt = ascii "-2147483648" ∧
      ¬RoundTrips Int32.minValue :=
  ⟨by decide, by decide, fun htrips => least_not_cast htrips.cast⟩

end GeckoOS.Gk
