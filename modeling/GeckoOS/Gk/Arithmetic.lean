/-
# Exact arithmetic

The numbers of a program have 32 bits and a sign.  The interpreter computes with them as the
processor does, and only a divisor of zero and a text that is no number are errors.  So an
operation is exact, or an error, if and only if there is a number for its result; and a division
traps where there is none for the quotient, which is the least number divided by -1.  The same
holds for the loops that read the digits of a number, in a program and in `int()`.

A run is watched in two ways: one watcher lets an operation pass if what it does is exact or
an error, the other one looks at the operands only.  They are the same.
-/

import GeckoOS.Gk.LexerEvents
import GeckoOS.Gk.Run
import GeckoOS.Math.SignedArith
import Mathlib.Data.List.Induction

namespace GeckoOS.Gk

open GeckoOS.Math

/-! ## Exact results -/

/-- Where there is no error yet, this computes the number, or enters an error if there is none. -/
def Computes (x : Eval Value) (result : Option Int) : Prop :=
  ∀ s : GkState, s.error = [] →
    match result with
    | some n => ∃ v : Int32, x s = .ok (.int v) s ∧ v.toInt = n
    | none => ∃ v s', x s = .ok v s' ∧ s'.error ≠ []

def TokenType.isArithmetic : TokenType → Bool
  | .plus | .minus | .star | .slash | .percent => Bool.true
  | _ => Bool.false

/-- The result of an arithmetic operator, if there is one; a quotient is truncated toward zero. -/
def exactResult (op : TokenType) (a b : Int) : Option Int :=
  match op with
  | .plus => some (a + b)
  | .minus => some (a - b)
  | .star => some (a * b)
  | .slash => if b = 0 then none else some (a.tdiv b)
  | .percent => if b = 0 then none else some (a.tmod b)
  | _ => none

/-- The operator divides. -/
def TokenType.divides : TokenType → Bool
  | .slash | .percent => Bool.true
  | _ => Bool.false

/-- On two numbers the operator is exact or an error, and it does not trap. -/
def BinopExact (op : Option TokenType) (l r : Value) : Prop :=
  ∀ type a b, op = some type → type.isArithmetic → l = .int a → r = .int b →
    Computes (evalBinop op l r) (exactResult type a.toInt b.toInt) ∧
      (type.divides → b ≠ 0 → ¬ DivideFault a b)

/-- On a number the unary minus is exact. -/
def UnopExact (op : Option TokenType) (operand : Value) : Prop :=
  ∀ a, op = some .minus → operand = .int a → Computes (evalUnop op operand) (some (-a.toInt))

/-- The number these digits are written for. -/
def numberOf (digits : Text) : Nat := digits.foldl (fun n c => n * 10 + (c.toNat - 48)) 0

/-- The loop over the digits is exact: every number it computes has 32 bits, and the last
one is the number the digits are written for. -/
structure NumberExact (digits : Text) : Prop where
  steps : ∀ first c, first ++ [c] <+: digits →
    FitsInt (numberOf first * 10) ∧ FitsInt (numberOf (first ++ [c]))
  value : (intValue digits).toInt = numberOf digits

/-- A text for `int()` without its sign. -/
def castDigits (text : Text) : Text := if text.head? = some 45 then text.tail else text

/-- The number that is written in a text. -/
def exactInt (text : Text) : Option Int :=
  if castDigits text ≠ [] ∧ (castDigits text).all isDigit then
    some (if text.head? = some 45 then -numberOf (castDigits text) else numberOf (castDigits text))
  else none

/-- `int()` of a text is exact or an error. -/
def CastExact (text : Text) : Prop :=
  Computes (castText text) (exactInt text) ∧
    (exactInt text ≠ none → NumberExact (castDigits text))

/-! ## What is watched -/

open Classical in
/-- Every operation is exact or an error. -/
noncomputable def Monitor.exact : Monitor where
  jump _ := true
  bind _ _ _ := true
  unop op operand := UnopExact op operand
  binop op l r := BinopExact op l r
  cast text := CastExact text

/-- The operator has a result for two numbers. -/
def hasResult (op : Option TokenType) (l r : Value) : Bool :=
  match op, l, r with
  | some .slash, .int _, .int b | some .percent, .int _, .int b => b ≠ 0
  | _, _, _ => true

open Classical in
/-- Every operation is exact, and none is an error. -/
noncomputable def Monitor.exactly : Monitor where
  jump _ := true
  bind _ _ _ := true
  unop op operand := UnopExact op operand
  binop op l r := BinopExact op l r ∧ hasResult op l r
  cast text := CastExact text ∧ exactInt text ≠ none

/-- The operands are small enough. -/
def Monitor.small : Monitor where
  jump _ := true
  bind _ _ _ := true
  unop op operand :=
    match op, operand with
    | some .minus, .int a => a ≠ Int32.minValue
    | _, _ => true
  binop op l r :=
    match op, l, r with
    | some .plus, .int a, .int b => FitsInt (a.toInt + b.toInt)
    | some .minus, .int a, .int b => FitsInt (a.toInt - b.toInt)
    | some .star, .int a, .int b => FitsInt (a.toInt * b.toInt)
    | some .slash, .int a, .int b | some .percent, .int a, .int b =>
        ¬ (a = Int32.minValue ∧ b = -1)
    | _, _, _ => true
  cast text := exactInt text = none ∨ numberOf (castDigits text) ≤ 2147483647

variable {digits first more text : Text} {op : Option TokenType} {l r operand : Value}

/-! ## The digits of a number -/

theorem numberOf_snoc (first : Text) (c : UInt8) :
    numberOf (first ++ [c]) = numberOf first * 10 + (c.toNat - 48) := by
  rw [numberOf, List.foldl_append]
  rfl

theorem numberOf_le (first more : Text) : numberOf first ≤ numberOf (first ++ more) := by
  induction more using List.reverseRecOn with
  | nil => rw [List.append_nil]
  | append_singleton more c ih =>
      rw [← List.append_assoc, numberOf_snoc]
      omega

/-- While the number has 32 bits, the loop computes it. -/
theorem intValue_toInt (hsmall : numberOf digits ≤ 2147483647) :
    (intValue digits).toInt = numberOf digits := by
  induction digits using List.reverseRecOn with
  | nil => rfl
  | append_singleton first c ih =>
      have hbyte := c.toNat_lt
      have hdigit : (Int32.ofNat (c.toNat - 48)).toInt = (c.toNat - 48 : Nat) :=
        Int32.toInt_ofNat_of_lt (by omega)
      have hten : (10 : Int32).toInt = 10 := rfl
      have hsnoc := numberOf_snoc first c
      have hfirst := ih (by omega)
      have hmul : (intValue first * 10).toInt = (intValue first).toInt * (10 : Int32).toInt := by
        rw [toInt_mul_iff, hfirst, hten]
        constructor <;> omega
      have hadd : (intValue first * 10 + Int32.ofNat (c.toNat - 48)).toInt
          = (intValue first * 10).toInt + (Int32.ofNat (c.toNat - 48)).toInt := by
        rw [toInt_add_iff, hmul, hfirst, hten, hdigit]
        constructor <;> omega
      have hvalue : intValue (first ++ [c]) = intValue first * 10 + Int32.ofNat (c.toNat - 48) := by
        rw [intValue, List.foldl_append]
        rfl
      rw [hvalue, hadd, hmul, hfirst, hten, hdigit, hsnoc]
      omega

/-- The loop over the digits is exact if and only if there is a number for them. -/
theorem numberExact_iff : NumberExact digits ↔ numberOf digits ≤ 2147483647 := by
  constructor
  · intro hexact
    have hfits := fitsInt_toInt (intValue digits)
    rw [hexact.value] at hfits
    exact Int.ofNat_le.mp hfits.2
  · intro hsmall
    refine ⟨fun first c hprefix => ?_, intValue_toInt hsmall⟩
    obtain ⟨more, rfl⟩ := hprefix
    have hle := numberOf_le (first ++ [c]) more
    have hsnoc := numberOf_snoc first c
    constructor <;>
    · constructor <;> omega

/-! ## The operations -/

/-- What is returned at once is exact if it is the number. -/
theorem computes_pure {v : Int32} {n : Int} :
    Computes (pure (.int v)) (some n) ↔ v.toInt = n := by
  constructor
  · intro hcomputes
    obtain ⟨w, hrun, hw⟩ := hcomputes (.start [] []) rfl
    cases hrun
    exact hw
  · exact fun hv s _ => ⟨v, rfl, hv⟩

theorem computes_failWith {error : Text} (hsome : error ≠ []) : Computes (failWith error) none :=
  fun s _ => ⟨.none, { s with error := error }, rfl, hsome⟩

theorem intOfText_eq (text : Text) :
    intOfText text = if castDigits text ≠ [] ∧ (castDigits text).all isDigit then
      some (if text.head? = some 45 then -intValue (castDigits text)
        else intValue (castDigits text)) else none := by
  have hdigits : parseDigits (castDigits text) = if (castDigits text).all isDigit then
      some (intValue (castDigits text)) else none := rfl
  have hunfold : intOfText text = if castDigits text = [] then none
      else (parseDigits (castDigits text)).map fun result =>
        if text.head? = some 45 then -result else result := rfl
  rw [hunfold, hdigits]
  split_ifs with hnone hboth hall <;> simp_all

/-- `int()` of a text is exact, or an error, if and only if there is a number for its digits. -/
theorem castExact_iff :
    CastExact text ↔ exactInt text = none ∨ numberOf (castDigits text) ≤ 2147483647 := by
  constructor
  · intro hexact
    by_cases hnone : exactInt text = none
    · exact .inl hnone
    · exact .inr (numberExact_iff.mp (hexact.2 hnone))
  · intro hsmall
    rw [CastExact, castText, intOfText_eq]
    by_cases hdigits : castDigits text ≠ [] ∧ (castDigits text).all isDigit
    · have hsome : exactInt text = some (if text.head? = some 45 then
          -Int.ofNat (numberOf (castDigits text)) else Int.ofNat (numberOf (castDigits text))) :=
        if_pos hdigits
      have hnumber := hsmall.resolve_left (by rw [hsome]; exact Option.some_ne_none _)
      have hvalue := intValue_toInt hnumber
      rw [if_pos hdigits, hsome]
      refine ⟨computes_pure.mpr ?_, fun _ => numberExact_iff.mpr hnumber⟩
      split_ifs
      · have hmin : intValue (castDigits text) ≠ Int32.minValue := by
          intro hmin
          rw [hmin, Int32.toInt_minValue] at hvalue
          omega
        rw [toInt_neg_iff.mpr hmin, hvalue]
        rfl
      · exact hvalue
    · have hnone : exactInt text = none := if_neg hdigits
      rw [if_neg hdigits, hnone]
      exact ⟨computes_failWith (by decide), fun h => absurd rfl h⟩

/-- The unary minus is exact if and only if its operand is not the least number. -/
theorem unopExact_iff : UnopExact op operand ↔ Monitor.small.unop op operand = true := by
  have hminus : ∀ a : Int32, Computes (evalUnop (some .minus) (.int a)) (some (-a.toInt)) ↔
      a ≠ Int32.minValue := fun a => computes_pure.trans toInt_neg_iff
  by_cases hop : ∃ a, op = some .minus ∧ operand = .int a
  · obtain ⟨a, rfl, rfl⟩ := hop
    refine ⟨fun hexact => decide_eq_true ((hminus a).mp (hexact a rfl rfl)), ?_⟩
    rintro hsmall b - hb
    cases hb
    exact (hminus a).mpr (of_decide_eq_true hsmall)
  · refine iff_of_true (fun a hop' hoperand => absurd ⟨a, hop', hoperand⟩ hop) ?_
    simp only [Monitor.small]
    split
    · rename_i a
      exact absurd ⟨a, rfl, rfl⟩ hop
    · rfl

/-- An operator that does not divide is exact if and only if there is a number for its result. -/
theorem exact_iff_fits {type : TokenType} {a b v : Int32} {n : Int}
    (hdivides : type.divides = false)
    (hrun : evalBinop (some type) (.int a) (.int b) = pure (.int v))
    (hresult : exactResult type a.toInt b.toInt = some n) (hv : v.toInt = n ↔ FitsInt n) :
    (Computes (evalBinop (some type) (.int a) (.int b)) (exactResult type a.toInt b.toInt) ∧
      (type.divides → b ≠ 0 → ¬ DivideFault a b)) ↔ FitsInt n := by
  rw [hrun, hresult, computes_pure, hv, hdivides]
  exact and_iff_left fun h => absurd h (by decide)

/-- One that divides is exact, or an error, if and only if it does not trap. -/
theorem exact_iff_divides {type : TokenType} {a b v : Int32} {n : Int} {error : Text}
    (hdivides : type.divides)
    (hrun : evalBinop (some type) (.int a) (.int b) =
      if b = 0 then failWith error else pure (.int v)) (herror : error ≠ [])
    (hresult : exactResult type a.toInt b.toInt = if b.toInt = 0 then none else some n)
    (hv : b ≠ 0 → ¬ (a = Int32.minValue ∧ b = -1) → v.toInt = n) :
    (Computes (evalBinop (some type) (.int a) (.int b)) (exactResult type a.toInt b.toInt) ∧
      (type.divides → b ≠ 0 → ¬ DivideFault a b)) ↔ ¬ (a = Int32.minValue ∧ b = -1) := by
  have hzero : b.toInt = 0 ↔ b = 0 := by
    rw [← Int32.toInt_inj]
    rfl
  rw [hrun, hresult]
  by_cases hb : b = 0
  · rw [if_pos hb, if_pos (hzero.mpr hb)]
    refine iff_of_true ⟨computes_failWith herror, fun _ hne => absurd hb hne⟩ ?_
    rintro ⟨-, hone⟩
    rw [hb] at hone
    exact absurd hone (by decide)
  · rw [if_neg hb, if_neg (mt hzero.mp hb), computes_pure, divideFault_iff hb]
    exact ⟨fun hexact => hexact.2 hdivides hb, fun hsmall => ⟨hv hb hsmall, fun _ _ => hsmall⟩⟩

/-- An operator is exact on its operands, or an error, if and only if they are small. -/
theorem binopExact_iff : BinopExact op l r ↔ Monitor.small.binop op l r = true := by
  by_cases hop : ∃ type a b, op = some type ∧ type.isArithmetic ∧ l = .int a ∧ r = .int b
  · obtain ⟨type, a, b, rfl, htype, rfl, rfl⟩ := hop
    have hone : BinopExact (some type) (.int a) (.int b) ↔
        (Computes (evalBinop (some type) (.int a) (.int b)) (exactResult type a.toInt b.toInt) ∧
          (type.divides → b ≠ 0 → ¬ DivideFault a b)) := by
      refine ⟨fun hexact => hexact type a b rfl htype rfl rfl, ?_⟩
      rintro hexact _ _ _ ⟨⟩ _ ⟨⟩ ⟨⟩
      exact hexact
    rw [hone]
    cases type with
    | plus => exact (exact_iff_fits rfl rfl rfl toInt_add_iff).trans decide_eq_true_iff.symm
    | minus => exact (exact_iff_fits rfl rfl rfl toInt_sub_iff).trans decide_eq_true_iff.symm
    | star => exact (exact_iff_fits rfl rfl rfl toInt_mul_iff).trans decide_eq_true_iff.symm
    | slash =>
        exact (exact_iff_divides rfl rfl (by decide) rfl fun hb => (toInt_div_iff hb).mpr).trans
          decide_eq_true_iff.symm
    | percent =>
        exact (exact_iff_divides rfl rfl (by decide) rfl fun _ _ => Int32.toInt_mod a b).trans
          decide_eq_true_iff.symm
    | _ => cases htype
  · refine iff_of_true (fun type a b hop' htype hl hr => ?_) ?_
    · exact absurd ⟨type, a, b, hop', htype, hl, hr⟩ hop
    · simp only [Monitor.small]
      split
      case h_6 => rfl
      all_goals exact absurd ⟨_, _, _, rfl, rfl, rfl, rfl⟩ hop

open Classical in
theorem exact_unop : Monitor.exact.unop op operand = true ↔ UnopExact op operand :=
  decide_eq_true_iff

open Classical in
theorem exact_binop : Monitor.exact.binop op l r = true ↔ BinopExact op l r :=
  decide_eq_true_iff

open Classical in
theorem exact_cast : Monitor.exact.cast text = true ↔ CastExact text := decide_eq_true_iff

/-- The watcher of the results is the watcher of the operands. -/
theorem exact_eq_small : Monitor.exact = Monitor.small := by
  have hunop : Monitor.exact.unop = Monitor.small.unop := by
    funext op operand
    exact Bool.eq_iff_iff.mpr (exact_unop.trans unopExact_iff)
  have hbinop : Monitor.exact.binop = Monitor.small.binop := by
    funext op l r
    exact Bool.eq_iff_iff.mpr (exact_binop.trans binopExact_iff)
  have hcast : Monitor.exact.cast = Monitor.small.cast := by
    funext text
    exact Bool.eq_iff_iff.mpr ((exact_cast.trans castExact_iff).trans decide_eq_true_iff.symm)
  calc Monitor.exact
      = ⟨fun _ => true, fun _ _ _ => true, Monitor.exact.unop, Monitor.exact.binop,
          Monitor.exact.cast⟩ := rfl
    _ = Monitor.small := by
        rw [hunop, hbinop, hcast]
        rfl

/-! ## Runs without an error -/

/-- Whatever the one returns without an error, the other one returns. -/
def RefinesOk (α : Type) (x y : Eval α) : Prop :=
  ∀ s a s', x s = .ok a s' → s'.error = [] → s.error = [] ∧ y s = .ok a s'

theorem comparison_refinesOk : Comparison RefinesOk where
  refl hkeeps s a s' hrun hok := ⟨hkeeps s a s' hrun hok, hrun⟩
  bind hx hf s b s'' hrun hok := by
    obtain ⟨a, s', hfirst, hrest⟩ := bind_eq_ok.mp hrun
    obtain ⟨hok', hrest'⟩ := hf a s' b s'' hrest hok
    obtain ⟨hok'', hfirst'⟩ := hx s a s' hfirst hok'
    exact ⟨hok'', bind_eq_ok.mpr ⟨a, s', hfirst', hrest'⟩⟩

/-- A step passes that is no error. -/
theorem refinesOk_require {x : Eval Value} {ok ok' : Bool} (hkeeps : Keeps ErrorStays x)
    (hpass : ok → ∀ s v s', s.error = [] → x s = .ok v s' → s'.error = [] → ok') :
    RefinesOk Value (require ok >>= fun _ => x) (require ok' >>= fun _ => x) := by
  intro s v s' hrun hnone
  cases ok with
  | false => cases hrun
  | true =>
      have hbefore := hkeeps s v s' hrun hnone
      rw [hpass rfl s v s' hbefore hrun hnone]
      exact ⟨hbefore, hrun⟩

/-- A text that is no number is an error. -/
theorem castText_none (hnone : exactInt text = none) :
    castText text = failWith (ascii "int() invalid literal") := by
  have hdigits : ¬ (castDigits text ≠ [] ∧ (castDigits text).all isDigit) := by
    intro hdigits
    rw [exactInt, if_pos hdigits] at hnone
    cases hnone
  rw [castText, intOfText_eq, if_neg hdigits]

theorem failWith_error {error : Text} (hsome : error ≠ []) {s s' : GkState} {v : Value}
    (hrun : failWith error s = .ok v s') : s'.error ≠ [] := by
  cases hrun
  exact hsome

open Classical in
/-- In a run without an error no operation is an error. -/
theorem compare_exactly : Monitor.exact.Compare RefinesOk .exactly where
  jump _ _ hx := hx
  bind _ _ _ _ _ hx := hx
  unop op v := refinesOk_require (keeps_evalUnop op v) fun hexact _ _ _ _ _ _ => hexact
  binop op l r := by
    refine refinesOk_require (keeps_evalBinop op l r) fun hexact s v s' _ hrun hnone => ?_
    refine decide_eq_true ⟨exact_binop.mp hexact, ?_⟩
    unfold hasResult
    split
    · rename_i a b
      refine decide_eq_true fun hb => ?_
      rw [evalBinop, if_pos hb] at hrun
      exact failWith_error (by decide) hrun hnone
    · rename_i a b
      refine decide_eq_true fun hb => ?_
      rw [evalBinop, if_pos hb] at hrun
      exact failWith_error (by decide) hrun hnone
    · rfl
  cast text := by
    have hkeeps : Keeps ErrorStays (castText text) := by
      rw [castText]
      cases intOfText text with
      | some v => exact keeps_pure _
      | none => exact keeps_failWith (by decide)
    refine refinesOk_require hkeeps fun hexact s v s' _ hrun hnone => ?_
    refine decide_eq_true ⟨exact_cast.mp hexact, fun hno => ?_⟩
    rw [castText_none hno] at hrun
    exact failWith_error (by decide) hrun hnone

/-- A run without an error is the same under another evaluation of the root that agrees where there
is no error. -/
theorem gkRunWith_ok {evalRoot evalRoot' : Nat → Eval Value}
    (hroot : ∀ root, RefinesOk Value (evalRoot root) (evalRoot' root)) {src : Text}
    {s s' : GkState} (hrun : gkRunWith evalRoot src s = .ok true s') :
    gkRunWith evalRoot' src s = .ok true s' := by
  have hcomplain : ∀ {label : String} {s : GkState}, complain label s ≠ .ok true s' := by
    intro label s hrun
    cases hrun
  obtain ⟨u₁, s₁, hclear, hrun⟩ := bind_eq_ok.mp hrun
  obtain ⟨u₂, s₂, hlex, hrun⟩ := bind_eq_ok.mp hrun
  refine bind_eq_ok.mpr ⟨u₁, s₁, hclear, bind_eq_ok.mpr ⟨u₂, s₂, hlex, ?_⟩⟩
  split_ifs at hrun ⊢ with hlexed
  · exact absurd hrun hcomplain
  cases hparse : gkParse (gkLex [] src).2.tokens with
  | error e p =>
      rw [hparse] at hrun
      cases e with
      | error text =>
          obtain ⟨-, s₃, -, hrun⟩ := bind_eq_ok.mp hrun
          exact absurd hrun hcomplain
      | outOfFuel => cases hrun
  | ok root p =>
      rw [hparse] at hrun
      obtain ⟨u₃, s₃, hnodes, hrun⟩ := bind_eq_ok.mp hrun
      obtain ⟨failed₃, s₄, hfailed, hrun⟩ := bind_eq_ok.mp hrun
      refine bind_eq_ok.mpr ⟨u₃, s₃, hnodes, bind_eq_ok.mpr ⟨failed₃, s₄, hfailed, ?_⟩⟩
      split_ifs at hrun ⊢
      · exact absurd hrun hcomplain
      obtain ⟨v, s₅, heval, hrun⟩ := bind_eq_ok.mp hrun
      obtain ⟨failed₅, s₆, hfailed₅, hend⟩ := bind_eq_ok.mp hrun
      split_ifs at hend with hfail
      · exact absurd hend hcomplain
      cases hend
      have hnone : s₅.error = [] := by
        cases hfailed₅
        exact of_not_not fun hsome => hfail (decide_eq_true hsome)
      exact bind_eq_ok.mpr ⟨v, s₅, (hroot root s₄ v s₅ heval hnone).2, hrun⟩

/-! ## All runs -/

/-- Every number that is read in a program is read exactly. -/
def LiteralsExact (src : Text) : Prop :=
  ∀ digits, .number digits ∈ lexEvents src → NumberExact digits

/-- No number in a program is too large. -/
def LiteralsSmall (src : Text) : Prop :=
  ∀ digits, .number digits ∈ lexEvents src → numberOf digits ≤ 2147483647

/-- **Exact arithmetic**: the numbers of a program are read exactly if and only if they are small;
and the run in which every operation is exact or an error, and traps nowhere, is the run in which
every operation has small operands.  This is so for every bound, so also for the runs that do
not end.  It is a run of the interpreter, and if it reports no error then no operation was one. -/
theorem gkRun_exact (fuel : Nat) (src : Text) (s : GkState) :
    (LiteralsExact src ↔ LiteralsSmall src) ∧
      gkRunMonitored .exact fuel src s = gkRunMonitored .small fuel src s ∧
      ∀ ok s', gkRunMonitored .small fuel src s = .ok ok s' →
        gkRun fuel src s = .ok ok s' ∧
          (ok = true → gkRunMonitored .exactly fuel src s = .ok ok s') := by
  refine ⟨forall₂_congr fun digits _ => numberExact_iff, by rw [exact_eq_small], ?_⟩
  intro ok s' hrun
  refine ⟨refines_gkRunMonitored .small fuel src s ok s' hrun, ?_⟩
  rintro rfl
  rw [← exact_eq_small] at hrun
  exact gkRunWith_ok
    (fun root => compare_evalMonitored compare_exactly comparison_refinesOk fuel false root) hrun

/-- A program that divides the least number by -1. -/
def trapping : Text := ascii "x = -2147483647 - 1\nprint(x % -1)"

/-- No error is reported, and yet there is an operation that is not exact; the instruction for it
traps. -/
theorem gkRun_traps :
    (∃ s', gkRun 9 trapping (.start [] []) = .ok true s') ∧
      (¬ ∃ ok s', gkRunMonitored .exact 9 trapping (.start [] []) = .ok ok s') ∧
      DivideFault Int32.minValue (-1) := by
  refine ⟨⟨_, eq_ok_of_endValue (by decide +kernel)⟩, ?_, .inr (by decide)⟩
  rintro ⟨ok, s', hrun⟩
  have hnone : endValue (gkRunMonitored .small 9 trapping (.start [] [])) = none := by
    decide +kernel
  rw [exact_eq_small] at hrun
  rw [hrun] at hnone
  cases hnone

end GeckoOS.Gk
