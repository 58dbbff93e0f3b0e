/-
# Memory that need not be initialised

An array on the stack holds something before anybody has written to it.  Here each byte of a
memory is kept together with whether it was ever written, and copying a byte copies both, so
that one can see at the end where the bytes of a result came from.

A text in such a memory ends at the first zero byte.
-/

import GeckoOS.Math.ByteMap

namespace GeckoOS.Math

/-- The bytes of a memory, and whether they were written. -/
abbrev Marked := Nat → UInt8 × Bool

namespace Marked

/-- A memory that nobody has written to. -/
def fresh (bytes : ByteMap) : Marked := fun i => (bytes i, false)

/-- A memory that is initialised. -/
def known (bytes : ByteMap) : Marked := fun i => (bytes i, true)

/-- What a read gives. -/
def bytes (m : Marked) : ByteMap := fun i => (m i).1

/-- A byte is written. -/
def set (m : Marked) (i : Nat) (c : UInt8) : Marked := Function.update m i (c, true)

/-- So many bytes are copied to the beginning. -/
def copy (m source : Marked) (n : Nat) : Marked := fun i => if i < n then source i else m i

/-- The bytes before the first zero, but no more than there is room for. -/
def text (m : Marked) : Nat → List UInt8
  | 0 => []
  | room + 1 => if (m 0).1 = 0 then [] else (m 0).1 :: text (fun i => m (i + 1)) room

/-- The memory begins with the bytes, and they were written. -/
def Holds (m : Marked) (held : List UInt8) : Prop :=
  ∀ i, ∀ hi : i < held.length, m i = (held[i], true)

variable {m source : Marked} {held more : List UInt8} {room : Nat} {c : UInt8}

theorem holds_nil : m.Holds [] := fun _ hi => absurd hi (Nat.not_lt_zero _)

theorem holds_cons : m.Holds (c :: held) ↔
    m 0 = (c, true) ∧ Holds (fun i => m (i + 1)) held := by
  constructor
  · intro hholds
    exact ⟨hholds 0 (Nat.succ_pos _), fun i hi => hholds (i + 1) (Nat.succ_lt_succ hi)⟩
  · rintro ⟨hfirst, hrest⟩ i hi
    cases i with
    | zero => exact hfirst
    | succ i => exact hrest i (Nat.lt_of_succ_lt_succ hi)

/-- The bytes of a memory that holds a line are determined by its length. -/
theorem Holds.unique (hholds : m.Holds held) (hholds' : m.Holds more)
    (hlength : held.length = more.length) : held = more := by
  apply List.ext_getElem hlength
  intro i hi hi'
  exact congrArg Prod.fst ((hholds i hi).symm.trans (hholds' i hi'))

theorem Holds.of_prefix (hholds : m.Holds more) (hfront : held <+: more) : m.Holds held := by
  intro i hi
  rw [hholds i (hi.trans_le hfront.length_le), hfront.getElem hi]

theorem Holds.set_length (hholds : m.Holds held) : (m.set held.length c).Holds (held ++ [c]) := by
  intro i hi
  rw [set, Function.update_apply]
  split_ifs with hlast
  · subst hlast
    rw [List.getElem_concat_length rfl]
  · have hfront : i < held.length := by
      rw [List.length_append, List.length_singleton] at hi
      omega
    rw [hholds i hfront, List.getElem_append_left hfront]

theorem holds_set_iff {i : Nat} (hout : held.length ≤ i) :
    (m.set i c).Holds held ↔ m.Holds held := by
  refine forall_congr' fun j => forall_congr' fun hj => ?_
  rw [set, Function.update_of_ne (hj.trans_le hout).ne]

theorem holds_copy {n : Nat} (hlength : held.length = n) :
    (m.copy source n).Holds held ↔ source.Holds held := by
  subst hlength
  refine forall_congr' fun i => forall_congr' fun hi => ?_
  rw [copy, if_pos hi]

theorem bytes_set_same {i : Nat} : (m.set i c).bytes i = c := by
  rw [bytes, set, Function.update_self]

theorem bytes_set_of_ne {i j : Nat} (hne : j ≠ i) : (m.set i c).bytes j = m.bytes j := by
  rw [bytes, set, Function.update_of_ne hne, bytes]

theorem bytes_copy {i n : Nat} (hi : i < n) : (m.copy source n).bytes i = source.bytes i := by
  rw [bytes, copy, if_pos hi, bytes]

/-! ## Texts -/

theorem length_text : (m.text room).length ≤ room := by
  induction room generalizing m with
  | zero => exact Nat.zero_le _
  | succ room ih =>
      rw [text]
      split_ifs
      · exact Nat.zero_le _
      · exact Nat.succ_le_succ ih

theorem zero_notMem_text : 0 ∉ m.text room := by
  induction room generalizing m with
  | zero => exact List.not_mem_nil
  | succ room ih =>
      rw [text]
      split_ifs with hzero
      · exact List.not_mem_nil
      · rw [List.mem_cons, not_or]
        exact ⟨Ne.symm hzero, ih⟩

theorem text_eq_nil_iff (hroom : 0 < room) : m.text room = [] ↔ (m 0).1 = 0 := by
  cases room with
  | zero => exact absurd hroom (Nat.lt_irrefl 0)
  | succ room =>
      rw [text]
      by_cases hzero : (m 0).1 = 0
      · rw [if_pos hzero]
        exact iff_of_true rfl hzero
      · rw [if_neg hzero]
        exact iff_of_false (List.cons_ne_nil _ _) hzero

theorem getElem_text {i : Nat} (hi : i < (m.text room).length) : (m.text room)[i] = (m i).1 := by
  induction room generalizing m i with
  | zero => exact absurd hi (Nat.not_lt_zero _)
  | succ room ih =>
      have hne : (m 0).1 ≠ 0 := by
        intro hzero
        rw [text, if_pos hzero] at hi
        exact absurd hi (Nat.not_lt_zero _)
      have htext : m.text (room + 1) = (m 0).1 :: text (fun i => m (i + 1)) room := by
        rw [text, if_neg hne]
      cases i with
      | zero => simp only [htext, List.getElem_cons_zero]
      | succ i =>
          have hi' : i < (text (fun i => m (i + 1)) room).length := by
            rw [htext] at hi
            exact Nat.lt_of_succ_lt_succ hi
          simp only [htext, List.getElem_cons_succ]
          exact ih hi'

theorem Holds.text_eq (hholds : m.Holds held) (hlength : (m.text room).length = held.length) :
    m.text room = held := by
  apply List.ext_getElem hlength
  intro i hi hi'
  rw [getElem_text, hholds i hi']

/-- A memory that is initialised holds its texts. -/
theorem holds_text (bytes : ByteMap) : (known bytes).Holds ((known bytes).text room) := by
  induction room generalizing bytes with
  | zero => exact holds_nil
  | succ room ih =>
      rw [text]
      split_ifs
      · exact holds_nil
      · exact holds_cons.mpr ⟨rfl, ih fun i => bytes (i + 1)⟩

/-- The text of a memory that begins with a line and a zero behind it. -/
theorem text_of_bytes (hbytes : ∀ i, ∀ hi : i < held.length, (m i).1 = held[i])
    (hend : (m held.length).1 = 0) (hclean : 0 ∉ held) (hfits : held.length ≤ room) :
    m.text room = held := by
  induction held generalizing m room with
  | nil =>
      have hzero : (m 0).1 = 0 := hend
      cases room with
      | zero => rfl
      | succ room => rw [text, if_pos hzero]
  | cons c held ih =>
      have hfirst : (m 0).1 = c := hbytes 0 (Nat.succ_pos _)
      rw [List.mem_cons, not_or] at hclean
      cases room with
      | zero => exact absurd hfits (Nat.not_succ_le_zero _)
      | succ room =>
          rw [text, hfirst, if_neg (Ne.symm hclean.1)]
          rw [ih (fun i hi => hbytes (i + 1) (Nat.succ_lt_succ hi)) hend hclean.2
            (Nat.le_of_succ_le_succ hfits)]

theorem text_of_holds (hholds : m.Holds (held ++ [0])) (hclean : 0 ∉ held)
    (hfits : held.length ≤ room) : m.text room = held := by
  apply text_of_bytes _ _ hclean hfits
  · intro i hi
    have hi' : i < (held ++ [0]).length := by
      rw [List.length_append, List.length_singleton]
      exact hi.trans (Nat.lt_succ_self _)
    rw [hholds i hi', List.getElem_append_left hi]
  · have hlast : held.length < (held ++ [0]).length := by
      rw [List.length_append, List.length_singleton]
      exact Nat.lt_succ_self _
    rw [hholds _ hlast, List.getElem_concat_length rfl]

/-- With less room the text is cut off. -/
theorem text_take {wide : Nat} (hcut : room ≤ wide ∨ (m.text wide).length < wide) :
    (m.text wide).take room = m.text room := by
  induction room generalizing m wide with
  | zero => rfl
  | succ room ih =>
      cases wide with
      | zero =>
          rcases hcut with hle | hlt
          · exact absurd hle (Nat.not_succ_le_zero _)
          · exact absurd hlt (Nat.not_lt_zero _)
      | succ wide =>
          rw [text] at hcut
          rw [text, text]
          split_ifs at hcut ⊢ with hzero
          · rfl
          · rw [List.take_succ_cons, ih]
            exact hcut.imp Nat.le_of_succ_le_succ Nat.lt_of_succ_lt_succ

/-- A text that ends is shorter than the room. -/
theorem length_text_lt {i : Nat} (hi : i < room) (hzero : (m i).1 = 0) :
    (m.text room).length < room := by
  induction room generalizing m i with
  | zero => exact absurd hi (Nat.not_lt_zero _)
  | succ room ih =>
      rw [text]
      split_ifs with hfirst
      · exact Nat.succ_pos _
      · cases i with
        | zero => exact absurd hzero hfirst
        | succ i => exact Nat.succ_lt_succ (ih (Nat.lt_of_succ_lt_succ hi) hzero)

end Marked

end GeckoOS.Math
