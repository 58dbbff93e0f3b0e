/-
# The frames on the stack

The interpreter keeps the variables of all calls on one stack, each with the depth of its call.  For
the frames that such a stack stands for, looking up, setting and dropping variables are what they
are for frames.
-/

import GeckoOS.Gk.Scoping
import GeckoOS.Gk.Semantics
import Mathlib.Data.List.TakeWhile

namespace GeckoOS.Gk

/-- These variables of a call are this frame. -/
structure IsFrame (frame : Frame) (own : List Var) : Prop where
  values : ∀ name, lookup own name = frame.lookup name
  card : own.length = frame.keys.card

/-- These variables are these frames, that of the innermost call first. -/
inductive FramesOf : List Frame → List Var → Prop
  | nil : FramesOf [] []
  | cons {frame : Frame} {frames : List Frame} {own older : List Var}
      (hscope : ∀ v ∈ own, v.scope = frames.length) (hframe : IsFrame frame own)
      (hframes : FramesOf frames older) : FramesOf (frame :: frames) (own ++ older)

variable {frame : Frame} {frames : List Frame} {own older vars : List Var} {name : Text}
  {val : Value}

theorem isFrame_empty : IsFrame ∅ [] where
  values name := by
    rw [Finmap.lookup_empty]
    rfl
  card := rfl

theorem lookup_eq_none_iff : lookup own name = none ↔ ∀ v ∈ own, v.name ≠ name := by
  simp [lookup, findVar]

theorem FramesOf.scope_lt (hframes : FramesOf frames vars) :
    ∀ v ∈ vars, v.scope < frames.length := by
  induction hframes with
  | nil => exact fun _ hv => absurd hv List.not_mem_nil
  | cons hscope _ _ ih =>
      intro v hv
      rw [List.length_cons, Nat.cast_add_one]
      rcases List.mem_append.mp hv with hv | hv
      · exact (hscope v hv).trans_lt (Int.lt_succ _)
      · exact (ih v hv).trans (Int.lt_succ _)

theorem FramesOf.length (hframes : FramesOf frames vars) :
    vars.length = (frames.map fun frame => frame.keys.card).sum := by
  induction hframes with
  | nil => rfl
  | cons _ hframe _ ih => rw [List.length_append, hframe.card, ih, List.map_cons, List.sum_cons]

/-- A name is looked up frame by frame. -/
theorem FramesOf.value (hframes : FramesOf frames vars) (name : Text) :
    lookup vars name = frames.findSome? (·.lookup name) := by
  induction hframes with
  | nil => rfl
  | @cons frame frames own older _ hframe _ ih =>
      rw [List.findSome?_cons, lookup_append, ← hframe.values, ← ih]
      cases lookup own name <;> rfl

/-! ## Setting a variable -/

theorem IsFrame.update {own' : List Var} (hframe : IsFrame frame own)
    (hlookup : ∀ other, lookup own' other = if other = name then some val else lookup own other)
    (hlength : own'.length = (frame.insert name val).keys.card) :
    IsFrame (frame.insert name val) own' := by
  refine ⟨fun other => ?_, hlength⟩
  rw [hlookup]
  split_ifs with heq
  · rw [heq, Finmap.lookup_insert]
  · rw [Finmap.lookup_insert_of_ne _ heq, hframe.values]

theorem keys_insert : (frame.insert name val).keys = insert name frame.keys := by
  ext other
  simp [Finmap.mem_keys, Finmap.mem_insert]

/-- A variable that the frame has is found and changed. -/
theorem updateVar_own {depth : Int} (hscope : ∀ v ∈ own, v.scope = depth)
    (hmem : lookup own name ≠ none) : ∃ own', updateVar depth name val own = some own' ∧
      own'.length = own.length ∧ (∀ v ∈ own', v.scope = depth) ∧
      ∀ other, lookup own' other = if other = name then some val else lookup own other := by
  induction own with
  | nil => exact absurd rfl hmem
  | cons v own ih =>
      have hdepth := hscope v List.mem_cons_self
      rw [updateVar, if_neg (by omega)]
      by_cases hname : v.name = name
      · refine ⟨{ v with val := val } :: own, if_pos hname, rfl, ?_, fun other => ?_⟩
        · exact List.forall_mem_cons.mpr ⟨hdepth, fun u hu => hscope u (List.mem_cons_of_mem _ hu)⟩
        · simp only [lookup, findVar, List.find?_cons, hname]
          by_cases hother : other = name
          · simp [hother]
          · simp [hother, Ne.symm hother]
      · have hrest : lookup own name ≠ none := by
          simpa [lookup, findVar, hname] using hmem
        obtain ⟨own', hupdate, hlength, hscope', hlookup⟩ :=
          ih (fun u hu => hscope u (List.mem_cons_of_mem _ hu)) hrest
        refine ⟨v :: own', by rw [if_neg hname, hupdate]; rfl, by simp [hlength], ?_, ?_⟩
        · exact List.forall_mem_cons.mpr ⟨hdepth, hscope'⟩
        · intro other
          have hother' := hlookup other
          simp only [lookup, findVar] at hother' ⊢
          by_cases hother : v.name = other
          · have hne : other ≠ name := hother ▸ hname
            simp [hother, hne]
          · simp [hother, hother']

theorem updateVar_other {depth : Int} (hscope : ∀ v ∈ own, v.scope = depth)
    (hmem : lookup own name = none) : updateVar depth name val own = none := by
  induction own with
  | nil => rfl
  | cons v own ih =>
      have hdepth := hscope v List.mem_cons_self
      have hname := lookup_eq_none_iff.mp hmem
      rw [updateVar, if_neg (by omega), if_neg (hname v List.mem_cons_self),
        ih (fun u hu => hscope u (List.mem_cons_of_mem _ hu))
          (lookup_eq_none_iff.mpr fun u hu => hname u (List.mem_cons_of_mem _ hu))]
      rfl

/-- A variable of the innermost frame is changed where it is. -/
theorem FramesOf.update (hframes : FramesOf (frame :: frames) vars) (hmem : name ∈ frame) :
    ∃ vars', updateVar frames.length name val vars = some vars' ∧
      FramesOf (frame.insert name val :: frames) vars' := by
  cases hframes with
  | @cons _ _ own older hscope hframe hframes =>
      have hown : lookup own name ≠ none := by
        rw [hframe.values, Ne, Finmap.lookup_eq_none, not_not]
        exact hmem
      obtain ⟨own', hupdate, hlength, hscope', hlookup⟩ := @updateVar_own _ _ val _ hscope hown
      refine ⟨own' ++ older, ?_, .cons hscope' (hframe.update hlookup ?_) hframes⟩
      · rw [updateVar_append hframes.scope_lt, hupdate]
        rfl
      · rw [hlength, hframe.card, keys_insert,
          Finset.insert_eq_of_mem (Finmap.mem_keys.mpr hmem)]

/-- A variable that the innermost frame does not have becomes the newest one. -/
theorem FramesOf.push (hframes : FramesOf (frame :: frames) vars) (hmem : name ∉ frame) :
    updateVar frames.length name val vars = none ∧
      FramesOf (frame.insert name val :: frames) (⟨name, val, frames.length⟩ :: vars) := by
  cases hframes with
  | @cons _ _ own older hscope hframe hframes =>
      have hown : lookup own name = none := by
        rw [hframe.values, Finmap.lookup_eq_none]
        exact hmem
      refine ⟨?_, @FramesOf.cons _ _ (⟨name, val, frames.length⟩ :: own) _
        (List.forall_mem_cons.mpr ⟨rfl, hscope⟩) (hframe.update (fun other => ?_) ?_) hframes⟩
      · rw [updateVar_append hframes.scope_lt, updateVar_other hscope hown]
        rfl
      · by_cases hother : other = name
        · simp [lookup, findVar, hother]
        · simp [lookup, findVar, hother, Ne.symm hother]
      · rw [List.length_cons, hframe.card, keys_insert,
          Finset.card_insert_of_notMem (mt Finmap.mem_keys.mp hmem)]

/-! ## Calls -/

theorem FramesOf.enter (hframes : FramesOf frames vars) : FramesOf (∅ :: frames) vars :=
  .cons (fun _ hv => absurd hv List.not_mem_nil) isFrame_empty hframes

/-- Dropping the variables of the innermost call leaves the frames of its callers. -/
theorem FramesOf.leave (hframes : FramesOf (frame :: frames) vars) :
    FramesOf frames (varsBelow frames.length vars) := by
  cases hframes with
  | @cons _ _ own older hscope _ hframes =>
      have hown : varsBelow frames.length own = [] :=
        List.dropWhile_eq_nil_iff.mpr fun v hv => decide_eq_true (hscope v hv).ge
      rwa [varsBelow_append hframes.scope_lt, hown, List.nil_append]

end GeckoOS.Gk
