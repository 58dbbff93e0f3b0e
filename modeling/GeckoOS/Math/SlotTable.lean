/-
# Tables of slots

A table of fixed size holds pairs of a key and a value in its slots, in no particular order;
a slot without a value is free, whatever its key says.  Looking a key up finds the first slot
that holds a value for it.

A table is changed by overwriting the first slot that passes some test.  The lemmas say what
this does to the map that lookup makes of the table.  Overwriting a slot of the same key or a
free one binds the new key, if no slot before it is bound to that key already.  Freeing a slot
unbinds its key if no slot behind it is bound to it, and for that the keys of the table have
to be unique.
-/

import Mathlib.Data.Finset.Card
import Mathlib.Data.Finset.Insert
import Mathlib.Logic.Function.Basic

namespace GeckoOS.Math

variable {σ κ α : Type*} {slots before after : List σ} {slot old new : σ}

/-! ## The first slot that passes a test -/

/-- Overwrite the first slot that passes the test. -/
def replaceFirst (test : σ → Bool) (new : σ) (slots : List σ) : Option (List σ) :=
  (slots.findIdx? test).map fun i => slots.set i new

theorem replaceFirst_eq_none {test : σ → Bool} :
    replaceFirst test new slots = none ↔ ∀ slot ∈ slots, test slot = false := by
  rw [replaceFirst, Option.map_eq_none_iff, List.findIdx?_eq_none_iff]

theorem replaceFirst_append {test : σ → Bool} (hbefore : ∀ slot ∈ before, test slot = false)
    (hold : test old = true) :
    replaceFirst test new (before ++ old :: after) = some (before ++ new :: after) := by
  induction before with
  | nil => simp [replaceFirst, List.findIdx?_cons, hold]
  | cons first before ih =>
      have hfirst := hbefore first List.mem_cons_self
      have hrest := ih fun slot hslot => hbefore slot (List.mem_cons_of_mem _ hslot)
      rw [replaceFirst, Option.map_eq_some_iff] at hrest
      obtain ⟨i, hfind, hset⟩ := hrest
      rw [replaceFirst, List.cons_append, List.findIdx?_cons, hfirst, hfind]
      simp [hset]

/-- Where the slot that is overwritten stands. -/
theorem replaceFirst_cases (test : σ → Bool) (new : σ) (slots : List σ) :
    (∀ slot ∈ slots, test slot = false) ∧ replaceFirst test new slots = none ∨
      ∃ before old after, slots = before ++ old :: after ∧
        (∀ slot ∈ before, test slot = false) ∧ test old = true ∧
        replaceFirst test new slots = some (before ++ new :: after) := by
  cases hfind : slots.find? test with
  | none =>
      have hnone : ∀ slot ∈ slots, test slot = false := by simpa using hfind
      exact .inl ⟨hnone, replaceFirst_eq_none.mpr hnone⟩
  | some old =>
      obtain ⟨hold, before, after, rfl, hbefore⟩ := List.find?_eq_some_iff_append.mp hfind
      have hbefore' : ∀ slot ∈ before, test slot = false := by simpa using hbefore
      exact .inr ⟨before, old, after, rfl, hbefore', hold, replaceFirst_append hbefore' hold⟩

/-! ## Looking a key up -/

section Lookup

variable [DecidableEq κ] (key : σ → κ) (value : σ → Option α)

/-- The value of the first slot that holds one for the key. -/
def slotLookup (slots : List σ) (k : κ) : Option α :=
  (slots.find? fun slot => (value slot).isSome && key slot == k).bind value

/-- The keys of the slots that hold a value are different. -/
def KeysUnique (slots : List σ) : Prop :=
  slots.Pairwise fun slot slot' =>
    (value slot).isSome → (value slot').isSome → key slot ≠ key slot'

variable {key value} {k : κ}

theorem slotLookup_nil : slotLookup key value [] k = none := rfl

theorem slotLookup_cons_of_bound (hvalue : (value slot).isSome) (hkey : key slot = k) :
    slotLookup key value (slot :: slots) k = value slot := by
  rw [slotLookup, List.find?_cons_of_pos (by simp [hvalue, hkey]), Option.bind_some]

theorem slotLookup_cons_of_not_bound (hother : (value slot).isSome → key slot ≠ k) :
    slotLookup key value (slot :: slots) k = slotLookup key value slots k := by
  rw [slotLookup, List.find?_cons_of_neg (by simpa using hother), slotLookup]

theorem slotLookup_eq_none :
    slotLookup key value slots k = none ↔
      ∀ slot ∈ slots, (value slot).isSome → key slot ≠ k := by
  induction slots with
  | nil => simp [slotLookup_nil]
  | cons slot slots ih =>
      by_cases hbound : (value slot).isSome ∧ key slot = k
      · rw [slotLookup_cons_of_bound hbound.1 hbound.2]
        refine iff_of_false (fun hnone => ?_) fun hall => ?_
        · rw [hnone] at hbound
          exact absurd hbound.1 (by simp)
        · exact hall slot List.mem_cons_self hbound.1 hbound.2
      · have hother : (value slot).isSome → key slot ≠ k :=
          fun hvalue hkey => hbound ⟨hvalue, hkey⟩
        rw [slotLookup_cons_of_not_bound hother, ih, List.forall_mem_cons]
        exact (and_iff_right hother).symm

/-- A slot that holds the key is behind every lookup that succeeds. -/
theorem isSome_slotLookup :
    (slotLookup key value slots k).isSome ↔
      ∃ slot ∈ slots, (value slot).isSome ∧ key slot = k := by
  rw [Option.isSome_iff_ne_none, Ne, slotLookup_eq_none]
  push Not
  rfl

theorem slotLookup_append :
    slotLookup key value (before ++ after) k =
      (slotLookup key value before k).or (slotLookup key value after k) := by
  induction before with
  | nil => rfl
  | cons slot before ih =>
      by_cases hbound : (value slot).isSome ∧ key slot = k
      · obtain ⟨a, ha⟩ := Option.isSome_iff_exists.mp hbound.1
        rw [List.cons_append, slotLookup_cons_of_bound hbound.1 hbound.2,
          slotLookup_cons_of_bound hbound.1 hbound.2, ha, Option.some_or]
      · have hother : (value slot).isSome → key slot ≠ k :=
          fun hvalue hkey => hbound ⟨hvalue, hkey⟩
        rw [List.cons_append, slotLookup_cons_of_not_bound hother,
          slotLookup_cons_of_not_bound hother, ih]

/-- Overwriting a slot changes nothing for the keys it was and is not bound to. -/
theorem slotLookup_replace_other (hold : (value old).isSome → key old ≠ k)
    (hnew : (value new).isSome → key new ≠ k) :
    slotLookup key value (before ++ new :: after) k =
      slotLookup key value (before ++ old :: after) k := by
  rw [slotLookup_append, slotLookup_append, slotLookup_cons_of_not_bound hold,
    slotLookup_cons_of_not_bound hnew]

/-- Overwriting a slot of the same key, or a free one, binds the key. -/
theorem slotLookup_bind {a : α} (hbefore : slotLookup key value before (key new) = none)
    (hold : (value old).isSome → key old = key new) (hnew : value new = some a) :
    slotLookup key value (before ++ new :: after) =
      Function.update (slotLookup key value (before ++ old :: after)) (key new) (some a) := by
  funext k
  have hbound : (value new).isSome := by rw [hnew]; rfl
  by_cases hk : k = key new
  · subst hk
    rw [Function.update_self, slotLookup_append, hbefore, Option.none_or,
      slotLookup_cons_of_bound hbound rfl, hnew]
  · rw [Function.update_of_ne hk]
    refine slotLookup_replace_other (fun hvalue => ?_) fun _ => Ne.symm hk
    rw [hold hvalue]
    exact Ne.symm hk

/-- Freeing the only slot of a key unbinds the key. -/
theorem slotLookup_unbind (hunique : KeysUnique key value (before ++ old :: after))
    (hold : (value old).isSome) (hnew : value new = none) :
    slotLookup key value (before ++ new :: after) =
      Function.update (slotLookup key value (before ++ old :: after)) (key old) none := by
  funext k
  have hfree : ∀ k, (value new).isSome → key new ≠ k := by simp [hnew]
  obtain ⟨-, hbehind, hbetween⟩ := List.pairwise_append.mp hunique
  by_cases hk : k = key old
  · subst hk
    have hbefore : slotLookup key value before (key old) = none := by
      rw [slotLookup_eq_none]
      exact fun slot hslot hvalue => hbetween slot hslot old List.mem_cons_self hvalue hold
    have hafter : slotLookup key value after (key old) = none := by
      rw [slotLookup_eq_none]
      exact fun slot hslot hvalue =>
        ((List.pairwise_cons.mp hbehind).1 slot hslot hold hvalue).symm
    rw [Function.update_self, slotLookup_append, slotLookup_cons_of_not_bound (hfree _), hbefore,
      hafter]
    rfl
  · rw [Function.update_of_ne hk]
    exact slotLookup_replace_other (fun _ => Ne.symm hk) (hfree k)

/-! ## Unique keys -/

theorem KeysUnique.slotLookup_of_mem {a : α} (hunique : KeysUnique key value slots)
    (hslot : slot ∈ slots) (hvalue : value slot = some a) :
    slotLookup key value slots (key slot) = some a := by
  obtain ⟨before, after, rfl⟩ := List.append_of_mem hslot
  have hbound : (value slot).isSome := by rw [hvalue]; rfl
  have hbefore : slotLookup key value before (key slot) = none := by
    rw [slotLookup_eq_none]
    intro slot' hslot' hvalue'
    exact (List.pairwise_append.mp hunique).2.2 slot' hslot' slot List.mem_cons_self hvalue' hbound
  rw [slotLookup_append, hbefore, slotLookup_cons_of_bound hbound rfl, hvalue, Option.none_or]

/-- Overwriting a slot keeps the keys unique if no other slot is bound to the new key. -/
theorem KeysUnique.replace (hunique : KeysUnique key value (before ++ old :: after))
    (hbefore : (value new).isSome → slotLookup key value before (key new) = none)
    (hafter : (value new).isSome → slotLookup key value after (key new) = none) :
    KeysUnique key value (before ++ new :: after) := by
  obtain ⟨hleft, hright, hbetween⟩ := List.pairwise_append.mp hunique
  obtain ⟨-, hrest⟩ := List.pairwise_cons.mp hright
  refine List.pairwise_append.mpr ⟨hleft, List.pairwise_cons.mpr ⟨?_, hrest⟩, ?_⟩
  · intro slot hslot hnew hvalue
    exact (slotLookup_eq_none.mp (hafter hnew) slot hslot hvalue).symm
  · intro slot hslot slot' hslot' hvalue hvalue'
    rcases List.mem_cons.mp hslot' with rfl | hrest'
    · exact slotLookup_eq_none.mp (hbefore hvalue') slot hslot hvalue
    · exact hbetween slot hslot slot' (List.mem_cons_of_mem _ hrest') hvalue hvalue'

/-- Another slot keeps the keys unique if its key is not bound. -/
theorem KeysUnique.concat (hunique : KeysUnique key value slots)
    (hfree : slotLookup key value slots (key new) = none) :
    KeysUnique key value (slots ++ [new]) := by
  refine List.pairwise_append.mpr ⟨hunique, List.pairwise_singleton _ _, ?_⟩
  intro slot hslot slot' hslot' hvalue _
  rw [List.mem_singleton.mp hslot']
  exact slotLookup_eq_none.mp hfree slot hslot hvalue

/-- If the keys are unique, it is the same from which end the slots are searched. -/
theorem KeysUnique.slotLookup_reverse (hunique : KeysUnique key value slots) (k : κ) :
    slotLookup key value slots.reverse k = slotLookup key value slots k := by
  induction slots with
  | nil => rfl
  | cons slot slots ih =>
      obtain ⟨hfirst, hrest⟩ := List.pairwise_cons.mp hunique
      rw [List.reverse_cons, slotLookup_append, ih hrest]
      by_cases hbound : (value slot).isSome ∧ key slot = k
      · have hnone : slotLookup key value slots k = none := by
          rw [slotLookup_eq_none]
          intro slot' hslot' hvalue' hkey
          exact hfirst slot' hslot' hbound.1 hvalue' (hbound.2.trans hkey.symm)
        rw [hnone, Option.none_or, slotLookup_cons_of_bound hbound.1 hbound.2,
          slotLookup_cons_of_bound hbound.1 hbound.2]
      · have hother : (value slot).isSome → key slot ≠ k :=
          fun hvalue hkey => hbound ⟨hvalue, hkey⟩
        rw [slotLookup_cons_of_not_bound hother, slotLookup_cons_of_not_bound hother,
          slotLookup_nil, Option.or_none]

/-! ## Binding a key -/

variable (key value) in
/-- Overwrite the slot that holds the key of the new one, or else the first free slot. -/
def bindSlot (new : σ) (slots : List σ) : Option (List σ) :=
  (replaceFirst (fun slot => (value slot).isSome && key slot == key new) new slots).or
    (replaceFirst (fun slot => (value slot).isNone) new slots)

/-- Which slot it is that is overwritten. -/
theorem bindSlot_cases (new : σ) (slots : List σ) :
    (slotLookup key value slots (key new) = none ∧ (∀ slot ∈ slots, (value slot).isSome) ∧
        bindSlot key value new slots = none) ∨
      ∃ before old after, slots = before ++ old :: after ∧
        slotLookup key value before (key new) = none ∧
        ((value old).isSome → key old = key new) ∧
        (value old = none → slotLookup key value slots (key new) = none ∧
          ∀ slot ∈ before, (value slot).isSome) ∧
        bindSlot key value new slots = some (before ++ new :: after) := by
  rw [bindSlot]
  rcases replaceFirst_cases (fun slot => (value slot).isSome && key slot == key new) new slots with
    ⟨hnone, hreplace⟩ | ⟨before, old, after, rfl, hbefore, hold, hreplace⟩
  · have hunbound : slotLookup key value slots (key new) = none := by
      rw [slotLookup_eq_none]
      intro slot hslot hsome
      have htest := hnone slot hslot
      simpa [hsome] using htest
    rw [hreplace, Option.none_or]
    rcases replaceFirst_cases (fun slot => (value slot).isNone) new slots with
      ⟨hfull, hreplace'⟩ | ⟨before, old, after, rfl, hbefore, hold, hreplace'⟩
    · refine .inl ⟨hunbound, fun slot hslot => ?_, hreplace'⟩
      simpa using hfull slot hslot
    · have hfree : value old = none := by simpa using hold
      have hbound : ∀ slot ∈ before, (value slot).isSome := fun slot hslot => by
        simpa using hbefore slot hslot
      refine .inr ⟨before, old, after, rfl, ?_, ?_, fun _ => ⟨hunbound, hbound⟩, hreplace'⟩
      · rw [slotLookup_append, Option.or_eq_none_iff] at hunbound
        exact hunbound.1
      · simp [hfree]
  · have hold' : (value old).isSome ∧ key old = key new := by simpa using hold
    rw [hreplace, Option.some_or]
    refine .inr ⟨before, old, after, rfl, ?_, fun _ => hold'.2, fun hfree => ?_, rfl⟩
    · rw [slotLookup_eq_none]
      intro slot hslot hsome
      have htest := hbefore slot hslot
      simpa [hsome] using htest
    · rw [hfree] at hold'
      exact absurd hold'.1 (by simp)

/-- It fails only without the key and without a free slot. -/
theorem bindSlot_eq_none :
    bindSlot key value new slots = none ↔
      slotLookup key value slots (key new) = none ∧ ∀ slot ∈ slots, (value slot).isSome := by
  rcases @bindSlot_cases _ _ _ _ key value new slots with
    ⟨hunbound, hfull, hnone⟩ | ⟨before, old, after, rfl, -, hold, hfree, hsome⟩
  · exact iff_of_true hnone ⟨hunbound, hfull⟩
  · rw [hsome]
    refine iff_of_false (by simp) fun hboth => ?_
    have hbound := hboth.2 old (by simp)
    exact slotLookup_eq_none.mp hboth.1 old (by simp) hbound (hold hbound)

/-- The key is bound to the new value, and no other key changes. -/
theorem slotLookup_bindSlot {a : α} {slots' : List σ} (hnew : value new = some a)
    (hbind : bindSlot key value new slots = some slots') :
    slotLookup key value slots' =
      Function.update (slotLookup key value slots) (key new) (some a) := by
  rcases @bindSlot_cases _ _ _ _ key value new slots with
    ⟨-, -, hnone⟩ | ⟨before, old, after, rfl, hbefore, hold, -, hsome⟩
  · rw [hnone] at hbind
    cases hbind
  · obtain rfl := Option.some.inj (hbind.symm.trans hsome)
    exact slotLookup_bind hbefore hold hnew

theorem KeysUnique.bindSlot {slots' : List σ} (hunique : KeysUnique key value slots)
    (hbind : bindSlot key value new slots = some slots') : KeysUnique key value slots' := by
  rcases @bindSlot_cases _ _ _ _ key value new slots with
    ⟨-, -, hnone⟩ | ⟨before, old, after, rfl, hbefore, hold, hfree, hsome⟩
  · rw [hnone] at hbind
    cases hbind
  · obtain rfl := Option.some.inj (hbind.symm.trans hsome)
    apply hunique.replace (fun _ => hbefore)
    intro _
    rw [slotLookup_eq_none]
    intro slot hslot hvalue
    -- The overwritten slot was the only one of the key, or there was none.
    cases hvalue' : value old with
    | none =>
        have hunbound := slotLookup_eq_none.mp (hfree hvalue').1
        exact hunbound slot (by simp [hslot]) hvalue
    | some a =>
        have hbound : (value old).isSome := by rw [hvalue']; rfl
        rw [← hold hbound]
        obtain ⟨-, hright, -⟩ := List.pairwise_append.mp hunique
        exact ((List.pairwise_cons.mp hright).1 slot hslot hbound hvalue).symm

/-! ## Capacity -/

/-- A table has a slot for each key that is bound in it. -/
theorem card_le_of_isSome_slotLookup {keys : Finset κ}
    (hkeys : ∀ k ∈ keys, (slotLookup key value slots k).isSome) :
    keys.card ≤ (slots.filter fun slot => (value slot).isSome).length := by
  have hsubset : keys ⊆
      ((slots.filter fun slot => (value slot).isSome).map key).toFinset := by
    intro k hk
    obtain ⟨slot, hslot, hvalue, hkey⟩ := isSome_slotLookup.mp (hkeys k hk)
    rw [List.mem_toFinset, List.mem_map]
    exact ⟨slot, List.mem_filter.mpr ⟨hslot, hvalue⟩, hkey⟩
  calc keys.card
      ≤ ((slots.filter fun slot => (value slot).isSome).map key).toFinset.card :=
        Finset.card_le_card hsubset
    _ ≤ ((slots.filter fun slot => (value slot).isSome).map key).length := List.toFinset_card_le _
    _ = (slots.filter fun slot => (value slot).isSome).length := List.length_map _

/-- A table without a free slot has as many keys as slots. -/
theorem exists_keys_of_full (hunique : KeysUnique key value slots)
    (hfull : ∀ slot ∈ slots, (value slot).isSome) :
    ∃ keys : Finset κ, keys.card = slots.length ∧
      ∀ k ∈ keys, (slotLookup key value slots k).isSome := by
  have hnodup : (slots.map key).Nodup := by
    rw [List.Nodup, List.pairwise_map]
    exact hunique.imp_of_mem fun hslot hslot' hne => hne (hfull _ hslot) (hfull _ hslot')
  refine ⟨(slots.map key).toFinset, ?_, fun k hk => ?_⟩
  · rw [List.toFinset_card_of_nodup hnodup, List.length_map]
  · obtain ⟨slot, hslot, hkey⟩ := List.mem_map.mp (List.mem_toFinset.mp hk)
    exact isSome_slotLookup.mpr ⟨slot, hslot, hfull slot hslot, hkey⟩

end Lookup

end GeckoOS.Math
