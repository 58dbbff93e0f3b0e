/-
# The page tables as a map from pages to frames

What the four levels of tables say together is a partial map: a page has a frame if its
entry is there and present.  The tables are a radix tree of depth three with the entries
of the last level at its leaves, so a mapping changes the map at one page, and the tables
that `vmm_map` makes on its way change it nowhere, whether the walk comes through or runs
out of pages halfway.

All this needs that no table is used twice.  It holds because `allocate_blocks` returns
pages that are not in use, which is what `Call.Allowed` asks of a call, together with
canonical addresses: of these, two with the same four indices are in the same page.
-/

import GeckoOS.Math.RadixTree
import GeckoOS.Mem.Paging
import Mathlib.Tactic.Ring

namespace GeckoOS.Mem

open GeckoOS.Math

/-! ## Pages and entries -/

/-- The address of a page, which is what fits between the flags of an entry. -/
abbrev Page : Type := { t : UInt64 // t &&& pteAddrMask = t }

/-- The tables in memory. -/
def view (mem : Nat → UInt64) (t : Page) (i : Fin 512) : UInt64 := mem (entryAddr t.1 i)

theorem and_mask_mask (e : UInt64) : e &&& pteAddrMask &&& pteAddrMask = e &&& pteAddrMask := by
  rw [UInt64.and_assoc]
  rfl

/-- Where an entry leads. -/
def next (e : UInt64) : Option Page :=
  if pteIsPresent e then some ⟨pteGetPhys e, and_mask_mask e⟩ else none

theorem next_zero : next 0 = none := rfl

theorem or_and_right (x y z : UInt64) : (x ||| y) &&& z = x &&& z ||| y &&& z :=
  UInt64.toBitVec_inj.1 BitVec.and_or_distrib_right

theorem pteIsPresent_or (x : UInt64) : pteIsPresent (x ||| ptePresent) = true := by
  rw [pteIsPresent, or_and_right, decide_eq_true_eq]
  intro hzero
  have hnat := congrArg UInt64.toNat hzero
  rw [UInt64.toNat_or, UInt64.toNat_zero, Nat.or_eq_zero_iff] at hnat
  exact absurd hnat.2 (by decide)

theorem next_of_present {e : UInt64} (hpresent : pteIsPresent e = true) :
    next e = some ⟨pteGetPhys e, and_mask_mask e⟩ := if_pos hpresent

theorem next_of_absent {e : UInt64} (habsent : ¬pteIsPresent e = true) : next e = none :=
  if_neg habsent

theorem pteGetPhys_link (t : Page) : pteGetPhys (t.1 ||| ptePresent ||| pteWritable) = t.1 := by
  rw [pteGetPhys, or_and_right, or_and_right, t.2, show ptePresent &&& pteAddrMask = 0 from rfl,
    show pteWritable &&& pteAddrMask = 0 from rfl, UInt64.or_zero, UInt64.or_zero]

/-- An entry that leads to a table leads to this table. -/
theorem next_link (t : Page) : next (t.1 ||| ptePresent ||| pteWritable) = some t := by
  have hpresent : pteIsPresent (t.1 ||| ptePresent ||| pteWritable) = true := by
    rw [UInt64.or_assoc, UInt64.or_comm ptePresent, ← UInt64.or_assoc]
    exact pteIsPresent_or _
  rw [next_of_present hpresent]
  exact congrArg some (Subtype.ext (pteGetPhys_link t))

/-- The frame that a mapping to an address is for. -/
def frameOf (phys : UInt64) : Page := ⟨phys &&& pteAddrMask, and_mask_mask phys⟩

theorem pteGetPhys_mapping (phys flags : UInt64) :
    pteGetPhys ((phys &&& pteAddrMask) ||| (flags &&& ~~~pteAddrMask) ||| ptePresent) =
      phys &&& pteAddrMask := by
  rw [pteGetPhys, or_and_right, or_and_right, and_mask_mask, UInt64.and_assoc,
    show ~~~pteAddrMask &&& pteAddrMask = 0 from rfl, UInt64.and_zero,
    show ptePresent &&& pteAddrMask = 0 from rfl, UInt64.or_zero, UInt64.or_zero]

theorem next_mapping (phys flags : UInt64) :
    next ((phys &&& pteAddrMask) ||| (flags &&& ~~~pteAddrMask) ||| ptePresent) =
      some (frameOf phys) := by
  rw [next_of_present (pteIsPresent_or _)]
  exact congrArg some (Subtype.ext (pteGetPhys_mapping phys flags))

/-! ## Tables do not overlap -/

theorem Page.aligned (t : Page) : t.1.toNat % 4096 = 0 := by
  have hlow : t.1 &&& 0xFFF = 0 := by
    rw [← t.2, UInt64.and_assoc, show pteAddrMask &&& 0xFFF = 0 from rfl, UInt64.and_zero]
  have hnat := congrArg UInt64.toNat hlow
  rwa [UInt64.toNat_and, show (0xFFF : UInt64).toNat = 2 ^ 12 - 1 from rfl,
    Nat.and_two_pow_sub_one_eq_mod] at hnat

theorem Page.add_le {t t' : Page} (hless : t.1.toNat < t'.1.toNat) :
    t.1.toNat + 4096 ≤ t'.1.toNat := by
  have ht := t.aligned
  have ht' := t'.aligned
  omega

theorem Page.eq_of_entryAddr {t t' : Page} {i : Fin 512}
    (haddr : t.1.toNat ≤ entryAddr t'.1 i ∧ entryAddr t'.1 i < t.1.toNat + 4096) : t' = t := by
  have hi := i.2
  rw [entryAddr] at haddr
  refine Subtype.ext (UInt64.toNat_inj.mp ?_)
  rcases Nat.lt_trichotomy t'.1.toNat t.1.toNat with hless | heq | hless
  · have hle := Page.add_le hless
    omega
  · exact heq
  · have hle := Page.add_le hless
    omega

theorem entryAddr_inj {t t' : Page} {i j : Fin 512} :
    entryAddr t.1 i = entryAddr t'.1 j ↔ t = t' ∧ i = j := by
  constructor
  · intro hsame
    have hi := i.2
    have ht : t = t' := by
      refine Page.eq_of_entryAddr (i := i) ?_
      have hj := j.2
      rw [hsame, entryAddr]
      omega
    subst ht
    rw [entryAddr, entryAddr] at hsame
    exact ⟨rfl, Fin.ext (by omega)⟩
  · rintro ⟨rfl, rfl⟩
    rfl

theorem view_update (mem : Nat → UInt64) (t : Page) (i : Fin 512) (e : UInt64) :
    view (Function.update mem (entryAddr t.1 i) e) = write (view mem) t i e := by
  funext t' j
  by_cases hsame : t' = t ∧ j = i
  · obtain ⟨rfl, rfl⟩ := hsame
    rw [write_self, view, Function.update_self]
  · rw [write_of_ne (by rwa [← not_and_or]), view, Function.update_of_ne, view]
    exact fun haddr => hsame (entryAddr_inj.mp haddr)

/-- Memory with a table cleared. -/
theorem view_clear (mem : Nat → UInt64) (t : Page) :
    view
        (fun address => if t.1.toNat ≤ address ∧ address < t.1.toNat + 4096 then 0 else mem address)
      = Function.update (view mem) t fun _ => 0 := by
  funext t' j
  by_cases hsame : t' = t
  · subst hsame
    have hj := j.2
    rw [Function.update_self, view, if_pos]
    rw [entryAddr]
    omega
  · rw [Function.update_of_ne hsame, view, if_neg fun haddr => hsame (Page.eq_of_entryAddr haddr)]
    rfl

/-! ## What a walk does -/

/-- The tables of the manager: the PML4 and all below it. -/
abbrev Tables (pml4 : Page) (mem : Nat → UInt64) (taken : Set Page) : Prop :=
  Tree next (view mem) pml4 3 taken

/-- The table at the end of a path from the PML4. -/
abbrev tableAt (pml4 : Page) (mem : Nat → UInt64) (path : List (Fin 512)) : Option Page :=
  follow next (view mem) pml4 path

/-- What the tables say of four indices. -/
def translation (pml4 : Page) (mem : Nat → UInt64) (upper : List (Fin 512)) (i : Fin 512) :
    Option Page :=
  (entryAt next (view mem) pml4 upper i).bind next

/-- What `allocate_blocks` will return is not in use, and not returned twice. -/
structure Fresh (supply : List UInt64) (taken : Set Page) : Prop where
  aligned : ∀ z ∈ supply, z ≠ 0 → z &&& pteAddrMask = z
  unused : ∀ t ∈ taken, t.1 ≠ 0 → t.1 ∉ supply
  nodup : (supply.filter (· ≠ 0)).Nodup

variable {pml4 t : Page} {mem : Nat → UInt64} {m m' m'' : TableMemory}
  {taken taken' taken'' : Set Page}
  {path indices : List (Fin 512)} {i : Fin 512}

/-- The tables after some of the pages were made tables, as before in everything they say. -/
structure Grown (pml4 : Page) (m : TableMemory) (taken : Set Page) (m' : TableMemory)
    (taken' : Set Page) : Prop where
  tables : Tables pml4 m'.mem taken'
  fresh : Fresh m'.supply taken'
  taken : ∀ t ∈ taken', t ∈ taken ∨ t.1 ∈ m.supply ∧ t.1 ≠ 0
  supply : m'.supply ⊆ m.supply
  translation : ∀ upper i, upper.length = 3 →
    translation pml4 m'.mem upper i = translation pml4 m.mem upper i

theorem Grown.refl (htables : Tables pml4 m.mem taken) (hfresh : Fresh m.supply taken) :
    Grown pml4 m taken m taken :=
  ⟨htables, hfresh, fun _ => .inl, List.Subset.refl _, fun _ _ _ => rfl⟩

theorem Grown.trans (hfirst : Grown pml4 m taken m' taken')
    (hsecond : Grown pml4 m' taken' m'' taken'') : Grown pml4 m taken m'' taken'' := by
  refine ⟨hsecond.tables, hsecond.fresh, fun t ht => ?_,
    fun z hz => hfirst.supply (hsecond.supply hz),
    fun upper i hupper => (hsecond.translation upper i hupper).trans
      (hfirst.translation upper i hupper)⟩
  rcases hsecond.taken t ht with hold | hnew
  · exact hfirst.taken t hold
  · exact .inr ⟨hfirst.supply hnew.1, hnew.2⟩

/-- A page that could not be had leaves everything as it is. -/
theorem Fresh.tail {z : UInt64} {supply : List UInt64} (hfresh : Fresh (z :: supply) taken) :
    Fresh supply taken :=
  ⟨fun y hy => hfresh.aligned y (List.mem_cons_of_mem _ hy),
    fun t ht hne hmem => hfresh.unused t ht hne (List.mem_cons_of_mem _ hmem),
    hfresh.nodup.sublist ((List.sublist_cons_self z supply).filter _)⟩

theorem Fresh.insert {supply : List UInt64} {z : Page} (hne : z.1 ≠ 0)
    (hfresh : Fresh (z.1 :: supply) taken) : Fresh supply (insert z taken) := by
  refine ⟨hfresh.tail.aligned, fun t ht htne hmem => ?_, hfresh.tail.nodup⟩
  rcases ht with rfl | ht
  · have hnodup := hfresh.nodup
    rw [List.filter_cons_of_pos (by simpa using hne), List.nodup_cons] at hnodup
    exact hnodup.1 (List.mem_filter.mpr ⟨hmem, by simpa using hne⟩)
  · exact hfresh.tail.unused t ht htne hmem

/-- A present entry is followed. -/
theorem nextTable_present (create : Bool)
    (hpresent : pteIsPresent (m.mem (entryAddr t.1 i)) = true) :
    nextTable (entryAddr t.1 i) create m = ((next (view m.mem t i)).map Subtype.val, m) := by
  rw [nextTable, if_pos hpresent, view, next_of_present hpresent]
  rfl

/-- A level without `create`. -/
theorem nextTable_false :
    nextTable (entryAddr t.1 i) false m = ((next (view m.mem t i)).map Subtype.val, m) := by
  by_cases hpresent : pteIsPresent (m.mem (entryAddr t.1 i)) = true
  · exact nextTable_present false hpresent
  · rw [nextTable, if_neg hpresent, if_pos (by decide), view, next_of_absent hpresent]
    rfl

/-- A level that makes a missing table. -/
theorem nextTable_true (htables : Tables pml4 m.mem taken) (hfresh : Fresh m.supply taken)
    (hpath : tableAt pml4 m.mem path = some t) (hlength : path.length < 3) :
    ∃ r m' taken', nextTable (entryAddr t.1 i) true m = (r.map Subtype.val, m') ∧
      Grown pml4 m taken m' taken' ∧
        ∀ z, r = some z → tableAt pml4 m'.mem (path ++ [i]) = some z := by
  by_cases hpresent : pteIsPresent (m.mem (entryAddr t.1 i)) = true
  · refine ⟨_, m, taken, nextTable_present true hpresent, .refl htables hfresh, fun z hz => ?_⟩
    rw [tableAt, follow_concat hpath, hz]
  rw [nextTable, if_neg hpresent, if_neg (by decide), allocTable]
  cases hsupply : m.supply with
  | nil => exact ⟨none, m, taken, rfl, .refl htables hfresh, fun z hz => by cases hz⟩
  | cons z supply =>
      rw [hsupply] at hfresh
      dsimp only
      by_cases hz : z = 0
      · rw [if_pos hz]
        refine ⟨none, ⟨m.mem, supply⟩, taken, rfl, ⟨htables, hfresh.tail, fun _ => .inl, ?_,
          fun _ _ _ => rfl⟩, fun z hz => by cases hz⟩
        rw [hsupply]
        exact List.subset_cons_self z supply
      rw [if_neg hz]
      dsimp only
      rw [if_neg hz]
      set page : Page := ⟨z, hfresh.aligned z (List.mem_cons_self ..) hz⟩ with hpage
      set e : UInt64 := z ||| ptePresent ||| pteWritable with he
      have hlink : Linkable next (view m.mem) pml4 3 taken path t i page 0 e := by
        refine ⟨hpath, hlength, ?_, fun htaken => ?_, next_zero, next_link page⟩
        · exact next_of_absent hpresent
        · exact hfresh.unused page htaken hz (List.mem_cons_self ..)
      have hview : view (Function.update (fun address =>
          if z.toNat ≤ address ∧ address < z.toNat + 4096 then 0 else m.mem address)
            (entryAddr t.1 i) e) = link (view m.mem) page 0 t i e := by
        rw [view_update, show z = page.1 from rfl, view_clear]
        rfl
      have hphys : pteGetPhys e = page.1 := pteGetPhys_link page
      refine ⟨some page, ⟨Function.update (fun address =>
          if z.toNat ≤ address ∧ address < z.toNat + 4096 then 0 else m.mem address)
            (entryAddr t.1 i) e, supply⟩, insert page taken, ?_,
        ⟨?_, hfresh.insert hz, ?_, ?_, ?_⟩, ?_⟩
      · rw [Function.update_self, Option.map_some, hphys]
      · rw [Tables, hview]
        exact hlink.tree htables
      · rintro t' (rfl | ht')
        · exact .inr ⟨hsupply ▸ List.mem_cons_self .., hz⟩
        · exact .inl ht'
      · rw [hsupply]
        exact List.subset_cons_self z supply
      · intro upper j hupper
        rw [translation, translation, hview, hlink.entryAt htables hupper]
        split_ifs with hnew
        · rw [Option.bind_some, next_zero, hnew, entryAt, follow_concat hpath, hlink.unlinked]
          rfl
        · rfl
      · intro z' hz'
        obtain rfl := Option.some.inj hz'
        rw [tableAt, hview, hlink.follow htables (by
          rw [List.length_append, List.length_singleton]; omega), if_pos rfl]

/-- The levels without `create`: the table is found if it is there. -/
theorem walk_false (t : Page) (indices : List (Fin 512)) (m : TableMemory) :
    walk false t.1 indices m = ((tableAt t m.mem indices).map Subtype.val, m) := by
  induction indices generalizing t with
  | nil => rfl
  | cons i indices ih =>
      rw [walk, nextTable_false, tableAt, follow]
      cases next (view m.mem t i) with
      | none => rfl
      | some t' => exact ih t'

/-- The levels with `create`. -/
theorem walk_true (htables : Tables pml4 m.mem taken) (hfresh : Fresh m.supply taken)
    (hpath : tableAt pml4 m.mem path = some t) (hlength : path.length + indices.length ≤ 3) :
    ∃ r m' taken', walk true t.1 indices m = (r.map Subtype.val, m') ∧
      Grown pml4 m taken m' taken' ∧
        ∀ z, r = some z → tableAt pml4 m'.mem (path ++ indices) = some z := by
  induction indices generalizing t m taken path with
  | nil =>
      refine ⟨some t, m, taken, rfl, .refl htables hfresh, fun z hz => ?_⟩
      rw [List.append_nil, hpath, hz]
  | cons i indices ih =>
      rw [List.length_cons] at hlength
      obtain ⟨r, m₁, taken₁, hnext, hgrown, hfound⟩ :=
        @nextTable_true pml4 t m taken path i htables hfresh hpath (by omega)
      rw [walk, hnext]
      cases r with
      | none => exact ⟨none, m₁, taken₁, rfl, hgrown, fun z hz => by cases hz⟩
      | some t₁ =>
          obtain ⟨r, m₂, taken₂, hwalk, hgrown', hfound'⟩ := ih hgrown.tables hgrown.fresh
            (hfound t₁ rfl) (by rw [List.length_append, List.length_singleton]; omega)
          refine ⟨r, m₂, taken₂, hwalk, hgrown.trans hgrown', fun z hz => ?_⟩
          rw [← hfound' z hz, List.append_assoc, List.singleton_append]

/-! ## The calls -/

theorem length_upperIndices (virt : UInt64) : (upperIndices virt).length = 3 := rfl

/-- What the tables say of an address. -/
def translate (pml4 : Page) (mem : Nat → UInt64) (virt : UInt64) : Option Page :=
  translation pml4 mem (upperIndices virt) (ptIndex virt)

/-- `vmm_get_phys` reads the map off. -/
theorem vmmGetPhys_eq (pml4 : Page) (virt : UInt64) (m : TableMemory) :
    vmmGetPhys pml4.1 virt m = ((translate pml4 m.mem virt).map Subtype.val).getD 0 := by
  rw [vmmGetPhys, getPte, walk_false, translate, translation, entryAt]
  cases hpath : tableAt pml4 m.mem (upperIndices virt) with
  | none => rw [show follow next (view m.mem) pml4 (upperIndices virt) = none from hpath]; rfl
  | some pt =>
      rw [show follow next (view m.mem) pml4 (upperIndices virt) = some pt from hpath]
      simp only [Option.map_some, Option.bind_some]
      by_cases hpresent : pteIsPresent (m.mem (entryAddr pt.1 (ptIndex virt))) = true
      · rw [if_pos hpresent, view, next_of_present hpresent]
        rfl
      · rw [if_neg hpresent, view, next_of_absent hpresent]
        rfl

/-- The tables after an entry of the last level was written. -/
theorem Tree.written (htables : Tables pml4 m.mem taken) {virt : UInt64} {pt : Page}
    (hpath : tableAt pml4 m.mem (upperIndices virt) = some pt) (e : UInt64) :
    let mem' := Function.update m.mem (entryAddr pt.1 (ptIndex virt)) e
    Tables pml4 mem' taken ∧ ∀ upper i, upper.length = 3 → translation pml4 mem' upper i =
      if upper = upperIndices virt ∧ i = ptIndex virt then next e
      else translation pml4 m.mem upper i := by
  dsimp only
  rw [Tables, view_update]
  refine ⟨htables.write (length_upperIndices virt) hpath, fun upper i hupper => ?_⟩
  rw [translation, view_update, htables.entryAt_write (length_upperIndices virt) hpath hupper]
  split_ifs <;> rfl

/-- `vmm_map`: the page is mapped, or nothing is. -/
theorem vmmMap_spec (phys virt flags : UInt64) (htables : Tables pml4 m.mem taken)
    (hfresh : Fresh m.supply taken) : ∃ taken' : Set Page,
    Tables pml4 (vmmMap pml4.1 phys virt flags m).2.mem taken' ∧
      Fresh (vmmMap pml4.1 phys virt flags m).2.supply taken' ∧
      (vmmMap pml4.1 phys virt flags m).2.supply ⊆ m.supply ∧
      (∀ t ∈ taken', t ∈ taken ∨ t.1 ∈ m.supply ∧ t.1 ≠ 0) ∧ ∀ upper i, upper.length = 3 →
        translation pml4 (vmmMap pml4.1 phys virt flags m).2.mem upper i =
          if (vmmMap pml4.1 phys virt flags m).1 = true ∧ upper = upperIndices virt ∧
              i = ptIndex virt then some (frameOf phys)
          else translation pml4 m.mem upper i := by
  obtain ⟨r, m', taken', hwalk, hgrown, hfound⟩ := @walk_true pml4 pml4 m taken []
    (upperIndices virt) htables hfresh rfl le_rfl
  refine ⟨taken', ?_⟩
  rw [vmmMap, getPte, hwalk]
  cases r with
  | none =>
      refine ⟨hgrown.tables, hgrown.fresh, hgrown.supply, hgrown.taken, fun upper i hupper => ?_⟩
      rw [if_neg fun h => Bool.false_ne_true h.1]
      exact hgrown.translation upper i hupper
  | some pt =>
      obtain ⟨hwritten, hagree⟩ := Tree.written hgrown.tables (hfound pt rfl)
        ((phys &&& pteAddrMask) ||| (flags &&& ~~~pteAddrMask) ||| ptePresent)
      refine ⟨hwritten, hgrown.fresh, hgrown.supply, hgrown.taken, fun upper i hupper => ?_⟩
      have hthis := hagree upper i hupper
      rw [next_mapping, hgrown.translation upper i hupper] at hthis
      dsimp only [Option.map_some]
      simpa only [true_and] using hthis

/-- `vmm_unmap`: the page is not mapped. -/
theorem vmmUnmap_spec (virt : UInt64) (htables : Tables pml4 m.mem taken) :
    Tables pml4 (vmmUnmap pml4.1 virt m).mem taken ∧ ∀ upper i, upper.length = 3 →
      translation pml4 (vmmUnmap pml4.1 virt m).mem upper i =
        if upper = upperIndices virt ∧ i = ptIndex virt then none
        else translation pml4 m.mem upper i := by
  rw [vmmUnmap, getPte, walk_false]
  cases hpath : tableAt pml4 m.mem (upperIndices virt) with
  | none =>
      refine ⟨htables, fun upper i _ => ?_⟩
      dsimp only [Option.map_none]
      split_ifs with hsame
      · rw [hsame.1, translation, entryAt,
          show follow next (view m.mem) pml4 (upperIndices virt) = none from hpath]
        rfl
      · rfl
  | some pt => exact Tree.written htables hpath 0

/-! ## Page numbers -/

/-- The number of the page of an address, which is all that the tables go by. -/
def pageNumber (a : UInt64) : Nat := a.toNat / 4096 % 2 ^ 36

/-- An address with all its upper bits the same. -/
def Canonical (a : UInt64) : Prop := a.toNat < 2 ^ 47 ∨ 2 ^ 64 - 2 ^ 47 ≤ a.toNat

/-- Canonical addresses with one page number are in one page. -/
theorem pageNumber_eq_iff {a b : UInt64} (ha : Canonical a) (hb : Canonical b) :
    pageNumber a = pageNumber b ↔ a.toNat / 4096 = b.toNat / 4096 := by
  have hltA := a.toNat_lt
  have hltB := b.toNat_lt
  rw [pageNumber, pageNumber]
  unfold Canonical at ha hb
  omega

theorem indexAt_val (shift : Nat) (hshift : shift < 64) (a : UInt64) :
    (indexAt (UInt64.ofNat shift) a : Nat) = a.toNat / 2 ^ shift % 512 := by
  have hlit : (UInt64.ofNat shift).toNat % 64 = shift := by
    rw [UInt64.toNat_ofNat', Nat.mod_eq_of_lt (Nat.lt_trans hshift (by decide)),
      Nat.mod_eq_of_lt hshift]
  change ((a >>> UInt64.ofNat shift) &&& 0x1FF).toNat = _
  rw [UInt64.toNat_and, UInt64.toNat_shiftRight, hlit, Nat.shiftRight_eq_div_pow,
    show (0x1FF : UInt64).toNat = 2 ^ 9 - 1 from rfl, Nat.and_two_pow_sub_one_eq_mod]

/-- The four indices together are the page number. -/
theorem indices_eq_iff {a b : UInt64} :
    (upperIndices a = upperIndices b ∧ ptIndex a = ptIndex b) ↔ pageNumber a = pageNumber b := by
  have h39 := fun a => indexAt_val 39 (by decide) a
  have h30 := fun a => indexAt_val 30 (by decide) a
  have h21 := fun a => indexAt_val 21 (by decide) a
  have h12 := fun a => indexAt_val 12 (by decide) a
  rw [upperIndices, upperIndices, List.cons_eq_cons, List.cons_eq_cons, List.cons_eq_cons]
  simp only [and_true, and_assoc, Fin.ext_iff]
  rw [show pml4Index = indexAt (UInt64.ofNat 39) from rfl,
    show pdptIndex = indexAt (UInt64.ofNat 30) from rfl,
    show pdIndex = indexAt (UInt64.ofNat 21) from rfl,
    show ptIndex = indexAt (UInt64.ofNat 12) from rfl, h39, h39, h30, h30, h21, h21, h12, h12,
    pageNumber, pageNumber]
  omega

/-! ## Runs of calls -/

/-- What happens to the memory: the calls, each with the pages that `allocate_blocks` returns
during it, and writes by others. -/
inductive Call where
  | map (phys virt flags : UInt64) (blocks : List UInt64)
  | unmap (virt : UInt64)
  | others (mem : Nat → UInt64)

/-- The memory and the pages taken so far. -/
structure Vmm where
  mem : Nat → UInt64
  owned : List UInt64

/-- The pages are aligned, not in use and not returned twice; the others leave them alone. -/
def Call.Allowed (s : Vmm) : Call → Prop
  | map _ _ _ blocks => (∀ z ∈ blocks, z &&& pteAddrMask = z) ∧ (∀ t ∈ s.owned, t ∉ blocks) ∧
      (blocks.filter (· ≠ 0)).Nodup
  | unmap _ => True
  | others mem => ∀ t ∈ s.owned, ∀ i, mem (entryAddr t i) = s.mem (entryAddr t i)

/-- What a call does, and the boolean of `vmm_map`. -/
def Call.exec (pml4 : UInt64) (s : Vmm) : Call → Bool × Vmm
  | map phys virt flags blocks =>
      let (ok, m) := vmmMap pml4 phys virt flags ⟨s.mem, blocks⟩
      (ok, ⟨m.mem, s.owned ++ blocks.filter (· ≠ 0)⟩)
  | unmap virt => (true, { s with mem := (vmmUnmap pml4 virt ⟨s.mem, []⟩).mem })
  | others mem => (true, { s with mem := mem })

/-- What a call that returned `ok` is for: the page has its frame, or has none. -/
def Call.effect (ok : Bool) (frames : Nat → Option UInt64) : Call → Nat → Option UInt64
  | map phys virt _ _ =>
      if ok then Function.update frames (pageNumber virt) (some (phys &&& pteAddrMask)) else frames
  | unmap virt => Function.update frames (pageNumber virt) none
  | others _ => frames

/-- The state that calls lead to, along with the partial map they make. -/
inductive Run (pml4 : UInt64) (start : Vmm) : Vmm → (Nat → Option UInt64) → Prop
  | start : Run pml4 start start fun _ => none
  | call {s : Vmm} {frames : Nat → Option UInt64} (hrun : Run pml4 start s frames) (c : Call)
      (hallowed : c.Allowed s) :
      Run pml4 start (c.exec pml4 s).2 (c.effect (c.exec pml4 s).1 frames)

/-- The state after `alloc_table` returned a PML4. -/
def Vmm.new (mem : Nat → UInt64) (pml4 : UInt64) : Vmm :=
  ⟨(allocTable ⟨mem, [pml4]⟩).2.mem, [pml4]⟩

/-- The tables are a tree of owned pages, and say what the map says. -/
structure Represents (pml4 : Page) (s : Vmm) (frames : Nat → Option UInt64) : Prop where
  tables : Tables pml4 s.mem {t | t.1 ∈ s.owned}
  nonzero : 0 ∉ s.owned
  agree : ∀ a, (translate pml4 s.mem a).map Subtype.val = frames (pageNumber a)

theorem Tree.mono (htree : Tables pml4 mem taken) (hsub : taken ⊆ taken') :
    Tables pml4 mem taken' :=
  ⟨fun path t hpath ht => hsub (htree.taken path t hpath ht), htree.distinct⟩

/-- A table just cleared maps nothing. -/
theorem Represents.new (mem : Nat → UInt64) (hne : pml4.1 ≠ 0) :
    Represents pml4 (Vmm.new mem pml4.1) fun _ => none := by
  have hview : view (Vmm.new mem pml4.1).mem = Function.update (view mem) pml4 fun _ => 0 := by
    rw [Vmm.new, allocTable]
    dsimp only
    rw [if_neg hne, view_clear]
  have hempty : ∀ i, next (view (Vmm.new mem pml4.1).mem pml4 i) = none := by
    intro i
    rw [hview, Function.update_self, next_zero]
  refine ⟨Tree.mono (tree_empty hempty 3) ?_, ?_, fun a => ?_⟩
  · rintro t rfl
    exact List.mem_singleton_self _
  · rw [Vmm.new, List.mem_singleton]
    exact fun hzero => hne hzero.symm
  · rw [translate, translation, entryAt, upperIndices, follow, hempty]
    rfl

/-- What the tables say is all in what the entries of their addresses say. -/
theorem Represents.of_translate {s s' : Vmm} {frames frames' : Nat → Option UInt64}
    (hagree : ∀ a, (translate pml4 s.mem a).map Subtype.val = frames (pageNumber a))
    {virt : UInt64} {frame : Option Page} {changes : Prop} [Decidable changes]
    (hchange : ∀ upper i, upper.length = 3 → translation pml4 s'.mem upper i =
      if changes ∧ upper = upperIndices virt ∧ i = ptIndex virt then frame
      else translation pml4 s.mem upper i)
    (hframes : frames' = if changes then
      Function.update frames (pageNumber virt) (frame.map Subtype.val) else frames) (a : UInt64) :
    (translate pml4 s'.mem a).map Subtype.val = frames' (pageNumber a) := by
  rw [translate, hchange _ _ (length_upperIndices a), hframes]
  by_cases hchanges : changes
  · by_cases hpage : pageNumber a = pageNumber virt
    · rw [if_pos ⟨hchanges, indices_eq_iff.mpr hpage⟩, if_pos hchanges, hpage, Function.update_self]
    · rw [if_neg fun h => hpage (indices_eq_iff.mp h.2), if_pos hchanges,
        Function.update_of_ne hpage]
      exact hagree a
  · rw [if_neg fun h => hchanges h.1, if_neg hchanges]
    exact hagree a

/-- One call does to the tables what it is for. -/
theorem Represents.call {s : Vmm} {frames : Nat → Option UInt64}
    (hrep : Represents pml4 s frames) (c : Call) (hallowed : c.Allowed s) :
    Represents pml4 (c.exec pml4.1 s).2 (c.effect (c.exec pml4.1 s).1 frames) := by
  cases c with
  | map phys virt flags blocks =>
      obtain ⟨haligned, hunused, hnodup⟩ := hallowed
      have hfresh : Fresh blocks {t : Page | t.1 ∈ s.owned} :=
        ⟨fun z hz _ => haligned z hz, fun t ht _ => hunused t.1 ht, hnodup⟩
      obtain ⟨taken', htables, -, -, htaken, hchange⟩ :=
        @vmmMap_spec pml4 ⟨s.mem, blocks⟩ _ phys virt flags hrep.tables hfresh
      have howned : ∀ z, z ∈ s.owned ++ blocks.filter (· ≠ 0) ↔
          z ∈ s.owned ∨ z ∈ blocks ∧ z ≠ 0 := by
        intro z
        rw [List.mem_append, List.mem_filter, decide_eq_true_eq]
      refine ⟨Tree.mono htables fun t ht => (howned t.1).mpr (htaken t ht), fun hzero => ?_,
        Represents.of_translate hrep.agree hchange rfl⟩
      rcases (howned 0).mp hzero with hold | hnew
      · exact hrep.nonzero hold
      · exact hnew.2 rfl
  | unmap virt =>
      obtain ⟨htables, hchange⟩ := @vmmUnmap_spec pml4 ⟨s.mem, []⟩ _ virt hrep.tables
      have hcleared : ∀ upper i, upper.length = 3 →
          translation pml4 (vmmUnmap pml4.1 virt ⟨s.mem, []⟩).mem upper i =
            if True ∧ upper = upperIndices virt ∧ i = ptIndex virt then none
            else translation pml4 s.mem upper i := by
        simpa only [true_and] using hchange
      exact ⟨htables, hrep.nonzero,
        Represents.of_translate hrep.agree hcleared (if_pos trivial).symm⟩
  | others mem =>
      have hsame : ∀ t ∈ {t : Page | t.1 ∈ s.owned}, view mem t = view s.mem t :=
        fun t ht => funext fun i => hallowed t.1 ht i
      obtain ⟨htables, hfollow⟩ := Tree.congr hrep.tables hsame
      refine ⟨htables, hrep.nonzero, fun a => ?_⟩
      have hpath := hfollow (upperIndices a) (length_upperIndices a).le
      have htranslate : translate pml4 mem a = translate pml4 s.mem a := by
        rw [translate, translate, translation, translation, entryAt, entryAt, hpath]
        cases hend : follow next (view s.mem) pml4 (upperIndices a) with
        | none => rfl
        | some pt =>
            have htaken := hrep.tables.taken (upperIndices a) pt (length_upperIndices a).le hend
            rw [Option.map_some, Option.map_some, hsame pt htaken]
      exact (congrArg (Option.map Subtype.val) htranslate).trans (hrep.agree a)

theorem Represents.run (hne : pml4.1 ≠ 0) {s : Vmm} {frames : Nat → Option UInt64}
    (hrun : Run pml4.1 (Vmm.new mem pml4.1) s frames) : Represents pml4 s frames := by
  induction hrun with
  | start => exact Represents.new mem hne
  | call _ c hallowed ih => exact ih.call c hallowed

/-- `vmm_get_phys` reads off the frame of a page. -/
theorem Represents.vmmGetPhys_eq {s : Vmm} {frames : Nat → Option UInt64}
    (hrep : Represents pml4 s frames) (a : UInt64) (supply : List UInt64) :
    vmmGetPhys pml4.1 a ⟨s.mem, supply⟩ = (frames (pageNumber a)).getD 0 := by
  rw [← hrep.agree a]
  exact GeckoOS.Mem.vmmGetPhys_eq pml4 a ⟨s.mem, supply⟩

/-- `vmm_get_phys` is the partial map that the calls make, by page. -/
theorem vmmGetPhys_run (mem : Nat → UInt64) (pml4 : UInt64) (hpage : pml4 &&& pteAddrMask = pml4)
    (hne : pml4 ≠ 0) {s : Vmm} {frames : Nat → Option UInt64}
    (hrun : Run pml4 (Vmm.new mem pml4) s frames) (supply : List UInt64) :
    (∀ a, vmmGetPhys pml4 a ⟨s.mem, supply⟩ = (frames (pageNumber a)).getD 0) ∧
      ∀ a b, Canonical a → Canonical b →
        (pageNumber a = pageNumber b ↔ a.toNat / 4096 = b.toNat / 4096) := by
  have hrep : Represents ⟨pml4, hpage⟩ s frames := Represents.run hne hrun
  exact ⟨fun a => hrep.vmmGetPhys_eq a supply, fun a b ha hb => pageNumber_eq_iff ha hb⟩

/-! ## One mapping -/

/-- A page table for one page, and the pages it takes. -/
def oneMapping : Call := .map 0x5000 0x7FFF2000 0x3 [0x2000, 0x3000, 0x4000]

theorem oneMapping_allowed : oneMapping.Allowed (Vmm.new (fun _ => 0xFF) 0x1000) := by
  refine ⟨?_, List.forall_mem_singleton.mpr (by decide), by decide⟩
  exact List.forall_mem_cons.mpr
    ⟨rfl, List.forall_mem_cons.mpr ⟨rfl, List.forall_mem_singleton.mpr rfl⟩⟩

theorem vmmGetPhys_run_one :
    (0x1000 : UInt64) &&& pteAddrMask = 0x1000 ∧ (0x1000 : UInt64) ≠ 0 ∧
      vmmGetPhys 0x1000 0x7FFF2ABC
        ⟨(oneMapping.exec 0x1000 (Vmm.new (fun _ => 0xFF) 0x1000)).2.mem, []⟩ =
          ((oneMapping.effect (oneMapping.exec 0x1000 (Vmm.new (fun _ => 0xFF) 0x1000)).1
            fun _ => none) (pageNumber 0x7FFF2ABC)).getD 0 :=
  ⟨rfl, by decide, (vmmGetPhys_run (fun _ => 0xFF) 0x1000 rfl (by decide)
    (.call .start oneMapping oneMapping_allowed) []).1 0x7FFF2ABC⟩

/-- An address beyond `PTE_ADDR_MASK` is not the frame that its page gets. -/
theorem vmmMap_not_clears_low :
    (vmmMap 0x1000 0x10000000005000 0x7FFF2000 0x3
      ⟨(Vmm.new (fun _ => 0xFF) 0x1000).mem, [0x2000, 0x3000, 0x4000]⟩).1 = true ∧
    vmmGetPhys 0x1000 0x7FFF2000 (vmmMap 0x1000 0x10000000005000 0x7FFF2000 0x3
      ⟨(Vmm.new (fun _ => 0xFF) 0x1000).mem, [0x2000, 0x3000, 0x4000]⟩).2 = 0x5000 ∧
    (0x5000 : UInt64) ≠ 0x10000000005000 &&& ~~~0xFFF := by
  decide

end GeckoOS.Mem
