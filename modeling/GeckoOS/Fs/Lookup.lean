/-
# The two ways to look a name up

The driver finds the file it writes, appends to or deletes by the eleven bytes that
`encode_83_name` makes of the typed name.  The commands that read a file compare the typed
name with the names of the listing, letter by letter and without regard to case.

A name that the listing shows is encoded as the entry it belongs to, so what the second
way finds, the first finds too.  The converse needs that nothing was cut off: the encoding
takes eight characters before the last dot and three behind it, and drops a dot with
nothing behind.
-/

import GeckoOS.Fs.Ownership

namespace GeckoOS.Fs

open GeckoOS.Math ByteMap

/-! ## The lookup of the commands -/

/-- The comparison of `cat`, `cp`, `mv`, `gk`, `readfile` and the editor. -/
def sameName : List UInt8 → List UInt8 → Bool
  | a :: as, b :: bs => if upperCase a ≠ upperCase b then false else sameName as bs
  | as, bs => as = [] ∧ bs = []

/-- The index of the file that these commands find. -/
def findFile (fname : List UInt8) : List RootEntry → Option Nat
  | [] => none
  | .directory _ :: rest => (findFile fname rest).map (· + 1)
  | .file file :: rest =>
      if sameName file.name fname then some 0 else (findFile fname rest).map (· + 1)

variable {c : UInt8} {raw base ext name chars : List UInt8} {dir : List Slot} {s : Slot}

theorem sameName_iff (as bs : List UInt8) :
    sameName as bs = true ↔ as.map upperCase = bs.map upperCase := by
  induction as generalizing bs with
  | nil => cases bs <;> simp [sameName]
  | cons a as ih =>
      cases bs with
      | nil => simp [sameName]
      | cons b bs =>
          rw [sameName, List.map_cons, List.map_cons, List.cons_eq_cons, ← ih]
          split_ifs with hne
          · simp [hne]
          · simp [not_not.mp hne]

/-! ## Names of entries -/

/-- A character of a name in upper case. -/
structure NameChar (c : UInt8) : Prop where
  nul : c ≠ 0
  space : c ≠ Fs.space
  dot : c ≠ dotChar
  upper : upperCase c = c

/-- The eleven bytes of a base and an extension. -/
def padded (base ext : List UInt8) : List UInt8 :=
  base ++ List.replicate (8 - base.length) space ++ (ext ++ List.replicate (3 - ext.length) space)

/-- An 8.3 name in upper case. -/
structure IsName (raw base ext : List UInt8) : Prop where
  nonempty : base ≠ []
  base_le : base.length ≤ 8
  ext_le : ext.length ≤ 3
  chars : ∀ c ∈ base ++ ext, NameChar c
  raw : raw = padded base ext

/-- The name that the listing shows. -/
def display (base ext : List UInt8) : List UInt8 :=
  if ext = [] then base else base ++ dotChar :: ext

theorem takeWhile_padding (hchars : ∀ c ∈ chars, c ≠ space) (n : Nat) :
    (chars ++ List.replicate n space).takeWhile (· ≠ space) = chars := by
  rw [List.takeWhile_append_of_pos (fun c hc => decide_eq_true (hchars c hc))]
  cases n with
  | zero => exact List.append_nil _
  | succ n => rw [List.replicate_succ, List.takeWhile_cons_of_neg (by simp), List.append_nil]

theorem any_padding (hchars : ∀ c ∈ chars, c ≠ space) (n : Nat) :
    (chars ++ List.replicate n space).any (· ≠ space) = decide (chars ≠ []) := by
  cases chars with
  | nil => simp
  | cons c chars => simp [hchars c List.mem_cons_self]

theorem length_padding {width : Nat} (hlength : chars.length ≤ width) :
    (chars ++ List.replicate (width - chars.length) space).length = width := by
  rw [List.length_append, List.length_replicate]
  omega

namespace IsName

variable (hraw : IsName raw base ext)
include hraw

theorem base_char (hc : c ∈ base) : NameChar c := hraw.chars c (List.mem_append_left _ hc)

theorem ext_char (hc : c ∈ ext) : NameChar c := hraw.chars c (List.mem_append_right _ hc)

theorem take : raw.take 8 = base ++ List.replicate (8 - base.length) space := by
  rw [hraw.raw, padded, List.take_left' (length_padding hraw.base_le)]

theorem drop : raw.drop 8 = ext ++ List.replicate (3 - ext.length) space := by
  rw [hraw.raw, padded, List.drop_left' (length_padding hraw.base_le)]

theorem format83Name : Fs.format83Name raw = display base ext := by
  have hbase : ∀ c ∈ base, c ≠ space := fun c hc => (hraw.base_char hc).space
  have hext : ∀ c ∈ ext, c ≠ space := fun c hc => (hraw.ext_char hc).space
  rw [Fs.format83Name, hraw.take, hraw.drop, takeWhile_padding hbase, takeWhile_padding hext,
    any_padding hext, display]
  by_cases hnil : ext = [] <;> simp [hnil]

theorem map_upperCase_display : (display base ext).map upperCase = display base ext := by
  have hbase : base.map upperCase = base :=
    List.map_congr_left (fun c hc => (hraw.base_char hc).upper) |>.trans (List.map_id _)
  have hext : ext.map upperCase = ext :=
    List.map_congr_left (fun c hc => (hraw.ext_char hc).upper) |>.trans (List.map_id _)
  rw [display]
  split_ifs with hnil
  · exact hbase
  · rw [List.map_append, List.map_cons, hbase, hext]
    rfl

end IsName

/-! ## Typed names -/

theorem lastDot_eq_none : lastDot name = none ↔ dotChar ∉ name := by
  induction name with
  | nil => simp [lastDot]
  | cons c rest ih =>
      rw [lastDot, List.mem_cons, not_or, ← ih]
      cases lastDot rest with
      | some dot => simp
      | none =>
          by_cases hc : c = dotChar
          · simp [hc]
          · simp [hc, Ne.symm hc]

theorem lastDot_append {front back : List UInt8} (hback : dotChar ∉ back) :
    lastDot (front ++ dotChar :: back) = some front.length := by
  induction front with
  | nil =>
      rw [List.nil_append, lastDot, lastDot_eq_none.mpr hback]
      rfl
  | cons c front ih => rw [List.cons_append, lastDot, ih, List.length_cons]

theorem exists_of_lastDot {dot : Nat} (hdot : lastDot name = some dot) :
    ∃ front back, name = front ++ dotChar :: back ∧ front.length = dot ∧ dotChar ∉ back := by
  have hmem : dotChar ∈ name := by
    by_contra hnone
    rw [lastDot_eq_none.mpr hnone] at hdot
    cases hdot
  obtain ⟨back, front, hname, hback⟩ := List.eq_append_cons_of_mem (List.mem_reverse.mpr hmem)
  have hsplit : name = front.reverse ++ dotChar :: back.reverse := by
    rw [← List.reverse_reverse name, hname, List.reverse_append, List.reverse_cons,
      List.append_assoc, List.singleton_append]
  have hlast : dotChar ∉ back.reverse := fun hc => hback (List.mem_reverse.mp hc)
  refine ⟨front.reverse, back.reverse, hsplit, ?_, hlast⟩
  rw [hsplit, lastDot_append hlast] at hdot
  exact Option.some.inj hdot

/-- Nothing of the name is cut off: eight characters at most before the last dot, and one to
three behind it. -/
def Fits (name : List UInt8) : Prop :=
  match lastDot name with
  | none => name.length ≤ 8
  | some dot => dot ≤ 8 ∧ dot + 1 < name.length ∧ name.length ≤ dot + 4

/-- Only letters change, and into letters. -/
theorem upperCase_eq_iff {d : UInt8} (hd : d < 0x41) : upperCase c = d ↔ c = d := by
  rw [upperCase]
  split_ifs with hlower
  · have hletter : ¬c - 32 = d ∧ ¬c = d := by
      rw [UInt8.lt_iff_toNat_lt] at hd
      rw [UInt8.le_iff_toNat_le, UInt8.le_iff_toNat_le] at hlower
      have hsub : (c - 32).toNat = c.toNat - 32 :=
        UInt8.toNat_sub_of_le c 32 (UInt8.le_iff_toNat_le.mpr (by
          have hlow : (0x61 : UInt8).toNat = 97 := rfl
          have h32 : (32 : UInt8).toNat = 32 := rfl
          omega))
      have hlow : (0x61 : UInt8).toNat = 97 := rfl
      have h41 : (0x41 : UInt8).toNat = 65 := rfl
      refine ⟨fun hsame => ?_, fun hsame => ?_⟩
      · rw [← hsame, hsub] at hd
        omega
      · rw [← hsame] at hd
        omega
    exact iff_of_false hletter.1 hletter.2
  · exact Iff.rfl

theorem upperCase_eq_dot : upperCase c = dotChar ↔ c = dotChar := upperCase_eq_iff (by decide)

theorem upperCase_eq_space : upperCase c = space ↔ c = space := upperCase_eq_iff (by decide)

/-- The two fields of an encoded name are those of an entry. -/
theorem fields_eq_iff (hraw : IsName raw base ext) {front back : List UInt8}
    (hfront : space ∉ front) (hback : space ∉ back) :
    nameField 8 front ++ nameField 3 back = raw ↔
      (front.take 8).map upperCase = base ∧ (back.take 3).map upperCase = ext := by
  have hspaceless : ∀ (chars : List UInt8) (n : Nat), space ∉ chars →
      ∀ c ∈ (chars.take n).map upperCase, c ≠ space := by
    intro chars n hchars c hc hspace
    obtain ⟨a, ha, rfl⟩ := List.mem_map.mp hc
    rw [upperCase_eq_space] at hspace
    exact hchars (hspace ▸ List.mem_of_mem_take ha)
  constructor
  · intro hsame
    have htake := congrArg (List.take 8) hsame
    have hdrop := congrArg (List.drop 8) hsame
    rw [List.take_left' (length_nameField 8 front), hraw.take, nameField] at htake
    rw [List.drop_left' (length_nameField 8 front), hraw.drop, nameField] at hdrop
    have hbase := congrArg (List.takeWhile (· ≠ space)) htake
    have hext := congrArg (List.takeWhile (· ≠ space)) hdrop
    rw [takeWhile_padding (hspaceless front 8 hfront),
      takeWhile_padding fun c hc => (hraw.base_char hc).space] at hbase
    rw [takeWhile_padding (hspaceless back 3 hback),
      takeWhile_padding fun c hc => (hraw.ext_char hc).space] at hext
    exact ⟨hbase, hext⟩
  · rintro ⟨rfl, rfl⟩
    exact hraw.raw.symm

/-- A name that fits and is encoded as an entry is shown as this entry. -/
theorem display_of_encode (hraw : IsName raw base ext) (hspace : space ∉ name) (hfits : Fits name)
    (hencode : encode83Name name = raw) : name.map upperCase = display base ext := by
  rw [Fits] at hfits
  rw [encode83Name] at hencode
  cases hdot : lastDot name with
  | none =>
      simp only [hdot] at hfits hencode
      obtain ⟨hbase, hext⟩ := (fields_eq_iff hraw hspace (List.not_mem_nil)).mp hencode
      rw [List.take_of_length_le hfits] at hbase
      rw [List.take_nil, List.map_nil] at hext
      rw [display, if_pos hext.symm, hbase]
  | some dot =>
      simp only [hdot] at hfits hencode
      obtain ⟨front, back, rfl, rfl, hback⟩ := exists_of_lastDot hdot
      rw [List.length_append, List.length_cons] at hfits
      have hdrop : (front ++ dotChar :: back).drop (front.length + 1) = back := by
        rw [List.drop_append, List.drop_of_length_le (by omega), List.nil_append,
          Nat.add_sub_cancel_left]
        rfl
      rw [List.take_left, hdrop] at hencode
      obtain ⟨hbase, hext⟩ := (fields_eq_iff hraw (fun hc => hspace (List.mem_append_left _ hc))
        fun hc => hspace (List.mem_append_right _ (List.mem_cons_of_mem _ hc))).mp hencode
      rw [List.take_of_length_le hfits.1] at hbase
      rw [List.take_of_length_le (by omega)] at hext
      have hne : ext ≠ [] := by
        rw [← hext]
        intro hnil
        have hlength := congrArg List.length hnil
        rw [List.length_map, List.length_nil] at hlength
        omega
      rw [display, if_neg hne, List.map_append, List.map_cons, hbase, hext]
      rfl

/-- A name that the listing shows fits, and is encoded as the entry shown. -/
theorem encode_of_display (hraw : IsName raw base ext) (hspace : space ∉ name)
    (hshown : name.map upperCase = display base ext) : Fits name ∧ encode83Name name = raw := by
  have hnodot : ∀ chars : List UInt8, (∀ c ∈ chars.map upperCase, c ≠ dotChar) → dotChar ∉ chars :=
    fun chars hchars hmem => hchars _ (List.mem_map_of_mem hmem) (upperCase_eq_dot.mpr rfl)
  rw [display] at hshown
  split_ifs at hshown with hnil
  · have hnone : lastDot name = none := by
      refine lastDot_eq_none.mpr (hnodot name fun c hc => ?_)
      rw [hshown] at hc
      exact (hraw.base_char hc).dot
    have hlength := congrArg List.length hshown
    rw [List.length_map] at hlength
    have hshort : name.length ≤ 8 := hlength.trans_le hraw.base_le
    refine ⟨?_, ?_⟩
    · rw [Fits, hnone]
      exact hshort
    · rw [encode83Name, hnone]
      refine (fields_eq_iff hraw hspace List.not_mem_nil).mpr ⟨?_, hnil.symm⟩
      rw [List.take_of_length_le hshort, hshown]
  · obtain ⟨front, rest, rfl, hbase, hrest⟩ := List.map_eq_append_iff.mp hshown
    obtain ⟨c, back, rfl, hc, hext⟩ := List.map_eq_cons_iff.mp hrest
    rw [upperCase_eq_dot] at hc
    subst hc
    have hback : dotChar ∉ back := hnodot back fun c hc => by
      rw [hext] at hc
      exact (hraw.ext_char hc).dot
    have hbaseLength := congrArg List.length hbase
    have hextLength := congrArg List.length hext
    rw [List.length_map] at hbaseLength hextLength
    have hbaseLe := hraw.base_le
    have hextLe := hraw.ext_le
    have hextPos := List.length_pos_of_ne_nil hnil
    have hdrop : (front ++ dotChar :: back).drop (front.length + 1) = back := by
      rw [List.drop_append, List.drop_of_length_le (by omega), List.nil_append,
        Nat.add_sub_cancel_left]
      rfl
    refine ⟨?_, ?_⟩
    · rw [Fits, lastDot_append hback]
      dsimp only
      rw [List.length_append, List.length_cons]
      omega
    · rw [encode83Name, lastDot_append hback]
      dsimp only
      rw [List.take_left, hdrop]
      refine (fields_eq_iff hraw (fun hc => hspace (List.mem_append_left _ hc))
        fun hc => hspace (List.mem_append_right _ (List.mem_cons_of_mem _ hc))).mpr ⟨?_, ?_⟩
      · rw [List.take_of_length_le (by omega), hbase]
      · rw [List.take_of_length_le (by omega), hext]

/-! ## The two lookups in a directory -/

/-- The directory of the claim's kind: 8.3 names in upper case, all of them different. -/
structure Distinct (dir : List Slot) : Prop where
  named : ∀ s ∈ listing dir, ∃ base ext, IsName s.name base ext
  nodup : ((listing dir).map Slot.name).Nodup

theorem mem_listing_of_findName {i : Nat} (hfind : findName raw dir = some i) :
    ∃ s, dir[i]? = some s ∧ s ∈ listing dir ∧ s.name = raw := by
  induction dir generalizing i with
  | nil => cases hfind
  | cons t rest ih =>
      rw [findName] at hfind
      rw [listing, List.takeWhile_cons]
      split_ifs at hfind with hend hmatch
      · obtain rfl := Option.some.inj hfind
        refine ⟨t, rfl, ?_, hmatch.2⟩
        rw [if_pos (decide_eq_true hend), List.filter_cons, if_pos hmatch.1]
        exact List.mem_cons_self
      · obtain ⟨j, hj, rfl⟩ := Option.map_eq_some_iff.mp hfind
        obtain ⟨s, hget, hmem, hname⟩ := ih hj
        refine ⟨s, hget, ?_, hname⟩
        rw [if_pos (decide_eq_true hend), List.filter_cons]
        split_ifs
        · exact List.mem_cons_of_mem _ hmem
        · exact hmem

theorem findName_of_mem_listing (hmem : s ∈ listing dir) : ∃ i, findName s.name dir = some i := by
  induction dir with
  | nil => cases hmem
  | cons t rest ih =>
      rw [listing, List.takeWhile_cons] at hmem
      rw [findName]
      by_cases hend : t.first = entryEnd
      · rw [if_neg (by simpa using hend)] at hmem
        cases hmem
      · rw [if_pos (decide_eq_true hend), List.filter_cons] at hmem
        rw [if_neg hend]
        by_cases hmatch : t.listed ∧ t.name = s.name
        · exact ⟨0, if_pos hmatch⟩
        · rw [if_neg hmatch]
          split_ifs at hmem with hlisted
          · rcases List.mem_cons.mp hmem with rfl | hrest
            · exact absurd ⟨hlisted, rfl⟩ hmatch
            · obtain ⟨i, hi⟩ := ih hrest
              exact ⟨i + 1, by rw [hi]; rfl⟩
          · obtain ⟨i, hi⟩ := ih hmem
            exact ⟨i + 1, by rw [hi]; rfl⟩

/-- Entries of one name are one entry. -/
theorem Distinct.eq (hdistinct : Distinct dir) {t : Slot} (hs : s ∈ listing dir)
    (ht : t ∈ listing dir) (hname : s.name = t.name) : s = t :=
  List.inj_on_of_nodup_map hdistinct.nodup hs ht hname

theorem findFile_some {entries : List Slot} {k : Nat}
    (hfind : findFile name (entries.map Slot.rootEntry) = some k) :
    ∃ s, entries[k]? = some s ∧ s.attributes &&& attrDirectory = 0 ∧
      sameName (format83Name s.name) name = true := by
  induction entries generalizing k with
  | nil => cases hfind
  | cons t rest ih =>
      rw [List.map_cons, Slot.rootEntry] at hfind
      split_ifs at hfind with hdir
      · rw [findFile] at hfind
        obtain ⟨j, hj, rfl⟩ := Option.map_eq_some_iff.mp hfind
        exact ih hj
      · rw [findFile] at hfind
        split_ifs at hfind with hsame
        · obtain rfl := Option.some.inj hfind
          exact ⟨t, rfl, not_not.mp hdir, hsame⟩
        · obtain ⟨j, hj, rfl⟩ := Option.map_eq_some_iff.mp hfind
          exact ih hj

theorem findFile_none {entries : List Slot}
    (hfind : findFile name (entries.map Slot.rootEntry) = none) (hs : s ∈ entries)
    (hfile : s.attributes &&& attrDirectory = 0) : ¬sameName (format83Name s.name) name = true := by
  induction entries with
  | nil => cases hs
  | cons t rest ih =>
      rw [List.map_cons, Slot.rootEntry] at hfind
      split_ifs at hfind with hdir
      · rw [findFile, Option.map_eq_none_iff] at hfind
        rcases List.mem_cons.mp hs with rfl | hrest
        · exact absurd hfile hdir
        · exact ih hfind hrest
      · rw [findFile] at hfind
        split_ifs at hfind with hsame
        rw [Option.map_eq_none_iff] at hfind
        rcases List.mem_cons.mp hs with rfl | hrest
        · exact hsame
        · exact ih hfind hrest

namespace Geometry

variable {g : Geometry} {b : ByteMap}

/-- `dir_search_cb` finds this regular file for a name. -/
def SearchFinds (g : Geometry) (b : ByteMap) (name : List UInt8) (s : Slot) : Prop :=
  ∃ ctx d, dirIterate (disk b) g.vol g.vol.rootCluster dirSearchCb (.forName name) = some (ctx, d) ∧
    ctx.found = true ∧ slotOf ctx.result = s ∧ s.attributes &&& attrDirectory = 0

/-- The commands find this regular file for a name. -/
def CommandFinds (g : Geometry) (b : ByteMap) (name : List UInt8) (s : Slot) : Prop :=
  ∃ entries d k, getRootEntries (disk b) g.vol = some (entries, d) ∧
    findFile name entries.entries = some k ∧ (listing (g.image b).dir)[k]? = some s

/-- The search finds the file whose eleven bytes the name is encoded as. -/
theorem searchFinds_iff (hroot : g.RootChain (g.image b).fat)
    (hdistinct : Distinct (g.image b).dir) :
    g.SearchFinds b name s ↔ s ∈ listing (g.image b).dir ∧ s.attributes &&& attrDirectory = 0 ∧
      encode83Name name = s.name := by
  constructor
  · rintro ⟨ctx, d, hsearch, hfound, rfl, hfile⟩
    cases hfind : findName (encode83Name name) (g.image b).dir with
    | none =>
        rw [search_name_none hroot hfind] at hsearch
        obtain ⟨rfl, rfl⟩ := Prod.mk.inj (Option.some.inj hsearch)
        exact absurd hfound Bool.false_ne_true
    | some i =>
        obtain ⟨p, hp, hrun⟩ := search_name_some hroot hfind
        rw [hrun] at hsearch
        obtain ⟨rfl, rfl⟩ := Prod.mk.inj (Option.some.inj hsearch)
        obtain ⟨t, hget, hmem, hname⟩ := mem_listing_of_findName hfind
        obtain ⟨q, hq, hslot⟩ := slots_of_dir hget
        obtain rfl := Option.some.inj (hp.symm.trans hq)
        exact ⟨hslot ▸ hmem, hfile, by rw [← hname, ← hslot]⟩
  · rintro ⟨hmem, hfile, hname⟩
    obtain ⟨i, hfind⟩ := findName_of_mem_listing hmem
    rw [← hname] at hfind
    obtain ⟨p, hp, hrun⟩ := search_name_some hroot hfind
    obtain ⟨t, hget, htmem, htname⟩ := mem_listing_of_findName hfind
    obtain ⟨q, hq, hslot⟩ := slots_of_dir hget
    obtain rfl := Option.some.inj (hp.symm.trans hq)
    obtain rfl := hdistinct.eq htmem hmem (htname.trans hname)
    exact ⟨_, _, hrun, rfl, hslot, hfile⟩

/-- The commands find the file that is listed under the name. -/
theorem commandFinds_iff (hroot : g.RootChain (g.image b).fat)
    (hdistinct : Distinct (g.image b).dir) (hspace : space ∉ name) :
    g.CommandFinds b name s ↔ s ∈ listing (g.image b).dir ∧ s.attributes &&& attrDirectory = 0 ∧
      Fits name ∧ encode83Name name = s.name := by
  have hshown : ∀ t ∈ listing (g.image b).dir,
      (sameName (format83Name t.name) name = true ↔ Fits name ∧ encode83Name name = t.name) := by
    intro t ht
    obtain ⟨base, ext, hraw⟩ := hdistinct.named t ht
    rw [sameName_iff, hraw.format83Name, hraw.map_upperCase_display]
    exact ⟨fun hsame => encode_of_display hraw hspace hsame.symm,
      fun hboth => (display_of_encode hraw hspace hboth.1 hboth.2).symm⟩
  constructor
  · rintro ⟨entries, d, k, hlist, hfind, hget⟩
    rw [getRootEntries_disk hroot] at hlist
    obtain ⟨rfl, rfl⟩ := Prod.mk.inj (Option.some.inj hlist)
    obtain ⟨t, ht, hfile, hsame⟩ := findFile_some hfind
    obtain rfl := Option.some.inj (hget.symm.trans ht)
    have hmem := List.mem_of_getElem? hget
    exact ⟨hmem, hfile, (hshown s hmem).mp hsame⟩
  · rintro ⟨hmem, hfile, hfits⟩
    cases hfind : findFile name (rootEntries (g.image b).dir).entries with
    | none => exact absurd ((hshown s hmem).mpr hfits) (findFile_none hfind hmem hfile)
    | some k =>
        obtain ⟨t, ht, -, hsame⟩ := findFile_some hfind
        have htmem := List.mem_of_getElem? ht
        obtain rfl := hdistinct.eq htmem hmem
          (((hshown t htmem).mp hsame).2.symm.trans hfits.2)
        exact ⟨rootEntries (g.image b).dir, disk b, k, getRootEntries_disk hroot, hfind, ht⟩

/-- The lookups agree if the name fits, or if no file has the eleven bytes that are left of it. -/
theorem lookups_agree_iff (hroot : g.RootChain (g.image b).fat)
    (hdistinct : Distinct (g.image b).dir) (name : List UInt8) (hspace : space ∉ name) :
    (∀ s, g.SearchFinds b name s ↔ g.CommandFinds b name s) ↔
      Fits name ∨ ∀ s ∈ listing (g.image b).dir, s.attributes &&& attrDirectory = 0 →
        encode83Name name ≠ s.name := by
  simp only [searchFinds_iff hroot hdistinct, commandFinds_iff hroot hdistinct hspace]
  constructor
  · intro hagree
    by_cases hfits : Fits name
    · exact .inl hfits
    · exact .inr fun s hmem hfile hname => hfits ((hagree s).mp ⟨hmem, hfile, hname⟩).2.2.1
  · rintro (hfits | hnone) s
    · exact ⟨fun h => ⟨h.1, h.2.1, hfits, h.2.2⟩, fun h => ⟨h.1, h.2.1, h.2.2.2⟩⟩
    · exact ⟨fun h => absurd h.2.2 (hnone s h.1 h.2.1), fun h => absurd h.2.2.2 (hnone s h.1 h.2.1)⟩

/-! ## One file -/

/-- `ABCDEFGH`, as a C string. -/
def eightLetters : List UInt8 := [0x41, 0x42, 0x43, 0x44, 0x45, 0x46, 0x47, 0x48]

/-- A small volume with one file of eight letters. -/
def oneFile : ByteMap :=
  blit smallVolume.formatted (slotPos (1, 0)) (newFileEntry eightLetters 0 0) 32

theorem image_oneFile : smallVolume.image oneFile =
    (smallVolume.image smallVolume.formatted).setSlot 0
      ⟨encode83Name eightLetters, attrArchive, 0, 0⟩ := by
  have hslot : smallVolume.slots[0]? = some (1, 0) := rfl
  rw [oneFile, image_blit_slot hslot, DirEntry.slotOf_newFileEntry (by decide)
    (length_encode83Name eightLetters)]
  rfl

theorem rootChain_oneFile : smallVolume.RootChain (smallVolume.image oneFile).fat := by
  rw [image_oneFile, Image.setSlot_fat]
  exact (smallVolume.formatted_chained rfl fun s hs => hs).root

theorem listing_oneFile : listing (smallVolume.image oneFile).dir =
    [⟨encode83Name eightLetters, attrArchive, 0, 0⟩] := by
  rw [image_oneFile, Image.setSlot_dir, image_formatted]
  rfl

theorem isName_oneFile : IsName (encode83Name eightLetters) eightLetters [] := by
  refine ⟨by decide, by decide, by decide, fun c hc => ?_, by decide⟩
  rw [List.append_nil] at hc
  have hall : ∀ c ∈ eightLetters, c ≠ 0 ∧ c ≠ space ∧ c ≠ dotChar ∧ upperCase c = c := by
    decide +kernel
  obtain ⟨hnul, hspace, hdot, hupper⟩ := hall c hc
  exact ⟨hnul, hspace, hdot, hupper⟩

theorem distinct_oneFile : Distinct (smallVolume.image oneFile).dir := by
  refine ⟨fun s hs => ?_, ?_⟩
  · rw [listing_oneFile] at hs
    obtain rfl := List.mem_singleton.mp hs
    exact ⟨eightLetters, [], isName_oneFile⟩
  · rw [listing_oneFile]
    exact List.nodup_singleton _

theorem lookups_agree_oneFile :
    smallVolume.RootChain (smallVolume.image oneFile).fat ∧
      Distinct (smallVolume.image oneFile).dir ∧ space ∉ eightLetters ∧
        ((∀ s, smallVolume.SearchFinds oneFile eightLetters s ↔
          smallVolume.CommandFinds oneFile eightLetters s) ↔
        Fits eightLetters ∨ ∀ s ∈ listing (smallVolume.image oneFile).dir,
          s.attributes &&& attrDirectory = 0 → encode83Name eightLetters ≠ s.name) :=
  ⟨rootChain_oneFile, distinct_oneFile, by decide,
    lookups_agree_iff rootChain_oneFile distinct_oneFile eightLetters (by decide)⟩

/-- One letter more, and `rm` finds what `cat` does not. -/
theorem lookups_differ :
    smallVolume.RootChain (smallVolume.image oneFile).fat ∧
      Distinct (smallVolume.image oneFile).dir ∧ space ∉ eightLetters ++ [0x49] ∧
        ¬∀ s, smallVolume.SearchFinds oneFile (eightLetters ++ [0x49]) s ↔
          smallVolume.CommandFinds oneFile (eightLetters ++ [0x49]) s := by
  have hspace : space ∉ eightLetters ++ [0x49] := by decide
  refine ⟨rootChain_oneFile, distinct_oneFile, hspace, fun hagree => ?_⟩
  have hmem : Slot.mk (encode83Name eightLetters) attrArchive 0 0 ∈
      listing (smallVolume.image oneFile).dir := by
    rw [listing_oneFile]
    exact List.mem_singleton_self _
  have hsearch := (searchFinds_iff rootChain_oneFile distinct_oneFile).mpr
    ⟨hmem, by decide,
      (by decide : encode83Name (eightLetters ++ [0x49]) = encode83Name eightLetters)⟩
  have hfound := (hagree _).mp hsearch
  rw [commandFinds_iff rootChain_oneFile distinct_oneFile hspace] at hfound
  have hfits := hfound.2.2.1
  have hnodot : lastDot (eightLetters ++ [0x49]) = none := by decide
  simp only [Fits, hnodot] at hfits
  exact absurd hfits (by decide)

end Geometry

end GeckoOS.Fs
