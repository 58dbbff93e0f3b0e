/-
# The store that a volume stands for

To its user a volume is a map from names to files and directories.  Creating and replacing a
file set what a name stands for, appending extends it, deleting removes it, and a call that
fails changes nothing.

The driver keeps this map in a directory of 32-byte entries and a table of chains.  As long as
no replacement runs out of room in the middle, every run of its functions agrees with the map:
what the listing of the root directory shows and what reading the listed files gives is the
map at that point.
-/

import GeckoOS.Fs.Appending
import GeckoOS.Fs.UniqueNames

namespace GeckoOS.Fs

open GeckoOS.Math ByteMap

/-! ## The map -/

/-- What a name stands for. -/
inductive Item
  | file (content : List UInt8)
  | directory

/-- The items of a volume, by the eleven bytes of their names. -/
abbrev Store := List UInt8 → Option Item

namespace Store

/-- The bytes of a file; none for other names. -/
def bytes (store : Store) (raw : List UInt8) : List UInt8 :=
  match store raw with
  | some (.file content) => content
  | _ => []

/-- The map after a call that succeeds. -/
def after (store : Store) : FileCall → Store
  | .createFile name content | .writeFile name content =>
      Function.update store (encode83Name name.1) (some (.file content))
  | .appendFile name content =>
      Function.update store (encode83Name name.1)
        (some (.file (store.bytes (encode83Name name.1) ++ content)))
  | .deleteFile name => Function.update store (encode83Name name.1) none
  | .mkdir name => Function.update store (encode83Name name.1) (some .directory)

/-- The calls that are about files and keep names apart: nothing is created twice, no file is
written over a directory, no name begins with the mark of a deleted entry, and sizes have
32 bits. -/
def Admits (store : Store) : FileCall → Prop
  | .createFile name content =>
      store (encode83Name name.1) = none ∧ (encode83Name name.1).headD 0 ≠ entryFree ∧
        content.length < 2 ^ 32
  | .writeFile name content =>
      store (encode83Name name.1) ≠ some .directory ∧ (encode83Name name.1).headD 0 ≠ entryFree ∧
        content.length < 2 ^ 32
  | .appendFile name content =>
      store (encode83Name name.1) ≠ some .directory ∧ (encode83Name name.1).headD 0 ≠ entryFree ∧
        (store.bytes (encode83Name name.1)).length + content.length < 2 ^ 32
  | .deleteFile _ => True
  | .mkdir name =>
      store (encode83Name name.1) = none ∧ (encode83Name name.1).headD 0 ≠ entryFree

/-- The call replaces a file that is there; such a call frees the old bytes first. -/
def Replaces (store : Store) : FileCall → Prop
  | .writeFile name _ => store (encode83Name name.1) ≠ none
  | _ => False

end Store

namespace Geometry

/-! ## The volume and the map -/

/-- Slot `i` with its chain is the entry of an item. -/
def HoldsItem (g : Geometry) (img : Image) (i : Nat) (slot : Slot) (nodes : List Nat) :
    Item → Prop
  | .file content => g.FileIn img i slot nodes content
  | .directory => slot.attributes &&& attrDirectory ≠ 0

/-- The live entries of an image are the items of a store, one entry for each. -/
structure Holds (g : Geometry) (img : Image) (chains : Nat → List Nat) (store : Store) : Prop where
  chained : g.Chained (fun s => s.live) img chains
  unique : UniqueNames img.dir
  item : ∀ i slot, img.dir[i]? = some slot → slot.live →
    ∃ item, store slot.name = some item ∧ g.HoldsItem img i slot (chains i) item
  named : ∀ raw, store raw ≠ none → ∃ (i : Nat) (slot : Slot),
    img.dir[i]? = some slot ∧ slot.live ∧ slot.name = raw

variable {g : Geometry} {b : ByteMap} {img img' img₁ : Image} {chains : Nat → List Nat}
  {store : Store} {i j : Nat} {slot : Slot} {ks nodes : List Nat} {content new raw : List UInt8}
  {name : CString} {r : Int} {call : FileCall}

/-- What a search for a name finds is what the name stands for. -/
theorem Holds.find (hholds : g.Holds img chains store) (hfind : findName raw img.dir = some i) :
    ∃ slot item, img.dir[i]? = some slot ∧ slot.live ∧ slot.name = raw ∧
      store raw = some item ∧ g.HoldsItem img i slot (chains i) item := by
  obtain ⟨slot, hget, hlive, rfl⟩ := findName_spec hfind
  obtain ⟨item, hstore, hitem⟩ := hholds.item i slot hget hlive
  exact ⟨slot, item, hget, hlive, rfl, hstore, hitem⟩

theorem Holds.find_none (hholds : g.Holds img chains store) :
    findName raw img.dir = none ↔ store raw = none := by
  constructor
  · intro hfind
    by_contra hsome
    obtain ⟨i, slot, hget, hlive, hname⟩ := hholds.named raw hsome
    exact findName_none hholds.chained.clean hfind hget hlive hname
  · intro hnone
    by_contra hsome
    obtain ⟨i, hfind⟩ := Option.ne_none_iff_exists'.mp hsome
    obtain ⟨slot, item, -, -, -, hstore, -⟩ := hholds.find hfind
    rw [hnone] at hstore
    cases hstore

/-- A live entry is found under its name. -/
theorem Holds.findName_eq (hholds : g.Holds img chains store) (hget : img.dir[i]? = some slot)
    (hlive : slot.live) : findName slot.name img.dir = some i := by
  obtain ⟨item, hstore, -⟩ := hholds.item i slot hget hlive
  obtain ⟨j, hfind⟩ := Option.ne_none_iff_exists'.mp fun hnone => by
    rw [hholds.find_none.mp hnone] at hstore
    cases hstore
  obtain ⟨t, _, ht, htlive, htname, -⟩ := hholds.find hfind
  rw [hfind, hholds.unique j i t slot ht hget htlive hlive htname]

/-- One slot is rewritten: it held `raw` or nothing, and now it holds `raw` as `item`, or
nothing. -/
theorem Holds.rewrite {item : Option Item} (hholds : g.Holds img chains store)
    (hdir : img'.dir = img.dir.set i slot) (hi : i < img.dir.length)
    (hchained : g.Chained (fun s => s.live) img' (Function.update chains i nodes))
    (hothers : ∀ j s content, j ≠ i → g.FileIn img j s (chains j) content →
      g.FileIn img' j s (chains j) content)
    (hold : ∀ s, img.dir[i]? = some s → s.live → s.name = raw)
    (hfresh : (∀ s, img.dir[i]? = some s → ¬s.live) → store raw = none)
    (hnew : ∀ new, item = some new → slot.live ∧ slot.name = raw ∧
      g.HoldsItem img' i slot nodes new) (hgone : item = none → ¬slot.live) :
    g.Holds img' (Function.update chains i nodes) (Function.update store raw item) := by
  have hself : img'.dir[i]? = some slot := by
    rw [hdir]
    exact List.getElem?_set_self hi
  have hother : ∀ j, j ≠ i → img'.dir[j]? = img.dir[j]? := fun j hj => by rw [hdir, dir_set_ne hj]
  have hapart : ∀ j s, j ≠ i → img.dir[j]? = some s → s.live → s.name ≠ raw := by
    intro j s hj hget hlive hname
    by_cases hdead : ∀ t, img.dir[i]? = some t → ¬t.live
    · obtain ⟨_, hstore, -⟩ := hholds.item j s hget hlive
      rw [hname, hfresh hdead] at hstore
      cases hstore
    · push Not at hdead
      obtain ⟨t, ht, htlive⟩ := hdead
      exact hj (hholds.unique j i s t hget ht hlive htlive (hname.trans (hold t ht htlive).symm))
  refine ⟨hchained, ?_, fun j s hget hlive => ?_, fun raw' hsome => ?_⟩
  · rw [hdir]
    refine (hholds.unique.set_iff hi).mpr fun hlive j t hj ht htlive => ?_
    cases item with
    | none => exact absurd hlive (hgone rfl)
    | some new =>
        rw [(hnew new rfl).2.1]
        exact hapart j t hj ht htlive
  · by_cases hj : j = i
    · subst hj
      obtain rfl := Option.some.inj (hself.symm.trans hget)
      cases item with
      | none => exact absurd hlive (hgone rfl)
      | some new =>
          obtain ⟨-, hname, hitem⟩ := hnew new rfl
          refine ⟨new, ?_, ?_⟩
          · rw [hname, Function.update_self]
          · rwa [Function.update_self]
    · rw [hother j hj] at hget
      obtain ⟨old, hstore, hitem⟩ := hholds.item j s hget hlive
      refine ⟨old, ?_, ?_⟩
      · rwa [Function.update_of_ne (hapart j s hj hget hlive)]
      · rw [Function.update_of_ne hj]
        cases old with
        | file content => exact hothers j s content hj hitem
        | directory => exact hitem
  · by_cases hraw : raw' = raw
    · subst hraw
      rw [Function.update_self] at hsome
      obtain ⟨new, rfl⟩ := Option.ne_none_iff_exists'.mp hsome
      obtain ⟨hlive, hname, -⟩ := hnew new rfl
      exact ⟨i, slot, hself, hlive, hname⟩
    · rw [Function.update_of_ne hraw] at hsome
      obtain ⟨j, s, hget, hlive, hname⟩ := hholds.named raw' hsome
      have hj : j ≠ i := by
        rintro rfl
        exact hraw (hname.symm.trans (hold s hget hlive))
      exact ⟨j, s, (hother j hj).trans hget, hlive, hname⟩

/-! ## One call -/

/-- Content is laid out for a slot, and the slot is set. -/
theorem Holds.stored_slot {item : Option Item} (hholds : g.Holds img chains store)
    (hlaid : g.Laid (img.release (chains i)) img₁ 0 ks content)
    (hsub : ∀ c ∈ ks, c ∈ g.free (img.release (chains i)).fat) (hi : i < img.dir.length)
    (hfirst : slot.first ≠ entryEnd)
    (hbefore : ∀ j t, j < i → img.dir[j]? = some t → t.first ≠ entryEnd)
    (hcluster : slot.live → slot.cluster = ks.headD 0) (hdead : ¬slot.live → ks = [])
    (hold : ∀ s, img.dir[i]? = some s → s.live → s.name = raw)
    (hfresh : (∀ s, img.dir[i]? = some s → ¬s.live) → store raw = none)
    (hnew : ∀ new, item = some new → slot.live ∧ slot.name = raw ∧
      g.HoldsItem (img₁.setSlot i slot) i slot ks new) (hgone : item = none → ¬slot.live) :
    g.Holds (img₁.setSlot i slot) (Function.update chains i ks)
      (Function.update store raw item) := by
  obtain ⟨hchained, hedit⟩ := hholds.chained.stored_slot hlaid hsub
    (hholds.chained.clean.set hfirst hbefore) hcluster fun hnone =>
      hdead (hnone slot (List.getElem?_set_self hi))
  refine hholds.rewrite ?_ hi hchained (fun j s new hj hfile => ?_) hold hfresh hnew hgone
  · rw [Image.setSlot_dir, hlaid.dir, Image.release_dir]
  · exact hfile.edit hholds.chained hedit hj

/-- A slot that is free stands for no name. -/
theorem Holds.at_freeSlot (hholds : g.Holds img chains store) (hslot : freeSlot img.dir = some i) :
    i < img.dir.length ∧ img.release (chains i) = img ∧
      ∀ s, img.dir[i]? = some s → ¬s.live := by
  obtain ⟨s, hget, -⟩ := freeSlot_spec hslot
  refine ⟨(List.getElem?_eq_some_iff.mp hget).1, ?_, fun _ hs => not_live_of_freeSlot hslot hs⟩
  rw [hholds.chained.chain_eq_nil hslot, Image.release_nil]

theorem isFile_archive (hmark : (encode83Name name.1).headD 0 ≠ entryFree) (cluster size : Nat) :
    Slot.isFile ⟨encode83Name name.1, attrArchive, cluster, size⟩ :=
  Slot.isFile_iff.mpr ⟨Slot.live_iff.mpr ⟨first_encode83Name name, Slot.listed_iff.mpr
    ⟨hmark, show attrArchive &&& attrVolumeId = 0 by decide⟩⟩,
    show attrArchive &&& attrDirectory = 0 by decide⟩

/-- Content that has room is stored in a slot. -/
theorem Holds.stored {base : Image} (hholds : g.Holds img chains store)
    (hbase : img.release (chains i) = base) (hi : i < img.dir.length) (hisFile : slot.isFile)
    (hbefore : ∀ j t, j < i → img.dir[j]? = some t → t.first ≠ entryEnd)
    (hold : ∀ s, img.dir[i]? = some s → s.live → s.name = slot.name)
    (hfresh : (∀ s, img.dir[i]? = some s → ¬s.live) → store slot.name = none)
    (hsmall : content.length < 2 ^ 32)
    (henough : content = [] ∨ clustersNeeded g.vol content.length ≤ (g.free base.fat).length)
    (hlaid : g.Laid base img₁ 0 (g.taken base content.length) content) :
    g.Holds (img₁.setSlot i
        { slot with
          cluster := (g.taken base content.length).headD 0
          size := content.length % 2 ^ 32 })
      (Function.update chains i (g.taken base content.length))
      (Function.update store slot.name (some (.file content))) := by
  subst hbase
  have hlive := Slot.live_of_isFile hisFile
  have hlive' : Slot.live
      { slot with
        cluster := (g.taken (img.release (chains i)) content.length).headD 0
        size := content.length % 2 ^ 32 } := (live_congr rfl rfl).trans hlive
  refine hholds.stored_slot hlaid taken_subset hi (Slot.live_iff.mp hlive').1 hbefore
    (fun _ => rfl) (fun hdead => absurd hlive' hdead) hold hfresh (fun new hnew => ?_)
    fun hnone => by cases hnone
  cases hnew
  refine ⟨hlive', rfl, FileIn.of_laid ?_ hisFile (fun c hc => (hholds.chained.free_release hc).1)
    hsmall henough hlaid⟩
  rw [Image.release_dir]
  exact hi

/-- Clusters are taken for a new entry, which is not written. -/
theorem Holds.leaked (hholds : g.Holds img chains store) (hslot : freeSlot img.dir = some i)
    (hfresh : store raw = none) (hlaid : g.Laid img img' 0 (g.free img.fat) content) :
    ∃ chains', g.Holds img' chains' store := by
  obtain ⟨hi, hbase, hdead⟩ := hholds.at_freeSlot hslot
  have hnone := hholds.chained.chain_eq_nil hslot
  have hdir := hlaid.dir
  have hedit : g.Edit img img' chains i (g.free img.fat) := by
    rw [← hbase] at hlaid
    have hbased : g.Laid (img.release (chains i)) img' 0 (g.free img.fat) content := by
      rwa [hbase] at hlaid ⊢
    refine .of_laid hbased ?_ rfl rfl fun j _ => by rw [hdir]
    rw [hbase]
    exact fun c hc => hc
  have hset : img'.dir = img.dir.set i img.dir[i] := by
    rw [hdir, List.set_getElem_self]
  have hkept : g.Holds img' _ (Function.update store raw none) :=
    hholds.rewrite hset hi (hholds.chained.leaked hnone hedit hdir)
      (fun j s new hj hfile => hfile.edit hholds.chained hedit hj)
      (fun s hs hlive => absurd hlive (hdead s hs)) (fun _ => hfresh)
      (fun new hnew => by cases hnew) fun _ => hdead _ (List.getElem?_eq_getElem hi)
  rw [← hfresh, Function.update_eq_self] at hkept
  exact ⟨_, hkept⟩

theorem Holds.create (hholds : g.Holds img chains store)
    (hfresh : store (encode83Name name.1) = none)
    (hmark : (encode83Name name.1).headD 0 ≠ entryFree) (hsmall : content.length < 2 ^ 32)
    (hstep : g.Step chains img (.createFile name content) r img') :
    ∃ chains', g.Holds img' chains'
      (if r = 0 then Function.update store (encode83Name name.1) (some (.file content))
        else store) := by
  cases hstep with
  | createFull _ => exact ⟨chains, hholds⟩
  | create hslot hstored =>
      obtain ⟨hi, hbase, hdead⟩ := hholds.at_freeSlot hslot
      cases hstored with
      | short _ _ hlaid => exact hholds.leaked hslot hfresh hlaid
      | done henough hlaid =>
          exact ⟨_, hholds.stored hbase hi (isFile_archive hmark 0 0)
            (fun j t hlt ht => before_freeSlot hslot hlt ht)
            (fun s hs hlive => absurd hlive (hdead s hs)) (fun _ => hfresh) hsmall henough hlaid⟩

/-- A file is replaced with success. -/
theorem Holds.write (hholds : g.Holds img chains store)
    (hfind : findName (encode83Name name.1) img.dir = some i) (hget : img.dir[i]? = some slot)
    (hfile : store (encode83Name name.1) ≠ some .directory) (hsmall : content.length < 2 ^ 32)
    (hstored : g.Stored (img.release (chains i)) i slot content 0 img') :
    g.Holds img'
      (Function.update chains i (g.taken (img.release (chains i)) content.length))
      (Function.update store (encode83Name name.1) (some (.file content))) := by
  obtain ⟨slot', item, hget', hlive, hname, hstore, hitem⟩ := hholds.find hfind
  obtain rfl := Option.some.inj (hget'.symm.trans hget)
  rw [← hname]
  have hisFile : slot'.isFile := by
    cases item with
    | file old => exact hitem.isFile
    | directory => exact absurd hstore hfile
  cases hstored with
  | done henough hlaid =>
      exact hholds.stored rfl (List.getElem?_eq_some_iff.mp hget).1 hisFile
        (fun j t hlt ht => hholds.chained.clean.before_live hget hlive hlt ht)
        (fun s hs _ => congrArg Slot.name (Option.some.inj (hs.symm.trans hget)))
        (fun hdead => absurd hlive (hdead _ hget)) hsmall henough hlaid

/-- A file is appended to, with success or without. -/
theorem Holds.append (hholds : g.Holds img chains store)
    (hfind : findName (encode83Name name.1) img.dir = some i) (hget : img.dir[i]? = some slot)
    (hfile : store (encode83Name name.1) ≠ some .directory)
    (hsmall : (store.bytes (encode83Name name.1)).length + new.length < 2 ^ 32)
    (happended : g.Appended img i slot (chains i) new r img') :
    ∃ chains', g.Holds img' chains'
      (if r = 0 then Function.update store (encode83Name name.1)
        (some (.file (store.bytes (encode83Name name.1) ++ new))) else store) := by
  obtain ⟨slot', item, hget', hlive, hname, hstore, hitem⟩ := hholds.find hfind
  obtain rfl := Option.some.inj (hget'.symm.trans hget)
  cases item with
  | directory => exact absurd hstore hfile
  | file old =>
      have hbytes : store.bytes (encode83Name name.1) = old := by
        rw [Store.bytes, hstore]
      rw [hbytes] at hsmall ⊢
      have hfile : g.FileIn img i slot' (chains i) old := hitem
      rw [hfile.length] at hsmall
      obtain ⟨slot₁, nodes₁, hleft⟩ := hfile.append hholds.chained hsmall happended
      have hkept : g.Holds img' (Function.update chains i nodes₁)
          (Function.update store (encode83Name name.1)
            (some (.file (if r = 0 then old ++ new else old)))) := by
        refine hholds.rewrite hleft.dir (List.getElem?_eq_some_iff.mp hget).1 hleft.chained
          hleft.others
          (fun s hs _ => (congrArg Slot.name (Option.some.inj (hs.symm.trans hget))).trans hname)
          (fun hdead => absurd hlive (hdead _ hget)) (fun item hitem => ?_)
          fun hnone => by cases hnone
        cases hitem
        exact ⟨(live_congr hleft.name hleft.attributes).trans hlive, hleft.name.trans hname,
          hleft.file⟩
      refine ⟨Function.update chains i nodes₁, ?_⟩
      split_ifs with hr
      · rwa [if_pos hr] at hkept
      · rwa [if_neg hr, ← hstore, Function.update_eq_self] at hkept

/-- One call keeps the volume and the map together, unless it is a replacement that fails. -/
theorem Holds.step (hholds : g.Holds img chains store) (hadmits : store.Admits call)
    (hkeeps : r = 0 ∨ ¬store.Replaces call) (hstep : g.Step chains img call r img') :
    ∃ chains', g.Holds img' chains' (if r = 0 then store.after call else store) := by
  cases hstep with
  | createFull hslot =>
      obtain ⟨hfresh, hmark, hsmall⟩ := hadmits
      exact hholds.create hfresh hmark hsmall (.createFull hslot)
  | create hslot hstored =>
      obtain ⟨hfresh, hmark, hsmall⟩ := hadmits
      exact hholds.create hfresh hmark hsmall (.create hslot hstored)
  | writeNew hfind hcreate =>
      obtain ⟨-, hmark, hsmall⟩ := hadmits
      exact hholds.create (hholds.find_none.mp hfind) hmark hsmall hcreate
  | write hfind hget hstored =>
      obtain ⟨hfile, -, hsmall⟩ := hadmits
      have hsuccess := hkeeps.resolve_right fun hfresh => by
        refine hfresh fun hnone => ?_
        rw [hholds.find_none.mpr hnone] at hfind
        cases hfind
      subst hsuccess
      rw [if_pos rfl]
      exact ⟨_, hholds.write hfind hget hfile hsmall hstored⟩
  | @appendNew name content _ _ hfind hcreate =>
      obtain ⟨-, hmark, hsmall⟩ := hadmits
      have hfresh := hholds.find_none.mp hfind
      have hbytes : store.bytes (encode83Name name.1) = [] := by
        rw [Store.bytes, hfresh]
      rw [hbytes, List.length_nil, Nat.zero_add] at hsmall
      have hcreated := hholds.create hfresh hmark hsmall hcreate
      rwa [Store.after, hbytes, List.nil_append]
  | append hfind hget happended =>
      obtain ⟨hfile, -, hsmall⟩ := hadmits
      exact hholds.append hfind hget hfile hsmall happended
  | deleteMissing hfind => exact ⟨chains, hholds⟩
  | @delete name i slot hfind hget =>
      obtain ⟨slot', item, hget', hlive, hname, -, -⟩ := hholds.find hfind
      obtain rfl := Option.some.inj (hget'.symm.trans hget)
      have hdead : ¬Slot.live { slot' with name := entryFree :: slot'.name.tail } := fun hlive' =>
        absurd rfl (Slot.listed_iff.mp (Slot.live_iff.mp hlive').2).1
      exact ⟨_, @Holds.stored_slot g _ _ chains store i _ [] [] _ none hholds .nil
        (fun _ hc => absurd hc List.not_mem_nil)
        (List.getElem?_eq_some_iff.mp hget).1 (show entryFree ≠ entryEnd by decide)
        (fun j t hlt ht => hholds.chained.clean.before_live hget hlive hlt ht)
        (fun hlive' => absurd hlive' hdead) (fun _ => rfl)
        (fun s hs _ => (congrArg Slot.name (Option.some.inj (hs.symm.trans hget))).trans hname)
        (fun hnone => absurd hlive (hnone _ hget)) (fun new hnew => by cases hnew) fun _ => hdead⟩
  | mkdirFull hslot => exact ⟨chains, hholds⟩
  | @mkdir name i hslot =>
      obtain ⟨hfresh, hmark⟩ := hadmits
      obtain ⟨hi, hbase, hdead⟩ := hholds.at_freeSlot hslot
      have hlive : Slot.live ⟨encode83Name name.1, attrDirectory, 0, 0⟩ :=
        Slot.live_iff.mpr ⟨first_encode83Name name, Slot.listed_iff.mpr
          ⟨hmark, show attrDirectory &&& attrVolumeId = 0 by decide⟩⟩
      have hlaid : g.Laid (img.release (chains i)) img 0 [] [] := by
        rw [hbase]
        exact .nil
      refine ⟨_, hholds.stored_slot hlaid (fun _ hc => absurd hc List.not_mem_nil) hi
        (Slot.live_iff.mp hlive).1 (fun j t hlt ht => before_freeSlot hslot hlt ht) (fun _ => rfl)
        (fun _ => rfl) (fun s hs hlive' => absurd hlive' (hdead s hs)) (fun _ => hfresh)
        (fun new hnew => ?_) fun hnone => by cases hnone⟩
      cases hnew
      exact ⟨hlive, rfl, show attrDirectory &&& attrDirectory ≠ 0 by decide⟩

/-! ## What is seen of the volume -/

/-- A listed entry shows an item: its name, and for a file its size and every range of its
bytes. -/
def Displays (d : Drive) (v : Volume) (raw : List UInt8) : Item → RootEntry → Prop
  | .directory, entry => entry = .directory (format83Name raw)
  | .file content, entry => ∃ file, entry = .file file ∧ file.name = format83Name raw ∧
      file.fileSize = content.length ∧ ∀ offset len, len < 2 ^ 31 →
        fileRead d v file offset len = some (some ((content.drop offset).take len), d)

/-- The listing of the root directory has exactly one entry for each item, and shows it. -/
def Shows (d : Drive) (v : Volume) (store : Store) : Prop :=
  ∃ names entries, getRootEntries d v = some (⟨entries.length, entries⟩, d) ∧ names.Nodup ∧
    (∀ raw, raw ∈ names ↔ store raw ≠ none) ∧
    List.Forall₂ (fun raw entry => ∃ item, store raw = some item ∧ Displays d v raw item entry)
      names entries

theorem nodup_names {dir : List Slot} (hunique : UniqueNames dir) :
    ((dir.filter (·.live)).map Slot.name).Nodup := by
  rw [List.Nodup, List.pairwise_map, List.pairwise_filter, List.pairwise_iff_getElem]
  intro i j hi hj hlt hlive hlive' hname
  exact hlt.ne (hunique i j _ _ (List.getElem?_eq_getElem hi) (List.getElem?_eq_getElem hj) hlive
    hlive' hname)

theorem Holds.shows (hholds : g.Holds (g.image b) chains store) :
    Shows (disk b) g.vol store := by
  have hlisting := listing_eq hholds.chained.clean
  refine ⟨(listing (g.image b).dir).map Slot.name, (listing (g.image b).dir).map Slot.rootEntry,
    ?_, ?_, fun raw => ?_, ?_⟩
  · rw [getRootEntries_disk hholds.chained.root, rootEntries, List.length_map]
  · rw [hlisting]
    exact nodup_names hholds.unique
  · rw [hlisting, List.mem_map]
    constructor
    · rintro ⟨s, hs, rfl⟩
      obtain ⟨hmem, hlive⟩ := List.mem_filter.mp hs
      obtain ⟨i, hget⟩ := List.getElem?_of_mem hmem
      obtain ⟨item, hstore, -⟩ := hholds.item i s hget hlive
      rw [hstore]
      exact Option.some_ne_none item
    · intro hsome
      obtain ⟨i, s, hget, hlive, hname⟩ := hholds.named raw hsome
      exact ⟨s, List.mem_filter.mpr ⟨List.mem_of_getElem? hget, hlive⟩, hname⟩
  · rw [List.forall₂_map_left_iff, List.forall₂_map_right_iff, List.forall₂_same, hlisting]
    intro s hs
    obtain ⟨hmem, hlive⟩ := List.mem_filter.mp hs
    obtain ⟨i, hget⟩ := List.getElem?_of_mem hmem
    obtain ⟨item, hstore, hitem⟩ := hholds.item i s hget hlive
    refine ⟨item, hstore, ?_⟩
    rw [Slot.rootEntry]
    cases item with
    | directory =>
        have hdirectory : s.attributes &&& attrDirectory ≠ 0 := hitem
        rw [if_pos hdirectory]
        rfl
    | file content =>
        have hfile : g.FileIn (g.image b) i s (chains i) content := hitem
        rw [if_neg (not_not.mpr (Slot.isFile_iff.mp hfile.isFile).2)]
        exact ⟨s.driveFile, rfl, rfl, hfile.length.symm, hfile.fileRead⟩

/-! ## Runs -/

/-- A run of admitted calls with the maps it goes through.  A call may fail, unless it replaces
a file. -/
inductive Session (g : Geometry) (start : Drive) (store : Store) : Drive → Store → Prop
  | start : Session g start store start store
  | call {d d' : Drive} {now : Store} {r : Int} (hbefore : Session g start store d now)
      (call : FileCall) (hadmits : now.Admits call) (hrun : exec d g.vol call = some (r, d'))
      (hkeeps : r = 0 ∨ ¬now.Replaces call) :
      Session g start store d' (if r = 0 then now.after call else now)

/-- The driver's functions on a volume that holds a map. -/
theorem Holds.exec (hholds : g.Holds (g.image b) chains store) (call : FileCall) :
    ∃ r b', Fs.exec (disk b) g.vol call = some (r, disk b') ∧
      g.Step chains (g.image b) call r (g.image b') :=
  exec_disk call hholds.chained.root fun _ _ _ _ hfind hget => by
    obtain ⟨slot, _, hget', hlive, -⟩ := hholds.find hfind
    obtain rfl := Option.some.inj (hget'.symm.trans hget)
    exact hholds.chained.owns hget hlive

theorem Session.holds {d : Drive} {now : Store} (hholds : g.Holds (g.image b) chains store)
    (hsession : g.Session (disk b) store d now) :
    ∃ b' chains', d = disk b' ∧ g.Holds (g.image b') chains' now := by
  induction hsession with
  | start => exact ⟨b, chains, rfl, hholds⟩
  | call _ call hadmits hrun hkeeps ih =>
      obtain ⟨b₁, chains₁, rfl, hholds₁⟩ := ih
      obtain ⟨r, b₂, hexec, hstep⟩ := hholds₁.exec call
      rw [hexec] at hrun
      cases hrun
      obtain ⟨chains₂, hholds₂⟩ := hholds₁.step hadmits hkeeps hstep
      exact ⟨b₂, chains₂, rfl, hholds₂⟩

/-- **The volume is the map.** After any run of admitted calls the listing shows exactly the
items of the map with their bytes, and every call of the driver returns. -/
theorem session_shows {d : Drive} {now : Store} (hholds : g.Holds (g.image b) chains store)
    (hsession : g.Session (disk b) store d now) :
    Shows d g.vol now ∧
      ∀ call, ∃ r d', exec d g.vol call = some (r, d') ∧ (r = 0 ∨ r = -1) := by
  obtain ⟨b', chains', rfl, hholds'⟩ := hsession.holds hholds
  refine ⟨hholds'.shows, fun call => ?_⟩
  obtain ⟨r, b'', hexec, hstep⟩ := hholds'.exec call
  exact ⟨r, disk b'', hexec, hstep.result⟩

/-! ## A fresh volume -/

/-- A fresh volume holds nothing. -/
theorem formatted_holds (hroot : g.root = [g.vol.rootCluster]) :
    g.Holds (g.image g.formatted) (fun _ => []) fun _ => none := by
  have hdead (i : Nat) (slot : Slot) (hget : (g.image g.formatted).dir[i]? = some slot) :
      ¬slot.live := by
    rw [image_formatted] at hget
    obtain ⟨_, -, rfl⟩ := List.mem_map.mp (List.mem_of_getElem? hget)
    exact fun hlive => absurd rfl (Slot.live_iff.mp hlive).1
  exact ⟨formatted_chained hroot fun _ hlive => hlive,
    fun i j s t hs _ hlive => absurd hlive (hdead i s hs),
    fun i slot hget hlive => absurd hlive (hdead i slot hget), fun raw hsome => absurd rfl hsome⟩

/-- A file is made on a fresh volume. -/
theorem session_shows_touchA : ∃ d now,
    smallVolume.Session (disk smallVolume.formatted) (fun _ => none) d now ∧
      Shows d smallVolume.vol now ∧
      ∀ call, ∃ r d', exec d smallVolume.vol call = some (r, d') ∧ (r = 0 ∨ r = -1) := by
  have hfresh := @formatted_holds smallVolume rfl
  obtain ⟨r, b, hexec, -⟩ := hfresh.exec touchA
  have hsession : smallVolume.Session (disk smallVolume.formatted) (fun _ => none) (disk b) _ :=
    .call .start touchA ⟨rfl, by decide, by decide⟩ hexec (.inr id)
  exact ⟨_, _, hsession, session_shows hfresh hsession⟩

end Geometry

end GeckoOS.Fs
