/-
# No lost clusters

The structural invariant of a volume: the root directory and every live entry own
a chain, chains share no cluster, and every allocated cluster is in exactly one of
them.  Chains of entries below a sub-directory belong to the volume too, although
these operations never read them; they are kept together with the bytes of the
directories they are found through.

Most ways to run out of room keep the invariant, but not all.  A chain that cannot
be completed stays linked and allocated when nothing refers to it, a chain that is
longer than its size says loses its end when content is appended in its middle, and
an entry whose name begins with the deletion mark never owns its chain.  `Roomy`
says, on the state before a call, that none of this happens.
-/

import GeckoOS.Fs.Ownership
import Mathlib.Logic.Relation

namespace GeckoOS.Fs

open GeckoOS.Math ByteMap

namespace Geometry

/-- The chain of an entry below a sub-directory of the root directory. -/
structure Below where
  /-- The slot of the sub-directory. -/
  slot : Nat
  /-- The clusters of the sub-directory. -/
  directory : List Nat
  /-- The clusters of the entry. -/
  clusters : List Nat

/-- The chains found through the sub-directories, whose bytes are `bytes`. -/
structure Nested (g : Geometry) (img : Image) (chains : Nat → List Nat) (bytes : Nat → ByteMap)
    (nested : List Below) : Prop where
  owner : ∀ p ∈ nested, ∃ slot, img.dir[p.slot]? = some slot ∧ slot.live ∧
    slot.attributes &&& attrDirectory ≠ 0
  directory : ∀ p ∈ nested, chains p.slot = p.directory
  chain : ∀ p ∈ nested, g.Chain img.fat p.clusters
  not_root : ∀ p ∈ nested, ∀ c ∈ p.clusters, c ∉ g.root
  apart : ∀ p ∈ nested, ∀ i, ∀ c ∈ p.clusters, c ∉ chains i
  distinct : nested.Pairwise fun p q => ∀ c ∈ p.clusters, c ∉ q.clusters
  bytes_eq : ∀ p ∈ nested, ∀ c, c ∈ p.directory ∨ c ∈ p.clusters → img.data c = bytes c

/-- Every cluster is free, marked bad, or in a chain. -/
def Accounted (g : Geometry) (img : Image) (chains : Nat → List Nat) (nested : List Below) : Prop :=
  ∀ c, g.InTable c → img.fat c = 0 ∨ img.fat c = clusterBad ∨ c ∈ g.root ∨ (∃ i, c ∈ chains i) ∨
    ∃ p ∈ nested, c ∈ p.clusters

/-- A structurally sound image. -/
structure IntactImage (g : Geometry) (bytes : Nat → ByteMap) (nested : List Below) (img : Image)
    (chains : Nat → List Nat) : Prop where
  chained : g.Chained (fun s => s.live) img chains
  below : g.Nested img chains bytes nested
  accounted : g.Accounted img chains nested

/-- A structurally sound volume on a drive whose transfers do not fail. -/
def Intact (g : Geometry) (bytes : Nat → ByteMap) (nested : List Below) (d : Drive) : Prop :=
  d = disk d.bytes ∧ ∃ chains, g.IntactImage bytes nested (g.image d.bytes) chains

/-! ## The calls that keep it -/

/-- A new file fits, or nothing can be allocated for it at all; and its name does not
begin with the deletion mark. -/
def NewRoomy (g : Geometry) (img : Image) (name : CString) (len : Nat) : Prop :=
  freeSlot img.dir = none ∨ g.free img.fat = [] ∨
    (clustersNeeded g.vol len ≤ (g.free img.fat).length ∧
      (encode83Name name.1).headD 0 ≠ entryFree)

/-- The new content fits into the free clusters together with the old ones, or the
first of these is the first one of the old chain. -/
def ReplaceRoomy (g : Geometry) (img : Image) (nodes : List Nat) (len : Nat) : Prop :=
  clustersNeeded g.vol len ≤ (g.free (img.release nodes).fat).length ∨
    nodes.head? = (g.free (img.release nodes).fat).head?

/-- The content can be appended without losing clusters: a file without a cluster
needs room for all of it, a longer chain must end where the size says, unless nothing
is allocated. -/
def AppendRoomy (g : Geometry) (img : Image) (nodes : List Nat) (size len : Nat) : Prop :=
  g.free img.fat = [] ∨
    if nodes = [] then g.clustersFor len ≤ (g.free img.fat).length
    else nodes.length ≤ g.clustersFor size - 1 + 1 ∨ g.clustersFor (len - g.room nodes size len) = 0

/-- No entry below the sub-directory in slot `i` is known. -/
def Childless (nested : List Below) (i : Nat) : Prop := ∀ p ∈ nested, p.slot ≠ i

/-- The call loses no cluster, whether it succeeds or not. -/
def Roomy (g : Geometry) (nested : List Below) (img : Image) : FileCall → Prop
  | .createFile name content => g.NewRoomy img name content.length
  | .writeFile name content =>
      (findName (encode83Name name.1) img.dir = none → g.NewRoomy img name content.length) ∧
      ∀ i slot nodes, findName (encode83Name name.1) img.dir = some i → img.dir[i]? = some slot →
        g.Owns img.fat slot nodes → Childless nested i ∧ g.ReplaceRoomy img nodes content.length
  | .appendFile name content =>
      (findName (encode83Name name.1) img.dir = none → g.NewRoomy img name content.length) ∧
      ∀ i slot nodes, findName (encode83Name name.1) img.dir = some i → img.dir[i]? = some slot →
        g.Owns img.fat slot nodes →
        (content = [] ∨ Childless nested i) ∧ g.AppendRoomy img nodes slot.size content.length
  | .deleteFile name =>
      ∀ i, findName (encode83Name name.1) img.dir = some i → Childless nested i
  | .mkdir _ => True

/-- Runs of calls that each lose no cluster in the state they are made in. -/
def RoomyRun (g : Geometry) (nested : List Below) : Drive → Drive → Prop :=
  Relation.ReflTransGen fun d d' => ∃ call r, g.Roomy nested (g.image d.bytes) call ∧
    exec d g.vol call = some (r, d')

variable {g : Geometry} {img img' img₁ : Image} {chains : Nat → List Nat} {i : Nat} {slot : Slot}
  {ks nodes : List Nat} {bytes : Nat → ByteMap} {nested : List Below} {content : List UInt8}
  {d d' : Drive}

/-! ## One edit -/

/-- An edit of a slot without known entries below it keeps the nested chains. -/
theorem Nested.edit (hnested : g.Nested img chains bytes nested)
    (hchained : g.Chained (fun s => s.live) img chains) (hedit : g.Edit img img' chains i ks)
    (hchildless : Childless nested i) :
    g.Nested img' (Function.update chains i ks) bytes nested := by
  have hclusters : ∀ p ∈ nested, ∀ c ∈ p.clusters, c ∉ ks ∧ c ∉ chains i := by
    intro p hp c hc
    have hown := hnested.apart p hp i c hc
    refine ⟨fun hks => ?_, hown⟩
    rcases hedit.source c hks with hmem | hzero
    · exact hown hmem
    · exact ((hnested.chain p hp).allocated hc).1 hzero
  refine ⟨fun p hp => ?_, fun p hp => ?_, fun p hp => ?_, hnested.not_root, fun p hp j c hc => ?_,
    hnested.distinct, fun p hp c hc => ?_⟩
  · rw [hedit.dir p.slot (hchildless p hp)]
    exact hnested.owner p hp
  · rw [Function.update_of_ne (hchildless p hp)]
    exact hnested.directory p hp
  · exact (hnested.chain p hp).congr fun c hc =>
      hedit.fat c (hclusters p hp c hc).1 (hclusters p hp c hc).2
  · by_cases hj : j = i
    · rw [hj, Function.update_self]
      exact (hclusters p hp c hc).1
    · rw [Function.update_of_ne hj]
      exact hnested.apart p hp j c hc
  · rw [← hnested.bytes_eq p hp c hc]
    rcases hc with hdirectory | hcluster
    · rw [← hnested.directory p hp] at hdirectory
      obtain ⟨hks, hown⟩ := hedit.other hchained (.inr ⟨p.slot, hchildless p hp, hdirectory⟩)
      exact hedit.data c hks hown
    · exact hedit.data c (hclusters p hp c hcluster).1 (hclusters p hp c hcluster).2

/-- An edit loses no cluster. -/
theorem Accounted.edit (haccounted : g.Accounted img chains nested)
    (hedit : g.Edit img img' chains i ks) :
    g.Accounted img' (Function.update chains i ks) nested := by
  intro c hc
  by_cases hks : c ∈ ks
  · exact .inr (.inr (.inr (.inl ⟨i, by rwa [Function.update_self]⟩)))
  · by_cases hown : c ∈ chains i
    · exact .inl (hedit.released c hown hks)
    · rw [hedit.fat c hks hown]
      rcases haccounted c hc with hfree | hbad | hroot | ⟨j, hj⟩ | hbelow
      · exact .inl hfree
      · exact .inr (.inl hbad)
      · exact .inr (.inr (.inl hroot))
      · have hne : j ≠ i := fun hji => hown (hji ▸ hj)
        exact .inr (.inr (.inr (.inl ⟨j, by rwa [Function.update_of_ne hne]⟩)))
      · exact .inr (.inr (.inr (.inr hbelow)))

/-- A slot that is not live has no chain. -/
theorem Chained.chain_eq_nil (hchained : g.Chained (fun s => s.live) img chains)
    (hslot : freeSlot img.dir = some i) : chains i = [] :=
  hchained.untracked i fun _ hget => not_live_of_freeSlot hslot hget

theorem dir_set_ne {dir : List Slot} {j : Nat} (hj : j ≠ i) : (dir.set i slot)[j]? = dir[j]? :=
  List.getElem?_set_ne (Ne.symm hj)

/-- The one slot of a directory that was set. -/
theorem eq_of_getElem?_set {dir : List Slot} {s : Slot} (hget : (dir.set i slot)[i]? = some s) :
    s = slot := by
  rw [List.getElem?_set_self'] at hget
  obtain ⟨t, -, ht⟩ := Option.map_eq_some_iff.mp hget
  exact ht.symm

/-- The chain taken for new content is made of free clusters. -/
theorem taken_subset {base : Image} {len : Nat} : ∀ c ∈ g.taken base len, c ∈ g.free base.fat :=
  fun _ hc => List.mem_of_mem_take hc

/-- A slot whose chain was freed is given a new entry and a chain of free clusters. -/
theorem Chained.stored_slot {tracked : Slot → Prop} (hchained : g.Chained tracked img chains)
    (hlaid : g.Laid (img.release (chains i)) img₁ 0 ks content)
    (hsub : ∀ c ∈ ks, c ∈ g.free (img.release (chains i)).fat)
    (hclean : EndsClean (img.dir.set i slot)) (hcluster : tracked slot → slot.cluster = ks.headD 0)
    (hdead : (∀ s, (img.dir.set i slot)[i]? = some s → ¬ tracked s) → ks = []) :
    g.Chained tracked (img₁.setSlot i slot) (Function.update chains i ks) ∧
      g.Edit img (img₁.setSlot i slot) chains i ks := by
  have hdir : (img₁.setSlot i slot).dir = img.dir.set i slot := by
    rw [Image.setSlot_dir, hlaid.dir, Image.release_dir]
  have hother : ∀ j, j ≠ i → (img₁.setSlot i slot).dir[j]? = img.dir[j]? := fun j hj => by
    rw [hdir, dir_set_ne hj]
  refine ⟨hchained.stored hlaid hsub rfl hother (hdir ▸ hclean) (fun s hget htracked => ?_) ?_,
    .of_laid hlaid hsub rfl rfl hother⟩
  · rw [hdir] at hget
    obtain rfl := eq_of_getElem?_set hget
    exact hcluster htracked
  · rw [hdir]
    exact hdead

/-- So the volume stays intact when no entry is known below the slot. -/
theorem IntactImage.stored_slot (hintact : g.IntactImage bytes nested img chains)
    (hchildless : Childless nested i) (hlaid : g.Laid (img.release (chains i)) img₁ 0 ks content)
    (hsub : ∀ c ∈ ks, c ∈ g.free (img.release (chains i)).fat)
    (hclean : EndsClean (img.dir.set i slot)) (hcluster : slot.live → slot.cluster = ks.headD 0)
    (hdead : (∀ s, (img.dir.set i slot)[i]? = some s → ¬ s.live) → ks = []) :
    ∃ chains', g.IntactImage bytes nested (img₁.setSlot i slot) chains' := by
  obtain ⟨hchained, hedit⟩ := hintact.chained.stored_slot hlaid hsub hclean hcluster hdead
  exact ⟨_, hchained, hintact.below.edit hintact.chained hedit hchildless,
    hintact.accounted.edit hedit⟩

/-- Content that runs out of room takes every free cluster and leaves the entry. -/
theorem IntactImage.stored_short (hintact : g.IntactImage bytes nested img chains)
    (hchildless : Childless nested i)
    (hlaid : g.Laid (img.release (chains i)) img' 0 (g.free (img.release (chains i)).fat) content)
    (hcluster : ∀ s, img.dir[i]? = some s → s.live →
      s.cluster = (g.free (img.release (chains i)).fat).headD 0)
    (hdead : (∀ s, img.dir[i]? = some s → ¬ s.live) → g.free (img.release (chains i)).fat = []) :
    ∃ chains', g.IntactImage bytes nested img' chains' := by
  have hchained := hintact.chained
  have hdir : img'.dir = img.dir := hlaid.dir
  have hsub : ∀ c ∈ g.free (img.release (chains i)).fat,
    c ∈ g.free (img.release (chains i)).fat := fun _ hc => hc
  have hedit := Edit.of_laid hlaid hsub rfl rfl fun j _ => by rw [hdir]
  exact ⟨_, hchained.stored hlaid hsub rfl (fun j _ => by rw [hdir]) (hdir ▸ hchained.clean)
    (hdir ▸ hcluster) (hdir ▸ hdead), hintact.below.edit hchained hedit hchildless,
    hintact.accounted.edit hedit⟩

/-- A new entry, whether there is room for it or not. -/
theorem IntactImage.create {name : CString} {r : Int}
    (hintact : g.IntactImage bytes nested img chains)
    (hslot : freeSlot img.dir = some i) (hroomy : g.NewRoomy img name content.length)
    (hstored : g.Stored img i ⟨encode83Name name.1, attrArchive, 0, 0⟩ content r img') :
    ∃ chains', g.IntactImage bytes nested img' chains' := by
  have hchained := hintact.chained
  have hnone := hchained.chain_eq_nil hslot
  have hbase : img.release (chains i) = img := by rw [hnone, Image.release_nil]
  have hchildless : Childless nested i := by
    rintro p hp rfl
    obtain ⟨s, hget, hlive, -⟩ := hintact.below.owner p hp
    exact not_live_of_freeSlot hslot hget hlive
  have hroom := hroomy.resolve_left (by rw [hslot]; exact Option.some_ne_none i)
  have hfirst := first_encode83Name name
  cases hstored with
  | short hcontent hshort hlaid =>
      have hempty : g.free img.fat = [] :=
        hroom.resolve_right fun hboth => absurd hboth.1 (Nat.not_le.mpr hshort)
      rw [← hbase] at hlaid hempty
      exact hintact.stored_short hchildless hlaid
        (fun s hget hlive => absurd hlive (not_live_of_freeSlot hslot hget)) fun _ => hempty
  | @done img₁ henough hlaid =>
      rw [← hbase] at hlaid
      refine hintact.stored_slot hchildless hlaid taken_subset
        (hchained.clean.set hfirst fun j t hlt ht => before_freeSlot hslot hlt ht)
        (fun _ => by rw [hbase]) fun hdead => ?_
      -- Only an entry that is deleted from the start is not live, and it has no cluster.
      rcases hroom with hempty | ⟨-, hmark⟩
      · rw [hbase, taken, hempty, List.take_nil]
      · obtain ⟨s, hget, -⟩ := freeSlot_spec hslot
        have hi := (List.getElem?_eq_some_iff.mp hget).1
        refine absurd ?_ (hdead _ (List.getElem?_set_self hi))
        exact Slot.live_iff.mpr ⟨hfirst, Slot.listed_iff.mpr
          ⟨hmark, show attrArchive &&& attrVolumeId = 0 by decide⟩⟩

/-- Whether a slot is live is decided by its name and attributes. -/
theorem live_congr {s t : Slot} (hname : s.name = t.name)
    (hattributes : s.attributes = t.attributes) :
    s.live = t.live := by
  cases s
  cases t
  cases hname
  cases hattributes
  rfl

/-- Replacing the content of an entry, whether there is room for it or not. -/
theorem IntactImage.write {r : Int} (hintact : g.IntactImage bytes nested img chains)
    (hget : img.dir[i]? = some slot) (hlive : slot.live) (hchildless : Childless nested i)
    (hroomy : g.ReplaceRoomy img (chains i) content.length)
    (hstored : g.Stored (img.release (chains i)) i slot content r img') :
    ∃ chains', g.IntactImage bytes nested img' chains' := by
  have hchained := hintact.chained
  have hi := (List.getElem?_eq_some_iff.mp hget).1
  cases hstored with
  | short hcontent hshort hlaid =>
      refine hintact.stored_short hchildless hlaid (fun s hget' hlive' => ?_)
        fun hdead => absurd hlive (hdead slot hget)
      -- The entry keeps its first cluster, which is the first of the new chain as well.
      have hhead := hroomy.resolve_left (Nat.not_le.mpr hshort)
      rw [hchained.cluster i s hget' hlive', List.headD_eq_head?_getD, List.headD_eq_head?_getD,
        hhead]
  | done henough hlaid =>
      have hlive' : Slot.live
          { slot with
            cluster := (g.taken (img.release (chains i)) content.length).headD 0
            size := content.length % 2 ^ 32 } := (live_congr rfl rfl).trans hlive
      exact hintact.stored_slot hchildless hlaid taken_subset
        (hchained.clean.set (Slot.live_iff.mp hlive').1
          fun j t hlt ht => hchained.clean.before_live hget hlive hlt ht)
        (fun _ => rfl) fun hdead => absurd hlive' (hdead _ (List.getElem?_set_self hi))

/-- Deleting an entry. -/
theorem IntactImage.delete (hintact : g.IntactImage bytes nested img chains)
    (hget : img.dir[i]? = some slot) (hlive : slot.live) (hchildless : Childless nested i) :
    ∃ chains', g.IntactImage bytes nested
      ((img.release (chains i)).setSlot i { slot with name := entryFree :: slot.name.tail })
      chains' := by
  have hclean := hintact.chained.clean
  have hlaid : g.Laid (img.release (chains i)) (img.release (chains i)) 0 [] [] := .nil
  refine hintact.stored_slot hchildless hlaid (fun _ hc => absurd hc List.not_mem_nil)
    (hclean.set (show entryFree ≠ entryEnd by decide)
      fun j t hlt ht => hclean.before_live hget hlive hlt ht) (fun hlive' => ?_) fun _ => rfl
  exact absurd rfl (Slot.listed_iff.mp (Slot.live_iff.mp hlive').2).1

/-- A new directory, which has no cluster. -/
theorem IntactImage.mkdir {name : CString} (hintact : g.IntactImage bytes nested img chains)
    (hslot : freeSlot img.dir = some i) :
    ∃ chains', g.IntactImage bytes nested
      (img.setSlot i ⟨encode83Name name.1, attrDirectory, 0, 0⟩) chains' := by
  have hchained := hintact.chained
  have hbase : img.release (chains i) = img := by
    rw [hchained.chain_eq_nil hslot, Image.release_nil]
  have hchildless : Childless nested i := by
    rintro p hp rfl
    obtain ⟨s, hget, hlive, -⟩ := hintact.below.owner p hp
    exact not_live_of_freeSlot hslot hget hlive
  have hlaid : g.Laid (img.release (chains i)) img 0 [] [] := by
    rw [hbase]
    exact .nil
  exact hintact.stored_slot hchildless hlaid (fun _ hc => absurd hc List.not_mem_nil)
    (hchained.clean.set (first_encode83Name name) fun j t hlt ht => before_freeSlot hslot hlt ht)
    (fun _ => rfl) fun _ => rfl

/-- Nothing is written when nothing is appended. -/
theorem room_zero {size : Nat} : g.room nodes size 0 = 0 := Nat.le_zero.mp room_le

/-- An extension by no cluster changes neither the table nor the data. -/
theorem Laid.eq_of_nil {base : Image} {prev : Nat} (hlaid : g.Laid base img₁ prev [] content) :
    img₁ = base := by
  apply Image.ext
  · funext c
    by_cases hprev : c = prev ∧ prev ≠ 0
    · rw [hprev.1]
      exact hlaid.fat_prev hprev.2
    · refine hlaid.fat_frame c List.not_mem_nil ?_
      by_cases hc : c = prev
      · exact .inr (by_contra fun hne => hprev ⟨hc, hne⟩)
      · exact .inl hc
  · funext c
    exact hlaid.data_frame c List.not_mem_nil
  · exact hlaid.dir

/-- Where the appended clusters go: nowhere, or behind the end of the chain. -/
theorem AppendRoomy.end {size len : Nat} (hroomy : g.AppendRoomy img nodes size len)
    (hlong : nodes = [] ∨ g.clustersFor size - 1 < nodes.length) :
    g.free img.fat = [] ∨ g.clustersFor (len - g.room nodes size len) = 0 ∨
      nodes = [] ∧ g.clustersFor (len - g.room nodes size len) ≤ (g.free img.fat).length ∨
      nodes ≠ [] ∧ nodes.length = g.clustersFor size - 1 + 1 := by
  rcases hroomy with hempty | hroomy
  · exact .inl hempty
  · by_cases hnodes : nodes = []
    · rw [if_pos hnodes] at hroomy
      refine .inr (.inr (.inl ⟨hnodes, ?_⟩))
      rwa [room, if_pos hnodes, Nat.sub_zero]
    · rw [if_neg hnodes] at hroomy
      rcases hroomy with hend | hzero
      · have hlt := hlong.resolve_left hnodes
        exact .inr (.inr (.inr ⟨hnodes, by omega⟩))
      · exact .inr (.inl hzero)

/-- Appending to an entry, whether there is room for it or not. -/
theorem IntactImage.append {r : Int} (hintact : g.IntactImage bytes nested img chains)
    (hget : img.dir[i]? = some slot) (hlive : slot.live)
    (hchildless : content = [] ∨ Childless nested i)
    (hroomy : g.AppendRoomy img (chains i) slot.size content.length)
    (happended : g.Appended img i slot (chains i) content r img') :
    ∃ chains', g.IntactImage bytes nested img' chains' := by
  have hchained := hintact.chained
  have hi := (List.getElem?_eq_some_iff.mp hget).1
  cases happended with
  | broken _ _ => exact ⟨chains, hintact⟩
  | short hlong hshort hlaid =>
      have hdir : img'.dir = img.dir := hlaid.dir
      have hsub : ∀ c ∈ g.free img.fat, c ∈ g.free img.fat := fun _ hc => hc
      have hend := hroomy.end hlong
      have hsome : content ≠ [] := by
        rintro rfl
        rw [List.length_nil, Nat.zero_sub, clustersFor_zero] at hshort
        exact Nat.not_lt_zero _ hshort
      have hedit := Edit.of_appended hlong hlaid hsub rfl rfl fun j _ => by rw [hdir]
      refine ⟨_, hchained.appended hlaid hsub ?_ rfl (fun j _ => by rw [hdir])
        (hdir ▸ hchained.clean) (fun s hget' hlive' => ?_)
        (fun hdead => absurd hlive (hdead slot (hdir ▸ hget))),
        hintact.below.edit hchained hedit (hchildless.resolve_left hsome),
        hintact.accounted.edit hedit⟩
      · rcases hend with hempty | hzero | ⟨hnodes, -⟩ | ⟨-, hlength⟩
        · exact .inl hempty
        · rw [hzero] at hshort
          exact absurd hshort (Nat.not_lt_zero _)
        · exact .inr (.inl hnodes)
        · exact .inr (.inr hlength)
      · rw [hchained.cluster i s (hdir ▸ hget') hlive']
        rcases hend with hempty | hzero | ⟨-, henough⟩ | ⟨hnodes, -⟩
        · rw [hempty, List.append_nil]
        · rw [hzero] at hshort
          exact absurd hshort (Nat.not_lt_zero _)
        · exact absurd henough (Nat.not_le.mpr hshort)
        · obtain ⟨c, rest, hcons⟩ := List.exists_cons_of_ne_nil hnodes
          rw [hcons]
          rfl
  | @done img₁ hlong henough hlaid =>
      have hdir : img₁.dir = img.dir := hlaid.dir
      have hsub : ∀ c ∈ g.appendTaken img (chains i) slot.size content.length, c ∈ g.free img.fat :=
        fun _ hc => List.mem_of_mem_take hc
      have hlive' : Slot.live
          { slot with
            cluster := (chains i ++ g.appendTaken img (chains i) slot.size content.length).headD 0
            size := (slot.size + content.length) % 2 ^ 32 } := (live_congr rfl rfl).trans hlive
      have hother : ∀ j, j ≠ i → (img₁.setSlot i { slot with
            cluster := (chains i ++ g.appendTaken img (chains i) slot.size content.length).headD 0
            size := (slot.size + content.length) % 2 ^ 32 }).dir[j]? = img.dir[j]? := fun j hj => by
        rw [Image.setSlot_dir, hdir, dir_set_ne hj]
      have hself : (img₁.setSlot i { slot with
            cluster := (chains i ++ g.appendTaken img (chains i) slot.size content.length).headD 0
            size := (slot.size + content.length) % 2 ^ 32 }).dir[i]? = some { slot with
            cluster := (chains i ++ g.appendTaken img (chains i) slot.size content.length).headD 0
            size := (slot.size + content.length) % 2 ^ 32 } := by
        rw [Image.setSlot_dir, hdir]
        exact List.getElem?_set_self hi
      have hedit := @Edit.of_appended g img (img₁.setSlot i _) img₁ chains i _ _ _ _ hlong hlaid
        hsub rfl rfl hother
      refine ⟨_, hchained.appended hlaid hsub ?_ rfl hother ?_ (fun s hget' _ => ?_)
        (fun hdead => absurd hlive' (hdead _ hself)), ?_, hintact.accounted.edit hedit⟩
      · rcases hroomy.end hlong with hempty | hzero | ⟨hnodes, -⟩ | ⟨-, hlength⟩
        · exact .inl (by rw [appendTaken, hempty, List.take_nil])
        · exact .inl (by rw [appendTaken, hzero, List.take_zero])
        · exact .inr (.inl hnodes)
        · exact .inr (.inr hlength)
      · rw [Image.setSlot_dir, hdir]
        exact hchained.clean.set (Slot.live_iff.mp hlive').1
          fun j t hlt ht => hchained.clean.before_live hget hlive hlt ht
      · rw [eq_of_getElem?_set hget']
      · rcases hchildless with hcontent | hchildless
        · -- Nothing is appended, so the sub-directory itself is as it was.
          subst hcontent
          have hnone : g.appendTaken img (chains i) slot.size ([] : List UInt8).length = [] := by
            rw [appendTaken, List.length_nil, Nat.zero_sub, clustersFor_zero, List.take_zero]
          rw [hnone] at hlaid
          have hsame : img₁ = img := hlaid.eq_of_nil.trans (patched_of_room_zero room_zero)
          rw [hnone, List.append_nil, Function.update_eq_self, hsame]
          have hbelow := hintact.below
          refine ⟨fun p hp => ?_, hbelow.directory, hbelow.chain, hbelow.not_root, hbelow.apart,
            hbelow.distinct, hbelow.bytes_eq⟩
          obtain ⟨s, hs, hslive, hsdir⟩ := hbelow.owner p hp
          by_cases hpi : p.slot = i
          · rw [hpi, hget] at hs
            obtain rfl := Option.some.inj hs
            rw [hpi, Image.setSlot_dir, List.getElem?_set_self hi]
            exact ⟨_, rfl, (live_congr rfl rfl).trans hslive, hsdir⟩
          · rw [Image.setSlot_dir, dir_set_ne hpi]
            exact ⟨s, hs, hslive, hsdir⟩
        · exact hintact.below.edit hchained hedit hchildless

/-! ## Every call, and every run -/

/-- A call that loses no cluster keeps the volume intact. -/
theorem IntactImage.step {call : FileCall} {r : Int}
    (hintact : g.IntactImage bytes nested img chains)
    (hroomy : g.Roomy nested img call) (hstep : g.Step chains img call r img') :
    ∃ chains', g.IntactImage bytes nested img' chains' := by
  have howns : ∀ {raw : List UInt8} {i : Nat} {slot : Slot}, findName raw img.dir = some i →
      img.dir[i]? = some slot → slot.live ∧ g.Owns img.fat slot (chains i) := by
    intro raw i slot hfind hget
    obtain ⟨t, ht, hlive, -⟩ := findName_spec hfind
    obtain rfl := Option.some.inj (hget.symm.trans ht)
    exact ⟨hlive, hintact.chained.owns hget hlive⟩
  cases hstep with
  | createFull _ => exact ⟨chains, hintact⟩
  | create hslot hstored => exact hintact.create hslot hroomy hstored
  | writeNew hfind hcreate =>
      cases hcreate with
      | createFull _ => exact ⟨chains, hintact⟩
      | create hslot hstored => exact hintact.create hslot (hroomy.1 hfind) hstored
  | write hfind hget hstored =>
      obtain ⟨hlive, hown⟩ := howns hfind hget
      obtain ⟨hchildless, hroom⟩ := hroomy.2 _ _ _ hfind hget hown
      exact hintact.write hget hlive hchildless hroom hstored
  | appendNew hfind hcreate =>
      cases hcreate with
      | createFull _ => exact ⟨chains, hintact⟩
      | create hslot hstored => exact hintact.create hslot (hroomy.1 hfind) hstored
  | append hfind hget happended =>
      obtain ⟨hlive, hown⟩ := howns hfind hget
      obtain ⟨hchildless, hroom⟩ := hroomy.2 _ _ _ hfind hget hown
      exact hintact.append hget hlive hchildless hroom happended
  | deleteMissing _ => exact ⟨chains, hintact⟩
  | delete hfind hget =>
      exact hintact.delete hget (howns hfind hget).1 (hroomy _ hfind)
  | mkdirFull _ => exact ⟨chains, hintact⟩
  | mkdir hslot => exact hintact.mkdir hslot

/-- A step returns `0` or `-1`. -/
theorem Step.result {call : FileCall} {r : Int} (hstep : g.Step chains img call r img') :
    r = 0 ∨ r = -1 := by
  have hstored : ∀ {base img' : Image} {i : Nat} {slot : Slot} {content : List UInt8} {r : Int},
      g.Stored base i slot content r img' → r = 0 ∨ r = -1 := by
    intro base img' i slot content r hstored
    cases hstored with
    | short _ _ _ => exact .inr rfl
    | done _ _ => exact .inl rfl
  induction hstep with
  | createFull _ => exact .inr rfl
  | create _ h => exact hstored h
  | writeNew _ _ ih => exact ih
  | write _ _ h => exact hstored h
  | appendNew _ _ ih => exact ih
  | append _ _ h =>
      cases h with
      | broken _ _ => exact .inr rfl
      | short _ _ _ => exact .inr rfl
      | done _ _ _ => exact .inl rfl
  | deleteMissing _ => exact .inr rfl
  | delete _ _ => exact .inl rfl
  | mkdirFull _ => exact .inr rfl
  | mkdir _ => exact .inl rfl

/-- On an intact volume every call returns, and one that loses no cluster leaves the
volume intact. -/
theorem Intact.exec (hintact : g.Intact bytes nested d) (call : FileCall) :
    ∃ r d', exec d g.vol call = some (r, d') ∧ (r = 0 ∨ r = -1) ∧
      (g.Roomy nested (g.image d.bytes) call → g.Intact bytes nested d') := by
  obtain ⟨hdisk, chains, himage⟩ := hintact
  obtain ⟨r, b', hrun, hstep⟩ := @exec_disk g d.bytes chains call himage.chained.root
    fun raw i slot _ hfind hget => by
      obtain ⟨t, ht, hlive, -⟩ := findName_spec hfind
      obtain rfl := Option.some.inj (hget.symm.trans ht)
      exact himage.chained.owns hget hlive
  rw [← hdisk] at hrun
  exact ⟨r, disk b', hrun, hstep.result, fun hroomy => ⟨rfl, himage.step hroomy hstep⟩⟩

/-- In every run whose calls all lose no cluster the volume stays intact, and every
further call returns. -/
theorem intact_of_roomyRun (hintact : g.Intact bytes nested d) (hrun : g.RoomyRun nested d d') :
    g.Intact bytes nested d' ∧
      ∀ call, ∃ r d'', exec d' g.vol call = some (r, d'') ∧ (r = 0 ∨ r = -1) := by
  have hfinal : g.Intact bytes nested d' := by
    induction hrun with
    | refl => exact hintact
    | tail _ hcall ih =>
        obtain ⟨call, r, hroomy, hexec⟩ := hcall
        obtain ⟨r', d₂, hexec', -, hkept⟩ := ih.exec call
        rw [hexec] at hexec'
        obtain ⟨-, rfl⟩ := Prod.mk.inj (Option.some.inj hexec')
        exact hkept hroomy
  refine ⟨hfinal, fun call => ?_⟩
  obtain ⟨r, d'', hexec, hresult, -⟩ := hfinal.exec call
  exact ⟨r, d'', hexec, hresult⟩

theorem formatted_intact (hroot : g.root = [g.vol.rootCluster]) :
    g.Intact (fun _ _ => 0) [] (disk g.formatted) := by
  refine ⟨rfl, fun _ => [], formatted_chained hroot fun _ hlive => hlive, ?_, ?_⟩
  · exact ⟨by simp, by simp, by simp, by simp, by simp, .nil, by simp⟩
  · intro c _
    rw [disk_bytes, image_formatted, hroot]
    by_cases hc : c = g.vol.rootCluster
    · exact .inr (.inr (.inl (by simp [hc])))
    · exact .inl (if_neg hc)

theorem RoomyRun.single {call : FileCall} {r : Int} (hroomy : g.Roomy nested (g.image d.bytes) call)
    (hexec : exec d g.vol call = some (r, d')) : g.RoomyRun nested d d' :=
  Relation.ReflTransGen.single ⟨call, r, hroomy, hexec⟩

/-- Creating a one-byte file on a fresh volume is such a run. -/
theorem intact_after_create : ∃ d',
    smallVolume.RoomyRun [] (disk smallVolume.formatted) d' ∧
      smallVolume.Intact (fun _ _ => 0) [] d' := by
  have hfresh : smallVolume.Intact (fun _ _ => 0) [] (disk smallVolume.formatted) :=
    formatted_intact rfl
  obtain ⟨r, d', hexec, -, -⟩ := hfresh.exec (.createFile ⟨[0x41], by decide⟩ [1])
  have hfree : 3 ∈ smallVolume.free (smallVolume.image smallVolume.formatted).fat := by
    rw [image_formatted, mem_free]
    decide
  have hroomy : smallVolume.Roomy [] (smallVolume.image smallVolume.formatted)
      (.createFile ⟨[0x41], by decide⟩ [1]) := by
    refine .inr (.inr ⟨?_, by decide⟩)
    rw [clustersNeeded_eq]
    exact List.length_pos_of_mem hfree
  rw [← disk_bytes smallVolume.formatted] at hroomy
  have hrun : smallVolume.RoomyRun [] (disk smallVolume.formatted) d' := .single hroomy hexec
  exact ⟨d', hrun, (intact_of_roomyRun hfresh hrun).1⟩

/-- A file that does not fit is not created, and every free cluster is linked. -/
theorem Step.create_short {name : CString} {r : Int}
    (hstep : g.Step chains img (.createFile name content) r img')
    (hslot : freeSlot img.dir ≠ none) (hcontent : content ≠ [])
    (hfew : (g.free img.fat).length < clustersNeeded g.vol content.length) :
    r = -1 ∧ g.Laid img img' 0 (g.free img.fat) content := by
  cases hstep with
  | createFull hnone => exact absurd hnone hslot
  | create _ hstored =>
      cases hstored with
      | short _ _ hlaid => exact ⟨rfl, hlaid⟩
      | done henough _ =>
          rcases henough with hnil | hle
          · exact absurd hnil hcontent
          · exact absurd hle (Nat.not_le.mpr hfew)

/-- An allocated cluster that no root chain holds is lost when no slot is live. -/
theorem IntactImage.not_lost {c : Nat} (hintact : g.IntactImage bytes nested img chains)
    (hdead : ∀ (j : Nat) (s : Slot), img.dir[j]? = some s → ¬ s.live) (hc : g.InTable c)
    (hroot : c ∉ g.root) : img.fat c = 0 ∨ img.fat c = clusterBad := by
  rcases hintact.accounted c hc with hzero | hbad | hmem | ⟨j, hj⟩ | ⟨p, hp, -⟩
  · exact .inl hzero
  · exact .inr hbad
  · exact absurd hmem hroot
  · rw [hintact.chained.untracked j fun s hget => hdead j s hget] at hj
    exact absurd hj List.not_mem_nil
  · obtain ⟨s, hget, hlive, -⟩ := hintact.below.owner p hp
    exact absurd hlive (hdead _ s hget)

/-- A file that does not fit loses the clusters taken for it. -/
theorem create_on_full_disk_not_intact : ∃ d',
    smallVolume.Intact (fun _ _ => 0) [] (disk smallVolume.formatted) ∧
      exec (disk smallVolume.formatted) smallVolume.vol
        (.createFile ⟨[0x41], by decide⟩ (List.replicate 65537 0)) = some (-1, d') ∧
      ∀ bytes nested, ¬ smallVolume.Intact bytes nested d' := by
  have hfresh : smallVolume.Intact (fun _ _ => 0) [] (disk smallVolume.formatted) :=
    formatted_intact rfl
  have hchained := @formatted_chained smallVolume (fun s => s.live) rfl
    fun _ hlive => hlive
  obtain ⟨r, b', hexec, hstep⟩ := @exec_disk smallVolume smallVolume.formatted (fun _ => [])
    (.createFile ⟨[0x41], by decide⟩ (List.replicate 65537 0)) hchained.root
    fun raw i slot htarget => by cases htarget
  have hfree : 3 ∈ smallVolume.free (smallVolume.image smallVolume.formatted).fat := by
    rw [image_formatted, mem_free]
    decide
  have hcontent : List.replicate 65537 (0 : UInt8) ≠ [] := by
    rw [ne_eq, List.replicate_eq_nil_iff]
    decide
  have hfew : (smallVolume.free (smallVolume.image smallVolume.formatted).fat).length <
      clustersNeeded smallVolume.vol (List.replicate 65537 (0 : UInt8)).length := by
    have hbound := List.length_filter_le
      (fun c => decide (2 ≤ c ∧ (smallVolume.image smallVolume.formatted).fat c = 0))
      (List.range smallVolume.tableSize)
    rw [List.length_range] at hbound
    rw [List.length_replicate]
    exact Nat.lt_of_le_of_lt hbound (by decide)
  have hslot : freeSlot (smallVolume.image smallVolume.formatted).dir ≠ none := by
    rw [freeSlot_formatted]
    exact Option.some_ne_none 0
  obtain ⟨rfl, hlaid⟩ := hstep.create_short hslot hcontent hfew
  refine ⟨disk b', hfresh, hexec, fun bytes nested hintact => ?_⟩
  obtain ⟨-, chains, himage⟩ := hintact
  have hdead : ∀ (i : Nat) (s : Slot), (smallVolume.image b').dir[i]? = some s → ¬ s.live := by
    intro i s hget hlive
    rw [hlaid.dir, image_formatted] at hget
    obtain ⟨p, -, rfl⟩ := List.mem_map.mp (List.mem_of_getElem? hget)
    exact absurd hlive (by decide)
  -- Cluster 3 is allocated, but no slot is live.
  have hallocated := (hlaid.chain fun c hc => (mem_free.mp hc).1).allocated hfree
  rcases himage.not_lost hdead (by decide) (by decide : 3 ∉ smallVolume.root) with hzero | hbad
  · exact hallocated.1 hzero
  · exact hallocated.2 hbad

end Geometry

end GeckoOS.Fs
