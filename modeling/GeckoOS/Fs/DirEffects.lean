/-
# What a call does to the root directory

On a volume whose chains are all in order `Calls` says everything about a call.  The
directory alone needs much less: it is enough that no link and no entry leads out of the
data area or into the clusters of the root directory.  Chains may be shared, end in a free
cluster or run in a circle, as they do after a call that ran out of space.

A call then changes one slot of the root directory at most, and leaves a volume of the same
kind.
-/

import GeckoOS.Fs.Ownership
import Mathlib.Data.Finset.Card
import Mathlib.Data.Finset.Range

namespace GeckoOS.Fs

open GeckoOS.Math ByteMap

namespace Geometry

variable {g : Geometry} {b : ByteMap} {img img' img'' : Image} {c i prev value : Nat} {slot : Slot}
  {content : List UInt8} {name : CString} {ks : List Nat}

/-! ## Links that stay in the data area -/

/-- A cluster of the data area that is not one of the root directory. -/
def Outside (g : Geometry) (c : Nat) : Prop := g.InTable c ∧ c ∉ g.root

/-- Links between clusters outside the root directory stay outside. -/
def LinksOutside (g : Geometry) (fat : Nat → Nat) : Prop :=
  ∀ c, g.Outside c → IsLink (fat c) → g.Outside (fat c)

/-- A volume whose root directory nothing else leads to. -/
structure Contained (g : Geometry) (img : Image) : Prop where
  root : g.RootChain img.fat
  link : g.LinksOutside img.fat
  entry : ∀ s ∈ img.dir, s.live → s.cluster = 0 ∨ g.Outside s.cluster
  clean : EndsClean img.dir

theorem Outside.ne_zero (hc : g.Outside c) : c ≠ 0 := (Nat.zero_lt_of_lt hc.1.1).ne'

theorem Outside.lt (hc : g.Outside c) : c < 2 ^ 28 := by
  have hbad := hc.1.lt_bad
  simp only [clusterBad] at hbad
  omega

theorem outside_of_free (hroot : g.RootChain img.fat) (hc : c ∈ g.free img.fat) : g.Outside c := by
  obtain ⟨hin, hzero⟩ := mem_free.mp hc
  exact ⟨hin, fun hmem => (hroot.allocated hmem).1 hzero⟩

/-- The root directory and the kind of the links are kept. -/
structure Inner (g : Geometry) (img img' : Image) : Prop where
  dir : img'.dir = img.dir
  root : ∀ c ∈ g.root, img'.fat c = img.fat c
  link : g.LinksOutside img.fat → g.LinksOutside img'.fat

theorem Inner.refl (img : Image) : g.Inner img img := ⟨rfl, fun _ _ => rfl, fun hlink => hlink⟩

theorem Inner.trans (hfirst : g.Inner img img') (hsecond : g.Inner img' img'') :
    g.Inner img img'' :=
  ⟨hsecond.dir.trans hfirst.dir, fun c hc => (hsecond.root c hc).trans (hfirst.root c hc),
    fun hlink => hsecond.link (hfirst.link hlink)⟩

theorem Inner.rootChain (hinner : g.Inner img img') (hroot : g.RootChain img.fat) :
    g.RootChain img'.fat := hroot.congr hinner.root

theorem Inner.contained (hinner : g.Inner img img') (hcontained : g.Contained img) :
    g.Contained img' where
  root := hinner.rootChain hcontained.root
  link := hinner.link hcontained.link
  entry := by
    rw [hinner.dir]
    exact hcontained.entry
  clean := by
    rw [hinner.dir]
    exact hcontained.clean

theorem Inner.setFat (hc : g.Outside c) (hvalue : IsLink value → g.Outside value) :
    g.Inner img (img.setFat c value) := by
  refine ⟨rfl, fun r hr => ?_, fun hlink c' hc' hnext => ?_⟩
  · have hne : r ≠ c := fun hsame => hc.2 (hsame ▸ hr)
    rw [Image.setFat_fat, Function.update_of_ne hne]
  · rw [Image.setFat_fat] at hnext ⊢
    by_cases hsame : c' = c
    · rw [hsame, Function.update_self] at hnext ⊢
      exact hvalue hnext
    · rw [Function.update_of_ne hsame] at hnext ⊢
      exact hlink c' hc' hnext

theorem Inner.setData {bytes : ByteMap} : g.Inner img (img.setData c bytes) :=
  ⟨rfl, fun _ _ => rfl, fun hlink => hlink⟩

theorem not_isLink_clusterEoc : ¬IsLink clusterEoc := by decide

/-- Content laid out on clusters outside the root directory. -/
theorem Inner.of_laid (hlaid : g.Laid img img' 0 ks content) (hks : ∀ c ∈ ks, g.Outside c) :
    g.Inner img img' := by
  refine ⟨hlaid.dir, fun r hr => hlaid.fat_frame r (fun hmem => (hks r hmem).2 hr) (.inr rfl),
    fun hlink c hc hnext => ?_⟩
  by_cases hmem : c ∈ ks
  · obtain ⟨k, hk, rfl⟩ := List.getElem_of_mem hmem
    rw [hlaid.fat_link k hk] at hnext ⊢
    rcases Nat.lt_or_ge (k + 1) ks.length with hlt | hge
    · rw [List.getD_eq_getElem _ _ hlt]
      exact hks _ (List.getElem_mem hlt)
    · rw [List.getD_eq_default _ _ hge] at hnext
      exact absurd hnext not_isLink_clusterEoc
  · rw [hlaid.fat_frame c hmem (.inr rfl)] at hnext ⊢
    exact hlink c hc hnext

/-! ## Freeing -/

/-- How many entries of the table are in use. -/
def used (g : Geometry) (fat : Nat → Nat) : Nat :=
  ((Finset.range g.tableSize).filter fun c => fat c ≠ 0).card

theorem used_setFat_lt (hc : c < g.tableSize) (hused : img.fat c ≠ 0) :
    g.used (img.setFat c 0).fat < g.used img.fat := by
  refine Finset.card_lt_card (Finset.ssubset_iff_of_subset ?_ |>.mpr ⟨c, ?_, ?_⟩)
  · intro c' hc'
    rw [Finset.mem_filter, Image.setFat_fat] at hc'
    rw [Finset.mem_filter]
    by_cases hsame : c' = c
    · rw [hsame, Function.update_self] at hc'
      exact absurd rfl hc'.2
    · rwa [Function.update_of_ne hsame] at hc'
  · exact Finset.mem_filter.mpr ⟨Finset.mem_range.mpr hc, hused⟩
  · rw [Finset.mem_filter, Image.setFat_fat, Function.update_self]
    exact fun hboth => hboth.2 rfl

/-- Whatever the links look like, freeing ends: every round clears an entry in use. -/
theorem freeClusterChain_inner (hlink : g.LinksOutside (g.image b).fat)
    (hc : IsLink c → g.Outside c) :
    ∃ b', freeClusterChain (disk b) g.vol c = some (disk b') ∧
      g.Inner (g.image b) (g.image b') := by
  induction hused : g.used (g.image b).fat using Nat.strongRecOn generalizing b c with
  | ind used ih =>
      by_cases hstop : IsLink c
      · have hout := hc hstop
        obtain ⟨b₁, hwrite, himage⟩ := @writeFat_disk g b c hout.1.2 0
        have hinner : g.Inner (g.image b) (g.image b₁) := by
          rw [himage]
          exact Inner.setFat hout fun hzero => absurd hzero (by decide)
        have hround : freeClusterChain (disk b) g.vol c =
            freeClusterChain (disk b₁) g.vol ((g.image b).fat c) := by
          rw [freeClusterChain, loop_eq, freeClusterChainRound, if_pos hstop,
            nextCluster_disk hout.1.2]
          simp only [hwrite]
          rfl
        by_cases hzero : (g.image b).fat c = 0
        · refine ⟨b₁, ?_, hinner⟩
          rw [hround, hzero]
          exact freeClusterChain_stop (by decide)
        · have hless : g.used (g.image b₁).fat < used := by
            rw [himage, ← hused]
            exact used_setFat_lt hout.1.2 hzero
          obtain ⟨b', hfreed, hrest⟩ := @ih _ hless b₁ ((g.image b).fat c)
            (hinner.link hlink) (fun hnext => hlink c hout hnext) rfl
          exact ⟨b', hround.trans hfreed, hinner.trans hrest⟩
      · exact ⟨b, freeClusterChain_stop hstop, Inner.refl _⟩

/-! ## Appending -/

theorem appendWalk_outside (hlink : g.LinksOutside (g.image b).fat) (hc : g.Outside c) (n : Nat) :
    ∃ r, appendWalk g.vol n c (disk b) = (r, disk b) ∧ ∀ last, r = some last → g.Outside last := by
  induction n generalizing c with
  | zero =>
      refine ⟨some c, rfl, fun last hlast => ?_⟩
      obtain rfl := Option.some.inj hlast
      exact hc
  | succ n ih =>
      rw [appendWalk, nextCluster_disk hc.1.2]
      dsimp only
      split_ifs with hnext
      · exact ih (hlink c hc hnext)
      · exact ⟨none, rfl, fun last hlast => by cases hlast⟩

theorem patchCluster_inner {off : Nat} (hc : content = [] ∨ g.Outside c)
    (hfits : off + content.length ≤ g.clusterBytes) :
    ∃ b', patchCluster (disk b) (clusterToLba g.vol c) off content = some (0, disk b') ∧
      g.Inner (g.image b) (g.image b') := by
  rcases hc with rfl | hout
  · exact ⟨b, patchCluster_nil, Inner.refl _⟩
  · obtain ⟨b', hrun, himage⟩ := @patchCluster_disk g b c content off hout.1 hout.2 hfits
    refine ⟨b', hrun, ?_⟩
    rw [himage]
    exact Inner.setData

/-- A cluster is allocated, and the previous one linked to it. -/
theorem allocate_inner {k : Nat} {rest : List Nat} (hroot : g.RootChain (g.image b).fat)
    (hprev : prev = 0 ∨ g.Outside prev) (hfree : g.free (g.image b).fat = k :: rest) :
    ∃ b₁ b₂, allocCluster (disk b) g.vol = (k, disk b₁) ∧
      (if prev ≠ 0 then writeFat (disk b₁) g.vol prev k else (0, disk b₁)) = (0, disk b₂) ∧
      g.Outside k ∧ g.Inner (g.image b) (g.image b₂) := by
  have hk : g.Outside k := outside_of_free hroot (hfree ▸ List.mem_cons_self)
  obtain ⟨b₁, halloc, himage⟩ := allocCluster_cons hfree
  have hinner : g.Inner (g.image b) (g.image b₁) := by
    rw [himage]
    exact Inner.setFat hk fun hlink => absurd hlink not_isLink_clusterEoc
  rcases hprev with rfl | hprev
  · exact ⟨b₁, b₁, halloc, by simp, hk, hinner⟩
  · obtain ⟨b₂, hwrite, himage'⟩ := @writeFat_disk g b₁ prev hprev.1.2 k
    refine ⟨b₁, b₂, halloc, by rw [if_pos hprev.ne_zero, hwrite], hk, hinner.trans ?_⟩
    rw [himage', Nat.mod_eq_of_lt hk.lt]
    exact Inner.setFat hprev fun _ => hk

/-- What the allocation loop leaves, whether it finds enough clusters or not. -/
theorem appendClusters_inner {first : Nat} (hroot : g.RootChain (g.image b).fat)
    (hfirst : first = 0 ∨ g.Outside first) (hprev : prev = 0 ∨ g.Outside prev) :
    ∃ rc b' s', appendClusters g.vol ⟨first, prev, content, disk b⟩ = some (rc, s') ∧
      s'.drive = disk b' ∧ g.Inner (g.image b) (g.image b') ∧
        (s'.firstCluster = 0 ∨ g.Outside s'.firstCluster) := by
  induction hlength : content.length using Nat.strongRecOn generalizing b first prev content with
  | ind len ih =>
      rw [appendClusters, loop_eq, appendRound]
      dsimp only
      by_cases hmore : 0 < content.length
      · rw [if_pos hmore]
        cases hfree : g.free (g.image b).fat with
        | nil =>
            rw [allocCluster_full hfree]
            exact ⟨-1, b, ⟨first, prev, content, disk b⟩, rfl, rfl, Inner.refl _, hfirst⟩
        | cons k rest =>
            obtain ⟨b₁, b₂, halloc, hwrite, hk, hinner⟩ := allocate_inner hroot hprev hfree
            obtain ⟨m, hlow, hhigh, hsectors⟩ := @appendSectors_disk b₂ content (g.clusterLba k)
              g.vol.sectorsPerCluster 0 (clusterLba_add_le hk.1)
            rw [← List.range_eq_range', Nat.add_zero, ← clusterPos, ← clusterBytes] at hsectors
            rw [← clusterBytes] at hhigh
            have himage := @image_blit_cluster g b₂ k 0 m (ofList content) hk.1 hk.2
              (by rwa [Nat.zero_add])
            rw [Nat.add_zero] at himage
            have hfilled : g.Inner (g.image b)
                (g.image (b₂.blit (g.clusterPos k) (ofList content) m)) := by
              rw [himage]
              exact hinner.trans Inner.setData
            have hpos := clusterBytes_pos (g := g)
            obtain ⟨rc, b', s', hrun, hdrive, hrest, hfirst'⟩ :=
              @ih (content.drop g.clusterBytes).length
                (by rw [List.length_drop]; omega) (b₂.blit (g.clusterPos k) (ofList content) m)
                k (content.drop g.clusterBytes) (if prev ≠ 0 then first else k)
                (hfilled.rootChain hroot)
                (by split_ifs
                    · exact hfirst
                    · exact .inr hk) (.inr hk) rfl
            refine ⟨rc, b', s', ?_, hdrive, hfilled.trans hrest, hfirst'⟩
            rw [halloc]
            dsimp only
            rw [if_neg hk.ne_zero, hwrite]
            dsimp only
            rw [if_neg (by decide), clusterToLba_eq hk.1, hsectors]
            exact hrun
      · rw [if_neg hmore]
        exact ⟨0, b, ⟨first, prev, content, disk b⟩, rfl, rfl, Inner.refl _, hfirst⟩

/-- The slot keeps its name and attributes; its cluster may change. -/
inductive Updated (g : Geometry) (img : Image) (i : Nat) (slot : Slot) : Image → Prop
  | kept {img' : Image} (hinner : g.Inner img img') : Updated g img i slot img'
  | set {img' : Image} {c size : Nat} (hinner : g.Inner img img') (hc : c = 0 ∨ g.Outside c) :
      Updated g img i slot (img'.setSlot i { slot with cluster := c, size := size })

theorem Updated.of_inner (hinner : g.Inner img img') (hupdated : g.Updated img' i slot img'') :
    g.Updated img i slot img'' := by
  cases hupdated with
  | kept hrest => exact .kept (hinner.trans hrest)
  | set hrest hc => exact .set (hinner.trans hrest) hc

/-- Storing content makes a chain of its own, or only a part of one. -/
theorem Stored.updated {r : Int} (hroot : g.RootChain img.fat)
    (hstored : g.Stored img i slot content r img') : g.Updated img i slot img' := by
  have hfree : ∀ c ∈ g.free img.fat, g.Outside c := fun c hc => outside_of_free hroot hc
  have htaken : ∀ c ∈ g.taken img content.length, g.Outside c := fun c hc =>
    hfree c (List.mem_of_mem_take hc)
  cases hstored with
  | short _ _ hlaid => exact .kept (Inner.of_laid hlaid hfree)
  | done _ hlaid =>
      refine .set (Inner.of_laid hlaid htaken) ?_
      cases hks : g.taken img content.length with
      | nil => exact .inl rfl
      | cons c ks => exact .inr (htaken c (hks ▸ List.mem_cons_self))

theorem outside_of_isLink (hc : c = 0 ∨ g.Outside c) (hlink : IsLink c) : g.Outside c := by
  rcases hc with rfl | hout
  · exact absurd hlink (by decide)
  · exact hout

theorem zero_or_outside_lt (hc : c = 0 ∨ g.Outside c) : c < 2 ^ 32 := by
  rcases hc with rfl | hout
  · decide
  · exact hout.lt.trans (by decide)

/-- Nothing is put into a cluster that is not there. -/
theorem preallocated_nil_or (content : List UInt8) (size : Nat) {first : Nat} {present : Prop}
    (hfirst : first = 0 ∨ present) :
    content.take (preallocatedRoom g.vol size first content.length) = [] ∨ present := by
  rcases hfirst with hzero | hpresent
  · rw [preallocatedRoom, if_neg fun hall => hall.2.1 hzero, List.take_zero]
    exact .inl rfl
  · exact .inr hpresent

theorem tail_nil_or (content : List UInt8) (size : Nat) {last : Nat} {present : Prop}
    (hlast : last = 0 ∨ present) :
    content.take (tailRoom g.vol size last content.length) = [] ∨ present := by
  rcases hlast with hzero | hpresent
  · rw [tailRoom, if_neg fun hall => hall.1 hzero, List.take_zero]
    exact .inl rfl
  · exact .inr hpresent

/-- What is put into existing clusters fits into them. -/
theorem preallocated_fits (content : List UInt8) (size first : Nat) :
    0 + (content.take (preallocatedRoom g.vol size first content.length)).length ≤
      g.clusterBytes := by
  rw [List.length_take, preallocatedRoom, clusterSize_eq]
  split_ifs <;> omega

theorem tail_fits (content : List UInt8) (size last : Nat) :
    size % g.clusterBytes + (content.take (tailRoom g.vol size last content.length)).length ≤
      g.clusterBytes := by
  have hinside := Nat.mod_lt size (clusterBytes_pos (g := g))
  rw [List.length_take, tailRoom, clusterSize_eq]
  split_ifs <;> omega

/-- Both fills, the allocation and the entry of an append. -/
theorem appendFrom_updated {p : Nat × Nat} {last : Nat} {ctx : DirSearchCtx}
    (hroot : g.RootChain (g.image b).fat) (hp : g.slots[i]? = some p)
    (hctx : ctx.foundLba = p.1 ∧ ctx.foundIdx = p.2) (hentry : slotOf ctx.result = slot)
    (hfirst : slot.cluster = 0 ∨ g.Outside slot.cluster) (hlast : last = 0 ∨ g.Outside last) :
    ∃ r b', appendFrom (disk b) g.vol ctx last content = some (r, disk b') ∧
      g.Updated (g.image b) i slot (g.image b') := by
  obtain ⟨hcluster, hsize⟩ := cluster_of_slot hentry
  obtain ⟨b₁, hrun₁, hinner₁⟩ := @patchCluster_inner g b slot.cluster _ _
    (preallocated_nil_or content slot.size hfirst)
    (preallocated_fits content slot.size slot.cluster)
  obtain ⟨b₂, hrun₂, hinner₂⟩ := @patchCluster_inner g b₁ last _ _
    (tail_nil_or content slot.size hlast) (tail_fits content slot.size last)
  have hfilled := hinner₁.trans hinner₂
  obtain ⟨rc, b₃, s, hrun₃, hdrive, hinner₃, hfirst'⟩ := @appendClusters_inner g b₂ last
    (content.drop (preallocatedRoom g.vol slot.size slot.cluster content.length +
      tailRoom g.vol slot.size last content.length)) slot.cluster (hfilled.rootChain hroot)
    hfirst hlast
  have hall := hfilled.trans hinner₃
  rw [appendFrom, hcluster, hsize]
  simp only [hrun₁, Option.bind_some, lt_irrefl, if_false, clusterSize_eq, hrun₂, hrun₃]
  by_cases hfailed : rc < 0
  · rw [if_pos hfailed, hdrive]
    exact ⟨-1, b₃, rfl, .kept hall⟩
  · obtain ⟨b', hwrite, himage⟩ := @writeDirEntry_disk g b₃ i p
      (updatedEntry ctx.result s.firstCluster (slot.size + content.length)) hp
    rw [if_neg hfailed, hdrive, hctx.1, hctx.2, hwrite]
    refine ⟨0, b', rfl, ?_⟩
    rw [himage, DirEntry.slotOf_updatedEntry (zero_or_outside_lt hfirst'), hentry]
    exact .set hall hfirst'

/-! ## The calls -/

/-- There is a slot for a new file and space for its content. -/
def CreateFits (g : Geometry) (img : Image) (content : List UInt8) : Prop :=
  (freeSlot img.dir).isSome ∧
    (content = [] ∨ clustersNeeded g.vol content.length ≤ (g.free img.fat).length)

instance (img : Image) (content : List UInt8) : Decidable (g.CreateFits img content) :=
  inferInstanceAs (Decidable (_ ∧ _))

/-- The eleven bytes of the entry that a call makes, if it makes one. -/
def newName (g : Geometry) (img : Image) : FileCall → Option (List UInt8)
  | .createFile name content =>
      if g.CreateFits img content then some (encode83Name name.1) else none
  | .writeFile name content | .appendFile name content =>
      if findName (encode83Name name.1) img.dir = none ∧ g.CreateFits img content then
        some (encode83Name name.1)
      else none
  | .deleteFile _ => none
  | .mkdir name => if (freeSlot img.dir).isSome then some (encode83Name name.1) else none

/-- What a call can do to the root directory. -/
inductive Effect (g : Geometry) (img : Image) (call : FileCall) : Image → Prop
  | kept {img' : Image} (hnone : g.newName img call = none) (hinner : g.Inner img img') :
      Effect g img call img'
  | updated {i : Nat} {slot : Slot} {img' : Image} (hnone : g.newName img call = none)
      (hget : img.dir[i]? = some slot) (hlive : slot.live) (hupdated : g.Updated img i slot img') :
      Effect g img call img'
  | deleted {i : Nat} {slot : Slot} {img' : Image} (hnone : g.newName img call = none)
      (hget : img.dir[i]? = some slot) (hlive : slot.live) (hinner : g.Inner img img') :
      Effect g img call (img'.setSlot i { slot with name := entryFree :: slot.name.tail })
  | created {raw : List UInt8} {i c size : Nat} {a : UInt8} {img' : Image}
      (hnew : g.newName img call = some raw) (hslot : freeSlot img.dir = some i)
      (hraw : raw.headD 0 ≠ entryEnd) (ha : a &&& attrVolumeId = 0) (hinner : g.Inner img img')
      (hc : c = 0 ∨ g.Outside c) : Effect g img call (img'.setSlot i ⟨raw, a, c, size⟩)

/-- A call that looks for no name, or does not find it, may make a file. -/
theorem createFile_effect {call : FileCall} (hroot : g.RootChain (g.image b).fat)
    (hnew : g.newName (g.image b) call =
      if g.CreateFits (g.image b) content then some (encode83Name name.1) else none) :
    ∃ r b', createFile (disk b) g.vol name.1 content = some (r, disk b') ∧
      g.Effect (g.image b) call (g.image b') := by
  obtain ⟨r, b', hrun, hstep⟩ := @createFile_disk g b name content (fun _ => []) hroot
  refine ⟨r, b', hrun, ?_⟩
  generalize himage : g.image b' = img' at hstep
  have hfree : ∀ c ∈ g.free (g.image b).fat, g.Outside c := fun c hc => outside_of_free hroot hc
  cases hstep with
  | createFull hslot =>
      have hfull : ¬g.CreateFits (g.image b) content := by
        rw [CreateFits, hslot]
        exact fun hfits => Bool.false_ne_true hfits.1
      rw [if_neg hfull] at hnew
      exact .kept hnew (Inner.refl _)
  | @create _ _ i _ _ hslot hstored =>
      have hsome : (freeSlot (g.image b).dir).isSome := by
        rw [hslot]
        rfl
      cases hstored with
      | short hcontent hshort hlaid =>
          have hfull : ¬g.CreateFits (g.image b) content := by
            rintro ⟨-, hnil | henough⟩
            · exact hcontent hnil
            · omega
          rw [if_neg hfull] at hnew
          exact .kept hnew (Inner.of_laid hlaid hfree)
      | done henough hlaid =>
          rw [if_pos ⟨hsome, henough⟩] at hnew
          have htaken : ∀ c ∈ g.taken (g.image b) content.length, g.Outside c := fun c hc =>
            hfree c (List.mem_of_mem_take hc)
          have harchive : attrArchive &&& attrVolumeId = 0 := by decide
          refine .created hnew hslot (first_encode83Name name) harchive
            (Inner.of_laid hlaid htaken) ?_
          cases hks : g.taken (g.image b) content.length with
          | nil => exact .inl rfl
          | cons c ks => exact .inr (htaken c (hks ▸ List.mem_cons_self))

theorem writeFile_effect (hcontained : g.Contained (g.image b)) :
    ∃ r b', writeFile (disk b) g.vol name.1 content = some (r, disk b') ∧
      g.Effect (g.image b) (.writeFile name content) (g.image b') := by
  have hroot := hcontained.root
  cases hfind : findName (encode83Name name.1) (g.image b).dir with
  | none =>
      rw [writeFile, search_name_none hroot hfind, Option.bind_some]
      refine createFile_effect hroot ?_
      simp only [newName, hfind, true_and]
  | some i =>
      obtain ⟨p, hp, hsearch⟩ := search_name_some hroot hfind
      obtain ⟨slot, hget, hlive, hentry⟩ := found_slot hfind hp
      have hcluster := hcontained.entry slot (List.mem_of_getElem? hget) hlive
      have hnone : g.newName (g.image b) (.writeFile name content) = none := by
        rw [newName, hfind, if_neg fun hall => by cases hall.1]
      obtain ⟨b₁, hfreed, hinner⟩ := @freeClusterChain_inner g b slot.cluster hcontained.link
        (outside_of_isLink hcluster)
      have hroot₁ := hinner.rootChain hroot
      obtain ⟨r, b', hrun, hstored⟩ := @store_disk g b₁ i slot content p
        (fun c => updatedEntry (entryAt b p) c content.length) (root_not_free hroot₁) hp
        (fun c hc => by rw [DirEntry.slotOf_updatedEntry hc, hentry])
      refine ⟨r, b', ?_, .updated hnone hget hlive ((hstored.updated hroot₁).of_inner hinner)⟩
      rw [writeFile, hsearch, Option.bind_some]
      simp only [foundAt, if_true, (cluster_of_slot hentry).1, hfreed, Option.bind_some]
      exact hrun

theorem deleteFile_effect (hcontained : g.Contained (g.image b)) :
    ∃ r b', deleteFile (disk b) g.vol name.1 = some (r, disk b') ∧
      g.Effect (g.image b) (.deleteFile name) (g.image b') := by
  have hroot := hcontained.root
  cases hfind : findName (encode83Name name.1) (g.image b).dir with
  | none =>
      rw [deleteFile, search_name_none hroot hfind, Option.bind_some]
      exact ⟨-1, b, rfl, .kept rfl (Inner.refl _)⟩
  | some i =>
      obtain ⟨p, hp, hsearch⟩ := search_name_some hroot hfind
      obtain ⟨slot, hget, hlive, hentry⟩ := found_slot hfind hp
      have hcluster := hcontained.entry slot (List.mem_of_getElem? hget) hlive
      obtain ⟨b₁, hfreed, hinner⟩ := @freeClusterChain_inner g b slot.cluster hcontained.link
        (outside_of_isLink hcluster)
      obtain ⟨b', hwrite, himage⟩ := @writeDirEntry_disk g b₁ i p
        ((entryAt b p).store 0 1 entryFree.toNat) hp
      refine ⟨0, b', ?_, ?_⟩
      · rw [deleteFile, hsearch, Option.bind_some]
        simp only [foundAt, if_true, (cluster_of_slot hentry).1, hfreed, Option.bind_some, hwrite]
      · rw [himage, DirEntry.slotOf_deleted, hentry,
          show DirEntry.rawName (entryAt b p) = slot.name from congrArg Slot.name hentry]
        exact .deleted rfl hget hlive hinner

theorem appendFile_effect (hcontained : g.Contained (g.image b)) :
    ∃ r b', appendFile (disk b) g.vol name.1 content = some (r, disk b') ∧
      g.Effect (g.image b) (.appendFile name content) (g.image b') := by
  have hroot := hcontained.root
  cases hfind : findName (encode83Name name.1) (g.image b).dir with
  | none =>
      rw [appendFile, search_name_none hroot hfind, Option.bind_some]
      refine createFile_effect hroot ?_
      simp only [newName, hfind, true_and]
  | some i =>
      obtain ⟨p, hp, hsearch⟩ := search_name_some hroot hfind
      obtain ⟨slot, hget, hlive, hentry⟩ := found_slot hfind hp
      obtain ⟨hcluster, hsize⟩ := cluster_of_slot hentry
      have hfirst := hcontained.entry slot (List.mem_of_getElem? hget) hlive
      have hnone : g.newName (g.image b) (.appendFile name content) = none := by
        rw [newName, hfind, if_neg fun hall => by cases hall.1]
      have hfrom : ∀ last, last = 0 ∨ g.Outside last → ∃ r b',
          appendFrom (disk b) g.vol { foundAt (.forName name.1) p with result := entryAt b p } last
            content = some (r, disk b') ∧ g.Updated (g.image b) i slot (g.image b') :=
        fun last hlast => appendFrom_updated hroot hp ⟨rfl, rfl⟩ hentry hfirst hlast
      rw [appendFile, hsearch, Option.bind_some]
      simp only [foundAt, if_true, hcluster, hsize]
      rcases hfirst with hzero | hout
      · obtain ⟨r, b', hrun, hupdated⟩ := hfrom 0 (.inl rfl)
        rw [if_neg (not_not.mpr hzero)]
        exact ⟨r, b', hrun, .updated hnone hget hlive hupdated⟩
      · obtain ⟨r, hwalk, hlast⟩ := @appendWalk_outside g b slot.cluster hcontained.link hout
          ((slot.size + clusterSize g.vol - 1) / clusterSize g.vol - 1)
        rw [if_pos hout.ne_zero, hwalk]
        cases r with
        | none => exact ⟨-1, b, rfl, .kept hnone (Inner.refl _)⟩
        | some last =>
            obtain ⟨r, b', hrun, hupdated⟩ := hfrom last (.inr (hlast last rfl))
            exact ⟨r, b', hrun, .updated hnone hget hlive hupdated⟩

theorem mkdir_effect (hroot : g.RootChain (g.image b).fat) :
    ∃ r b', mkdir (disk b) g.vol name.1 = some (r, disk b') ∧
      g.Effect (g.image b) (.mkdir name) (g.image b') := by
  obtain ⟨r, b', hrun, hstep⟩ := @mkdir_disk g b name (fun _ => []) hroot
  refine ⟨r, b', hrun, ?_⟩
  generalize himage : g.image b' = img' at hstep
  cases hstep with
  | mkdirFull hslot =>
      refine .kept ?_ (Inner.refl _)
      rw [newName, hslot]
      rfl
  | @mkdir _ i hslot =>
      refine .created ?_ hslot (first_encode83Name name) (by decide) (Inner.refl _) (.inl rfl)
      rw [newName, hslot]
      rfl

/-- Every call returns, and has one of these effects. -/
theorem exec_effect (hcontained : g.Contained (g.image b)) (call : FileCall) :
    ∃ r b', exec (disk b) g.vol call = some (r, disk b') ∧
      g.Effect (g.image b) call (g.image b') := by
  cases call with
  | createFile name content => exact createFile_effect hcontained.root rfl
  | writeFile name content => exact writeFile_effect hcontained
  | appendFile name content => exact appendFile_effect hcontained
  | deleteFile name => exact deleteFile_effect hcontained
  | mkdir name => exact mkdir_effect hcontained.root

/-- One slot is filled, before which there is no end mark. -/
theorem Contained.setSlot (hcontained : g.Contained img)
    (hcluster : slot.live → slot.cluster = 0 ∨ g.Outside slot.cluster)
    (hfirst : slot.first ≠ entryEnd)
    (hbefore : ∀ j t, j < i → img.dir[j]? = some t → t.first ≠ entryEnd) :
    g.Contained (img.setSlot i slot) where
  root := hcontained.root
  link := hcontained.link
  entry s hs hlive := by
    rcases List.mem_or_eq_of_mem_set hs with hold | rfl
    · exact hcontained.entry s hold hlive
    · exact hcluster hlive
  clean := hcontained.clean.set hfirst hbefore

/-- The volume stays contained. -/
theorem Contained.effect {call : FileCall} (hcontained : g.Contained img)
    (heffect : g.Effect img call img') : g.Contained img' := by
  cases heffect with
  | kept _ hinner => exact hinner.contained hcontained
  | @updated i slot _ _ hget hlive hupdated =>
      cases hupdated with
      | kept hinner => exact hinner.contained hcontained
      | set hinner hc =>
          refine (hinner.contained hcontained).setSlot (fun _ => hc) (Slot.live_iff.mp hlive).1 ?_
          rw [hinner.dir]
          exact fun j t hlt ht => hcontained.clean.before_live hget hlive hlt ht
  | @deleted i slot img₁ _ hget hlive hinner =>
      have hmark : entryFree ≠ entryEnd := by decide
      refine (hinner.contained hcontained).setSlot (fun hdead => ?_) hmark ?_
      · exact absurd (Slot.listed_iff.mp (Slot.live_iff.mp hdead).2).1 (fun h => h rfl)
      · rw [hinner.dir]
        exact fun j t hlt ht => hcontained.clean.before_live hget hlive hlt ht
  | created _ hslot hraw _ hinner hc =>
      refine (hinner.contained hcontained).setSlot (fun _ => hc) hraw ?_
      rw [hinner.dir]
      exact fun j t hlt ht => before_freeSlot hslot hlt ht

end Geometry

end GeckoOS.Fs
