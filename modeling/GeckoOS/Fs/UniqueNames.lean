/-
# One entry for each name

No two live entries of the root directory should have the same eleven bytes.  A call that
finds an entry keeps its name, so the only calls that can break this are those that make an
entry: `fat32_create_file` and `fat32_mkdir` take a free slot and do not look for the name,
while `fat32_write_file` and `fat32_append_file` make one only for a name they did not find.
-/

import GeckoOS.Fs.DirEffects
import GeckoOS.Fs.Lookup

namespace GeckoOS.Fs

open GeckoOS.Math ByteMap

/-- No two live entries have one name. -/
def UniqueNames (dir : List Slot) : Prop :=
  ∀ (i j : Nat) (s t : Slot), dir[i]? = some s → dir[j]? = some t → s.live → t.live →
    s.name = t.name → i = j

section Slots

variable {dir : List Slot} {i : Nat} {old slot : Slot}

theorem getElem?_set_cases {j : Nat} {s : Slot} (hget : (dir.set i slot)[j]? = some s) :
    (j = i ∧ s = slot) ∨ (j ≠ i ∧ dir[j]? = some s) := by
  by_cases hj : j = i
  · subst hj
    obtain ⟨hlt, heq⟩ := List.getElem?_eq_some_iff.mp hget
    rw [List.getElem_set_self] at heq
    exact .inl ⟨rfl, heq.symm⟩
  · rw [List.getElem?_set_ne (Ne.symm hj)] at hget
    exact .inr ⟨hj, hget⟩

/-- In a directory that ends cleanly different names in the listing are unique. -/
theorem Distinct.unique (hdistinct : Distinct dir) (hclean : EndsClean dir) : UniqueNames dir := by
  have hapart : dir.Pairwise fun s t => s.live → t.live → s.name ≠ t.name := by
    have hnodup := hdistinct.nodup
    rw [listing_eq hclean, List.Nodup, List.pairwise_map, List.pairwise_filter] at hnodup
    exact hnodup
  have hlt : ∀ {i j : Nat} {s t : Slot}, dir[i]? = some s → dir[j]? = some t → s.live → t.live →
      s.name = t.name → ¬i < j := by
    intro i j s t hs ht hslive htlive hname hij
    obtain ⟨hi, rfl⟩ := List.getElem?_eq_some_iff.mp hs
    obtain ⟨hj, rfl⟩ := List.getElem?_eq_some_iff.mp ht
    exact List.pairwise_iff_getElem.mp hapart i j hi hj hij hslive htlive hname
  intro i j s t hs ht hslive htlive hname
  exact Nat.le_antisymm (Nat.not_lt.mp (hlt ht hs htlive hslive hname.symm))
    (Nat.not_lt.mp (hlt hs ht hslive htlive hname))

/-- A slot is filled: the others must not have its name, unless it is no live entry. -/
theorem UniqueNames.set_iff (hunique : UniqueNames dir) (hi : i < dir.length) :
    UniqueNames (dir.set i slot) ↔
      (slot.live → ∀ j t, j ≠ i → dir[j]? = some t → t.live → t.name ≠ slot.name) := by
  have hself : (dir.set i slot)[i]? = some slot := List.getElem?_set_self hi
  constructor
  · intro hset hlive j t hj hget htlive hname
    refine hj (hset j i t slot ?_ hself htlive hlive hname)
    rw [List.getElem?_set_ne (Ne.symm hj)]
    exact hget
  · intro hfresh j k s t hs ht hslive htlive hname
    rcases getElem?_set_cases hs with ⟨rfl, rfl⟩ | ⟨hj, hsOld⟩
    · rcases getElem?_set_cases ht with ⟨rfl, rfl⟩ | ⟨hk, htOld⟩
      · rfl
      · exact absurd hname.symm (hfresh hslive k t hk htOld htlive)
    · rcases getElem?_set_cases ht with ⟨rfl, rfl⟩ | ⟨hk, htOld⟩
      · exact absurd hname (hfresh htlive j s hj hsOld hslive)
      · exact hunique j k s t hsOld htOld hslive htlive hname

end Slots

namespace Geometry

variable {g : Geometry} {img img' : Image} {call : FileCall} {d d' : Drive} {b : ByteMap}

/-- A call makes no live entry of a name that is there. -/
def NoClash (g : Geometry) (img : Image) (call : FileCall) : Prop :=
  ∀ raw, g.newName img call = some raw → raw.headD 0 ≠ entryFree →
    ∀ s ∈ img.dir, s.live → s.name ≠ raw

/-- The names stay unique exactly if the new one is new. -/
theorem Effect.unique_iff (hunique : UniqueNames img.dir) (heffect : g.Effect img call img') :
    UniqueNames img'.dir ↔ g.NoClash img call := by
  have hnothing : g.newName img call = none → g.NoClash img call := by
    intro hnone raw hnew
    rw [hnone] at hnew
    cases hnew
  cases heffect with
  | kept hnone hinner =>
      rw [hinner.dir]
      exact iff_of_true hunique (hnothing hnone)
  | @updated i slot _ hnone hget hlive hupdated =>
      refine iff_of_true ?_ (hnothing hnone)
      cases hupdated with
      | kept hinner =>
          rw [hinner.dir]
          exact hunique
      | set hinner hc =>
          rw [Image.setSlot_dir, hinner.dir,
            hunique.set_iff (List.getElem?_eq_some_iff.mp hget).1]
          exact fun _ j t hj ht htlive hname => hj (hunique j i t slot ht hget htlive hlive hname)
  | @deleted i slot _ hnone hget hlive hinner =>
      refine iff_of_true ?_ (hnothing hnone)
      rw [Image.setSlot_dir, hinner.dir, hunique.set_iff (List.getElem?_eq_some_iff.mp hget).1]
      exact fun hdead => absurd (Slot.listed_iff.mp (Slot.live_iff.mp hdead).2).1 (fun h => h rfl)
  | @created raw i c size a _ hnew hslot hraw ha hinner hc =>
      obtain ⟨old, hget, -⟩ := freeSlot_spec hslot
      have hlive : Slot.live ⟨raw, a, c, size⟩ ↔ raw.headD 0 ≠ entryFree := by
        rw [Slot.live_iff, Slot.listed_iff]
        exact ⟨fun h => h.2.1, fun h => ⟨hraw, h, ha⟩⟩
      rw [Image.setSlot_dir, hinner.dir, hunique.set_iff (List.getElem?_eq_some_iff.mp hget).1,
        hlive]
      constructor
      · intro hfresh raw' hnew' hfirst s hs hslive
        obtain rfl := Option.some.inj (hnew.symm.trans hnew')
        obtain ⟨j, hj⟩ := List.mem_iff_getElem?.mp hs
        refine hfresh hfirst j s ?_ hj hslive
        rintro rfl
        exact not_live_of_freeSlot hslot hj hslive
      · intro hclash hfirst j t _ ht htlive
        exact hclash raw hnew hfirst t (List.mem_of_getElem? ht) htlive

/-! ## Runs -/

/-- The drives that calls lead to, as long as none of them clashes. -/
inductive Reached (g : Geometry) (start : Drive) : Drive → Prop
  | start : Reached g start start
  | call {d d' : Drive} {r : Int} (hreached : Reached g start d) (call : FileCall)
      (hclash : g.NoClash (g.image d.bytes) call) (hrun : exec d g.vol call = some (r, d')) :
      Reached g start d'

/-- What one call does to a drive. -/
theorem exec_unique {r : Int} (hcontained : g.Contained (g.image b))
    (hunique : UniqueNames (g.image b).dir) (hrun : exec (disk b) g.vol call = some (r, d')) :
    ∃ b', d' = disk b' ∧ g.Contained (g.image b') ∧
      (UniqueNames (g.image b').dir ↔ g.NoClash (g.image b) call) := by
  obtain ⟨r', b', hrun', heffect⟩ := exec_effect hcontained call
  obtain ⟨-, rfl⟩ := Prod.mk.inj (Option.some.inj (hrun.symm.trans hrun'))
  exact ⟨b', rfl, hcontained.effect heffect, heffect.unique_iff hunique⟩

/-- As long as no call clashes the names are unique, and a call that clashes ends that. -/
theorem reached_unique (hcontained : g.Contained (g.image b))
    (hunique : UniqueNames (g.image b).dir) (hreached : g.Reached (disk b) d) :
    UniqueNames (g.image d.bytes).dir ∧
      ∀ call r d', exec d g.vol call = some (r, d') →
        (UniqueNames (g.image d'.bytes).dir ↔ g.NoClash (g.image d.bytes) call) := by
  have hall : ∃ b', d = disk b' ∧ g.Contained (g.image b') ∧ UniqueNames (g.image b').dir := by
    induction hreached with
    | start => exact ⟨b, rfl, hcontained, hunique⟩
    | call _ call hclash hrun ih =>
        obtain ⟨b₁, rfl, hcontained₁, hunique₁⟩ := ih
        obtain ⟨b₂, rfl, hcontained₂, hiff⟩ := exec_unique hcontained₁ hunique₁ hrun
        exact ⟨b₂, rfl, hcontained₂, hiff.mpr hclash⟩
  obtain ⟨b', rfl, hcontained', hunique'⟩ := hall
  refine ⟨hunique', fun call r d' hrun => ?_⟩
  obtain ⟨b₂, rfl, -, hiff⟩ := exec_unique hcontained' hunique' hrun
  exact hiff

/-! ## A file made twice -/

theorem formatted_contained (hroot : g.root = [g.vol.rootCluster]) :
    g.Contained (g.image g.formatted) := by
  have hchained := g.formatted_chained hroot fun s hs => hs
  refine ⟨hchained.root, fun c hc hlink => ?_, fun s hs hlive => ?_, hchained.clean⟩
  · have hne : c ≠ g.vol.rootCluster := by
      rintro rfl
      exact hc.2 (List.mem_of_mem_head? g.root_head)
    rw [image_formatted] at hlink
    dsimp only at hlink
    rw [if_neg hne] at hlink
    exact absurd hlink (by decide)
  · rw [image_formatted] at hs
    obtain ⟨p, -, rfl⟩ := List.mem_map.mp hs
    exact absurd hlive (by decide)

/-- `touch A`. -/
def touchA : FileCall := .createFile ⟨[0x41], by decide⟩ []

theorem dead_formatted : ∀ s ∈ (smallVolume.image smallVolume.formatted).dir, ¬s.live := by
  intro s hs
  rw [image_formatted] at hs
  obtain ⟨p, -, rfl⟩ := List.mem_map.mp hs
  decide

theorem unique_formatted : UniqueNames (smallVolume.image smallVolume.formatted).dir :=
  fun _ _ s _ hs _ hlive _ _ => absurd hlive (dead_formatted s (List.mem_of_getElem? hs))

theorem noClash_touchA : smallVolume.NoClash (smallVolume.image smallVolume.formatted) touchA :=
  fun _ _ _ s hs hlive => absurd hlive (dead_formatted s hs)

theorem newName_touchA {img : Image} (hslot : (freeSlot img.dir).isSome) :
    smallVolume.newName img touchA = some (encode83Name [0x41]) :=
  if_pos ⟨hslot, .inl rfl⟩

theorem reached_unique_touchA : ∃ r d',
    exec (disk smallVolume.formatted) smallVolume.vol touchA = some (r, d') ∧
      UniqueNames (smallVolume.image d'.bytes).dir := by
  have hcontained : smallVolume.Contained (smallVolume.image smallVolume.formatted) :=
    formatted_contained rfl
  obtain ⟨r, b', hrun, -⟩ := exec_effect hcontained touchA
  have hclash : smallVolume.NoClash
      (smallVolume.image (disk smallVolume.formatted).bytes) touchA := by
    rw [disk_bytes]
    exact noClash_touchA
  have hreached : smallVolume.Reached (disk smallVolume.formatted) (disk b') :=
    .call .start touchA hclash hrun
  exact ⟨r, disk b', hrun, (reached_unique hcontained unique_formatted hreached).1⟩

/-- The second time there are two entries. -/
theorem touchA_twice : ∃ r₁ r₂ d₁ d₂,
    exec (disk smallVolume.formatted) smallVolume.vol touchA = some (r₁, d₁) ∧
      exec d₁ smallVolume.vol touchA = some (r₂, d₂) ∧
        UniqueNames (smallVolume.image smallVolume.formatted).dir ∧
          ¬UniqueNames (smallVolume.image d₂.bytes).dir := by
  have hcontained : smallVolume.Contained (smallVolume.image smallVolume.formatted) :=
    formatted_contained rfl
  have hfree : freeSlot (smallVolume.image smallVolume.formatted).dir = some 0 :=
    freeSlot_formatted
  have hname := newName_touchA (by rw [hfree]; rfl)
  obtain ⟨r₁, b₁, hrun₁, heffect⟩ := exec_effect hcontained touchA
  have hcontained₁ := hcontained.effect heffect
  have hunique₁ := (heffect.unique_iff unique_formatted).mpr noClash_touchA
  obtain ⟨r₂, b₂, hrun₂, heffect₂⟩ := exec_effect hcontained₁ touchA
  refine ⟨r₁, r₂, disk b₁, disk b₂, hrun₁, hrun₂, unique_formatted, fun hunique₂ => ?_⟩
  have hclash := (heffect₂.unique_iff hunique₁).mp hunique₂
  generalize himage : smallVolume.image b₁ = img₁ at heffect hclash
  cases heffect with
  | kept hnone => rw [hname] at hnone; cases hnone
  | updated hnone => rw [hname] at hnone; cases hnone
  | deleted hnone => rw [hname] at hnone; cases hnone
  | @created raw i c size a img' hnew hslot hraw ha hinner hc =>
      obtain rfl := Option.some.inj (hname.symm.trans hnew)
      obtain rfl := Option.some.inj (hfree.symm.trans hslot)
      have hdir : (img'.setSlot 0 ⟨encode83Name [0x41], a, c, size⟩).dir =
          (smallVolume.slots.map fun _ => zeroSlot).set 0 ⟨encode83Name [0x41], a, c, size⟩ := by
        rw [Image.setSlot_dir, hinner.dir, image_formatted]
      have hsome : (freeSlot (img'.setSlot 0 ⟨encode83Name [0x41], a, c, size⟩).dir).isSome := by
        rw [hdir]
        rfl
      have hmem : Slot.mk (encode83Name [0x41]) a c size ∈
          (img'.setSlot 0 ⟨encode83Name [0x41], a, c, size⟩).dir := by
        rw [hdir]
        exact List.mem_cons_self
      refine hclash _ (newName_touchA hsome) (by decide) _ hmem ?_ rfl
      have hfirst : (encode83Name [0x41]).headD 0 ≠ entryFree := by decide
      exact Slot.live_iff.mpr ⟨hraw, Slot.listed_iff.mpr ⟨hfirst, ha⟩⟩

end Geometry

end GeckoOS.Fs
