/-
# Who owns which cluster

The directory, the FAT and the data area are edited separately, and what keeps a
file intact while another one changes is that no cluster has two owners.  Here is
that invariant, for any choice of the slots whose chains are tracked: the root
directory and every tracked slot own a chain, and the chains share no cluster.

An edit of one slot replaces its chain by another one made of its own clusters and
free ones.  That this keeps the invariant, and what it does to the bytes of every
file, is proved once here; the operations only differ in the chain they put in
place.
-/

import GeckoOS.Fs.Calls

namespace GeckoOS.Fs

open GeckoOS.Math ByteMap

/-! ## Names of C strings -/

theorem upperCase_ne_zero {c : UInt8} (hc : c ≠ 0) : upperCase c ≠ 0 := by
  rw [upperCase]
  split_ifs with hlower
  · intro hzero
    have hlow := UInt8.le_iff_toNat_le.mp hlower.1
    have hvalue : c = 32 := by rw [← UInt8.sub_add_cancel c 32, hzero, UInt8.zero_add]
    rw [hvalue] at hlow
    exact absurd hlow (by decide)
  · exact hc

/-- The name of a C string never starts with an end mark. -/
theorem first_encode83Name (name : CString) : (encode83Name name.1).headD 0 ≠ entryEnd := by
  have hfield : ∀ (chars rest : List UInt8), (0 : UInt8) ∉ chars →
      (nameField 8 chars ++ rest).headD 0 ≠ entryEnd := by
    intro chars rest hzero
    cases chars with
    | nil => exact (by decide : space ≠ 0)
    | cons c chars =>
        exact upperCase_ne_zero fun hc => hzero (hc ▸ List.mem_cons_self)
  rw [encode83Name]
  split
  · exact hfield _ _ fun hmem => name.2 (List.mem_of_mem_take hmem)
  · exact hfield _ _ name.2

/-! ## Directories that end cleanly -/

section EndsClean

variable {dir : List Slot} {s t : Slot} {i j : Nat} {raw : List UInt8}

theorem EndsClean.getElem? (hclean : EndsClean dir) (hs : dir[i]? = some s) (ht : dir[j]? = some t)
    (hlt : i < j) (hend : s.first = entryEnd) : t.first = entryEnd := by
  obtain ⟨hi, rfl⟩ := List.getElem?_eq_some_iff.mp hs
  obtain ⟨hj, rfl⟩ := List.getElem?_eq_some_iff.mp ht
  exact List.pairwise_iff_getElem.mp hclean i j hi hj hlt hend

/-- Using a slot before which there is no end mark keeps the directory clean. -/
theorem EndsClean.set (hclean : EndsClean dir) (hs : s.first ≠ entryEnd)
    (hbefore : ∀ j t, j < i → dir[j]? = some t → t.first ≠ entryEnd) :
    EndsClean (dir.set i s) := by
  refine List.pairwise_iff_getElem.mpr fun j k hj hk hlt hend => ?_
  rw [List.length_set] at hj hk
  rw [List.getElem_set] at hend
  split_ifs at hend with hij
  · exact absurd hend hs
  · rw [List.getElem_set]
    split_ifs with hik
    · rw [← hik] at hlt
      exact absurd hend (hbefore j _ hlt (List.getElem?_eq_getElem hj))
    · exact List.pairwise_iff_getElem.mp hclean j k hj hk hlt hend

theorem before_freeSlot (hfree : freeSlot dir = some i) {j : Nat} {t : Slot} (hlt : j < i)
    (ht : dir[j]? = some t) : t.first ≠ entryEnd := by
  obtain ⟨hi, -, hbefore⟩ := List.findIdx?_eq_some_iff_getElem.mp hfree
  obtain ⟨hj, rfl⟩ := List.getElem?_eq_some_iff.mp ht
  intro hend
  exact hbefore j hlt (by simp [hend])

theorem EndsClean.before_live (hclean : EndsClean dir) (hs : dir[i]? = some s) (hlive : s.live)
    {j : Nat} {t : Slot} (hlt : j < i) (ht : dir[j]? = some t) : t.first ≠ entryEnd :=
  fun hend => (Slot.live_iff.mp hlive).1 (hclean.getElem? ht hs hlt hend)

end EndsClean

namespace Geometry

variable {g : Geometry} {img img' img₁ base : Image} {chains : Nat → List Nat}
  {tracked : Slot → Prop} {i j prev size : Nat} {slot : Slot} {ks nodes : List Nat}
  {content : List UInt8}

/-- The root directory and the tracked slots own chains that share no cluster. -/
structure Chained (g : Geometry) (tracked : Slot → Prop) (img : Image)
    (chains : Nat → List Nat) : Prop where
  root : g.RootChain img.fat
  clean : EndsClean img.dir
  chain : ∀ i, g.Chain img.fat (chains i)
  cluster : ∀ i slot, img.dir[i]? = some slot → tracked slot → slot.cluster = (chains i).headD 0
  untracked : ∀ i, (∀ slot, img.dir[i]? = some slot → ¬ tracked slot) → chains i = []
  not_root : ∀ i, ∀ c ∈ chains i, c ∉ g.root
  apart : ∀ i j, i ≠ j → ∀ c ∈ chains i, c ∉ chains j

theorem Chained.owns (hchained : g.Chained tracked img chains) (hget : img.dir[i]? = some slot)
    (htracked : tracked slot) : g.Owns img.fat slot (chains i) :=
  ⟨hchained.chain i, hchained.cluster i slot hget htracked, hchained.not_root i⟩

/-- Replacing the chain of one slot by clusters nobody else owns. -/
theorem Chained.replace (hchained : g.Chained tracked img chains)
    (hkeep : ∀ c, (c ∈ g.root ∨ ∃ j, j ≠ i ∧ c ∈ chains j) → img'.fat c = img.fat c)
    (hchain : g.Chain img'.fat ks) (hroot : ∀ c ∈ ks, c ∉ g.root)
    (hapart : ∀ j, j ≠ i → ∀ c ∈ ks, c ∉ chains j)
    (hdir : ∀ j, j ≠ i → img'.dir[j]? = img.dir[j]?) (hclean : EndsClean img'.dir)
    (hcluster : ∀ slot, img'.dir[i]? = some slot → tracked slot → slot.cluster = ks.headD 0)
    (huntracked : (∀ slot, img'.dir[i]? = some slot → ¬ tracked slot) → ks = []) :
    g.Chained tracked img' (Function.update chains i ks) where
  root := hchained.root.congr fun c hc => hkeep c (.inl hc)
  clean := hclean
  chain j := by
    by_cases hj : j = i
    · rwa [hj, Function.update_self]
    · rw [Function.update_of_ne hj]
      exact (hchained.chain j).congr fun c hc => hkeep c (.inr ⟨j, hj, hc⟩)
  cluster j slot hget htracked := by
    by_cases hj : j = i
    · subst hj
      rw [Function.update_self]
      exact hcluster slot hget htracked
    · rw [Function.update_of_ne hj]
      exact hchained.cluster j slot (hdir j hj ▸ hget) htracked
  untracked j hnone := by
    by_cases hj : j = i
    · subst hj
      rw [Function.update_self]
      exact huntracked hnone
    · rw [Function.update_of_ne hj]
      exact hchained.untracked j fun slot hget => hnone slot ((hdir j hj).trans hget)
  not_root j c hc := by
    by_cases hj : j = i
    · rw [hj, Function.update_self] at hc
      exact hroot c hc
    · rw [Function.update_of_ne hj] at hc
      exact hchained.not_root j c hc
  apart j k hne c hc hmem := by
    by_cases hj : j = i
    · have hk : k ≠ i := fun hki => hne (hj.trans hki.symm)
      rw [hj, Function.update_self] at hc
      rw [Function.update_of_ne hk] at hmem
      exact hapart k hk c hc hmem
    · rw [Function.update_of_ne hj] at hc
      by_cases hk : k = i
      · rw [hk, Function.update_self] at hmem
        exact hapart j hj c hmem hc
      · rw [Function.update_of_ne hk] at hmem
        exact hchained.apart j k hne c hc hmem

/-! ## New chains -/

theorem mem_free_release {c : Nat} :
    c ∈ g.free (img.release nodes).fat ↔ g.InTable c ∧ (c ∈ nodes ∨ img.fat c = 0) := by
  rw [mem_free, Image.release_fat]
  split_ifs with hmem <;> simp [hmem]

/-- Clusters that are free once the chain of a slot is released have no other owner. -/
theorem Chained.free_release (hchained : g.Chained tracked img chains) {c : Nat}
    (hc : c ∈ g.free (img.release (chains i)).fat) :
    c ∉ g.root ∧ ∀ j, j ≠ i → c ∉ chains j := by
  obtain ⟨-, hmem | hzero⟩ := mem_free_release.mp hc
  · exact ⟨hchained.not_root i c hmem, fun j hj => hchained.apart i j (Ne.symm hj) c hmem⟩
  · exact ⟨fun hroot => (hchained.root.allocated hroot).1 hzero,
      fun j _ hmem => ((hchained.chain j).allocated hmem).1 hzero⟩

/-- Clusters linked in order make a chain. -/
theorem Laid.chain (hlaid : g.Laid base img₁ prev ks content) (hmem : ∀ c ∈ ks, g.InTable c) :
    g.Chain img₁.fat ks where
  path := by
    refine Path.of_getElem? fun k hk => ?_
    rw [fatNext, hlaid.fat_link k hk]
    rcases Nat.lt_or_ge (k + 1) ks.length with hlt | hge
    · rw [List.getD_eq_getElem _ _ hlt, List.getElem?_eq_getElem hlt,
        if_neg (Nat.not_le.mpr (Nat.lt_succ_of_lt (hmem _ (List.getElem_mem hlt)).lt_bad))]
    · rw [List.getD_eq_default _ _ hge, List.getElem?_eq_none hge, if_pos le_rfl]
  mem := hmem

theorem Laid.fat_eq_of_ne_zero (hlaid : g.Laid base img₁ prev ks content)
    (hsub : ∀ c ∈ ks, c ∈ g.free base.fat) {c : Nat} (hc : base.fat c ≠ 0)
    (hprev : c ≠ prev ∨ prev = 0) : img₁.fat c = base.fat c :=
  hlaid.fat_frame c (fun hmem => hc (mem_free.mp (hsub c hmem)).2) hprev

/-- An allocated cluster of another owner keeps its entry when a slot's chain is
replaced. -/
theorem Chained.stored_keep (hchained : g.Chained tracked img chains)
    (hlaid : g.Laid (img.release (chains i)) img₁ 0 ks content)
    (hsub : ∀ c ∈ ks, c ∈ g.free (img.release (chains i)).fat) {c : Nat}
    (howner : c ∈ g.root ∨ ∃ j, j ≠ i ∧ c ∈ chains j) : img₁.fat c = img.fat c := by
  have hnot : c ∉ chains i := by
    rcases howner with hroot | ⟨j, hj, hmem⟩
    · exact fun hmem => hchained.not_root i c hmem hroot
    · exact hchained.apart j i hj c hmem
  have hsame : (img.release (chains i)).fat c = img.fat c := by
    rw [Image.release_fat, if_neg hnot]
  have hallocated : img.fat c ≠ 0 := by
    rcases howner with hroot | ⟨j, -, hmem⟩
    · exact (hchained.root.allocated hroot).1
    · exact ((hchained.chain j).allocated hmem).1
  rw [hlaid.fat_eq_of_ne_zero hsub (by rwa [hsame]) (.inr rfl), hsame]

/-- A slot whose chain was released and laid out anew. -/
theorem Chained.stored (hchained : g.Chained tracked img chains)
    (hlaid : g.Laid (img.release (chains i)) img₁ 0 ks content)
    (hsub : ∀ c ∈ ks, c ∈ g.free (img.release (chains i)).fat) (hfat : img'.fat = img₁.fat)
    (hdir : ∀ j, j ≠ i → img'.dir[j]? = img.dir[j]?) (hclean : EndsClean img'.dir)
    (hcluster : ∀ slot, img'.dir[i]? = some slot → tracked slot → slot.cluster = ks.headD 0)
    (huntracked : (∀ slot, img'.dir[i]? = some slot → ¬ tracked slot) → ks = []) :
    g.Chained tracked img' (Function.update chains i ks) := by
  refine hchained.replace (fun c howner => ?_) ?_ ?_ ?_ hdir hclean hcluster huntracked
  · rw [hfat]
    exact hchained.stored_keep hlaid hsub howner
  · rw [hfat]
    exact hlaid.chain fun c hc => (mem_free.mp (hsub c hc)).1
  · exact fun c hc => (hchained.free_release (hsub c hc)).1
  · exact fun j hj c hc => (hchained.free_release (hsub c hc)).2 j hj

/-! ## Longer chains -/

/-- The chain of a slot, extended behind its last cluster. -/
theorem Laid.chain_append (hlaid : g.Laid base img₁ (g.lastCluster nodes size) ks content)
    (hchain : g.Chain base.fat nodes) (hsub : ∀ c ∈ ks, c ∈ g.free base.fat)
    (hend : ks = [] ∨ nodes = [] ∨ nodes.length = g.clustersFor size - 1 + 1) :
    g.Chain img₁.fat (nodes ++ ks) := by
  have hks : ∀ c ∈ ks, g.InTable c := fun c hc => (mem_free.mp (hsub c hc)).1
  have hmem : ∀ c ∈ nodes ++ ks, g.InTable c := fun c hc =>
    (List.mem_append.mp hc).elim (hchain.mem c) (hks c)
  have hnew := hlaid.chain hks
  rcases List.eq_nil_or_concat' nodes with rfl | ⟨front, last, rfl⟩
  · exact hnew
  · have hlast : last ∈ front ++ [last] := by simp
    have hl0 : last ≠ 0 := (Nat.zero_lt_of_lt (hchain.mem last hlast).1).ne'
    have hnodup := hchain.nodup
    by_cases hnil : ks = []
    · rw [hnil, List.append_nil]
      refine hchain.congr fun c hc => ?_
      have hc0 := (hchain.allocated hc).1
      by_cases hprev : c = g.lastCluster (front ++ [last]) size
      · by_cases hzero : g.lastCluster (front ++ [last]) size = 0
        · exact hlaid.fat_eq_of_ne_zero hsub hc0 (.inr hzero)
        · rw [hprev, hlaid.fat_prev hzero, hnil, List.headD_nil]
      · exact hlaid.fat_eq_of_ne_zero hsub hc0 (.inl hprev)
    · have hprev : g.lastCluster (front ++ [last]) size = last := by
        rcases hend with hnil' | hnodes | hlength
        · exact absurd hnil' hnil
        · simp at hnodes
        · have hindex : g.clustersFor size - 1 = front.length := by
            rw [List.length_append, List.length_singleton] at hlength
            omega
          rw [lastCluster, hindex]
          simp
      rw [hprev] at hlaid
      have hpath := hchain.path
      have hjoined : Path (fatNext img₁.fat) (front ++ [last]).head? (front ++ last :: ks) := by
        refine hpath.splice (fun c hc => ?_) ?_
        · have hne : c ≠ last := by
            rintro rfl
            rw [List.nodup_append] at hnodup
            exact hnodup.2.2 c hc c (by simp) rfl
          rw [fatNext, fatNext, hlaid.fat_eq_of_ne_zero hsub
            (hchain.allocated (List.mem_append_left _ hc)).1 (.inl hne)]
        · have hlink : img₁.fat last = ks.headD (base.fat last) := hlaid.fat_prev hl0
          cases ks with
          | nil => exact absurd rfl hnil
          | cons k ks =>
              have hnext : fatNext img₁.fat last = some k := by
                rw [fatNext, hlink, List.headD_cons,
                  if_neg (Nat.not_le.mpr (Nat.lt_succ_of_lt (hks k List.mem_cons_self).lt_bad))]
              rw [hnext]
              exact hnew.path
      refine ⟨?_, hmem⟩
      have hhead : (front ++ [last] ++ ks).head? = (front ++ [last]).head? := by
        rw [List.head?_append_of_ne_nil _ (by simp)]
      rw [hhead, List.append_assoc]
      exact hjoined

/-- The cluster an append walks to is one of the chain. -/
theorem lastCluster_mem (hzero : g.lastCluster nodes size ≠ 0) :
    g.lastCluster nodes size ∈ nodes := by
  rw [lastCluster] at hzero ⊢
  rcases Nat.lt_or_ge (g.clustersFor size - 1) nodes.length with hlt | hge
  · rw [List.getD_eq_getElem _ _ hlt]
    exact List.getElem_mem hlt
  · exact absurd (List.getD_eq_default _ _ hge) hzero

/-- A slot whose chain was extended by free clusters. -/
theorem Chained.appended (hchained : g.Chained tracked img chains)
    (hlaid : g.Laid (g.patched img (chains i) size content) img₁
      (g.lastCluster (chains i) size) ks (content.drop j))
    (hsub : ∀ c ∈ ks, c ∈ g.free img.fat)
    (hend : ks = [] ∨ chains i = [] ∨ (chains i).length = g.clustersFor size - 1 + 1)
    (hfat : img'.fat = img₁.fat) (hdir : ∀ j, j ≠ i → img'.dir[j]? = img.dir[j]?)
    (hclean : EndsClean img'.dir)
    (hcluster : ∀ slot, img'.dir[i]? = some slot → tracked slot →
      slot.cluster = (chains i ++ ks).headD 0)
    (huntracked : (∀ slot, img'.dir[i]? = some slot → ¬ tracked slot) → chains i ++ ks = []) :
    g.Chained tracked img' (Function.update chains i (chains i ++ ks)) := by
  have hfree : ∀ c ∈ ks, c ∉ g.root ∧ ∀ k, c ∉ chains k := by
    intro c hc
    have hzero := (mem_free.mp (hsub c hc)).2
    exact ⟨fun hroot => (hchained.root.allocated hroot).1 hzero,
      fun k hmem => ((hchained.chain k).allocated hmem).1 hzero⟩
  refine hchained.replace (fun c howner => ?_) ?_ (fun c hc => ?_) (fun k hk c hc => ?_)
    hdir hclean hcluster huntracked
  · have hallocated : img.fat c ≠ 0 := by
      rcases howner with hroot | ⟨k, -, hmem⟩
      · exact (hchained.root.allocated hroot).1
      · exact ((hchained.chain k).allocated hmem).1
    have hprev : c ≠ g.lastCluster (chains i) size ∨ g.lastCluster (chains i) size = 0 := by
      by_cases hzero : g.lastCluster (chains i) size = 0
      · exact .inr hzero
      · have hlast := lastCluster_mem hzero
        refine .inl ?_
        rintro rfl
        rcases howner with hroot | ⟨k, hk, hmem⟩
        · exact hchained.not_root i _ hlast hroot
        · exact hchained.apart i k (Ne.symm hk) _ hlast hmem
    rw [hfat, hlaid.fat_eq_of_ne_zero hsub hallocated hprev, patched_fat]
  · rw [hfat]
    exact hlaid.chain_append (hchained.chain i) hsub hend
  · rcases List.mem_append.mp hc with hold | hnew
    · exact hchained.not_root i c hold
    · exact (hfree c hnew).1
  · rcases List.mem_append.mp hc with hold | hnew
    · exact hchained.apart i k (Ne.symm hk) c hold
    · exact (hfree c hnew).2 k

/-! ## What an edit leaves alone -/

/-- The chain of slot `i` has become `ks`: its own clusters and free ones have
changed, and those of its clusters that are not in the new chain are free. -/
structure Edit (g : Geometry) (img img' : Image) (chains : Nat → List Nat) (i : Nat)
    (ks : List Nat) : Prop where
  fat : ∀ c, c ∉ ks → c ∉ chains i → img'.fat c = img.fat c
  data : ∀ c, c ∉ ks → c ∉ chains i → img'.data c = img.data c
  released : ∀ c ∈ chains i, c ∉ ks → img'.fat c = 0
  source : ∀ c ∈ ks, c ∈ chains i ∨ img.fat c = 0
  dir : ∀ j, j ≠ i → img'.dir[j]? = img.dir[j]?

theorem Edit.of_laid (hlaid : g.Laid (img.release (chains i)) img₁ 0 ks content)
    (hsub : ∀ c ∈ ks, c ∈ g.free (img.release (chains i)).fat) (hfat : img'.fat = img₁.fat)
    (hdata : img'.data = img₁.data) (hdir : ∀ j, j ≠ i → img'.dir[j]? = img.dir[j]?) :
    g.Edit img img' chains i ks where
  fat c hks hown := by
    rw [hfat, hlaid.fat_frame c hks (.inr rfl), Image.release_fat, if_neg hown]
  data c hks _ := by
    rw [hdata, hlaid.data_frame c hks, Image.release_data]
  released c hown hks := by
    rw [hfat, hlaid.fat_frame c hks (.inr rfl), Image.release_fat, if_pos hown]
  source c hc := (mem_free_release.mp (hsub c hc)).2
  dir := hdir

theorem Edit.of_appended (hlong : chains i = [] ∨ g.clustersFor size - 1 < (chains i).length)
    (hlaid : g.Laid (g.patched img (chains i) size content) img₁
      (g.lastCluster (chains i) size) ks (content.drop j))
    (hsub : ∀ c ∈ ks, c ∈ g.free img.fat) (hfat : img'.fat = img₁.fat)
    (hdata : img'.data = img₁.data) (hdir : ∀ j, j ≠ i → img'.dir[j]? = img.dir[j]?) :
    g.Edit img img' chains i (chains i ++ ks) where
  fat c hks hown := by
    rw [hfat, hlaid.fat_frame c (fun hmem => hks (List.mem_append_right _ hmem)), patched_fat]
    by_cases hzero : g.lastCluster (chains i) size = 0
    · exact .inr hzero
    · exact .inl fun hequal => hown (hequal ▸ lastCluster_mem hzero)
  data c hks hown := by
    rw [hdata, hlaid.data_frame c fun hmem => hks (List.mem_append_right _ hmem)]
    by_cases hnone : chains i = []
    · rw [patched_of_room_zero]
      rw [room, if_pos hnone]
    · have hlt := hlong.resolve_left hnone
      have hmem : g.lastCluster (chains i) size ∈ chains i := by
        rw [lastCluster, List.getD_eq_getElem _ _ hlt]
        exact List.getElem_mem hlt
      rw [patched, Image.setData_data, Function.update_of_ne]
      exact fun hequal => hown (hequal ▸ hmem)
  released c hown hks := absurd (List.mem_append_left _ hown) hks
  source c hc := (List.mem_append.mp hc).imp_right fun hnew => (mem_free.mp (hsub c hnew)).2
  dir := hdir

/-- A cluster of the root directory or of another slot is not edited. -/
theorem Edit.other (hedit : g.Edit img img' chains i ks) (hchained : g.Chained tracked img chains)
    {c : Nat} (howner : c ∈ g.root ∨ ∃ j, j ≠ i ∧ c ∈ chains j) : c ∉ ks ∧ c ∉ chains i := by
  have hown : c ∉ chains i := by
    rcases howner with hroot | ⟨j, hj, hmem⟩
    · exact fun hmem => hchained.not_root i c hmem hroot
    · exact hchained.apart j i hj c hmem
  refine ⟨fun hks => ?_, hown⟩
  rcases hedit.source c hks with hmem | hzero
  · exact hown hmem
  · rcases howner with hroot | ⟨j, -, hmem⟩
    · exact (hchained.root.allocated hroot).1 hzero
    · exact ((hchained.chain j).allocated hmem).1 hzero

/-! ## A fresh volume -/

/-- A freshly formatted volume: everything zero but the one entry of the root
directory's cluster. -/
def formatted (g : Geometry) : ByteMap :=
  store (fun _ => 0) (g.entryPos g.vol.rootCluster) 4 clusterEoc

/-- An all-zero slot. -/
def zeroSlot : Slot := ⟨List.replicate 11 0, 0, 0, 0⟩

theorem root_lt (g : Geometry) : g.vol.rootCluster < g.tableSize :=
  (g.root_mem _ (List.mem_of_mem_head? g.root_head)).2

theorem image_zero : g.image (fun _ => 0) =
    ⟨fun _ => 0, fun _ _ => 0, g.slots.map fun _ => zeroSlot⟩ := by
  have hload : ∀ address width, load (fun _ => 0) address width = 0 := by
    intro address width
    induction width generalizing address with
    | zero => rfl
    | succ width ih => simp [load, ih]
  apply Image.ext
  · funext c
    simp [image, hload]
  · funext c k
    simp [image]
  · refine List.map_congr_left fun p _ => ?_
    have hcluster : DirEntry.cluster (entryAt (fun _ => 0) p) = 0 := by
      rw [DirEntry.cluster_eq]
      exact congrArg₂ (· * 2 ^ 16 + ·) (hload 20 2) (hload 26 2)
    rw [slotOf, hcluster, show DirEntry.fileSize (entryAt (fun _ => 0) p) = 0 from hload 28 4]
    rfl

theorem image_formatted : g.image g.formatted =
    ⟨fun c => if c = g.vol.rootCluster then clusterEoc else 0, fun _ _ => 0,
      g.slots.map fun _ => zeroSlot⟩ := by
  rw [formatted, image_store_entry g.root_lt, image_zero]
  apply Image.ext
  · funext c
    rw [Image.setFat_fat, Function.update_apply]
    rfl
  · rfl
  · rfl

/-- On a fresh volume nothing but the root directory owns a chain. -/
theorem formatted_chained (hroot : g.root = [g.vol.rootCluster])
    (htracked : ∀ s, tracked s → s.live) :
    g.Chained tracked (g.image g.formatted) fun _ => [] := by
  have hdead : ∀ s ∈ (g.image g.formatted).dir, s = zeroSlot := by
    intro s hs
    rw [image_formatted] at hs
    obtain ⟨p, -, rfl⟩ := List.mem_map.mp hs
    rfl
  refine ⟨⟨?_, g.root_mem⟩, ?_, fun _ => chain_nil, fun i s hget hs => ?_, fun _ _ => rfl,
    fun _ _ hc => absurd hc List.not_mem_nil, fun _ _ _ _ hc => absurd hc List.not_mem_nil⟩
  · rw [image_formatted, hroot]
    refine .cons ?_
    simp only [fatNext, if_true, le_refl]
    exact .nil
  · refine List.pairwise_iff_forall_sublist.mpr fun {s t} hsub _ => ?_
    rw [hdead t (hsub.subset (by simp))]
    rfl
  · rw [hdead s (List.mem_of_getElem? hget)] at hs
    exact absurd (htracked _ hs) (by decide)

/-- The first slot of a fresh volume is free. -/
theorem freeSlot_formatted : freeSlot (g.image g.formatted).dir = some 0 := by
  have hslots : g.slots ≠ [] := by
    have hpos := g.sectorsPerCluster_pos
    have hmem : (g.clusterLba g.vol.rootCluster + 0, 0) ∈ g.slots :=
      mem_slots.mpr ⟨_, List.mem_of_mem_head? g.root_head, 0, hpos, 0, by decide, rfl⟩
    exact List.ne_nil_of_mem hmem
  obtain ⟨p, rest, hcons⟩ := List.exists_cons_of_ne_nil hslots
  rw [image_formatted, hcons, freeSlot, List.map_cons, List.findIdx?_cons]
  rfl

/-- A volume of 512-byte clusters with one FAT of one sector. -/
def smallVolume : Geometry where
  vol := ⟨512, 1, 1, 0, 1, 2, 1⟩
  root := [2]
  bytesPerSector_eq := rfl
  sectorsPerCluster_pos := by decide
  sectorsPerCluster_lt := by decide
  numFats_pos := by decide
  fats_le := by decide
  data_le := by decide
  table_le := by decide
  root_head := rfl
  root_nodup := by decide
  root_mem := by decide

end Geometry

end GeckoOS.Fs
