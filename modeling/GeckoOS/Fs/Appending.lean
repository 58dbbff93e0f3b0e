/-
# What a file holds after an append

`fat32_append_file` finds the last cluster from the size of the entry, fills it up, and links
new clusters behind it.  If the chain is longer than the size needs, which an append that ran
out of room leaves behind, the clusters after the last one are dropped from the chain.

The bytes of the file after an append are the old ones followed by the new ones, and after an
append that ran out of room they are the old ones: what it wrote lies behind the end.
-/

import GeckoOS.Fs.Replacing

namespace GeckoOS.Fs

open GeckoOS.Math ByteMap

namespace Geometry

variable {g : Geometry} {img img' img₁ : Image} {chains : Nat → List Nat} {nodes ks : List Nat}
  {content new : List UInt8} {size len i j : Nat} {slot : Slot} {data : Nat → ByteMap}
  {tracked : Slot → Prop} {r : Int}

/-! ## The bytes of two chains in a row -/

theorem chainBytes_append_left (hi : i < nodes.length * g.clusterBytes) :
    g.chainBytes data (nodes ++ ks) i = g.chainBytes data nodes i := by
  have hindex : i / g.clusterBytes < nodes.length :=
    Nat.div_lt_of_lt_mul (by rwa [Nat.mul_comm])
  rw [chainBytes, chainBytes, List.getD_append _ _ _ _ hindex]

theorem chainBytes_append_right (i : Nat) :
    g.chainBytes data (nodes ++ ks) (nodes.length * g.clusterBytes + i) =
      g.chainBytes data ks i := by
  rw [← chainBytes_drop, List.drop_left]

theorem chainBytes_take (n : Nat) (hi : i < (nodes.take n).length * g.clusterBytes) :
    g.chainBytes data (nodes.take n) i = g.chainBytes data nodes i := by
  conv_rhs => rw [← List.take_append_drop n nodes]
  rw [chainBytes_append_left hi]

/-! ## The last cluster -/

/-- The clusters of a file up to the last one its size needs; an empty file keeps one. -/
def neededNodes (g : Geometry) (nodes : List Nat) (size : Nat) : List Nat :=
  nodes.take (g.clustersFor size - 1 + 1)

theorem length_neededNodes (hlong : g.clustersFor size - 1 < nodes.length) :
    (g.neededNodes nodes size).length = g.clustersFor size - 1 + 1 := by
  rw [neededNodes, List.length_take, Nat.min_eq_left hlong]

/-- The last of them is the one an append walks to. -/
theorem neededNodes_eq (hlong : g.clustersFor size - 1 < nodes.length) :
    g.neededNodes nodes size =
      nodes.take (g.clustersFor size - 1) ++ [g.lastCluster nodes size] := by
  rw [neededNodes, List.take_add_one, List.getElem?_eq_getElem hlong, lastCluster,
    List.getD_eq_getElem _ _ hlong]
  rfl

/-- The end of the file lies in the last cluster. -/
theorem size_le_last (g : Geometry) (size : Nat) :
    size ≤ (g.clustersFor size - 1 + 1) * g.clusterBytes := by
  rw [← clustersFor_le]
  omega

theorem last_lt_size (hsize : 0 < size) : (g.clustersFor size - 1) * g.clusterBytes < size := by
  have hpos := clustersFor_pos (g := g) hsize
  by_contra hle
  have := clustersFor_le.mpr (Nat.le_of_not_lt hle)
  omega

/-- What an append puts into the last cluster goes right behind the end of the file. -/
theorem room_fits (hroom : 0 < g.room nodes size len) :
    size = (g.clustersFor size - 1) * g.clusterBytes + size % g.clusterBytes ∧
      size % g.clusterBytes + g.room nodes size len ≤ g.clusterBytes := by
  have hcluster := g.clusterBytes_pos
  rw [room] at hroom ⊢
  split_ifs at hroom ⊢ with hnodes hzero hfull
  · exact absurd hroom (Nat.lt_irrefl 0)
  · subst hzero
    simp
  · exact absurd hroom (Nat.lt_irrefl 0)
  · have hlt := Nat.mod_lt size hcluster
    have hquot : size / g.clusterBytes = g.clustersFor size - 1 := by
      have hle := size_le_last g size
      have hne : size ≠ (g.clustersFor size - 1 + 1) * g.clusterBytes := fun hequal =>
        hfull (by rw [hequal, Nat.mul_mod_left])
      exact Nat.div_eq_of_lt_le (last_lt_size (Nat.pos_of_ne_zero hzero)).le
        (lt_of_le_of_ne hle hne)
    have hsplit := Nat.div_add_mod' size g.clusterBytes
    rw [hquot] at hsplit
    omega

/-- Content that goes on behind the last cluster has filled it. -/
theorem room_fills (hnodes : nodes ≠ []) (hroom : g.room nodes size len < len) :
    size + g.room nodes size len = (g.clustersFor size - 1 + 1) * g.clusterBytes := by
  have hcluster := g.clusterBytes_pos
  have hlow := @last_lt_size g size
  have hhigh := size_le_last g size
  rcases Nat.eq_zero_or_pos (g.room nodes size len) with hnone | hsome
  · -- the end of the file is the end of a cluster
    have hsize : size ≠ 0 ∧ size % g.clusterBytes = 0 := by
      have hlt := Nat.mod_lt size hcluster
      rw [room, if_neg hnodes] at hnone hroom
      split_ifs at hnone hroom <;> omega
    obtain ⟨q, hq⟩ := Nat.dvd_of_mod_eq_zero hsize.2
    have hlow' := hlow (Nat.pos_of_ne_zero hsize.1)
    rw [hnone, Nat.add_zero]
    generalize g.clustersFor size - 1 = last at hlow' hhigh ⊢
    rw [hq, Nat.mul_comm g.clusterBytes] at hlow' hhigh ⊢
    have hle := Nat.le_of_mul_le_mul_right hhigh hcluster
    have hlt := Nat.lt_of_mul_lt_mul_right hlow'
    rw [Nat.le_antisymm hle hlt]
  · obtain ⟨hsplit, -⟩ := room_fits hsome
    have hroom' : g.room nodes size len = g.clusterBytes - size % g.clusterBytes := by
      rw [room, if_neg hnodes] at hroom hsome ⊢
      split_ifs at hroom hsome ⊢ with hzero hfull
      · rw [hzero, Nat.zero_mod]
        omega
      · exact absurd hsome (Nat.lt_irrefl 0)
      · omega
    have hlt := Nat.mod_lt size hcluster
    rw [hroom', Nat.succ_mul]
    omega

/-! ## The chain after an append -/

/-- The chain of a file behind whose last cluster `ks` were linked. -/
def joinedNodes (g : Geometry) (nodes : List Nat) (size : Nat) (ks : List Nat) : List Nat :=
  if ks = [] then nodes else g.neededNodes nodes size ++ ks

theorem mem_joinedNodes {c : Nat} (hc : c ∈ g.joinedNodes nodes size ks) : c ∈ nodes ∨ c ∈ ks := by
  rw [joinedNodes] at hc
  split_ifs at hc with hnil
  · exact .inl hc
  · exact (List.mem_append.mp hc).imp_left fun hneeded => List.mem_of_mem_take hneeded

theorem headD_joinedNodes :
    (g.joinedNodes nodes size ks).headD 0 = (nodes ++ ks).headD 0 := by
  rw [joinedNodes]
  split_ifs with hnil
  · rw [hnil, List.append_nil]
  · cases nodes with
    | nil => rw [neededNodes, List.take_nil]
    | cons c nodes => rfl

/-- Linking the last needed cluster to new ones gives the joined chain. -/
theorem Laid.chain_joined {base : Image}
    (hlaid : g.Laid base img₁ (g.lastCluster nodes size) ks content)
    (hchain : g.Chain base.fat nodes) (hsub : ∀ c ∈ ks, c ∈ g.free base.fat)
    (hlong : nodes = [] ∨ g.clustersFor size - 1 < nodes.length) :
    g.Chain img₁.fat (g.joinedNodes nodes size ks) := by
  rw [joinedNodes]
  split_ifs with hnil
  · have hsame := hlaid.chain_append hchain hsub (.inl hnil)
    rwa [hnil, List.append_nil] at hsame
  rcases hlong with rfl | hlong
  · rw [neededNodes, List.take_nil]
    exact hlaid.chain_append hchain hsub (.inr (.inl rfl))
  have hks : ∀ c ∈ ks, g.InTable c := fun c hc => (mem_free.mp (hsub c hc)).1
  have hneeded := neededNodes_eq hlong
  have hlast : g.lastCluster nodes size ∈ nodes := by
    rw [lastCluster, List.getD_eq_getElem _ _ hlong]
    exact List.getElem_mem hlong
  have hl0 : g.lastCluster nodes size ≠ 0 :=
    (Nat.zero_lt_of_lt (hchain.mem _ hlast).1).ne'
  have hsplit : nodes = nodes.take (g.clustersFor size - 1) ++
      g.lastCluster nodes size :: nodes.drop (g.clustersFor size - 1 + 1) := by
    conv_lhs => rw [← List.take_append_drop (g.clustersFor size - 1 + 1) nodes]
    rw [← neededNodes, hneeded, List.append_assoc]
    rfl
  have hpath := hchain.path
  have hnodup := hchain.nodup
  rw [hsplit] at hpath hnodup
  have hfront : ∀ c ∈ nodes.take (g.clustersFor size - 1), c ≠ g.lastCluster nodes size := by
    rintro c hc rfl
    exact (List.nodup_append.mp hnodup).2.2 _ hc _ List.mem_cons_self rfl
  refine ⟨?_, fun c hc => ?_⟩
  · rw [hneeded, List.append_assoc, List.singleton_append]
    have hjoined : Path (fatNext img₁.fat)
        (nodes.take (g.clustersFor size - 1) ++ g.lastCluster nodes size ::
          nodes.drop (g.clustersFor size - 1 + 1)).head?
        (nodes.take (g.clustersFor size - 1) ++ g.lastCluster nodes size :: ks) := by
      refine hpath.splice (fun c hc => ?_) ?_
      · have hallocated := (hchain.allocated (List.mem_of_mem_take hc)).1
        rw [fatNext, fatNext, hlaid.fat_eq_of_ne_zero hsub hallocated (.inl (hfront c hc))]
      · have hlink := hlaid.fat_prev hl0
        obtain ⟨k, rest, rfl⟩ := List.exists_cons_of_ne_nil hnil
        have hbad := (hks k List.mem_cons_self).lt_bad
        rw [fatNext, hlink, List.headD_cons, if_neg (Nat.not_le.mpr (Nat.lt_succ_of_lt hbad))]
        exact (hlaid.chain hks).path
    cases hfront' : nodes.take (g.clustersFor size - 1) with
    | nil => rwa [hfront'] at hjoined
    | cons c front => rwa [hfront'] at hjoined
  · exact (List.mem_append.mp hc).elim (fun hneeded => hchain.mem c (List.mem_of_mem_take hneeded))
      (hks c)

/-- A slot whose chain was extended behind its last needed cluster. -/
theorem Chained.joined (hchained : g.Chained tracked img chains)
    (hlong : chains i = [] ∨ g.clustersFor size - 1 < (chains i).length)
    (hlaid : g.Laid (g.patched img (chains i) size content) img₁
      (g.lastCluster (chains i) size) ks (content.drop j))
    (hsub : ∀ c ∈ ks, c ∈ g.free img.fat) (hfat : img'.fat = img₁.fat)
    (hdata : img'.data = img₁.data) (hdir : ∀ j, j ≠ i → img'.dir[j]? = img.dir[j]?)
    (hclean : EndsClean img'.dir) (hget : img'.dir[i]? = some slot) (htracked : tracked slot)
    (hcluster : slot.cluster = (chains i ++ ks).headD 0) :
    g.Chained tracked img' (Function.update chains i (g.joinedNodes (chains i) size ks)) := by
  have hedit := Edit.of_appended hlong hlaid hsub hfat hdata hdir
  have hkept (c : Nat) (howner : c ∈ g.root ∨ ∃ j, j ≠ i ∧ c ∈ chains j) :
      c ∉ chains i ∧ c ∉ ks :=
    not_or.mp fun hc => (hedit.other hchained howner).1 (List.mem_append.mpr hc)
  refine hchained.replace (fun c howner => ?_) ?_ (fun c hc hroot => ?_)
    (fun k hk c hc hmem => ?_) hdir hclean (fun s hs _ => ?_)
    fun hdead => absurd htracked (hdead slot hget)
  · exact hedit.fat c (hedit.other hchained howner).1 (hedit.other hchained howner).2
  · rw [hfat]
    exact hlaid.chain_joined (hchained.chain i) hsub hlong
  · exact (mem_joinedNodes hc).elim (hkept c (.inl hroot)).1 (hkept c (.inl hroot)).2
  · have hnot := hkept c (.inr ⟨k, hk, hmem⟩)
    exact (mem_joinedNodes hc).elim hnot.1 hnot.2
  · obtain rfl := Option.some.inj (hs.symm.trans hget)
    rw [hcluster, headD_joinedNodes]

/-- Clusters that are taken for a slot without a chain, and are not given to it, are nobody's. -/
theorem Chained.leaked (hchained : g.Chained tracked img chains) (hnone : chains i = [])
    (hedit : g.Edit img img' chains i ks) (hdir : img'.dir = img.dir) :
    g.Chained tracked img' (Function.update chains i []) := by
  refine hchained.replace
    (fun c howner => hedit.fat c (hedit.other hchained howner).1 (hedit.other hchained howner).2)
    chain_nil (fun _ hc => absurd hc List.not_mem_nil)
    (fun _ _ _ hc => absurd hc List.not_mem_nil) hedit.dir (hdir ▸ hchained.clean)
    (fun s hs htracked => ?_) fun _ => rfl
  rw [hchained.cluster i s (hdir ▸ hs) htracked, hnone]

/-! ## The bytes after an append -/

/-- Filling the last cluster leaves the bytes before the end of the file alone. -/
theorem patched_bytes_before (hnodup : nodes.Nodup) (hsize : size ≤ nodes.length * g.clusterBytes)
    (hi : i < size) :
    g.chainBytes (g.patched img nodes size content).data nodes i = g.chainBytes img.data nodes i := by
  have hindex : i / g.clusterBytes < nodes.length :=
    Nat.div_lt_of_lt_mul (by rw [Nat.mul_comm]; exact hi.trans_le hsize)
  rcases Nat.eq_zero_or_pos (g.room nodes size content.length) with hnone | hsome
  · rw [patched_of_room_zero hnone]
  obtain ⟨hsplit, -⟩ := room_fits hsome
  have hlow := last_lt_size (g := g) (Nat.zero_lt_of_lt hi)
  have hlong : g.clustersFor size - 1 < nodes.length :=
    Nat.lt_of_mul_lt_mul_right (hlow.trans_le hsize)
  rw [chainBytes, chainBytes, patched, Image.setData_data]
  by_cases hlast : nodes.getD (i / g.clusterBytes) 0 = g.lastCluster nodes size
  · have hquot : i / g.clusterBytes = g.clustersFor size - 1 := by
      rw [lastCluster, List.getD_eq_getElem _ _ hindex, List.getD_eq_getElem _ _ hlong] at hlast
      exact (List.Nodup.getElem_inj_iff hnodup).mp hlast
    have hmod := Nat.div_add_mod' i g.clusterBytes
    rw [hquot] at hmod
    rw [hlast, Function.update_self]
    exact blit_apply_of_not_mem (.inl (by omega))
  · rw [Function.update_of_ne hlast]

/-- The new bytes stand right behind it. -/
theorem patched_bytes_behind (hi : i < g.room nodes size content.length) :
    g.chainBytes (g.patched img nodes size content).data nodes (size + i) = ofList content i := by
  obtain ⟨hsplit, hfits⟩ := room_fits (Nat.zero_lt_of_lt hi)
  have hposition : size + i = (size % g.clusterBytes + i) +
      (g.clustersFor size - 1) * g.clusterBytes := by omega
  have hlt : size % g.clusterBytes + i < g.clusterBytes := by omega
  rw [chainBytes, hposition, Nat.add_mul_div_right _ _ g.clusterBytes_pos,
    Nat.add_mul_mod_self_right, Nat.div_eq_of_lt hlt, Nat.zero_add, Nat.mod_eq_of_lt hlt,
    ← lastCluster, patched, Image.setData_data, Function.update_self]
  exact blit_apply_of_mem hi

/-- New clusters behind the needed ones do not show in these. -/
theorem Laid.joined_bytes {base : Image} {prev : Nat} (hlaid : g.Laid base img₁ prev ks content)
    (hapart : ∀ c ∈ nodes, c ∉ ks) (hi : i < (g.neededNodes nodes size).length * g.clusterBytes) :
    g.chainBytes img₁.data (g.joinedNodes nodes size ks) i = g.chainBytes base.data nodes i := by
  have hall : i < nodes.length * g.clusterBytes :=
    hi.trans_le (Nat.mul_le_mul_right _ (List.length_take_le' _ _))
  have hsame : g.chainBytes img₁.data nodes i = g.chainBytes base.data nodes i :=
    chainBytes_congr (fun c hc => hlaid.data_frame c (hapart c hc)) hall
  rw [joinedNodes]
  split_ifs with hnil
  · exact hsame
  · rw [chainBytes_append_left hi, neededNodes, chainBytes_take _ hi, hsame]

theorem size_le_needed (hlong : nodes = [] ∨ g.clustersFor size - 1 < nodes.length)
    (hsize : size ≤ nodes.length * g.clusterBytes) :
    size ≤ (g.neededNodes nodes size).length * g.clusterBytes := by
  rcases hlong with rfl | hlong
  · rwa [neededNodes, List.take_nil]
  · rw [length_neededNodes hlong]
    exact size_le_last g size

/-- Bytes before the end of the file stay, whatever is linked behind it. -/
theorem Laid.bytes_before {prev : Nat}
    (hlaid : g.Laid (g.patched img nodes size content) img₁ prev ks new) (hnodup : nodes.Nodup)
    (hlong : nodes = [] ∨ g.clustersFor size - 1 < nodes.length)
    (hsize : size ≤ nodes.length * g.clusterBytes) (hapart : ∀ c ∈ nodes, c ∉ ks) :
    slice (g.chainBytes img₁.data (g.joinedNodes nodes size ks)) 0 size =
      slice (g.chainBytes img.data nodes) 0 size := by
  refine slice_congr fun i hi => ?_
  rw [Nat.zero_add, hlaid.joined_bytes hapart (hi.trans_le (size_le_needed hlong hsize)),
    patched_bytes_before hnodup hsize hi]

/-- Content that has room in the last cluster and the new ones stands behind the old bytes. -/
theorem Laid.bytes_appended
    (hlaid : g.Laid (g.patched img nodes size content) img₁ (g.lastCluster nodes size) ks
      (content.drop (g.room nodes size content.length))) (hnodup : nodes.Nodup)
    (hlong : nodes = [] ∨ g.clustersFor size - 1 < nodes.length)
    (hsize : size ≤ nodes.length * g.clusterBytes) (hapart : ∀ c ∈ nodes, c ∉ ks)
    (hfits : content.length - g.room nodes size content.length ≤ ks.length * g.clusterBytes) :
    slice (g.chainBytes img₁.data (g.joinedNodes nodes size ks)) 0 (size + content.length) =
      slice (g.chainBytes img.data nodes) 0 size ++ content := by
  rw [slice_add, hlaid.bytes_before hnodup hlong hsize hapart]
  congr 1
  refine Eq.trans (slice_shift fun i hi => ?_) (slice_ofList content)
  rw [Nat.zero_add, Nat.zero_add]
  rcases Nat.lt_or_ge i (g.room nodes size content.length) with hroom | hroom
  · have hnodes : nodes ≠ [] := by
      rintro rfl
      rw [room, if_pos rfl] at hroom
      exact Nat.not_lt_zero _ hroom
    have hinside : size + i < (g.neededNodes nodes size).length * g.clusterBytes := by
      obtain ⟨hsplit, hroomFits⟩ := room_fits (Nat.zero_lt_of_lt hroom)
      rw [length_neededNodes (hlong.resolve_left hnodes), Nat.succ_mul]
      omega
    rw [hlaid.joined_bytes hapart hinside, patched_bytes_behind hroom]
  · have hks : ks ≠ [] := by
      rintro rfl
      rw [List.length_nil, Nat.zero_mul] at hfits
      omega
    have hstart : size + i = (g.neededNodes nodes size).length * g.clusterBytes +
        (i - g.room nodes size content.length) := by
      rcases hlong with rfl | hlong
      · rw [List.length_nil, Nat.zero_mul] at hsize
        rw [neededNodes, List.take_nil, List.length_nil, room, if_pos rfl]
        omega
      · have hnodes : nodes ≠ [] := List.length_pos_iff.mp (Nat.zero_lt_of_lt hlong)
        have hfills := room_fills (g := g) hnodes (hroom.trans_lt hi)
        rw [length_neededNodes hlong]
        omega
    rw [hstart, joinedNodes, if_neg hks, chainBytes_append_right, hlaid.bytes _ ?_ (by omega)]
    · rw [ofList, ofList, List.getD_eq_getElem?_getD, List.getD_eq_getElem?_getD,
        List.getElem?_drop, Nat.add_sub_cancel' hroom]
    · rw [List.length_drop]
      omega

/-! ## A file and an append -/

/-- A chain as long as the size says has the last cluster that the size needs. -/
theorem FileIn.last_lt (hfile : g.FileIn img i slot nodes content) :
    nodes = [] ∨ g.clustersFor slot.size - 1 < nodes.length := by
  rw [or_iff_not_imp_left]
  intro hnodes
  have hle := clustersFor_le.mpr hfile.long
  have hpos := List.length_pos_iff.mpr hnodes
  omega

/-- The joined chain is as long as the bytes of the file and of the append. -/
theorem appended_le_joined (hlong : nodes = [] ∨ g.clustersFor size - 1 < nodes.length)
    (hsize : size ≤ nodes.length * g.clusterBytes)
    (hfits : len - g.room nodes size len ≤ ks.length * g.clusterBytes) :
    size + len ≤ (g.joinedNodes nodes size ks).length * g.clusterBytes := by
  have hneeded := size_le_needed hlong hsize
  have hroom : size + g.room nodes size len ≤
      (g.neededNodes nodes size).length * g.clusterBytes := by
    rcases Nat.eq_zero_or_pos (g.room nodes size len) with hnone | hsome
    · rwa [hnone]
    · obtain ⟨hsplit, hroomFits⟩ := room_fits hsome
      rcases hlong with rfl | hlong
      · rw [room, if_pos rfl] at hsome
        exact absurd hsome (Nat.lt_irrefl 0)
      · rw [length_neededNodes hlong, Nat.succ_mul]
        omega
  have hroomLe := @room_le g nodes size len
  rw [joinedNodes]
  split_ifs with hnil
  · have hlonger : (g.neededNodes nodes size).length * g.clusterBytes ≤
        nodes.length * g.clusterBytes := Nat.mul_le_mul_right _ (List.length_take_le' _ _)
    rw [hnil, List.length_nil, Nat.zero_mul] at hfits
    omega
  · rw [List.length_append, Nat.add_mul]
    omega

/-- What an append to slot `i` leaves behind: the slot with its name and attributes, its chain,
the bytes in it, and every other file as it was. -/
structure Left (g : Geometry) (img img' : Image) (chains : Nat → List Nat) (i : Nat)
    (slot slot' : Slot) (nodes : List Nat) (content : List UInt8) : Prop where
  dir : img'.dir = img.dir.set i slot'
  name : slot'.name = slot.name
  attributes : slot'.attributes = slot.attributes
  chained : g.Chained (fun s => s.live) img' (Function.update chains i nodes)
  file : g.FileIn img' i slot' nodes content
  others : ∀ k s other, k ≠ i → g.FileIn img k s (chains k) other →
    g.FileIn img' k s (chains k) other

variable (hfile : g.FileIn img i slot (chains i) content)
  (hchained : g.Chained (fun s => s.live) img chains)

include hfile hchained

/-- An append that runs out of room leaves the bytes of the file as they were. -/
theorem FileIn.append_short (hks : ∀ c ∈ ks, c ∈ g.free img.fat)
    (hlaid : g.Laid (g.patched img (chains i) slot.size new) img'
      (g.lastCluster (chains i) slot.size) ks (new.drop j)) :
    ∃ slot' nodes', g.Left img img' chains i slot slot' nodes' content := by
  have hlive := Slot.live_of_isFile hfile.isFile
  have hdir : img'.dir = img.dir := hlaid.dir
  have hget : img'.dir[i]? = some slot := hdir ▸ hfile.get
  have hset : img'.dir = img.dir.set i slot := by
    obtain ⟨hi, hslot⟩ := List.getElem?_eq_some_iff.mp hfile.get
    rw [hdir, ← hslot, List.set_getElem_self]
  have hothers : ∀ k, k ≠ i → img'.dir[k]? = img.dir[k]? := fun k _ => by rw [hdir]
  have hedit := Edit.of_appended hfile.last_lt hlaid hks rfl rfl hothers
  by_cases hnone : chains i = []
  · -- the clusters that were taken belong to nobody
    have hsize : slot.size = 0 := by
      have hlong := hfile.long
      rwa [hnone, List.length_nil, Nat.zero_mul, Nat.le_zero] at hlong
    have hempty : content = [] := List.length_eq_zero_iff.mp (hfile.length.trans hsize)
    have hcluster : slot.cluster = 0 := by
      rw [hfile.owns.cluster, hnone, List.headD_nil]
    have hsame := hchained.leaked hnone hedit hdir
    refine ⟨slot, [], hset, rfl, rfl, hsame, ⟨hget, hfile.isFile,
      ⟨chain_nil, hcluster, fun _ hc => absurd hc List.not_mem_nil⟩, hsize.trans_le (Nat.zero_le _),
      ?_⟩, fun k s other hk hother => hother.edit hchained hedit hk⟩
    rw [hsize, hempty]
    rfl
  · have hhead : slot.cluster = (chains i ++ ks).headD 0 := by
      obtain ⟨c, rest, hcons⟩ := List.exists_cons_of_ne_nil hnone
      rw [hfile.owns.cluster, hcons, List.cons_append, List.headD_cons, List.headD_cons]
    have hjoined := hchained.joined hfile.last_lt hlaid hks rfl rfl hothers
      (hdir ▸ hchained.clean) hget hlive hhead
    have howns := hjoined.owns hget hlive
    rw [Function.update_self] at howns
    have hlong : slot.size ≤ (g.joinedNodes (chains i) slot.size ks).length * g.clusterBytes := by
      have hle := @appended_le_joined g (chains i) ks slot.size 0 hfile.last_lt hfile.long
        (by rw [Nat.zero_sub]; exact Nat.zero_le _)
      rwa [Nat.add_zero] at hle
    refine ⟨slot, _, hset, rfl, rfl, hjoined, ⟨hget, hfile.isFile, howns, hlong, ?_⟩,
      fun k s other hk hother => hother.edit hchained hedit hk⟩
    rw [hlaid.bytes_before hfile.owns.chain.nodup hfile.last_lt hfile.long fun c hc hmem =>
      (hfile.owns.chain.allocated hc).1 (mem_free.mp (hks c hmem)).2, hfile.bytes]

/-- An append that has room puts its bytes behind those of the file. -/
theorem FileIn.append_done (hsmall : slot.size + new.length < 2 ^ 32)
    (henough : g.clustersFor (new.length - g.room (chains i) slot.size new.length) ≤
      (g.free img.fat).length)
    (hlaid : g.Laid (g.patched img (chains i) slot.size new) img₁
      (g.lastCluster (chains i) slot.size) (g.appendTaken img (chains i) slot.size new.length)
      (new.drop (g.room (chains i) slot.size new.length))) :
    ∃ slot' nodes', g.Left img (img₁.setSlot i
      { slot with
        cluster := (chains i ++ g.appendTaken img (chains i) slot.size new.length).headD 0
        size := (slot.size + new.length) % 2 ^ 32 }) chains i slot slot' nodes'
      (content ++ new) := by
  generalize hks : g.appendTaken img (chains i) slot.size new.length = ks at hlaid ⊢
  have hsub : ∀ c ∈ ks, c ∈ g.free img.fat := by
    rw [← hks]
    exact fun c hc => List.mem_of_mem_take hc
  have hfits : new.length - g.room (chains i) slot.size new.length ≤
      ks.length * g.clusterBytes := by
    rw [← hks, appendTaken, List.length_take, Nat.min_eq_left henough]
    exact clustersFor_le.mp le_rfl
  have hlive := Slot.live_of_isFile hfile.isFile
  have hi := (List.getElem?_eq_some_iff.mp hfile.get).1
  have hdir : img₁.dir = img.dir := hlaid.dir
  rw [Nat.mod_eq_of_lt hsmall]
  generalize hslot : ({ slot with
    cluster := (chains i ++ ks).headD 0
    size := slot.size + new.length } : Slot) = slot'
  have hlive' : slot'.live := by
    rw [← hslot]
    exact (live_congr rfl rfl).trans hlive
  have hset : (img₁.setSlot i slot').dir = img.dir.set i slot' := by
    rw [Image.setSlot_dir, hdir]
  have hget : (img₁.setSlot i slot').dir[i]? = some slot' := by
    rw [hset]
    exact List.getElem?_set_self hi
  have hothers : ∀ k, k ≠ i → (img₁.setSlot i slot').dir[k]? = img.dir[k]? := fun k hk => by
    rw [hset, dir_set_ne hk]
  have hclean : EndsClean (img₁.setSlot i slot').dir := by
    rw [hset]
    exact hchained.clean.set (Slot.live_iff.mp hlive').1
      fun k t hlt ht => hchained.clean.before_live hfile.get hlive hlt ht
  have hjoined : g.Chained (fun s => s.live) (img₁.setSlot i slot') _ :=
    hchained.joined hfile.last_lt hlaid hsub rfl rfl hothers hclean hget hlive' (by rw [← hslot])
  have howns := hjoined.owns hget hlive'
  rw [Function.update_self] at howns
  have hedit : g.Edit img (img₁.setSlot i slot') chains i (chains i ++ ks) :=
    .of_appended hfile.last_lt hlaid hsub rfl rfl hothers
  refine ⟨slot', _, hset, by rw [← hslot], by rw [← hslot], hjoined, ⟨hget, ?_, howns, ?_, ?_⟩,
    fun k s other hk hother => hother.edit hchained hedit hk⟩
  · rw [← hslot]
    exact hfile.isFile
  · rw [← hslot]
    exact appended_le_joined hfile.last_lt hfile.long hfits
  · rw [← hslot, ← hfile.bytes]
    exact hlaid.bytes_appended hfile.owns.chain.nodup hfile.last_lt hfile.long (fun c hc hmem =>
      (hfile.owns.chain.allocated hc).1 (mem_free.mp (hsub c hmem)).2) hfits

/-- Both together: what a file holds after `fat32_append_file`. -/
theorem FileIn.append (hsmall : slot.size + new.length < 2 ^ 32)
    (happended : g.Appended img i slot (chains i) new r img') :
    ∃ slot' nodes',
      g.Left img img' chains i slot slot' nodes' (if r = 0 then content ++ new else content) := by
  cases happended with
  | broken hnodes hshort => exact absurd hshort (Nat.not_le.mpr (hfile.last_lt.resolve_left hnodes))
  | short hlong hshort hlaid => exact hfile.append_short hchained (fun _ hc => hc) hlaid
  | done hlong henough hlaid => exact hfile.append_done hchained hsmall henough hlaid

end Geometry

end GeckoOS.Fs
