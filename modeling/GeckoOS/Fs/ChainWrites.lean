/-
# Laying content out on free clusters

`fat32_write_cluster_chain` and the allocation loop of `fat32_append_file` take
one free cluster after the other, link each to the one before, and fill it.  What
they have done when they stop, having reached the end of the content or of the
free clusters, is one relation between two images: the clusters taken are linked
in order behind the previous one and hold the content from its beginning, and
nothing else has changed.

The same relation describes a call that stops for lack of clusters, which is all
that the results on failing calls need to know about it.
-/

import GeckoOS.Fs.Table
import Mathlib.Data.List.GetD
import Mathlib.Tactic.Ring

namespace GeckoOS.Fs

open GeckoOS.Math ByteMap

/-- Allocate `k`, link `prev` to it when there is one, and give it bytes. -/
def Image.extend (img : Image) (prev k : Nat) (bytes : ByteMap) : Image :=
  (if prev ≠ 0 then (img.setFat k clusterEoc).setFat prev k
    else img.setFat k clusterEoc).setData k bytes

namespace Geometry

variable {g : Geometry} {b : ByteMap} {c k prev : Nat} {img img' : Image} {ks : List Nat}
  {content : List UInt8} {bytes : ByteMap}

/-- The bytes of a chain, end to end. -/
def chainBytes (g : Geometry) (data : Nat → ByteMap) (nodes : List Nat) : ByteMap := fun i =>
  data (nodes.getD (i / g.clusterBytes) 0) (i % g.clusterBytes)

theorem chainBytes_cons_of_lt {data : Nat → ByteMap} {i : Nat} (hi : i < g.clusterBytes) :
    g.chainBytes data (k :: ks) i = data k i := by
  rw [chainBytes, Nat.div_eq_of_lt hi, Nat.mod_eq_of_lt hi, List.getD_cons_zero]

theorem chainBytes_cons_add {data : Nat → ByteMap} (i : Nat) :
    g.chainBytes data (k :: ks) (g.clusterBytes + i) = g.chainBytes data ks i := by
  rw [chainBytes, chainBytes, Nat.add_div_left _ clusterBytes_pos, List.getD_cons_succ,
    Nat.add_mod_left]

/-- Only the bytes of its own clusters are read. -/
theorem chainBytes_congr {data data' : Nat → ByteMap} {nodes : List Nat} {i : Nat}
    (hagree : ∀ c ∈ nodes, data' c = data c) (hi : i < nodes.length * g.clusterBytes) :
    g.chainBytes data' nodes i = g.chainBytes data nodes i := by
  have hindex : i / g.clusterBytes < nodes.length := (Nat.div_lt_iff_lt_mul clusterBytes_pos).mpr hi
  rw [chainBytes, chainBytes, List.getD_eq_getElem _ _ hindex, hagree _ (List.getElem_mem hindex)]

/-- The clusters behind a prefix hold the bytes behind those of the prefix. -/
theorem chainBytes_drop {data : Nat → ByteMap} {nodes : List Nat} (j i : Nat) :
    g.chainBytes data (nodes.drop j) i = g.chainBytes data nodes (j * g.clusterBytes + i) := by
  rw [chainBytes, chainBytes, Nat.mul_comm j, Nat.mul_add_div clusterBytes_pos, Nat.mul_add_mod,
    List.getD_eq_getElem?_getD, List.getD_eq_getElem?_getD, List.getElem?_drop]

/-- How many clusters hold `len` bytes. -/
def clustersFor (g : Geometry) (len : Nat) : Nat := (len + g.clusterBytes - 1) / g.clusterBytes

theorem clustersFor_le {len n : Nat} : g.clustersFor len ≤ n ↔ len ≤ n * g.clusterBytes := by
  have hpos := g.clusterBytes_pos
  rw [clustersFor, Nat.div_le_iff_le_mul_add_pred hpos, Nat.mul_comm]
  omega

@[simp]
theorem clustersFor_zero : g.clustersFor 0 = 0 :=
  Nat.le_zero.mp (clustersFor_le.mpr (Nat.zero_le _))

theorem clustersFor_pos {len : Nat} (hlen : 0 < len) : 0 < g.clustersFor len := by
  by_contra hzero
  have hle := clustersFor_le.mp (Nat.le_of_not_lt hzero)
  omega

/-- One cluster takes the first `clusterBytes` of what is left. -/
theorem clustersFor_sub {len : Nat} (hlen : 0 < len) :
    g.clustersFor len = g.clustersFor (len - g.clusterBytes) + 1 := by
  apply Nat.le_antisymm
  · have hrest := (clustersFor_le (g := g)).mp (le_refl (g.clustersFor (len - g.clusterBytes)))
    rw [clustersFor_le, Nat.succ_mul]
    omega
  · obtain ⟨n, hn⟩ := Nat.exists_eq_succ_of_ne_zero (clustersFor_pos (g := g) hlen).ne'
    have hall := (clustersFor_le (g := g)).mp (le_refl (g.clustersFor len))
    rw [hn, Nat.succ_mul] at hall
    rw [hn, Nat.succ_eq_add_one, Nat.add_le_add_iff_right, clustersFor_le]
    omega

theorem clustersNeeded_eq (len : Nat) :
    clustersNeeded g.vol len = if len = 0 then 1 else g.clustersFor len := by
  rw [clustersNeeded, clusterSize_eq, clustersFor]

/-- The clusters `ks` have been linked behind `prev` and hold `content` as far as
they go. -/
structure Laid (g : Geometry) (img img' : Image) (prev : Nat) (ks : List Nat)
    (content : List UInt8) : Prop where
  dir : img'.dir = img.dir
  fat_frame : ∀ c, c ∉ ks → c ≠ prev ∨ prev = 0 → img'.fat c = img.fat c
  fat_prev : prev ≠ 0 → img'.fat prev = ks.headD (img.fat prev)
  fat_link : ∀ i (hi : i < ks.length), img'.fat ks[i] = ks.getD (i + 1) clusterEoc
  data_frame : ∀ c, c ∉ ks → img'.data c = img.data c
  bytes : ∀ i < content.length, i < ks.length * g.clusterBytes →
    g.chainBytes img'.data ks i = ofList content i

theorem Laid.nil : g.Laid img img prev [] content where
  dir := rfl
  fat_frame _ _ _ := rfl
  fat_prev _ := rfl
  fat_link _ hi := absurd hi (Nat.not_lt_zero _)
  data_frame _ _ := rfl
  bytes i _ hi := by simp at hi

/-- A cluster that can be extended from: every root cluster is allocated, and so
is the previous one. -/
structure Extendable (g : Geometry) (fat : Nat → Nat) (prev : Nat) : Prop where
  root : ∀ c ∈ g.root, fat c ≠ 0
  prev_mem : prev ≠ 0 → g.InTable prev
  prev_ne : prev ≠ 0 → fat prev ≠ 0

/-! ## One round -/

theorem extend_fat (img : Image) (hne : prev ≠ 0 → prev ≠ k) :
    (img.extend prev k bytes).fat c =
      if c = k then clusterEoc else if c = prev ∧ prev ≠ 0 then k else img.fat c := by
  by_cases hprev : prev = 0
  · simp [Image.extend, hprev, Function.update_apply]
  · rw [Image.extend, if_pos hprev]
    simp only [Image.setData_fat, Image.setFat_fat, Function.update_apply]
    have hne' := hne hprev
    by_cases hck : c = k
    · rw [if_neg (fun hequal => hne' (hequal.symm.trans hck)), if_pos hck, if_pos hck]
    · by_cases hcp : c = prev
      · rw [if_pos hcp, if_neg hck, if_pos ⟨hcp, hprev⟩]
      · rw [if_neg hcp, if_neg hck, if_neg hck, if_neg (fun hboth => hcp hboth.1)]

theorem extend_data (img : Image) :
    (img.extend prev k bytes).data c = if c = k then bytes else img.data c := by
  rw [Image.extend, Image.setData_data, Function.update_apply]
  by_cases hck : c = k
  · rw [if_pos hck, if_pos hck]
  · rw [if_neg hck, if_neg hck]
    split_ifs <;> rfl

theorem extend_dir (img : Image) : (img.extend prev k bytes).dir = img.dir := by
  rw [Image.extend]
  split_ifs <;> rfl

/-- The previous cluster is not free, so it is none of those taken. -/
theorem Extendable.prev_not_free (hext : g.Extendable img.fat prev) (hprev : prev ≠ 0) :
    prev ∉ g.free img.fat :=
  fun hmem => hext.prev_ne hprev (mem_free.mp hmem).2

theorem Extendable.ne_of_free {rest : List Nat} (hext : g.Extendable img.fat prev)
    (hfree : g.free img.fat = k :: rest) (hprev : prev ≠ 0) : prev ≠ k ∧ prev ∉ rest := by
  have hnot := hext.prev_not_free hprev
  rw [hfree] at hnot
  exact ⟨fun hequal => hnot (hequal ▸ List.mem_cons_self),
    fun hmem => hnot (List.mem_cons_of_mem _ hmem)⟩

/-- After one round the taken cluster is the one to extend from, and the other free
clusters are left. -/
theorem Extendable.next {rest : List Nat} (hext : g.Extendable img.fat prev)
    (hfree : g.free img.fat = k :: rest) :
    g.Extendable (img.extend prev k bytes).fat k ∧
      g.free (img.extend prev k bytes).fat = rest := by
  have hk := mem_free.mp (hfree ▸ List.mem_cons_self : k ∈ g.free img.fat)
  have hne : prev ≠ 0 → prev ≠ k := fun hprev => (hext.ne_of_free hfree hprev).1
  have hk0 : k ≠ 0 := (Nat.zero_lt_of_lt hk.1.1).ne'
  refine ⟨⟨fun c hc => ?_, fun _ => hk.1, fun _ => ?_⟩, ?_⟩
  · rw [extend_fat _ hne]
    split_ifs
    · exact Nat.succ_ne_zero _
    · exact hk0
    · exact hext.root c hc
  · rw [extend_fat _ hne, if_pos rfl]
    exact Nat.succ_ne_zero _
  · apply free_of_cons hfree
    intro c _
    rw [extend_fat _ hne]
    by_cases hck : c = k
    · rw [if_pos hck]
      simp [hck]
    · by_cases hcp : c = prev ∧ prev ≠ 0
      · rw [if_neg hck, if_pos hcp]
        have hzero := hext.prev_ne hcp.2
        rw [← hcp.1] at hzero
        exact iff_of_false hk0 fun hboth => hzero hboth.1
      · rw [if_neg hck, if_neg hcp]
        exact (and_iff_left hck).symm

/-- A round followed by the rounds for what is left. -/
theorem Laid.cons (hne : prev ≠ 0 → prev ≠ k ∧ prev ∉ ks) (hk : k ≠ 0) (hfresh : k ∉ ks)
    (hbytes : ∀ i < g.clusterBytes, i < content.length → bytes i = ofList content i)
    (htail : g.Laid (img.extend prev k bytes) img' k ks (content.drop g.clusterBytes)) :
    g.Laid img img' prev (k :: ks) content where
  dir := htail.dir.trans (extend_dir img)
  fat_frame c hc hprev := by
    have hck : c ≠ k := fun hequal => hc (hequal ▸ List.mem_cons_self)
    have hcks : c ∉ ks := fun hmem => hc (List.mem_cons_of_mem _ hmem)
    rw [htail.fat_frame c hcks (.inl hck), extend_fat _ fun h => (hne h).1, if_neg hck, if_neg]
    rintro ⟨rfl, hnonzero⟩
    rcases hprev with hdiff | hzero
    · exact hdiff rfl
    · exact hnonzero hzero
  fat_prev hprev := by
    obtain ⟨hpk, hpks⟩ := hne hprev
    rw [htail.fat_frame prev hpks (.inl hpk), extend_fat _ fun h => (hne h).1, if_neg hpk,
      if_pos ⟨rfl, hprev⟩, List.headD_cons]
  fat_link i hi := by
    cases i with
    | zero =>
        rw [List.getElem_cons_zero, htail.fat_prev hk, extend_fat _ fun h => (hne h).1, if_pos rfl,
          List.getD_cons_succ]
        cases ks <;> rfl
    | succ i =>
        rw [List.getElem_cons_succ, htail.fat_link i (Nat.lt_of_succ_lt_succ hi),
          List.getD_cons_succ]
  data_frame c hc := by
    have hck : c ≠ k := fun hequal => hc (hequal ▸ List.mem_cons_self)
    rw [htail.data_frame c (fun hmem => hc (List.mem_cons_of_mem _ hmem)), extend_data, if_neg hck]
  bytes i hi hcap := by
    rcases Nat.lt_or_ge i g.clusterBytes with hlt | hge
    · rw [chainBytes_cons_of_lt hlt, htail.data_frame k hfresh, extend_data, if_pos rfl,
        hbytes i hlt hi]
    · obtain ⟨j, rfl⟩ := Nat.exists_eq_add_of_le hge
      rw [List.length_cons, Nat.succ_mul] at hcap
      rw [chainBytes_cons_add, htail.bytes j (by rw [List.length_drop]; omega) (by omega)]
      simp [ofList, List.getD_eq_getElem?_getD]

/-! ## Sectors of a cluster -/

/-- The sectors of a new cluster take the content from its beginning, zero-filled. -/
theorem fillCluster_disk {lba : Nat} (m s : Nat) (hlba : lba + s + m ≤ 2 ^ 32) :
    fillCluster lba (List.range' s m) content (disk b) =
      (content.drop (512 * m), disk (b.blit ((lba + s) * 512) (ofList content) (512 * m))) := by
  induction m generalizing s b content with
  | zero => simp [fillCluster]
  | succ m ih =>
      have hsector : u32 (lba + s) = lba + s := u32_of_lt (by omega)
      rw [List.range'_succ, fillCluster, hsector, write_disk, disk_sectorSize,
        ih (s + 1) (by omega), List.drop_drop]
      have hnext : (lba + (s + 1)) * 512 = (lba + s) * 512 + 512 := by omega
      have hlength : 512 * (m + 1) = 512 + 512 * m := by omega
      rw [hnext, hlength, blit_append]
      · intro i hi
        simp [ofList, List.getD_eq_getElem?_getD, List.getElem?_take_of_lt hi]
      · intro i _
        simp [ofList, List.getD_eq_getElem?_getD]

/-- Appending stops at the first sector without content. -/
theorem appendSectors_disk {lba : Nat} (m s : Nat) (hlba : lba + s + m ≤ 2 ^ 32) :
    ∃ n, min content.length (512 * m) ≤ n ∧ n ≤ 512 * m ∧
      appendSectors lba (List.range' s m) content (disk b) =
        (some (content.drop (512 * m)), disk (b.blit ((lba + s) * 512) (ofList content) n)) := by
  induction m generalizing s b content with
  | zero => exact ⟨0, by simp, le_rfl, by simp [appendSectors]⟩
  | succ m ih =>
      by_cases hmore : 0 < content.length
      · have hsector : u32 (lba + s) = lba + s := u32_of_lt (by omega)
        obtain ⟨n, hlow, hhigh, hrest⟩ :=
          @ih (b.blit ((lba + s) * 512) (ofList (content.take 512)) 512) (content.drop 512) (s + 1)
            (by omega)
        refine ⟨512 + n, ?_, by omega, ?_⟩
        · rw [List.length_drop] at hlow
          omega
        · rw [List.range'_succ, appendSectors, if_pos hmore, hsector, disk_sectorSize, write_disk]
          have hnext : (lba + (s + 1)) * 512 = (lba + s) * 512 + 512 := by omega
          have hlength : 512 * (m + 1) = 512 + 512 * m := by omega
          rw [hnext, List.drop_drop] at hrest
          rw [hlength]
          refine hrest.trans ?_
          rw [blit_append]
          · intro i hi
            simp [ofList, List.getD_eq_getElem?_getD, List.getElem?_take_of_lt hi]
          · intro i _
            simp [ofList, List.getD_eq_getElem?_getD]
      · obtain rfl := List.eq_nil_of_length_eq_zero (Nat.eq_zero_of_not_pos hmore)
        exact ⟨0, by simp, by omega, by simp [List.range'_succ, appendSectors]⟩

/-- The image after the first `n` bytes of an extended cluster were written. -/
theorem image_extend {n : Nat} {b₂ : ByteMap} (hk : g.InTable k) (hroot : k ∉ g.root)
    (hn : n ≤ g.clusterBytes)
    (himage : g.image b₂ = if prev ≠ 0 then ((g.image b).setFat k clusterEoc).setFat prev k
      else (g.image b).setFat k clusterEoc) :
    g.image (b₂.blit (g.clusterPos k) (ofList content) n) =
      (g.image b).extend prev k (((g.image b).data k).blit 0 (ofList content) n) := by
  have hblit := @image_blit_cluster g b₂ k 0 n (ofList content) hk hroot (by omega)
  rw [Nat.add_zero, himage] at hblit
  rw [hblit, Image.extend]
  split_ifs <;> rfl

/-! ## Bytes inside a cluster -/

/-- The read-modify-write loop, from the state in which `done` bytes are written. -/
theorem patchLoop_disk {off done : Nat} (hc : g.InTable c)
    (hfits : off + content.length ≤ g.clusterBytes) (hdone : done ≤ content.length) :
    loop (patchRound (g.clusterLba c) off content)
        (done, disk (b.blit (g.clusterPos c + off) (ofList content) done)) =
      some (0, disk (b.blit (g.clusterPos c + off) (ofList content) content.length)) := by
  generalize hleft : content.length - done = left
  induction left using Nat.strongRecOn generalizing done with
  | ind left ih =>
      rw [loop_eq, patchRound]
      by_cases hmore : done < content.length
      · have hsmall := g.clusterBytes_lt
        have hend := clusterLba_add_le hc
        have hbytes : g.clusterBytes = 512 * g.vol.sectorsPerCluster := rfl
        have hindex : u32 ((off + done) / 512) = (off + done) / 512 := u32_of_lt (by omega)
        have hinner : u32 ((off + done) % 512) = (off + done) % 512 := u32_of_lt (by omega)
        have hsector : u32 (g.clusterLba c + (off + done) / 512) =
            g.clusterLba c + (off + done) / 512 := u32_of_lt (by omega)
        have hcount : u32 (content.length - done) = content.length - done := u32_of_lt (by omega)
        rw [if_pos hmore]
        simp only [disk_sectorSize, hindex, hinner, hsector, hcount, read_disk, write_disk]
        generalize hchunk : min (content.length - done) (512 - (off + done) % 512) = chunk
        have hposition : (g.clusterLba c + (off + done) / 512) * 512 + (off + done) % 512 =
            g.clusterPos c + off + done := by
          rw [clusterPos]
          omega
        rw [blit_blit_window (by omega), hposition, blit_append (fun _ _ => rfl)
          fun i _ => by simp [ofList, List.getD_eq_getElem?_getD]]
        exact ih (left - chunk) (by omega) (by omega) (by omega)
      · have hall : done = content.length := by omega
        rw [if_neg hmore, hall]

/-- `content` is written into a cluster from byte `off` on. -/
theorem patchCluster_disk {off : Nat} (hc : g.InTable c) (hroot : c ∉ g.root)
    (hfits : off + content.length ≤ g.clusterBytes) :
    ∃ b', patchCluster (disk b) (clusterToLba g.vol c) off content = some (0, disk b') ∧
      g.image b' = (g.image b).setData c
        (((g.image b).data c).blit off (ofList content) content.length) := by
  have hloop := @patchLoop_disk g b c content off 0 hc hfits (Nat.zero_le _)
  rw [blit_zero] at hloop
  exact ⟨_, by rw [patchCluster, clusterToLba_eq hc, hloop], image_blit_cluster hc hroot hfits⟩

theorem patchCluster_nil {d : Drive} {lba off : Nat} : patchCluster d lba off [] = some (0, d) := by
  rw [patchCluster, loop_eq, patchRound, if_neg (by simp)]

/-! ## Whole chains -/

/-- Allocating a cluster and linking the previous one to it. -/
theorem allocate_disk {rest : List Nat} (hext : g.Extendable (g.image b).fat prev)
    (hfree : g.free (g.image b).fat = k :: rest) :
    ∃ b₁ b₂, allocCluster (disk b) g.vol = (k, disk b₁) ∧
      (if prev ≠ 0 then writeFat (disk b₁) g.vol prev k else (0, disk b₁)) = (0, disk b₂) ∧
      g.image b₂ = if prev ≠ 0 then ((g.image b).setFat k clusterEoc).setFat prev k
        else (g.image b).setFat k clusterEoc := by
  have hk := mem_free.mp (hfree ▸ List.mem_cons_self : k ∈ g.free (g.image b).fat)
  obtain ⟨b₁, halloc, himage₁⟩ := allocCluster_cons hfree
  by_cases hprev : prev = 0
  · exact ⟨b₁, b₁, halloc, by simp [hprev], by simp [hprev, himage₁]⟩
  · obtain ⟨b₂, hwrite, himage₂⟩ := @writeFat_disk g b₁ prev (hext.prev_mem hprev).2 k
    refine ⟨b₁, b₂, halloc, by rw [if_pos hprev, hwrite], ?_⟩
    have hsmall : k % 2 ^ 28 = k := by
      have hbad := hk.1.lt_bad
      simp only [clusterBad] at hbad
      exact Nat.mod_eq_of_lt (by omega)
    rw [if_pos hprev, himage₂, himage₁, hsmall]

/-- What one round on the first free cluster prepares for the remaining rounds. -/
theorem Laid.of_round {rest : List Nat} {n m : Nat} (hext : g.Extendable img.fat prev)
    (hfree : g.free img.fat = k :: rest) (hn : min content.length g.clusterBytes ≤ n)
    (htail : g.Laid (img.extend prev k ((img.data k).blit 0 (ofList content) n)) img' k
      (rest.take m) (content.drop g.clusterBytes)) :
    g.Laid img img' prev ((k :: rest).take (m + 1)) content := by
  have hk := mem_free.mp (hfree ▸ List.mem_cons_self : k ∈ g.free img.fat)
  have hnodup := @nodup_free g img.fat
  rw [hfree, List.nodup_cons] at hnodup
  rw [List.take_succ_cons]
  refine Laid.cons ?_ (Nat.zero_lt_of_lt hk.1.1).ne' ?_ ?_ htail
  · intro hprev
    obtain ⟨hpk, hprest⟩ := hext.ne_of_free hfree hprev
    exact ⟨hpk, fun hmem => hprest (List.mem_of_mem_take hmem)⟩
  · exact fun hmem => hnodup.1 (List.mem_of_mem_take hmem)
  · intro i hi hlength
    have hbyte := @blit_apply_of_mem (img.data k) 0 (ofList content) n i (by omega)
    rwa [Nat.zero_add] at hbyte

/-- `fat32_write_cluster_chain` lays the content out on the first free clusters, and
returns the first of them when there were enough. -/
theorem writeClusterChainFrom_disk (n first : Nat) (hext : g.Extendable (g.image b).fat prev) :
    ∃ b', writeClusterChainFrom g.vol n first prev content (disk b) =
        (if n ≤ (g.free (g.image b).fat).length then
            if first = 0 then ((g.free (g.image b).fat).take n).headD 0 else first
          else 0, disk b') ∧
      g.Laid (g.image b) (g.image b') prev ((g.free (g.image b).fat).take n) content := by
  induction n generalizing b first prev content with
  | zero =>
      refine ⟨b, ?_, Laid.nil⟩
      simp only [writeClusterChainFrom, Nat.zero_le, if_true, List.take_zero, List.headD_nil]
      split_ifs with hfirst
      · rw [hfirst]
      · rfl
  | succ n ih =>
      cases hfree : g.free (g.image b).fat with
      | nil =>
          refine ⟨b, ?_, Laid.nil⟩
          simp [writeClusterChainFrom, allocCluster_full hfree]
      | cons k rest =>
          have hk := mem_free.mp (hfree ▸ List.mem_cons_self : k ∈ g.free (g.image b).fat)
          have hk0 : k ≠ 0 := (Nat.zero_lt_of_lt hk.1.1).ne'
          have hkroot : k ∉ g.root := fun hmem => hext.root k hmem hk.2
          obtain ⟨b₁, b₂, halloc, hlink, himage₂⟩ := allocate_disk hext hfree
          have hfill := @fillCluster_disk b₂ content (g.clusterLba k) g.vol.sectorsPerCluster 0
            (clusterLba_add_le hk.1)
          rw [← List.range_eq_range', Nat.add_zero, ← clusterPos, ← clusterBytes] at hfill
          have himage := @image_extend g b k prev content _ b₂ hk.1 hkroot
            (le_refl g.clusterBytes) himage₂
          obtain ⟨hnext, hrest⟩ := @Extendable.next g k prev (g.image b)
            (((g.image b).data k).blit 0 (ofList content) g.clusterBytes) rest hext hfree
          rw [← himage] at hnext hrest
          obtain ⟨b', hrun, hlaid⟩ := @ih _ _ (content.drop g.clusterBytes)
            (if first = 0 then k else first) hnext
          rw [hrest] at hrun hlaid
          rw [himage] at hlaid
          refine ⟨b', ?_, Laid.of_round hext hfree (by omega) hlaid⟩
          have hdrive : (if prev ≠ 0 then (writeFat (disk b₁) g.vol prev k).2 else disk b₁) =
              disk b₂ := by
            have hsecond := congrArg Prod.snd hlink
            split_ifs at hsecond ⊢ <;> exact hsecond
          rw [writeClusterChainFrom, halloc]
          simp only [if_neg hk0, hdrive, clusterToLba_eq hk.1, hfill]
          rw [hrun]
          simp only [List.length_cons, Nat.add_le_add_iff_right, List.take_succ_cons,
            List.headD_cons]
          by_cases hfirst : first = 0 <;> simp [hfirst, hk0]

theorem writeClusterChain_disk (hroot : ∀ c ∈ g.root, (g.image b).fat c ≠ 0) :
    ∃ b', writeClusterChain (disk b) g.vol content =
        (if clustersNeeded g.vol content.length ≤ (g.free (g.image b).fat).length then
            ((g.free (g.image b).fat).take (clustersNeeded g.vol content.length)).headD 0
          else 0, disk b') ∧
      g.Laid (g.image b) (g.image b') 0
        ((g.free (g.image b).fat).take (clustersNeeded g.vol content.length)) content :=
  writeClusterChainFrom_disk _ 0 ⟨hroot, fun h => absurd rfl h, fun h => absurd rfl h⟩

/-- The allocation loop of `fat32_append_file` lays the rest of the content out on
the first free clusters behind the last cluster. -/
theorem appendClusters_disk (first : Nat) (hext : g.Extendable (g.image b).fat prev) :
    ∃ b' s', appendClusters g.vol ⟨first, prev, content, disk b⟩ =
        some (if g.clustersFor content.length ≤ (g.free (g.image b).fat).length then 0 else -1,
          s') ∧
      s'.drive = disk b' ∧
      (g.clustersFor content.length ≤ (g.free (g.image b).fat).length → s'.firstCluster =
        if prev ≠ 0 then first
        else ((g.free (g.image b).fat).take (g.clustersFor content.length)).headD first) ∧
      g.Laid (g.image b) (g.image b') prev
        ((g.free (g.image b).fat).take (g.clustersFor content.length)) content := by
  generalize hcount : g.clustersFor content.length = n
  induction n generalizing b first prev content with
  | zero =>
      have hempty : ¬ 0 < content.length := fun hpos => (clustersFor_pos (g := g) hpos).ne' hcount
      refine ⟨b, ⟨first, prev, content, disk b⟩, ?_, rfl, ?_, Laid.nil⟩
      · rw [appendClusters, loop_eq, appendRound, if_neg hempty]
        simp only [Nat.zero_le, if_true]
      · intro _
        simp
  | succ n ih =>
      have hmore : 0 < content.length := by
        by_contra hempty
        rw [Nat.eq_zero_of_not_pos hempty, clustersFor_zero] at hcount
        cases hcount
      have hcount' : g.clustersFor (content.drop g.clusterBytes).length = n := by
        rw [clustersFor_sub hmore] at hcount
        rw [List.length_drop]
        exact Nat.succ_injective hcount
      cases hfree : g.free (g.image b).fat with
      | nil =>
          refine ⟨b, ⟨first, prev, content, disk b⟩, ?_, rfl, ?_, Laid.nil⟩
          · rw [appendClusters, loop_eq, appendRound, if_pos hmore, allocCluster_full hfree]
            simp
          · intro hle
            simp at hle
      | cons k rest =>
          have hk := mem_free.mp (hfree ▸ List.mem_cons_self : k ∈ g.free (g.image b).fat)
          have hk0 : k ≠ 0 := (Nat.zero_lt_of_lt hk.1.1).ne'
          have hkroot : k ∉ g.root := fun hmem => hext.root k hmem hk.2
          obtain ⟨b₁, b₂, halloc, hlink, himage₂⟩ := allocate_disk hext hfree
          obtain ⟨m, hlow, hhigh, hsectors⟩ := @appendSectors_disk b₂ content (g.clusterLba k)
            g.vol.sectorsPerCluster 0 (clusterLba_add_le hk.1)
          rw [← List.range_eq_range', Nat.add_zero, ← clusterPos, ← clusterBytes] at hsectors
          rw [← clusterBytes] at hlow hhigh
          have himage := @image_extend g b k prev content m b₂ hk.1 hkroot hhigh himage₂
          obtain ⟨hnext, hrest⟩ := @Extendable.next g k prev (g.image b)
            (((g.image b).data k).blit 0 (ofList content) m) rest hext hfree
          rw [← himage] at hnext hrest
          obtain ⟨b', s', hrun, hdrive, hfirst, hlaid⟩ := @ih _ _ (content.drop g.clusterBytes)
            (if prev ≠ 0 then first else k) hnext hcount'
          rw [hrest] at hrun hfirst hlaid
          rw [himage] at hlaid
          refine ⟨b', s', ?_, hdrive, ?_, Laid.of_round hext hfree hlow hlaid⟩
          · rw [appendClusters, loop_eq, appendRound, if_pos hmore, halloc]
            simp only [if_neg hk0, hlink, lt_irrefl, if_false, clusterToLba_eq hk.1, hsectors]
            simp only [List.length_cons, Nat.add_le_add_iff_right]
            exact hrun
          · intro hle
            rw [List.length_cons, Nat.add_le_add_iff_right] at hle
            rw [hfirst hle, if_pos hk0]
            simp

end Geometry

end GeckoOS.Fs
