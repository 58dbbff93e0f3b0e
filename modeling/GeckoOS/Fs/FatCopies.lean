/-
# Both copies of the FAT

Every change of the FAT goes through one entry: its sector is written to the first
FAT and then, where there is one, to the second.  Everything else the driver writes
lies in the data area.  So the copies stay equal byte for byte, the reserved bits of
every entry stay as they are, and the first two entries, which no cluster has, are
never touched.

This is a relation between the bytes before and after, kept by every function of the
driver and with it by every run of calls, whether they succeed or not.
-/

import GeckoOS.Fs.FatEntries
import GeckoOS.Fs.UniqueNames

namespace GeckoOS.Fs

open GeckoOS.Math ByteMap

namespace Geometry

variable {g : Geometry} {b b₁ b₂ : ByteMap} {c prev value n : Nat} {d d' : Drive}
  {content : List UInt8}

/-- The second FAT holds the bytes of the first. -/
def CopiesAgree (g : Geometry) (b : ByteMap) : Prop :=
  ∀ i < g.vol.sectorsPerFat * 512,
    b ((g.vol.fatLba + g.vol.sectorsPerFat) * 512 + i) = b (g.vol.fatLba * 512 + i)

/-- What every function of the driver keeps of the FAT. -/
structure TableKept (g : Geometry) (b b' : ByteMap) : Prop where
  copies : 1 < g.vol.numFats → g.CopiesAgree b → g.CopiesAgree b'
  reserved : ∀ i < g.tableSize, g.vol.entry b' i / 2 ^ 28 = g.vol.entry b i / 2 ^ 28
  first : ∀ i < g.tableSize, i < 2 → g.vol.entry b' i = g.vol.entry b i

theorem TableKept.refl : g.TableKept b b :=
  ⟨fun _ hagree => hagree, fun _ _ => rfl, fun _ _ _ => rfl⟩

theorem TableKept.trans (hfirst : g.TableKept b b₁) (hsecond : g.TableKept b₁ b₂) :
    g.TableKept b b₂ where
  copies htwo hagree := hsecond.copies htwo (hfirst.copies htwo hagree)
  reserved i hi := (hsecond.reserved i hi).trans (hfirst.reserved i hi)
  first i hi htwo := (hsecond.first i hi htwo).trans (hfirst.first i hi htwo)

/-! ## The two kinds of writes -/

/-- Writes to the data area leave the FAT alone. -/
theorem TableKept.blit {position : Nat} {source : ByteMap}
    (hdata : g.vol.dataLba * 512 ≤ position) : g.TableKept b (b.blit position source n) := by
  have hentry : ∀ i < g.tableSize, g.vol.entry (b.blit position source n) i = g.vol.entry b i := by
    intro i hi
    have hend := entryPos_add_le hi
    exact load_blit_disjoint (.inl (hend.trans hdata))
  refine ⟨fun htwo hagree i hi => ?_, fun i hi => ?_, fun i hi _ => hentry i hi⟩
  · have hend := g.fat2_le htwo
    have hsecond : b.blit position source n
        ((g.vol.fatLba + g.vol.sectorsPerFat) * 512 + i) =
          b ((g.vol.fatLba + g.vol.sectorsPerFat) * 512 + i) :=
      blit_apply_of_not_mem (by omega)
    have hfirst : b.blit position source n (g.vol.fatLba * 512 + i) =
        b (g.vol.fatLba * 512 + i) := blit_apply_of_not_mem (by omega)
    rw [hsecond, hfirst, hagree i hi]
  · rw [hentry i hi]

/-- One entry of a cluster is changed, and its sector copied. -/
theorem TableKept.putEntry (hc : g.InTable c) (value : Nat) :
    g.TableKept b (g.vol.putEntry b c value) where
  copies htwo hagree i hi := by
    have htable := hc.2
    rw [tableSize] at htable
    have hpos : g.vol.entryPos c = g.vol.fatLba * 512 + 4 * c := rfl
    rw [Volume.putEntry, Volume.mirror, if_pos htwo, hpos]
    generalize hstored : b.store (g.vol.fatLba * 512 + 4 * c) 4
      (mergeEntry (g.vol.entry b c) value) = stored
    have hfirst : stored.blit ((g.vol.fatLba + g.vol.sectorsPerFat + c / 128) * 512)
          (fun k => stored ((g.vol.fatLba + c / 128) * 512 + k)) 512 (g.vol.fatLba * 512 + i) =
        stored (g.vol.fatLba * 512 + i) :=
      blit_apply_of_not_mem (by omega)
    rw [hfirst]
    by_cases hsector : c / 128 * 512 ≤ i ∧ i < c / 128 * 512 + 512
    · -- the copied sector holds what was stored in the first FAT
      obtain ⟨k, rfl⟩ := Nat.exists_eq_add_of_le hsector.1
      have hk : k < 512 := by omega
      have hsecond : (g.vol.fatLba + g.vol.sectorsPerFat) * 512 + (c / 128 * 512 + k) =
          (g.vol.fatLba + g.vol.sectorsPerFat + c / 128) * 512 + k := by omega
      have hplace : g.vol.fatLba * 512 + (c / 128 * 512 + k) =
          (g.vol.fatLba + c / 128) * 512 + k := by rw [Nat.add_mul, Nat.add_assoc]
      rw [hsecond, blit_apply_of_mem hk]
      exact (congrArg stored hplace).symm
    · -- elsewhere neither place changes
      have hsecond : stored.blit ((g.vol.fatLba + g.vol.sectorsPerFat + c / 128) * 512)
            (fun k => stored ((g.vol.fatLba + c / 128) * 512 + k)) 512
            ((g.vol.fatLba + g.vol.sectorsPerFat) * 512 + i) =
          stored ((g.vol.fatLba + g.vol.sectorsPerFat) * 512 + i) :=
        blit_apply_of_not_mem (by omega)
      have hafter : stored ((g.vol.fatLba + g.vol.sectorsPerFat) * 512 + i) =
          b ((g.vol.fatLba + g.vol.sectorsPerFat) * 512 + i) := by
        rw [← hstored]
        exact store_apply_of_le (by omega)
      have haside : stored (g.vol.fatLba * 512 + i) = b (g.vol.fatLba * 512 + i) := by
        rw [← hstored]
        rcases Nat.lt_or_ge i (4 * c) with hlt | hge
        · exact store_apply_of_lt (by omega)
        · exact store_apply_of_le (by omega)
      rw [hsecond, hafter, haside, hagree i hi]
  reserved i hi := Volume.reserved_putEntry hi
  first i hi htwo := by
    have hne : i ≠ c := (htwo.trans_le hc.1).ne
    rw [Volume.entry_putEntry hi, if_neg hne]

/-! ## The functions that change the FAT -/

/-- The sector numbers of the FAT copies a driver works in do not wrap. -/
theorem tableFits : g.vol.TableFits := by
  have hdata := g.data_le
  rw [Volume.TableFits]
  split_ifs with htwo
  · have hend := g.fat2_le htwo
    omega
  · have hend := g.fat_le
    omega

theorem writeFat_kept (hc : g.InTable c) :
    ∃ b', writeFat (disk b) g.vol c value = (0, disk b') ∧ g.TableKept b b' := by
  have hbad := hc.lt_bad
  exact ⟨_, Volume.writeFat_eq tableFits hc.2 (by simp only [clusterBad] at hbad; omega) value,
    TableKept.putEntry hc value⟩

/-- A cluster that is allocated is one of the table. -/
theorem allocCluster_kept :
    ∃ k b', allocCluster (disk b) g.vol = (k, disk b') ∧ (k = 0 ∨ g.InTable k) ∧
      g.TableKept b b' := by
  rw [Volume.allocCluster_eq tableFits]
  cases hfind : (List.range g.vol.tableEntries).find? (g.vol.freeAt b) with
  | none => exact ⟨0, b, rfl, .inl rfl, .refl⟩
  | some i =>
      have hi : i < g.tableSize := List.mem_range.mp (List.mem_of_find?_eq_some hfind)
      have hsmall : u32 i = i := by
        have htable := g.table_le
        rw [tableSize] at hi
        simp only [clusterBad] at htable
        exact u32_of_lt (by omega)
      have hfree := List.find?_some hfind
      simp only [Volume.freeAt, hsmall, decide_eq_true_eq] at hfree
      have hin : g.InTable i := ⟨hfree.1, hi⟩
      rw [Option.elim_some, hsmall]
      exact ⟨i, _, rfl, .inr hin, TableKept.putEntry hin _⟩

/-- Freeing keeps within the entries of the clusters it is led to. -/
theorem freeClusterChain_kept (hlink : g.LinksOutside (g.image b).fat)
    (hc : IsLink c → g.Outside c) (hresult : freeClusterChain (disk b) g.vol c = some d') :
    ∃ b', d' = disk b' ∧ g.TableKept b b' := by
  suffices hall : ∀ s a, loop (freeClusterChainRound g.vol) s = some a → ∀ b, s.2 = disk b →
      g.LinksOutside (g.image b).fat → (IsLink s.1 → g.Outside s.1) →
        ∃ b', a = disk b' ∧ g.TableKept b b' from hall _ _ hresult b rfl hlink hc
  intro s a hloop
  refine loop_induct (motive := fun s a => ∀ b, s.2 = disk b →
      g.LinksOutside (g.image b).fat → (IsLink s.1 → g.Outside s.1) →
        ∃ b', a = disk b' ∧ g.TableKept b b') ?_ ?_ hloop
  · rintro ⟨c, d⟩ a hleave b rfl - -
    rw [freeClusterChainRound] at hleave
    split at hleave
    · cases hleave
    · cases hleave
      exact ⟨b, rfl, .refl⟩
  · rintro ⟨c, d⟩ t a hround hlater b rfl hlink hc
    rw [freeClusterChainRound] at hround
    split at hround
    · rename_i hstep
      have hout := hc hstep
      obtain ⟨b₁, hwrite, himage⟩ := @writeFat_disk g b c hout.1.2 0
      obtain ⟨b₂, hwrite', hkept⟩ := @writeFat_kept g b c 0 hout.1
      obtain rfl : b₂ = b₁ := congrArg Drive.bytes (Prod.mk.inj (hwrite'.symm.trans hwrite)).2
      rw [nextCluster_disk hout.1.2] at hround
      simp only [hwrite] at hround
      cases hround
      have hinner : g.Inner (g.image b) (g.image b₂) := by
        rw [himage]
        exact Inner.setFat hout fun hzero => absurd hzero (by decide)
      obtain ⟨b', hdrive, hrest⟩ := hlater b₂ rfl (hinner.link hlink)
        fun hnext => hlink c hout hnext
      exact ⟨b', hdrive, hkept.trans hrest⟩
    · cases hround

/-! ## The functions that write content -/

theorem writeDirEntry_kept {p : Nat × Nat} {entry : DirEntry} (hp : p ∈ g.slots) :
    ∃ b', writeDirEntry (disk b) p.1 p.2 entry = (0, disk b') ∧ g.TableKept b b' := by
  have hidx := slot_idx_lt hp
  obtain ⟨c, -, hlow, -⟩ := slotPos_bounds hp
  refine ⟨b.blit (slotPos p) entry 32, ?_, .blit ((dataLba_le_clusterPos c).trans hlow)⟩
  simp only [writeDirEntry, read_disk, write_disk,
    blit_blit_window (show 32 * p.2 + 32 ≤ 512 by omega), slotPos]

theorem patchCluster_kept {off : Nat} (hc : content = [] ∨ g.InTable c)
    (hfits : off + content.length ≤ g.clusterBytes) :
    ∃ b', patchCluster (disk b) (clusterToLba g.vol c) off content = some (0, disk b') ∧
      g.TableKept b b' := by
  rcases hc with rfl | hin
  · exact ⟨b, patchCluster_nil, .refl⟩
  · have hrun := @patchLoop_disk g b c content off 0 hin hfits (Nat.zero_le _)
    rw [blit_zero, ← clusterToLba_eq hin] at hrun
    exact ⟨_, hrun, .blit ((dataLba_le_clusterPos c).trans (Nat.le_add_right _ _))⟩

/-- A cluster is allocated, linked to the one before, and filled. -/
theorem writeClusterChainFrom_kept (first : Nat) (hprev : prev = 0 ∨ g.InTable prev) :
    ∃ k b', writeClusterChainFrom g.vol n first prev content (disk b) = (k, disk b') ∧
      g.TableKept b b' := by
  induction n generalizing first prev content b with
  | zero => exact ⟨first, b, rfl, .refl⟩
  | succ n ih =>
      obtain ⟨k, b₁, halloc, hk, hkept₁⟩ := @allocCluster_kept g b
      by_cases hzero : k = 0
      · refine ⟨0, b₁, ?_, hkept₁⟩
        rw [writeClusterChainFrom, halloc]
        simp only [if_pos hzero]
      · have hin := hk.resolve_left hzero
        have hlinked : ∃ b₂, (if prev ≠ 0 then (writeFat (disk b₁) g.vol prev k).2
            else disk b₁) = disk b₂ ∧ g.TableKept b₁ b₂ := by
          rcases hprev with rfl | hprev
          · exact ⟨b₁, rfl, .refl⟩
          · obtain ⟨b₂, hwrite, hkept₂⟩ := @writeFat_kept g b₁ prev k hprev
            have hne : prev ≠ 0 := (Nat.zero_lt_of_lt hprev.1).ne'
            exact ⟨b₂, by rw [if_pos hne, hwrite], hkept₂⟩
        obtain ⟨b₂, hdrive, hkept₂⟩ := hlinked
        have hfilled := @fillCluster_disk b₂ content (g.clusterLba k) g.vol.sectorsPerCluster 0
          (clusterLba_add_le hin)
        rw [← List.range_eq_range', Nat.add_zero, ← clusterToLba_eq hin] at hfilled
        have hkept₃ : g.TableKept b₂ (b₂.blit (clusterToLba g.vol k * 512) (ofList content)
            (512 * g.vol.sectorsPerCluster)) := by
          rw [clusterToLba_eq hin]
          exact .blit (dataLba_le_clusterPos k)
        obtain ⟨k', b', hrest, hkept⟩ := @ih (b₂.blit (clusterToLba g.vol k * 512)
          (ofList content) (512 * g.vol.sectorsPerCluster)) k
          (content.drop (512 * g.vol.sectorsPerCluster))
          (if first = 0 then k else first) (.inr hin)
        refine ⟨k', b', ?_, ((hkept₁.trans hkept₂).trans hkept₃).trans hkept⟩
        rw [writeClusterChainFrom, halloc]
        simp only [if_neg hzero]
        rw [hdrive, hfilled]
        exact hrest

/-- One round of the allocation loop of an append. -/
theorem appendRound_kept {s : AppendState} {result : (Int × AppendState) ⊕ AppendState}
    (hdrive : s.drive = disk b) (hlast : s.lastCluster = 0 ∨ g.InTable s.lastCluster)
    (hround : appendRound g.vol s = result) :
    ∃ b', (result.elim Prod.snd id).drive = disk b' ∧ g.TableKept b b' ∧
      ((result.elim Prod.snd id).lastCluster = 0 ∨
        g.InTable (result.elim Prod.snd id).lastCluster) := by
  subst hround
  obtain ⟨first, last, rest, d⟩ := s
  subst hdrive
  rw [appendRound]
  by_cases hmore : 0 < rest.length
  · obtain ⟨k, b₁, halloc, hk, hkept₁⟩ := @allocCluster_kept g b
    simp only [if_pos hmore, halloc]
    by_cases hzero : k = 0
    · rw [if_pos hzero]
      exact ⟨b₁, rfl, hkept₁, hlast⟩
    · have hin := hk.resolve_left hzero
      have hlinked : ∃ b₂, (if last ≠ 0 then writeFat (disk b₁) g.vol last k
          else (0, disk b₁)) = (0, disk b₂) ∧ g.TableKept b₁ b₂ := by
        rcases hlast with rfl | hlast
        · exact ⟨b₁, rfl, .refl⟩
        · obtain ⟨b₂, hwrite, hkept₂⟩ := @writeFat_kept g b₁ last k hlast
          have hne : last ≠ 0 := (Nat.zero_lt_of_lt hlast.1).ne'
          exact ⟨b₂, by rw [if_pos hne, hwrite], hkept₂⟩
      obtain ⟨b₂, hwrite, hkept₂⟩ := hlinked
      obtain ⟨m, -, -, hsectors⟩ := @appendSectors_disk b₂ rest (g.clusterLba k)
        g.vol.sectorsPerCluster 0 (clusterLba_add_le hin)
      rw [← List.range_eq_range', Nat.add_zero, ← clusterToLba_eq hin] at hsectors
      simp only [if_neg hzero, hwrite, lt_irrefl, if_false, hsectors]
      refine ⟨_, rfl, (hkept₁.trans hkept₂).trans (.blit ?_), .inr hin⟩
      rw [clusterToLba_eq hin]
      exact dataLba_le_clusterPos k
  · rw [if_neg hmore]
    exact ⟨b, rfl, .refl, hlast⟩

theorem appendClusters_kept {s : AppendState} {rc : Int} {s' : AppendState}
    (hdrive : s.drive = disk b) (hlast : s.lastCluster = 0 ∨ g.InTable s.lastCluster)
    (hresult : appendClusters g.vol s = some (rc, s')) :
    ∃ b', s'.drive = disk b' ∧ g.TableKept b b' := by
  suffices hall : ∀ s a, loop (appendRound g.vol) s = some a → ∀ b, s.drive = disk b →
      (s.lastCluster = 0 ∨ g.InTable s.lastCluster) →
        ∃ b', a.2.drive = disk b' ∧ g.TableKept b b' from hall _ _ hresult b hdrive hlast
  intro s a hloop
  refine loop_induct (motive := fun s a => ∀ b, s.drive = disk b →
      (s.lastCluster = 0 ∨ g.InTable s.lastCluster) →
        ∃ b', a.2.drive = disk b' ∧ g.TableKept b b') ?_ ?_ hloop
  · intro s a hleave b hdrive hlast
    obtain ⟨b', hafter, hkept, -⟩ := appendRound_kept hdrive hlast hleave
    exact ⟨b', hafter, hkept⟩
  · intro s t a hround hlater b hdrive hlast
    obtain ⟨b₁, hafter, hkept, hlast'⟩ := appendRound_kept hdrive hlast hround
    obtain ⟨b', hend, hrest⟩ := hlater b₁ hafter hlast'
    exact ⟨b', hend, hkept.trans hrest⟩

/-! ## The calls -/

section Calls

variable {name : CString} {r : Int}

/-- Content is written to new clusters, and the entry to its slot. -/
theorem store_kept {p : Nat × Nat} {entryOf : Nat → DirEntry} (hp : p ∈ g.slots)
    (hresult : (match writeClusterChain (disk b) g.vol content with
      | (firstCluster, d) =>
          if firstCluster = 0 ∧ 0 < content.length then some (-1, d)
          else some (writeDirEntry d p.1 p.2 (entryOf firstCluster))) = some (r, d')) :
    ∃ b', d' = disk b' ∧ g.TableKept b b' := by
  obtain ⟨k, b₁, hchain, hkept⟩ := @writeClusterChainFrom_kept g b 0
    (clustersNeeded g.vol content.length) content 0 (.inl rfl)
  rw [writeClusterChain, hchain] at hresult
  simp only at hresult
  split at hresult
  · cases hresult
    exact ⟨b₁, rfl, hkept⟩
  · obtain ⟨b', hentry, hkept'⟩ := @writeDirEntry_kept g b₁ p (entryOf k) hp
    rw [hentry] at hresult
    cases hresult
    exact ⟨b', rfl, hkept.trans hkept'⟩

theorem createFile_kept (hroot : g.RootChain (g.image b).fat)
    (hresult : createFile (disk b) g.vol name.1 content = some (r, d')) :
    ∃ b', d' = disk b' ∧ g.TableKept b b' := by
  rw [createFile] at hresult
  cases hfree : freeSlot (g.image b).dir with
  | none =>
      rw [search_free_none hroot hfree] at hresult
      cases hresult
      exact ⟨b, rfl, .refl⟩
  | some i =>
      obtain ⟨p, hp, hsearch⟩ := search_free_some hroot hfree
      rw [hsearch, Option.bind_some] at hresult
      simp only [foundAt, if_true] at hresult
      exact @store_kept g b d' content r p (newFileEntry name.1 · content.length)
        (List.mem_of_getElem? hp) hresult

/-- What the driver frees for a live entry is outside the root directory. -/
theorem freeEntryChain_kept {i : Nat} {slot : Slot} (hcontained : g.Contained (g.image b))
    (hget : (g.image b).dir[i]? = some slot) (hlive : slot.live) {freed : Option Drive}
    (hfreed : freeClusterChain (disk b) g.vol slot.cluster = freed) :
    ∃ b', freed = some (disk b') ∧ g.TableKept b b' := by
  have hcluster := hcontained.entry slot (List.mem_of_getElem? hget) hlive
  obtain ⟨b', hrun, -⟩ := @freeClusterChain_inner g b slot.cluster hcontained.link
    (outside_of_isLink hcluster)
  obtain ⟨b'', hdrive, hkept⟩ := freeClusterChain_kept hcontained.link
    (outside_of_isLink hcluster) hrun
  obtain rfl : b'' = b' := (congrArg Drive.bytes hdrive).symm
  exact ⟨b'', hfreed.symm.trans hrun, hkept⟩

theorem writeFile_kept (hcontained : g.Contained (g.image b))
    (hresult : writeFile (disk b) g.vol name.1 content = some (r, d')) :
    ∃ b', d' = disk b' ∧ g.TableKept b b' := by
  have hroot := hcontained.root
  rw [writeFile] at hresult
  cases hfind : findName (encode83Name name.1) (g.image b).dir with
  | none =>
      rw [search_name_none hroot hfind] at hresult
      exact createFile_kept hroot hresult
  | some i =>
      obtain ⟨p, hp, hsearch⟩ := search_name_some hroot hfind
      obtain ⟨slot, hget, hlive, hentry⟩ := found_slot hfind hp
      obtain ⟨b₁, hfreed, hkept⟩ := freeEntryChain_kept hcontained hget hlive rfl
      rw [hsearch, Option.bind_some] at hresult
      simp only [foundAt, if_true, (cluster_of_slot hentry).1, hfreed, Option.bind_some]
        at hresult
      obtain ⟨b', hdrive, hkept'⟩ := @store_kept g b₁ d' content r p
        (updatedEntry (entryAt b p) · content.length) (List.mem_of_getElem? hp) hresult
      exact ⟨b', hdrive, hkept.trans hkept'⟩

theorem deleteFile_kept (hcontained : g.Contained (g.image b))
    (hresult : deleteFile (disk b) g.vol name.1 = some (r, d')) :
    ∃ b', d' = disk b' ∧ g.TableKept b b' := by
  have hroot := hcontained.root
  rw [deleteFile] at hresult
  cases hfind : findName (encode83Name name.1) (g.image b).dir with
  | none =>
      rw [search_name_none hroot hfind] at hresult
      cases hresult
      exact ⟨b, rfl, .refl⟩
  | some i =>
      obtain ⟨p, hp, hsearch⟩ := search_name_some hroot hfind
      obtain ⟨slot, hget, hlive, hentry⟩ := found_slot hfind hp
      obtain ⟨b₁, hfreed, hkept⟩ := freeEntryChain_kept hcontained hget hlive rfl
      obtain ⟨b', hwrite, hkept'⟩ := @writeDirEntry_kept g b₁ p
        ((entryAt b p).store 0 1 entryFree.toNat) (List.mem_of_getElem? hp)
      rw [hsearch, Option.bind_some] at hresult
      simp only [foundAt, if_true, (cluster_of_slot hentry).1, hfreed, Option.bind_some, hwrite]
        at hresult
      cases hresult
      exact ⟨b', rfl, hkept.trans hkept'⟩

theorem mkdir_kept (hroot : g.RootChain (g.image b).fat)
    (hresult : mkdir (disk b) g.vol name.1 = some (r, d')) :
    ∃ b', d' = disk b' ∧ g.TableKept b b' := by
  rw [mkdir] at hresult
  cases hfree : freeSlot (g.image b).dir with
  | none =>
      rw [search_free_none hroot hfree] at hresult
      cases hresult
      exact ⟨b, rfl, .refl⟩
  | some i =>
      obtain ⟨p, hp, hsearch⟩ := search_free_some hroot hfree
      obtain ⟨b', hwrite, hkept⟩ := @writeDirEntry_kept g b p
        ((DirEntry.named (encode83Name name.1) attrDirectory).store 24 2 stampDate)
        (List.mem_of_getElem? hp)
      rw [hsearch, Option.bind_some] at hresult
      simp only [foundAt, if_true, hwrite] at hresult
      cases hresult
      exact ⟨b', rfl, hkept⟩

/-- Both fills, the allocation and the entry of an append. -/
theorem appendFrom_kept {p : Nat × Nat} {last : Nat} {ctx : DirSearchCtx} {slot : Slot}
    (hp : p ∈ g.slots) (hctx : ctx.foundLba = p.1 ∧ ctx.foundIdx = p.2)
    (hentry : slotOf ctx.result = slot) (hfirst : slot.cluster = 0 ∨ g.Outside slot.cluster)
    (hlast : last = 0 ∨ g.InTable last)
    (hresult : appendFrom (disk b) g.vol ctx last content = some (r, d')) :
    ∃ b', d' = disk b' ∧ g.TableKept b b' := by
  obtain ⟨hcluster, hsize⟩ := cluster_of_slot hentry
  obtain ⟨b₁, hrun₁, hkept₁⟩ := @patchCluster_kept g b slot.cluster _ _
    (preallocated_nil_or content slot.size (hfirst.imp_right And.left))
    (preallocated_fits content slot.size slot.cluster)
  obtain ⟨b₂, hrun₂, hkept₂⟩ := @patchCluster_kept g b₁ last _ _
    (tail_nil_or content slot.size hlast) (tail_fits content slot.size last)
  have hfilled := hkept₁.trans hkept₂
  rw [appendFrom, hcluster, hsize] at hresult
  simp only [hrun₁, Option.bind_some, lt_irrefl, if_false, clusterSize_eq, hrun₂] at hresult
  obtain ⟨⟨rc, s⟩, hrun₃, hend⟩ := Option.bind_eq_some_iff.mp hresult
  obtain ⟨b₃, hdrive, hkept₃⟩ := appendClusters_kept rfl hlast hrun₃
  have hall := hfilled.trans hkept₃
  simp only [hdrive, hctx] at hend
  split at hend
  · cases hend
    exact ⟨b₃, rfl, hall⟩
  · obtain ⟨b', hwrite, hkept₄⟩ := @writeDirEntry_kept g b₃ p
      (updatedEntry ctx.result s.firstCluster (slot.size + content.length)) hp
    rw [hwrite] at hend
    cases hend
    exact ⟨b', rfl, hall.trans hkept₄⟩

theorem appendFile_kept (hcontained : g.Contained (g.image b))
    (hresult : appendFile (disk b) g.vol name.1 content = some (r, d')) :
    ∃ b', d' = disk b' ∧ g.TableKept b b' := by
  have hroot := hcontained.root
  rw [appendFile] at hresult
  cases hfind : findName (encode83Name name.1) (g.image b).dir with
  | none =>
      rw [search_name_none hroot hfind] at hresult
      exact createFile_kept hroot hresult
  | some i =>
      obtain ⟨p, hp, hsearch⟩ := search_name_some hroot hfind
      obtain ⟨slot, hget, hlive, hentry⟩ := found_slot hfind hp
      obtain ⟨hcluster, hsize⟩ := cluster_of_slot hentry
      have hfirst := hcontained.entry slot (List.mem_of_getElem? hget) hlive
      have hfrom : ∀ last, last = 0 ∨ g.InTable last →
          appendFrom (disk b) g.vol { foundAt (.forName name.1) p with result := entryAt b p } last
            content = some (r, d') → ∃ b', d' = disk b' ∧ g.TableKept b b' :=
        fun last hlast hrun =>
          appendFrom_kept (List.mem_of_getElem? hp) ⟨rfl, rfl⟩ hentry hfirst hlast hrun
      rw [hsearch, Option.bind_some] at hresult
      simp only [foundAt, if_true, hcluster, hsize] at hresult
      rcases hfirst with hzero | hout
      · rw [if_neg (not_not.mpr hzero)] at hresult
        exact hfrom 0 (.inl rfl) hresult
      · obtain ⟨walked, hwalk, hlast⟩ := @appendWalk_outside g b slot.cluster hcontained.link hout
          ((slot.size + clusterSize g.vol - 1) / clusterSize g.vol - 1)
        rw [if_pos hout.ne_zero, hwalk] at hresult
        cases walked with
        | none =>
            cases hresult
            exact ⟨b, rfl, .refl⟩
        | some last => exact hfrom last (.inr (hlast last rfl).1) hresult

/-- Every call keeps the FAT in this sense, whatever it returns. -/
theorem exec_kept {call : FileCall} (hcontained : g.Contained (g.image b))
    (hresult : exec (disk b) g.vol call = some (r, d')) :
    ∃ b', d' = disk b' ∧ g.TableKept b b' := by
  cases call with
  | createFile name content => exact createFile_kept hcontained.root hresult
  | writeFile name content => exact writeFile_kept hcontained hresult
  | appendFile name content => exact appendFile_kept hcontained hresult
  | deleteFile name => exact deleteFile_kept hcontained hresult
  | mkdir name => exact mkdir_kept hcontained.root hresult

end Calls

/-! ## Runs -/

/-- Runs of the operations that change files and the root directory. -/
def FileRun (v : Volume) : Drive → Drive → Prop :=
  Relation.ReflTransGen fun d d' => ∃ call r, exec d v call = some (r, d')

theorem fileRun_kept (hcontained : g.Contained (g.image b)) (hrun : FileRun g.vol (disk b) d') :
    ∃ b', d' = disk b' ∧ g.Contained (g.image b') ∧ g.TableKept b b' := by
  induction hrun with
  | refl => exact ⟨b, rfl, hcontained, .refl⟩
  | tail _ hstep ih =>
      obtain ⟨b₁, rfl, hcontained₁, hkept⟩ := ih
      obtain ⟨call, r, hexec⟩ := hstep
      obtain ⟨b₂, rfl, hkept'⟩ := exec_kept hcontained₁ hexec
      obtain ⟨r', b', hrun', heffect⟩ := exec_effect hcontained₁ call
      obtain rfl : b₂ = b' := by
        rw [hexec, Option.some.injEq, Prod.mk.injEq] at hrun'
        exact congrArg Drive.bytes hrun'.2
      exact ⟨b₂, rfl, hcontained₁.effect heffect, hkept.trans hkept'⟩

/-- **Both copies of the FAT through every run.** On a volume with two equal FATs every
run of calls, failing ones included, leaves the copies equal byte for byte, the
reserved bits of every entry as they were, and entries 0 and 1 untouched; and the next
call returns as well. -/
theorem fatCopies_of_run (hcontained : g.Contained (g.image b)) (hnumFats : g.vol.numFats = 2)
    (hagree : g.CopiesAgree b) (hrun : FileRun g.vol (disk b) d) :
    g.CopiesAgree d.bytes ∧
      (∀ i < g.tableSize, g.vol.entry d.bytes i / 2 ^ 28 = g.vol.entry b i / 2 ^ 28) ∧
      (∀ i < g.tableSize, i < 2 → g.vol.entry d.bytes i = g.vol.entry b i) ∧
      ∀ call, (exec d g.vol call).isSome := by
  obtain ⟨b', rfl, hcontained', hkept⟩ := fileRun_kept hcontained hrun
  refine ⟨hkept.copies (by omega) hagree, hkept.reserved, hkept.first, fun call => ?_⟩
  obtain ⟨r, b'', hexec, -⟩ := exec_effect hcontained' call
  rw [hexec]
  rfl

theorem head?_root_cluster : [2].head? = some 2 := rfl

theorem nodup_root_cluster : [2].Nodup := by decide

/-- A volume of 512-byte clusters with two FATs of one sector. -/
def twoFats : Geometry where
  vol := ⟨512, 1, 2, 0, 2, 2, 1⟩
  root := [2]
  bytesPerSector_eq := rfl
  sectorsPerCluster_pos := by decide
  sectorsPerCluster_lt := by decide
  numFats_pos := by decide
  fats_le := by decide
  data_le := by decide
  table_le := by decide
  root_head := head?_root_cluster
  root_nodup := nodup_root_cluster
  root_mem := by decide

/-- The copies are still equal after a file was made on a fresh volume. -/
theorem fatCopies_of_touchA : ∃ r d,
    exec (disk (twoFats.vol.mirror twoFats.formatted 0)) twoFats.vol touchA = some (r, d) ∧
      twoFats.CopiesAgree d.bytes := by
  have hcontained : twoFats.Contained
      (twoFats.image (twoFats.vol.mirror twoFats.formatted 0)) := by
    rw [Volume.mirror, if_pos (by decide), image_mirror (by decide) (by decide)]
    exact formatted_contained rfl
  have hagree : twoFats.CopiesAgree (twoFats.vol.mirror twoFats.formatted 0) := by
    intro i hi
    have hi : i < 512 := hi
    rw [Volume.mirror, if_pos (by decide)]
    have hfirst : ∀ source : ByteMap, twoFats.formatted.blit
        ((twoFats.vol.fatLba + twoFats.vol.sectorsPerFat + 0) * 512) source 512
          (twoFats.vol.fatLba * 512 + i) = twoFats.formatted (twoFats.vol.fatLba * 512 + i) :=
      fun source => blit_apply_of_not_mem (.inl (by simp only [twoFats]; omega))
    rw [hfirst]
    exact blit_apply_of_mem hi
  obtain ⟨r, b', hexec, -⟩ := exec_effect hcontained touchA
  have hrun : FileRun twoFats.vol (disk (twoFats.vol.mirror twoFats.formatted 0)) (disk b') :=
    .single ⟨touchA, r, hexec⟩
  exact ⟨r, disk b', hexec, (fatCopies_of_run hcontained rfl hagree hrun).1⟩

end Geometry

end GeckoOS.Fs
