/-
# The files of a store under the names that are typed

The commands that read files do not use the driver's search.  They look through the listing for
a file that is shown under the typed name, letters of both cases being the same, and read it in
pieces of 128 bytes until a piece is empty or their buffer is full.

On a volume that holds a map this finds what the map says, provided that all names are 8.3
names: a file whose name is the encoded one and of whose typed name nothing is cut off.
-/

import GeckoOS.Fs.Store
import GeckoOS.Fs.ReadFile

namespace GeckoOS.Fs

open GeckoOS.Math ByteMap

/-! ## Reading into a buffer -/

/-- One round of the loops of `cmd_cp` and `cmd_mv`, which fill a buffer of `limit` bytes. -/
noncomputable def fillRound (v : Volume) (file : DriveFile) (limit : Nat) (s : StepState) :
    Option (List UInt8 × Drive) ⊕ StepState :=
  if s.bytes.length < limit then
    match fileRead s.drive v file (stepOffset s.j) 128 with
    | none => .inl none
    | some (none, d) => .inl (some (s.bytes, d))
    | some (some chunk, d) =>
        if 0 < chunk.length then
          .inr ⟨s.j + 1, s.bytes ++ chunk.take (limit - s.bytes.length), d⟩
        else .inl (some (s.bytes, d))
  else .inl (some (s.bytes, s.drive))

/-- The loops of `cmd_cp` and `cmd_mv`. -/
noncomputable def fillSteps (d : Drive) (v : Volume) (file : DriveFile) (limit : Nat) :
    Option (List UInt8 × Drive) :=
  (loop (fillRound v file limit) ⟨0, [], d⟩).bind id

namespace Store

/-- Names are 8.3 names in upper case, and every file can be read up to its end. -/
structure Proper (store : Store) : Prop where
  named : ∀ raw, store raw ≠ none → ∃ base ext, IsName raw base ext
  small : ∀ raw content, store raw = some (.file content) → content.length + 128 ≤ 2 ^ 31

/-- A typed name finds a file of this content. -/
def Finds (store : Store) (name content : List UInt8) : Prop :=
  Fits name ∧ store (encode83Name name) = some (.file content)

end Store

namespace Geometry

variable {g : Geometry} {b : ByteMap} {chains : Nat → List Nat} {store : Store} {i : Nat}
  {slot : Slot} {nodes : List Nat} {content name : List UInt8} {file : DriveFile}

/-! ## Looking a name up -/

theorem Holds.distinct (hholds : g.Holds (g.image b) chains store) (hproper : store.Proper) :
    Distinct (g.image b).dir := by
  have hlisting := listing_eq hholds.chained.clean
  refine ⟨fun s hs => ?_, ?_⟩
  · rw [hlisting] at hs
    obtain ⟨hmem, hlive⟩ := List.mem_filter.mp hs
    obtain ⟨i, hget⟩ := List.getElem?_of_mem hmem
    obtain ⟨item, hstore, -⟩ := hholds.item i s hget hlive
    exact hproper.named s.name (by rw [hstore]; exact Option.some_ne_none item)
  · rw [hlisting]
    exact nodup_names hholds.unique

/-- The loops over the listing see all of it. -/
theorem entriesSeen_rootEntries (hslots : g.slots.length < 2 ^ 31) :
    entriesSeen (rootEntries (g.image b).dir) = (listing (g.image b).dir).map Slot.rootEntry := by
  have hle : (listing (g.image b).dir).length ≤ g.slots.length := by
    have hdir : (g.image b).dir.length = g.slots.length := List.length_map _
    rw [← hdir, listing]
    exact (List.length_filter_le _ _).trans (List.takeWhile_sublist _).length_le
  rw [entriesSeen, rootEntries]
  dsimp only
  rw [List.length_map, Nat.sub_self, List.replicate_zero, List.append_nil, u32_of_lt (by omega),
    int32_of_lt (by omega), Int.toNat_natCast, List.take_of_length_le (List.length_map _).le]

/-- What the listing shows under a typed name is the file that the map has for it. -/
theorem Holds.foundFile_spec (hholds : g.Holds (g.image b) chains store)
    (hproper : store.Proper) (hslots : g.slots.length < 2 ^ 31) (hspace : space ∉ name)
    (hfound : foundFile name (entriesSeen (rootEntries (g.image b).dir)) = some file) :
    ∃ i slot content, g.FileIn (g.image b) i slot (chains i) content ∧ file = slot.driveFile ∧
      store.Finds name content := by
  rw [entriesSeen_rootEntries hslots] at hfound
  obtain ⟨k, hfind, hget⟩ := Option.bind_eq_some_iff.mp hfound
  obtain ⟨slot, hslot, hfile, -⟩ := findFile_some hfind
  have hcommand := (commandFinds_iff hholds.chained.root (hholds.distinct hproper) hspace).mp
    ⟨_, _, k, getRootEntries_disk hholds.chained.root, hfind, hslot⟩
  obtain ⟨hmem, -, hfits, hname⟩ := hcommand
  rw [listing_eq hholds.chained.clean] at hmem
  obtain ⟨hmem, hlive⟩ := List.mem_filter.mp hmem
  obtain ⟨i, hi⟩ := List.getElem?_of_mem hmem
  obtain ⟨item, hstore, hitem⟩ := hholds.item i slot hi hlive
  have hentry : slot.rootEntry = .file slot.driveFile := if_neg (not_not.mpr hfile)
  rw [List.getElem?_map, hslot, Option.map_some, hentry] at hget
  cases item with
  | directory => exact absurd hfile hitem
  | file content =>
      exact ⟨i, slot, content, hitem, (Option.some.inj hget).symm, hfits, hname ▸ hstore⟩

/-- A name under which nothing is shown finds nothing in the map. -/
theorem Holds.foundFile_none (hholds : g.Holds (g.image b) chains store)
    (hproper : store.Proper) (hslots : g.slots.length < 2 ^ 31) (hspace : space ∉ name)
    (hfound : foundFile name (entriesSeen (rootEntries (g.image b).dir)) = none) :
    ¬store.Finds name content := by
  rintro ⟨hfits, hstore⟩
  obtain ⟨i, slot, hget, hlive, hname⟩ := hholds.named (encode83Name name)
    (by rw [hstore]; exact Option.some_ne_none _)
  obtain ⟨item, hsame, hitem⟩ := hholds.item i slot hget hlive
  rw [hname, hstore] at hsame
  obtain rfl := Option.some.inj hsame
  have hfile : g.FileIn (g.image b) i slot (chains i) content := hitem
  have hmem : slot ∈ listing (g.image b).dir := by
    rw [listing_eq hholds.chained.clean]
    exact List.mem_filter.mpr ⟨List.mem_of_getElem? hget, hlive⟩
  obtain ⟨r, d, k, hlist, hfind, hslot⟩ :=
    (commandFinds_iff hholds.chained.root (hholds.distinct hproper) hspace).mpr
      ⟨hmem, (Slot.isFile_iff.mp hfile.isFile).2, hfits, hname.symm⟩
  rw [getRootEntries_disk hholds.chained.root] at hlist
  obtain ⟨rfl, -⟩ := Prod.mk.inj (Option.some.inj hlist)
  have hentry : slot.rootEntry = .file slot.driveFile :=
    if_neg (not_not.mpr (Slot.isFile_iff.mp hfile.isFile).2)
  rw [entriesSeen_rootEntries hslots, foundFile] at hfound
  have hfind' : findFile name ((listing (g.image b).dir).map Slot.rootEntry) = some k := hfind
  rw [hfind', Option.bind_some, List.getElem?_map, hslot, Option.map_some, hentry] at hfound
  cases hfound

/-! ## Reading what is found -/

theorem FileIn.wellFormed (hfile : g.FileIn (g.image b) i slot nodes content) :
    g.WellFormed b slot.driveFile nodes ∧ g.content b slot.driveFile nodes = content := by
  refine ⟨⟨hfile.owns.chain, hfile.owns.cluster, hfile.long, hfile.size_lt⟩, ?_⟩
  rw [← hfile.bytes]
  refine slice_congr fun k hk => ?_
  rw [Nat.zero_add]
  have hreach : k < nodes.length * g.clusterBytes := hk.trans_le hfile.long
  have hmem : nodes.getD (k / g.clusterBytes) 0 ∈ nodes := by
    rw [List.getD_eq_getElem _ _ ((Nat.div_lt_iff_lt_mul clusterBytes_pos).mpr hreach)]
    exact List.getElem_mem _
  rw [chainBytes, chainBytes, clusterData]
  exact (if_pos ⟨hfile.owns.chain.mem _ hmem, hfile.owns.not_root _ hmem,
    Nat.mod_lt _ clusterBytes_pos⟩).symm

/-- `cat` reads the whole file. -/
theorem FileIn.readSteps (hfile : g.FileIn (g.image b) i slot nodes content)
    (hsmall : content.length + 128 ≤ 2 ^ 31) :
    Fs.readSteps (disk b) g.vol slot.driveFile = some (content, disk b) := by
  obtain ⟨hwell, hcontent⟩ := hfile.wellFormed
  rw [hfile.length] at hsmall
  rw [hwell.readSteps hsmall, hcontent]

/-- The loop goes on from what the buffer holds so far. -/
theorem FileIn.fillFrom (hfile : g.FileIn (g.image b) i slot nodes content) {limit : Nat}
    (hlimit : limit + 128 ≤ 2 ^ 31) (j : Nat) (hj : j * 128 < limit + 128) :
    loop (fillRound g.vol slot.driveFile limit)
        ⟨j, content.take (min (j * 128) limit), disk b⟩ =
      some (some (content.take limit, disk b)) := by
  induction hleft : limit - j * 128 using Nat.strongRecOn generalizing j with
  | ind left ih =>
      have hoffset : stepOffset j = j * 128 := stepOffset_eq (by omega)
      rw [loop_eq, fillRound]
      dsimp only
      rw [hoffset, hfile.fileRead (j * 128) 128 (by decide)]
      dsimp only
      split_ifs with hroom hmore
      · rw [List.length_take] at hroom hmore
        rw [List.length_drop] at hmore
        have hbefore : (content.take (min (j * 128) limit)).length = j * 128 := by
          rw [List.length_take]
          omega
        rw [hbefore, Nat.min_eq_left (by omega), List.take_take, ← List.take_add,
          show j * 128 + min (limit - j * 128) 128 = min ((j + 1) * 128) limit by omega]
        exact ih (limit - (j + 1) * 128) (by omega) (j + 1) (by omega) rfl
      · rw [List.length_take, List.length_drop] at hmore
        rw [List.length_take] at hroom
        have hall : content.length ≤ min (j * 128) limit := by omega
        rw [List.take_of_length_le hall, List.take_of_length_le (hall.trans (Nat.min_le_right _ _))]
      · rw [List.length_take] at hroom
        by_cases hshort : content.length ≤ min (j * 128) limit
        · rw [List.take_of_length_le hshort,
            List.take_of_length_le (hshort.trans (Nat.min_le_right _ _))]
        · rw [show min (j * 128) limit = limit by omega]

/-- `cmd_cp` and `cmd_mv` read as much of the file as their buffer holds. -/
theorem FileIn.fillSteps (hfile : g.FileIn (g.image b) i slot nodes content) {limit : Nat}
    (hlimit : limit + 128 ≤ 2 ^ 31) :
    Fs.fillSteps (disk b) g.vol slot.driveFile limit = some (content.take limit, disk b) := by
  have hloop := hfile.fillFrom hlimit 0 (by omega)
  rw [Nat.zero_mul, Nat.zero_min, List.take_zero] at hloop
  rw [Fs.fillSteps, hloop]
  rfl

end Geometry

end GeckoOS.Fs
