/-
# The content of a file

A well-formed file has a content, the bytes of its clusters up to its size.  One read
returns its part of it, and reads one behind the other return the content, however the
file is cut up.  The loops of `cat` and `readfile` are such reads, of 128 bytes each, as
long as the product that is their offset is an `int`.
-/

import GeckoOS.Fs.Ownership
import GeckoOS.Fs.Reading

namespace GeckoOS.Fs

open GeckoOS.Math ByteMap

/-! ## Reading in steps -/

/-- Reads one behind the other from an offset on, as long as none fails. -/
noncomputable def readCuts (v : Volume) (file : DriveFile) :
    Nat → List Nat → Drive → Option (Option (List UInt8) × Drive)
  | _, [], d => some (some [], d)
  | offset, len :: cuts, d =>
      match fileRead d v file offset len with
      | none => none
      | some (none, d) => some (none, d)
      | some (some bytes, d) =>
          (readCuts v file (offset + len) cuts d).map fun r => (r.1.map (bytes ++ ·), r.2)

/-- The offset of step `j`: the `int` product `j * 128` as a `size_t`. -/
def stepOffset (j : Nat) : Nat := (int32 (u32 (j * 128)) % 2 ^ 64).toNat

/-- What the loops of `cat` and `readfile` carry. -/
structure StepState where
  j : Nat
  /-- The bytes printed, or put into the buffer. -/
  bytes : List UInt8
  drive : Drive

/-- One round of the loops of `cat` and `readfile`, which end with a read that returns
nothing or fails. -/
noncomputable def stepRound (v : Volume) (file : DriveFile) (s : StepState) :
    Option (List UInt8 × Drive) ⊕ StepState :=
  match fileRead s.drive v file (stepOffset s.j) 128 with
  | none => .inl none
  | some (none, d) => .inl (some (s.bytes, d))
  | some (some bytes, d) =>
      if 0 < bytes.length then .inr ⟨s.j + 1, s.bytes ++ bytes, d⟩ else .inl (some (s.bytes, d))

/-- The loops of `cat` and `readfile`. -/
noncomputable def readSteps (d : Drive) (v : Volume) (file : DriveFile) :
    Option (List UInt8 × Drive) :=
  (loop (stepRound v file) ⟨0, [], d⟩).bind id

namespace Geometry

variable {g : Geometry} {b : ByteMap} {nodes : List Nat} {file : DriveFile}

/-- A file as it should be: its chain ends, meets no cluster twice and reaches its size. -/
structure WellFormed (g : Geometry) (b : ByteMap) (file : DriveFile) (nodes : List Nat) : Prop where
  chain : g.Chain (g.image b).fat nodes
  first : file.firstCluster = nodes.headD 0
  long : file.fileSize ≤ nodes.length * g.clusterBytes
  size_lt : file.fileSize < 2 ^ 32

/-- The bytes of its clusters up to its size. -/
def content (g : Geometry) (b : ByteMap) (file : DriveFile) (nodes : List Nat) : List UInt8 :=
  slice (g.chainBytes (g.clusterData b) nodes) 0 file.fileSize

theorem take_drop_slice {bytes : ByteMap} (size offset len : Nat) :
    ((slice bytes 0 size).drop offset).take len = slice bytes offset (min len (size - offset)) := by
  apply List.ext_getElem?
  intro i
  by_cases hi : i < min len (size - offset)
  · rw [List.getElem?_take_of_lt (by omega), List.getElem?_drop, getElem?_slice (by omega),
      getElem?_slice hi, Nat.zero_add]
  · rw [List.getElem?_eq_none, List.getElem?_eq_none]
    · rw [length_slice]
      omega
    · rw [List.length_take, List.length_drop, length_slice]
      omega

/-- A read returns its part of the content. -/
theorem WellFormed.fileRead (hfile : g.WellFormed b file nodes) (offset len : Nat)
    (hlen : len < 2 ^ 31) :
    Fs.fileRead (disk b) g.vol file offset len =
      some (some (((g.content b file nodes).drop offset).take len), disk b) := by
  have hempty : nodes = [] → file.fileSize = 0 := by
    rintro rfl
    have hlong := hfile.long
    rw [List.length_nil] at hlong
    omega
  have hserved : g.served nodes file.fileSize offset len = min len (file.fileSize - offset) := by
    rw [served, Nat.min_eq_left hfile.long]
  rw [fileRead_clusters hfile.chain hfile.first hempty hfile.size_lt hlen, content, take_drop_slice,
    hserved]

/-- Reads one behind the other return what one read of all of it would. -/
theorem WellFormed.readCuts (hfile : g.WellFormed b file nodes) (offset : Nat) (cuts : List Nat)
    (hcuts : ∀ len ∈ cuts, len < 2 ^ 31) :
    Fs.readCuts g.vol file offset cuts (disk b) =
      some (some (((g.content b file nodes).drop offset).take cuts.sum), disk b) := by
  induction cuts generalizing offset with
  | nil => rfl
  | cons len cuts ih =>
      have hrest := ih (offset + len) fun n hn => hcuts n (List.mem_cons_of_mem _ hn)
      rw [Fs.readCuts, hfile.fileRead offset len (hcuts len List.mem_cons_self)]
      dsimp only
      rw [hrest, Option.map_some, Option.map_some, List.sum_cons, List.take_add, List.drop_drop]

theorem length_content : (g.content b file nodes).length = file.fileSize := length_slice _

/-- `fat32_file_read` reads the content, in one piece or in any number of pieces. -/
theorem fileRead_content (hfile : g.WellFormed b file nodes) :
    (∀ offset len, len < 2 ^ 31 → fileRead (disk b) g.vol file offset len =
      some (some (((g.content b file nodes).drop offset).take len), disk b)) ∧
    ∀ cuts : List Nat, (∀ len ∈ cuts, len < 2 ^ 31) → file.fileSize ≤ cuts.sum →
      readCuts g.vol file 0 cuts (disk b) = some (some (g.content b file nodes), disk b) := by
  refine ⟨fun offset len hlen => hfile.fileRead offset len hlen, fun cuts hcuts hall => ?_⟩
  rw [hfile.readCuts 0 cuts hcuts, List.drop_zero, List.take_of_length_le]
  exact length_content.trans_le hall

/-! ## The steps of the commands -/

theorem stepOffset_eq {j : Nat} (hj : j * 128 < 2 ^ 31) : stepOffset j = j * 128 := by
  rw [stepOffset, u32_of_lt (by omega), int32_of_lt hj]
  omega

/-- The loop goes on from what is read so far. -/
theorem WellFormed.stepsFrom (hfile : g.WellFormed b file nodes)
    (hsize : file.fileSize + 128 ≤ 2 ^ 31) (j : Nat) (hj : j * 128 < file.fileSize + 128) :
    loop (stepRound g.vol file) ⟨j, (g.content b file nodes).take (j * 128), disk b⟩ =
      some (some (g.content b file nodes, disk b)) := by
  have hlength := @length_content g b nodes file
  induction hleft : file.fileSize - j * 128 using Nat.strongRecOn generalizing j with
  | ind left ih =>
      have hoffset : stepOffset j = j * 128 := stepOffset_eq (by omega)
      rw [loop_eq, stepRound]
      dsimp only
      rw [hoffset, hfile.fileRead (j * 128) 128 (by decide)]
      dsimp only
      by_cases hmore : j * 128 < file.fileSize
      · have hsome : 0 < (((g.content b file nodes).drop (j * 128)).take 128).length := by
          rw [List.length_take, List.length_drop]
          omega
        rw [if_pos hsome, ← List.take_add, ← Nat.succ_mul]
        exact ih (file.fileSize - (j + 1) * 128) (by omega) (j + 1) (by omega) rfl
      · have hnone : ¬0 < (((g.content b file nodes).drop (j * 128)).take 128).length := by
          rw [List.length_take, List.length_drop]
          omega
        rw [if_neg hnone, List.take_of_length_le (by omega)]

/-- `cat` and `readfile` get the content of a file that does not reach the end of the `int`
range. -/
theorem WellFormed.readSteps (hfile : g.WellFormed b file nodes)
    (hsize : file.fileSize + 128 ≤ 2 ^ 31) :
    Fs.readSteps (disk b) g.vol file = some (g.content b file nodes, disk b) := by
  have hloop := hfile.stepsFrom hsize 0 (by omega)
  rw [Nat.zero_mul, List.take_zero] at hloop
  rw [Fs.readSteps, hloop]
  rfl

/-! ## A file of two clusters -/

/-- A disk on which cluster 5 follows cluster 3. -/
def twoClusters : ByteMap :=
  store (store UInt8.ofNat (smallVolume.entryPos 3) 4 5) (smallVolume.entryPos 5) 4 clusterEoc

theorem twoClusters_wellFormed :
    smallVolume.WellFormed twoClusters ⟨[0x41], 700, 3⟩ [3, 5] := by
  have hfat : (smallVolume.image twoClusters).fat 3 = 5 ∧
      (smallVolume.image twoClusters).fat 5 = clusterEoc := by
    rw [twoClusters, image_store_entry (by decide), image_store_entry (by decide)]
    exact ⟨rfl, rfl⟩
  refine ⟨⟨.cons ?_, by decide⟩, rfl, by decide, by decide⟩
  have hnext : fatNext (smallVolume.image twoClusters).fat 3 = some 5 := by
    rw [fatNext, hfat.1]
    rfl
  have hend : fatNext (smallVolume.image twoClusters).fat 5 = none := by
    rw [fatNext, hfat.2]
    rfl
  rw [hnext]
  refine .cons ?_
  rw [hend]
  exact .nil

theorem fileRead_content_twoClusters :
    smallVolume.WellFormed twoClusters ⟨[0x41], 700, 3⟩ [3, 5] ∧
    fileRead (disk twoClusters) smallVolume.vol ⟨[0x41], 700, 3⟩ 500 100 =
      some (some (((smallVolume.content twoClusters ⟨[0x41], 700, 3⟩ [3, 5]).drop 500).take 100),
        disk twoClusters) ∧
    readCuts smallVolume.vol ⟨[0x41], 700, 3⟩ 0 [512, 100, 100] (disk twoClusters) =
      some (some (smallVolume.content twoClusters ⟨[0x41], 700, 3⟩ [3, 5]), disk twoClusters) :=
  ⟨twoClusters_wellFormed, (fileRead_content twoClusters_wellFormed).1 500 100 (by decide),
    (fileRead_content twoClusters_wellFormed).2 [512, 100, 100] (by decide) (by decide)⟩

end Geometry

end GeckoOS.Fs
