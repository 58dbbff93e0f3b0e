/-
# Listing a directory while reads fail

`fat32_get_root_entries` walks over the root directory twice: it counts the entries to
size the buffer, then it fills the buffer.  A failed read ends a walk without a word, so
the two walks need not see the same entries.

Without a failure the result is the listing.  With failures the second walk stays inside
the buffer exactly when the first one has seen every entry that the second one lists, or
none at all and there is no second one.
-/

import GeckoOS.Fs.DirWalk
import GeckoOS.Fs.Directory
import Mathlib.Data.List.TakeWhile

namespace GeckoOS.Fs

open GeckoOS.Math ByteMap

/-- A drive of 512-byte sectors whose transfers fail as `faults` says. -/
def faulty (b : ByteMap) (faults : Nat → Bool) : Drive := ⟨512, b, faults⟩

/-! ## What a walk gets to read -/

/-- The slots of one sector. -/
def sectorSlots (b : ByteMap) (lba : Nat) : List Slot :=
  (List.range 16).map fun e => slotOf (Geometry.entryAt b (lba, e))

/-- One transfer has been made. -/
def later (faults : Nat → Bool) (transfers : Nat) : Nat → Bool := fun t => faults (transfers + t)

/-- One of the next transfers fails. -/
def failsWithin (faults : Nat → Bool) (transfers : Nat) : Bool := (List.range transfers).any faults

/-- The slots of the sectors from `lba` on that are read before a transfer fails. -/
def sectorsRead (b : ByteMap) : (Nat → Bool) → Nat → Nat → List Slot
  | _, _, 0 => []
  | faults, lba, m + 1 =>
      if faults 0 then []
      else sectorSlots b (u32 lba) ++ sectorsRead b (later faults 1) (lba + 1) m

/-- The slots a walk gets to read in the first `n` clusters from `cluster` on.  A failed
read ends it in a cluster, and so does one of the FAT behind the cluster. -/
def slotsRead (b : ByteMap) (v : Volume) : Nat → (Nat → Bool) → Nat → List Slot
  | 0, _, _ => []
  | n + 1, faults, cluster =>
      if IsLink cluster then
        sectorsRead b faults (clusterToLba v cluster) v.sectorsPerCluster ++
          if failsWithin faults (v.sectorsPerCluster + 1) then []
          else slotsRead b v n (later faults (v.sectorsPerCluster + 1))
            (nextCluster (disk b) v cluster).1
      else []

section Reading

variable {b : ByteMap} {v : Volume} {faults : Nat → Bool} {cluster lba m n : Nat}

theorem later_zero : later faults 0 = faults := by
  funext t
  rw [later, Nat.zero_add]

theorem later_later : later (later faults m) n = later faults (m + n) := by
  funext t
  rw [later, later, later, Nat.add_assoc]

theorem sectorSize_faulty : (faulty b faults).sectorSize = 512 := rfl

/-- A read uses up one transfer. -/
theorem read_faulty :
    (faulty b faults).read lba =
      (if faults 0 then none else some fun i => b (lba * 512 + i),
        faulty b (later faults 1)) := by
  have htick : (faulty b faults).tick = faulty b (later faults 1) :=
    congrArg (faulty b) (funext fun t => congrArg faults (Nat.add_comm t 1))
  rw [Drive.read, htick]
  rfl

/-- Without its read a link is the mark of a bad cluster. -/
theorem nextCluster_faulty :
    nextCluster (faulty b faults) v cluster =
      (if faults 0 then clusterBad else (nextCluster (disk b) v cluster).1,
        faulty b (later faults 1)) := by
  rw [nextCluster, nextCluster, read_faulty, read_disk]
  cases faults 0 <;> rfl

theorem failsWithin_succ :
    failsWithin faults (m + 1) = (faults 0 || failsWithin (later faults 1) m) := by
  rw [failsWithin, List.range_succ_eq_map, List.any_cons, List.any_map, failsWithin]
  congr 2
  funext t
  rw [Function.comp_apply, later, Nat.add_comm, Nat.succ_eq_add_one]

theorem failsWithin_succ' : failsWithin faults (m + 1) = (failsWithin faults m || faults m) := by
  simp [failsWithin, List.range_succ]

/-- Failures only make a walk over sectors see less. -/
theorem sectorsRead_le :
    sectorsRead b faults lba m <+: sectorsRead b (fun _ => false) lba m := by
  induction m generalizing faults lba with
  | zero => exact List.prefix_rfl
  | succ m ih =>
      rw [sectorsRead, sectorsRead, if_neg Bool.false_ne_true]
      split_ifs with hfault
      · exact List.nil_prefix
      · exact (List.prefix_append_right_inj _).mpr ih

/-- Without a failure the sectors are read whole. -/
theorem sectorsRead_eq (hok : failsWithin faults m = false) :
    sectorsRead b faults lba m = sectorsRead b (fun _ => false) lba m := by
  induction m generalizing faults lba with
  | zero => rfl
  | succ m ih =>
      rw [failsWithin_succ, Bool.or_eq_false_iff] at hok
      rw [sectorsRead, sectorsRead, hok.1, ih hok.2]
      rfl

/-- Failures only make a walk see less. -/
theorem slotsRead_le :
    slotsRead b v n faults cluster <+: slotsRead b v n (fun _ => false) cluster := by
  induction n generalizing faults cluster with
  | zero => exact List.nil_prefix
  | succ n ih =>
      have hnever : failsWithin (fun _ => false) (v.sectorsPerCluster + 1) = false := by
        simp [failsWithin]
      rw [slotsRead, slotsRead, hnever]
      by_cases hlink : IsLink cluster
      · rw [if_pos hlink, if_pos hlink]
        cases hfault : failsWithin faults (v.sectorsPerCluster + 1) with
        | true =>
            rw [if_pos rfl, List.append_nil]
            exact sectorsRead_le.trans (List.prefix_append _ _)
        | false =>
            have hcluster : failsWithin faults v.sectorsPerCluster = false := by
              rw [failsWithin_succ', Bool.or_eq_false_iff] at hfault
              exact hfault.1
            rw [sectorsRead_eq hcluster]
            exact (List.prefix_append_right_inj _).mpr ih
      · rw [if_neg hlink]
        exact List.nil_prefix

/-- More clusters only make a walk see more. -/
theorem slotsRead_mono (hnm : n ≤ m) :
    slotsRead b v n faults cluster <+: slotsRead b v m faults cluster := by
  induction n generalizing faults cluster m with
  | zero => exact List.nil_prefix
  | succ n ih =>
      obtain ⟨m, rfl⟩ := Nat.exists_eq_succ_of_ne_zero (Nat.ne_zero_of_lt hnm)
      rw [slotsRead, slotsRead]
      split_ifs with hlink hfault
      · exact List.prefix_rfl
      · exact (List.prefix_append_right_inj _).mpr (ih (Nat.le_of_succ_le_succ hnm))
      · exact List.prefix_rfl

end Reading

theorem listing_mono {dir more : List Slot} (hfront : dir <+: more) :
    listing dir <+: listing more := by
  obtain ⟨rest, rfl⟩ := hfront
  rw [listing, listing, List.takeWhile_append]
  split_ifs with hall
  · rw [List.filter_append, List.takeWhile_eq_self_iff.mpr]
    · exact List.prefix_append _ _
    · exact List.takeWhile_eq_self_iff.mp (List.takeWhile_prefix _ |>.eq_of_length hall)
  · exact List.prefix_rfl

/-! ## Two callbacks on one walk -/

section Map

variable {σ τ : Type} {cb : DirEntry → Nat → Nat → σ → Bool × σ}
  {cb' : DirEntry → Nat → Nat → τ → Bool × τ} {f : σ → τ}
  (hcb : ∀ e lba idx ctx, cb' e lba idx (f ctx) = ((cb e lba idx ctx).1, f (cb e lba idx ctx).2))

include hcb

theorem visitSector_map (buf : ByteMap) (lba : Nat) (indices : List Nat) (ctx : σ) :
    visitSector cb' buf lba indices (f ctx) =
      ((visitSector cb buf lba indices ctx).1, f (visitSector cb buf lba indices ctx).2) := by
  induction indices generalizing ctx with
  | nil => rfl
  | cons e rest ih =>
      rw [visitSector, visitSector, hcb]
      rcases cb (dirEntryAt buf e) lba e ctx with ⟨_ | _, ctx'⟩
      · exact ih ctx'
      · rfl

theorem visitCluster_map (lba : Nat) (sectors : List Nat) (ctx : σ) (d : Drive) :
    visitCluster cb' lba sectors (f ctx) d =
      ((visitCluster cb lba sectors ctx d).1, f (visitCluster cb lba sectors ctx d).2.1,
        (visitCluster cb lba sectors ctx d).2.2) := by
  induction sectors generalizing ctx d with
  | nil => rfl
  | cons s rest ih =>
      rw [visitCluster, visitCluster]
      rcases d.read (u32 (lba + s)) with ⟨_ | buf, d'⟩
      · rfl
      · dsimp only
        rw [visitSector_map hcb]
        rcases visitSector cb buf (u32 (lba + s)) (List.range (d'.sectorSize / 32)) ctx with
          ⟨_ | _, ctx'⟩
        · exact ih ctx' d'
        · rfl

theorem dirIterateRound_map (v : Volume) (s : Nat × σ × Drive) :
    dirIterateRound v cb' (s.1, f s.2.1, s.2.2) =
      (dirIterateRound v cb s).map (fun r => (f r.1, r.2)) fun s => (s.1, f s.2.1, s.2.2) := by
  obtain ⟨cluster, ctx, d⟩ := s
  rw [dirIterateRound, dirIterateRound]
  split_ifs with hlink
  · rw [visitCluster_map hcb]
    rcases visitCluster cb (clusterToLba v cluster) (List.range v.sectorsPerCluster) ctx d with
      ⟨_ | _, ctx', d'⟩ <;> rfl
  · rfl

end Map

/-! ## The slots a walk shows -/

/-- The callback that keeps every slot it is shown in front of the end mark. -/
def collectCb (e : DirEntry) (_lba _idx : Nat) (seen : List Slot) : Bool × List Slot :=
  if e 0 = entryEnd then (true, seen) else (false, seen ++ [slotOf e])

/-- The slots in front of the end mark. -/
def beforeEnd (slots : List Slot) : List Slot := slots.takeWhile (·.first ≠ entryEnd)

/-- The end mark is among the slots. -/
def hasEnd (slots : List Slot) : Bool := slots.any (·.first = entryEnd)

section Collect

variable {b : ByteMap} {v : Volume} {faults : Nat → Bool} {cluster lba m n : Nat}
  {slots rest seen : List Slot}

theorem beforeEnd_cons {s : Slot} :
    beforeEnd (s :: slots) = if s.first = entryEnd then [] else s :: beforeEnd slots := by
  rw [beforeEnd, List.takeWhile_cons]
  by_cases hend : s.first = entryEnd <;> simp [hend, beforeEnd]

theorem hasEnd_append : hasEnd (slots ++ rest) = (hasEnd slots || hasEnd rest) := List.any_append

theorem beforeEnd_of_hasEnd_eq_false (hnone : hasEnd slots = false) : beforeEnd slots = slots :=
  List.takeWhile_eq_self_iff.mpr fun s hs => by
    have hs' := List.any_eq_false.mp hnone s hs
    simpa using hs'

/-- Behind the end mark nothing counts. -/
theorem beforeEnd_append :
    beforeEnd (slots ++ rest) =
      if hasEnd slots then beforeEnd slots else slots ++ beforeEnd rest := by
  induction slots with
  | nil => rfl
  | cons s slots ih =>
      rw [List.cons_append, beforeEnd_cons, beforeEnd_cons, hasEnd, List.any_cons]
      by_cases hend : s.first = entryEnd
      · simp [hend]
      · rw [if_neg hend, if_neg hend, ih, hasEnd]
        split_ifs with hslots hall hall
        · rfl
        · simp [hslots] at hall
        · simp [hend, hslots] at hall
        · rfl

theorem visitSlots_collect (ps : List (Nat × Nat)) :
    Geometry.visitSlots collectCb b ps seen =
      (hasEnd (ps.map fun p => slotOf (Geometry.entryAt b p)),
        seen ++ beforeEnd (ps.map fun p => slotOf (Geometry.entryAt b p))) := by
  induction ps generalizing seen with
  | nil => simp [Geometry.visitSlots, hasEnd, beforeEnd]
  | cons p ps ih =>
      have hfirst : Geometry.entryAt b p 0 = (slotOf (Geometry.entryAt b p)).first := rfl
      rw [Geometry.visitSlots, collectCb, hfirst]
      by_cases hend : (slotOf (Geometry.entryAt b p)).first = entryEnd
      · simp [hend, hasEnd, beforeEnd]
      · simp [hend, ih, hasEnd, beforeEnd]

theorem visitSector_collect :
    visitSector collectCb (fun i => b (lba * 512 + i)) lba (List.range 16) seen =
      (hasEnd (sectorSlots b lba), seen ++ beforeEnd (sectorSlots b lba)) := by
  rw [Geometry.visitSector_disk, visitSlots_collect, List.map_map]
  rfl

/-- The sectors of a cluster show what is read of them; the drive goes on behind the
cluster when nothing stops the walk. -/
theorem visitCluster_collect (s : Nat) :
    ∃ d, visitCluster collectCb lba (List.range' s m) seen (faulty b faults) =
        (hasEnd (sectorsRead b faults (lba + s) m) || failsWithin faults m,
          seen ++ beforeEnd (sectorsRead b faults (lba + s) m), d) ∧
      (failsWithin faults m = false → hasEnd (sectorsRead b faults (lba + s) m) = false →
        d = faulty b (later faults m)) := by
  induction m generalizing s faults seen with
  | zero =>
      refine ⟨faulty b faults, by simp [visitCluster, sectorsRead, hasEnd, failsWithin, beforeEnd],
        fun _ _ => ?_⟩
      rw [later_zero]
  | succ m ih =>
      rw [List.range'_succ, visitCluster, read_faulty, sectorsRead, failsWithin_succ]
      cases hfault : faults 0 with
      | true =>
          refine ⟨faulty b (later faults 1), ?_, fun hok => ?_⟩
          · simp [hasEnd, beforeEnd]
          · simp at hok
      | false =>
          have hentries : (faulty b (later faults 1)).sectorSize / 32 = 16 :=
            congrArg (· / 32) sectorSize_faulty
          obtain ⟨d, hrest, hdrive⟩ := @ih (later faults 1)
            (seen ++ sectorSlots b (u32 (lba + s))) (s + 1)
          simp only [Bool.false_eq_true, if_false, hentries, visitSector_collect, Bool.false_or,
            hasEnd_append, beforeEnd_append]
          cases hend : hasEnd (sectorSlots b (u32 (lba + s))) with
          | true => exact ⟨_, rfl, fun _ hnone => by simp at hnone⟩
          | false =>
              have hall := beforeEnd_of_hasEnd_eq_false hend
              simp only [Bool.false_eq_true, if_false, Bool.false_or, hall]
              refine ⟨d, ?_, ?_⟩
              · rw [hrest, List.append_assoc]
                rfl
              · intro hok hnone
                rw [hdrive hok hnone, later_later, Nat.add_comm]

/-- What the walk has shown its callback so far. -/
def shown {σ : Type} (state : (σ × Drive) ⊕ (Nat × σ × Drive)) : σ :=
  state.elim (fun r => r.1) fun s => s.2.1

/-- A walk that is not at a cluster shows nothing more. -/
theorem rounds_of_not_isLink {d : Drive} (hstop : ¬IsLink cluster) :
    shown (rounds (dirIterateRound v collectCb) n (cluster, seen, d)) = seen := by
  cases n with
  | zero => rfl
  | succ n =>
      rw [rounds, dirIterateRound, if_neg hstop]
      rfl

/-- After `n` clusters the walk has shown the slots it got to read in front of the end
mark. -/
theorem rounds_collect :
    shown (rounds (dirIterateRound v collectCb) n (cluster, seen, faulty b faults)) =
      seen ++ beforeEnd (slotsRead b v n faults cluster) := by
  induction n generalizing cluster seen faults with
  | zero => exact (List.append_nil seen).symm
  | succ n ih =>
      rw [rounds, dirIterateRound, slotsRead]
      by_cases hlink : IsLink cluster
      · rw [if_pos hlink, if_pos hlink, List.range_eq_range', failsWithin_succ', beforeEnd_append]
        obtain ⟨d, hvisit, hdrive⟩ := @visitCluster_collect b faults (clusterToLba v cluster)
          v.sectorsPerCluster seen 0
        rw [hvisit, Nat.add_zero]
        rw [Nat.add_zero] at hdrive
        cases hend : hasEnd (sectorsRead b faults (clusterToLba v cluster) v.sectorsPerCluster) with
        | true => rfl
        | false =>
            have hall := beforeEnd_of_hasEnd_eq_false hend
            cases hfault : failsWithin faults v.sectorsPerCluster with
            | true =>
                -- a sector of the cluster is not read
                simp only [Bool.or_true, Bool.true_or, if_true, hall, Bool.false_eq_true, if_false]
                exact congrArg (seen ++ ·) (List.append_nil _).symm
            | false =>
                rw [hdrive hfault hend]
                have hnow : later faults v.sectorsPerCluster 0 = faults v.sectorsPerCluster :=
                  congrArg faults (Nat.add_zero _)
                simp only [Bool.or_false, Bool.false_or, Bool.false_eq_true, if_false, hall,
                  nextCluster_faulty, hnow]
                cases hlast : faults v.sectorsPerCluster with
                | true =>
                    -- the entry of the FAT is not read
                    simp only [if_true]
                    exact (rounds_of_not_isLink (by decide)).trans
                      (congrArg (seen ++ ·) (List.append_nil _).symm)
                | false =>
                    simp only [Bool.false_eq_true, if_false, later_later]
                    rw [ih, List.append_assoc]
      · rw [if_neg hlink, if_neg hlink]
        exact (List.append_nil seen).symm

end Collect

/-! ## The two passes -/

/-- `enum_count_cb` counts the listed slots. -/
theorem enumCountCb_collect (e : DirEntry) (lba idx : Nat) (seen : List Slot) :
    enumCountCb e lba idx (seen.filter (·.listed)).length =
      ((collectCb e lba idx seen).1, ((collectCb e lba idx seen).2.filter (·.listed)).length) := by
  rw [enumCountCb, collectCb, listingSkips_eq]
  by_cases hend : e 0 = entryEnd
  · rw [if_pos hend, if_pos hend]
  · rw [if_neg hend, if_neg hend]
    cases hlisted : (slotOf e).listed <;> simp [hlisted]

/-- `enum_fill_cb` stores the records of the listed slots. -/
theorem enumFillCb_collect (e : DirEntry) (lba idx : Nat) (seen : List Slot) :
    enumFillCb e lba idx ((seen.filter (·.listed)).map Slot.rootEntry) =
      ((collectCb e lba idx seen).1,
        ((collectCb e lba idx seen).2.filter (·.listed)).map Slot.rootEntry) := by
  have hentry : rootEntry e = (slotOf e).rootEntry := rfl
  rw [enumFillCb, collectCb, listingSkips_eq]
  by_cases hend : e 0 = entryEnd
  · rw [if_pos hend, if_pos hend]
  · rw [if_neg hend, if_neg hend]
    cases hlisted : (slotOf e).listed <;> simp [hlisted, hentry]

section Passes

variable {b : ByteMap} {v : Volume} {faults : Nat → Bool} {count n m : Nat} {d : Drive}

/-- The entries stored when the second pass has been over `n` clusters. -/
def stored (v : Volume) (d : Drive) (n : Nat) : List RootEntry :=
  shown (rounds (dirIterateRound v enumFillCb) n (v.rootCluster, [], d))

/-- The second pass stores what it gets to read of the listing. -/
theorem stored_eq :
    stored v (faulty b faults) n =
      (listing (slotsRead b v n faults v.rootCluster)).map Slot.rootEntry := by
  have hmap := rounds_map (dirIterateRound_map enumFillCb_collect v) n
    (v.rootCluster, [], faulty b faults)
  have hseen := @rounds_collect b v faults v.rootCluster n []
  rw [List.nil_append] at hseen
  rw [listing, ← beforeEnd, ← hseen, stored]
  refine (congrArg shown hmap).trans ?_
  cases rounds (dirIterateRound v collectCb) n (v.rootCluster, [], faulty b faults) <;> rfl

/-- The first pass counts what it gets to read of the listing. -/
theorem count_eq (hfirst : dirIterate (faulty b faults) v v.rootCluster enumCountCb 0 =
      some (count, d)) :
    ∃ n, ∀ m, n ≤ m → (listing (slotsRead b v m faults v.rootCluster)).length = count := by
  have hmap := loop_map (dirIterateRound_map enumCountCb_collect v)
    (v.rootCluster, [], faulty b faults)
  obtain ⟨⟨seen, d'⟩, hresult, hcount⟩ := Option.map_eq_some_iff.mp (hmap.symm.trans hfirst)
  obtain ⟨n, hrounds⟩ := exists_rounds_of_loop hresult
  refine ⟨n, fun m hm => ?_⟩
  have hseen := @rounds_collect b v faults v.rootCluster m []
  rw [hrounds m hm, List.nil_append] at hseen
  rw [listing, ← beforeEnd, ← hseen]
  exact congrArg Prod.fst hcount

theorem entries_eq {entries : List RootEntry}
    (hsecond : dirIterate (faulty b faults) v v.rootCluster enumFillCb [] = some (entries, d)) :
    ∃ n, ∀ m, n ≤ m →
      (listing (slotsRead b v m faults v.rootCluster)).map Slot.rootEntry = entries := by
  obtain ⟨n, hrounds⟩ := exists_rounds_of_loop hsecond
  refine ⟨n, fun m hm => ?_⟩
  rw [← stored_eq, stored, hrounds m hm]
  rfl

/-- A walk leaves the medium as it is and uses up transfers. -/
theorem visitCluster_faulty {σ : Type} (cb : DirEntry → Nat → Nat → σ → Bool × σ) (lba : Nat)
    (sectors : List Nat) (ctx : σ) :
    ∃ k, (visitCluster cb lba sectors ctx (faulty b faults)).2.2 = faulty b (later faults k) := by
  induction sectors generalizing ctx faults with
  | nil => exact ⟨0, by rw [later_zero]; rfl⟩
  | cons s rest ih =>
      rw [visitCluster, read_faulty]
      cases faults 0 with
      | true => exact ⟨1, rfl⟩
      | false =>
          simp only [Bool.false_eq_true, if_false]
          rcases visitSector cb _ (u32 (lba + s)) _ ctx with ⟨_ | _, ctx'⟩
          · obtain ⟨k, hk⟩ := @ih (later faults 1) ctx'
            exact ⟨1 + k, by rw [hk, later_later]⟩
          · exact ⟨1, rfl⟩

theorem dirIterate_faulty {σ : Type} {cb : DirEntry → Nat → Nat → σ → Bool × σ} {start : Nat}
    {ctx ctx' : σ} (hresult : dirIterate (faulty b faults) v start cb ctx = some (ctx', d)) :
    ∃ k, d = faulty b (later faults k) := by
  refine loop_induct (motive := fun s r => ∀ faults, s.2.2 = faulty b faults →
    ∃ k, r.2 = faulty b (later faults k)) ?_ ?_ hresult faults rfl
  · rintro ⟨cluster, ctx, d⟩ ⟨ctx', d'⟩ hleave faults rfl
    rw [dirIterateRound] at hleave
    split_ifs at hleave with hlink
    · obtain ⟨k, hk⟩ := @visitCluster_faulty b faults σ cb (clusterToLba v cluster)
        (List.range v.sectorsPerCluster) ctx
      rcases hvisit : visitCluster cb (clusterToLba v cluster) (List.range v.sectorsPerCluster) ctx
        (faulty b faults) with ⟨_ | _, ctx'', d''⟩
      · rw [hvisit] at hleave
        cases hleave
      · rw [hvisit] at hleave hk
        cases hleave
        exact ⟨k, hk⟩
    · cases hleave
      exact ⟨0, by rw [later_zero]⟩
  · rintro ⟨cluster, ctx, d⟩ ⟨next, ctx', d'⟩ ⟨ctx'', d''⟩ hround hrest faults rfl
    rw [dirIterateRound] at hround
    split_ifs at hround with hlink
    obtain ⟨k, hk⟩ := @visitCluster_faulty b faults σ cb (clusterToLba v cluster)
      (List.range v.sectorsPerCluster) ctx
    rcases hvisit : visitCluster cb (clusterToLba v cluster) (List.range v.sectorsPerCluster) ctx
      (faulty b faults) with ⟨_ | _, ctx₁, d₁⟩
    · rw [hvisit] at hround hk
      obtain rfl : d₁ = faulty b (later faults k) := hk
      simp only [nextCluster_faulty, later_later] at hround
      cases hround
      obtain ⟨k', hk'⟩ := hrest _ rfl
      exact ⟨_, hk'.trans (by rw [later_later])⟩
    · rw [hvisit] at hround
      cases hround

/-- As far as listed entries go, the second pass reads nothing that the first has not
read, or there is no second pass. -/
def SeesNoMore (b : ByteMap) (v : Volume) (first second : Nat → Bool) : Prop :=
  (∀ n, listing (slotsRead b v n first v.rootCluster) = []) ∨
    ∀ n, ∃ m, listing (slotsRead b v n second v.rootCluster) <+:
      listing (slotsRead b v m first v.rootCluster)

/-- What the listing of a directory has to do. -/
structure ListsSafely (b : ByteMap) (v : Volume) (faults : Nat → Bool) : Prop where
  /-- However long the second pass takes, it stores no entry behind those counted. -/
  within : ∀ count d, dirIterate (faulty b faults) v v.rootCluster enumCountCb 0 = some (count, d) →
    0 < count → ∀ n, (stored v d n).length ≤ count
  /-- When no read fails, it returns the listing of a directory that ends. -/
  lists : (∀ t, faults t = false) → Ends b v v.rootCluster →
    ∃ n, (∀ m, n ≤ m → listing (slotsRead b v m (fun _ => false) v.rootCluster) =
        listing (slotsRead b v n (fun _ => false) v.rootCluster)) ∧
      getRootEntries (faulty b faults) v =
        some (Geometry.rootEntries (slotsRead b v n (fun _ => false) v.rootCluster), disk b)

theorem seesNoMore_iff {second : Nat → Bool}
    (hfirst : dirIterate (faulty b faults) v v.rootCluster enumCountCb 0 =
      some (count, faulty b second)) :
    (0 < count → ∀ n, (stored v (faulty b second) n).length ≤ count) ↔
      SeesNoMore b v faults second := by
  obtain ⟨N, hcount⟩ := count_eq hfirst
  have hbelow : ∀ n, (listing (slotsRead b v n faults v.rootCluster)).length ≤ count := fun n => by
    rw [← hcount (max n N) (Nat.le_max_right _ _)]
    exact (listing_mono (slotsRead_mono (Nat.le_max_left _ _))).length_le
  simp only [stored_eq, List.length_map]
  constructor
  · intro hwithin
    rcases Nat.eq_zero_or_pos count with hzero | hpos
    · refine .inl fun n => List.eq_nil_of_length_eq_zero ?_
      have hlength := hbelow n
      omega
    · refine .inr fun n => ⟨max n N, ?_⟩
      -- both are prefixes of what is listed in these clusters, and the second is no longer
      apply List.prefix_of_prefix_length_le
        ((listing_mono (slotsRead_mono (Nat.le_max_left n N))).trans
          (listing_mono slotsRead_le)) (listing_mono slotsRead_le)
      rw [hcount (max n N) (Nat.le_max_right _ _)]
      exact hwithin hpos n
  · rintro (hnone | hfront) hpos n
    · have hlength := hcount N (Nat.le_refl _)
      rw [hnone N] at hlength
      exact absurd hlength (Nat.ne_of_lt hpos)
    · obtain ⟨m, hm⟩ := hfront n
      exact hm.length_le.trans (hbelow m)

/-- When no read fails the listing is that of the directory. -/
theorem getRootEntries_ends (hends : Ends b v v.rootCluster) :
    ∃ n, (∀ m, n ≤ m → listing (slotsRead b v m (fun _ => false) v.rootCluster) =
        listing (slotsRead b v n (fun _ => false) v.rootCluster)) ∧
      getRootEntries (disk b) v =
        some (Geometry.rootEntries (slotsRead b v n (fun _ => false) v.rootCluster), disk b) := by
  obtain ⟨⟨r, d⟩, hresult⟩ := Option.isSome_iff_exists.mp (getRootEntries_isSome_iff.mpr hends)
  rw [getRootEntries] at hresult
  obtain ⟨⟨count, d₁⟩, hfirst, hsecond⟩ := Option.bind_eq_some_iff.mp hresult
  obtain rfl := dirIterate_drive hfirst
  obtain ⟨N, hcount⟩ := @count_eq b v (fun _ => false) count (disk b) hfirst
  have hstable : ∀ m, N ≤ m → listing (slotsRead b v m (fun _ => false) v.rootCluster) =
      listing (slotsRead b v N (fun _ => false) v.rootCluster) := fun m hm =>
    ((listing_mono (slotsRead_mono hm)).eq_of_length
      ((hcount N (Nat.le_refl _)).trans (hcount m hm).symm)).symm
  refine ⟨N, hstable, ?_⟩
  rw [getRootEntries, hfirst, Option.bind_some]
  rw [hfirst, Option.bind_some] at hresult
  by_cases hzero : count = 0
  · have hnone := List.eq_nil_of_length_eq_zero ((hcount N (Nat.le_refl _)).trans hzero)
    simp only [if_pos hzero, Geometry.rootEntries, hnone]
    rfl
  · simp only [if_neg hzero] at hresult ⊢
    obtain ⟨⟨entries, d₂⟩, hsecond, -⟩ := Option.bind_eq_some_iff.mp hresult
    obtain rfl := dirIterate_drive hsecond
    obtain ⟨M, hentries⟩ := @entries_eq b v (fun _ => false) (disk b) entries hsecond
    have hlist := hentries (max N M) (Nat.le_max_right _ _)
    rw [hstable _ (Nat.le_max_left _ _)] at hlist
    rw [hsecond, Option.bind_some, Geometry.rootEntries, hcount N (Nat.le_refl _), hlist]

/-- `fat32_get_root_entries` stays inside its buffer exactly when the second pass lists
nothing that the first has not seen, and it lists a directory when no read fails. -/
theorem getRootEntries_listsSafely_iff (b : ByteMap) (v : Volume) (faults : Nat → Bool) :
    ListsSafely b v faults ↔
      ∀ count d, dirIterate (faulty b faults) v v.rootCluster enumCountCb 0 = some (count, d) →
        SeesNoMore b v faults d.faults := by
  constructor
  · intro hsafe count d hfirst
    obtain ⟨k, rfl⟩ := dirIterate_faulty hfirst
    exact (seesNoMore_iff hfirst).mp (hsafe.within count _ hfirst)
  · intro hsees
    refine ⟨fun count d hfirst => ?_, fun hnever hends => ?_⟩
    · obtain ⟨k, rfl⟩ := dirIterate_faulty hfirst
      exact (seesNoMore_iff hfirst).mpr (hsees count _ hfirst)
    · have hdisk : faulty b faults = disk b := congrArg (faulty b) (funext hnever)
      rw [hdisk]
      exact getRootEntries_ends hends

end Passes

/-- A root directory of two sectors, full of files. -/
def fullDirectory : ByteMap := fun i => if i < 512 then 0xFF else 0x41

/-- A failed read of the second sector in the first pass only. -/
def secondReadFails (t : Nat) : Bool := t = 1

/-- The first pass counts 16 entries and the second one stores 32. -/
theorem fullDirectory_overruns :
    ¬ ListsSafely fullDirectory ⟨512, 2, 1, 0, 1, 2, 1⟩ secondReadFails := by
  intro hsafe
  have hfirst : dirIterate (faulty fullDirectory secondReadFails) ⟨512, 2, 1, 0, 1, 2, 1⟩ 2
      enumCountCb 0 = some (16, faulty fullDirectory fun t => secondReadFails (t + 1 + 1)) :=
    loop_eq_some_iff.mpr ⟨1, rfl⟩
  have hbound := hsafe.within 16 _ hfirst (by decide) 1
  rw [stored_eq, List.length_map] at hbound
  exact absurd hbound (by decide +kernel)

end GeckoOS.Fs
