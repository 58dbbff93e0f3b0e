/-
# When a directory walk returns

`fat32_dir_iterate` follows the links it reads from the disk.  Nothing bounds the
number of clusters and nothing remembers the ones it has seen, so on a chain that
comes back to one of its clusters the walk returns only when the callback stops
it.  The callbacks of the driver stop at the mark that ends a directory, and
those that list the directory stop nowhere else.
-/

import GeckoOS.Fs.Table

namespace GeckoOS.Fs

open GeckoOS.Math ByteMap

/-- The link stored for a cluster, read where `fat32_next_cluster` reads it. -/
def nextLink (b : ByteMap) (v : Volume) (cluster : Nat) : Option Nat :=
  linkTo (nextCluster (disk b) v cluster).1

/-- One of the entries of the cluster is the mark that ends a directory. -/
def HoldsEnd (b : ByteMap) (v : Volume) (cluster : Nat) : Prop :=
  ∃ s < v.sectorsPerCluster, ∃ e < 16,
    b (u32 (clusterToLba v cluster + s) * 512 + 32 * e) = entryEnd

variable {σ : Type} {cb : DirEntry → Nat → Nat → σ → Bool × σ} {b : ByteMap} {v : Volume}
  {ctx : σ} {start cluster : Nat}

theorem visitCluster_drive (cb : DirEntry → Nat → Nat → σ → Bool × σ) (b : ByteMap) (ctx : σ)
    (lba : Nat) (sectors : List Nat) :
    (visitCluster cb lba sectors ctx (disk b)).2.2 = disk b := by
  induction sectors generalizing ctx with
  | nil => rfl
  | cons s rest ih =>
      simp only [visitCluster, read_disk]
      split
      · rfl
      · exact ih _

/-- A callback on the entries of some clusters, until it stops. -/
def visitClusters (cb : DirEntry → Nat → Nat → σ → Bool × σ) (b : ByteMap) (v : Volume) :
    List Nat → σ → Bool × σ
  | [], ctx => (false, ctx)
  | cluster :: rest, ctx =>
      match visitCluster cb (clusterToLba v cluster) (List.range v.sectorsPerCluster) ctx
          (disk b) with
      | (true, ctx, _) => (true, ctx)
      | (false, ctx, _) => visitClusters cb b v rest ctx

/-- A number of rounds is enough when the chain or the callback ends the walk within
that number of clusters. -/
theorem loopFor_dirIterateRound_isSome (n : Nat) :
    (loopFor (dirIterateRound v cb) n (cluster, ctx, disk b)).isSome ↔
      (walk (nextLink b v) (linkTo cluster) n).length < n ∨
        (visitClusters cb b v (walk (nextLink b v) (linkTo cluster) n) ctx).1 = true := by
  induction n generalizing cluster ctx with
  | zero => simp [loopFor, visitClusters]
  | succ n ih =>
      by_cases hlink : IsLink cluster
      · have hdrive := visitCluster_drive cb b ctx (clusterToLba v cluster)
          (List.range v.sectorsPerCluster)
        rw [linkTo, if_pos hlink, walk, visitClusters, loopFor, dirIterateRound, if_pos hlink]
        cases hvisit : visitCluster cb (clusterToLba v cluster) (List.range v.sectorsPerCluster)
            ctx (disk b) with
        | mk stop rest =>
            rw [hvisit] at hdrive
            obtain ⟨ctx', d⟩ := rest
            subst hdrive
            cases stop with
            | true => simp
            | false =>
                have hlater := @ih ctx' (nextCluster (disk b) v cluster).1
                rw [List.length_cons, Nat.add_lt_add_iff_right]
                exact hlater
      · rw [linkTo, if_neg hlink, loopFor, dirIterateRound, if_neg hlink]
        simp

theorem dirIterate_isSome_iff_exists :
    (dirIterate (disk b) v start cb ctx).isSome ↔
      ∃ n, (loopFor (dirIterateRound v cb) n (start, ctx, disk b)).isSome := by
  rw [Option.isSome_iff_exists]
  constructor
  · rintro ⟨a, hresult⟩
    obtain ⟨n, hrun⟩ := loop_eq_some_iff.mp hresult
    exact ⟨n, by rw [hrun]; rfl⟩
  · rintro ⟨n, hsome⟩
    obtain ⟨a, hrun⟩ := Option.isSome_iff_exists.mp hsome
    exact ⟨a, loop_eq_some_iff.mpr ⟨n, hrun⟩⟩

/-- The walk returns exactly when the chain ends or the callback stops it. -/
theorem dirIterate_isSome_iff :
    (dirIterate (disk b) v start cb ctx).isSome ↔
      (∃ nodes, Path (nextLink b v) (linkTo start) nodes) ∨
        ∃ n, (visitClusters cb b v (walk (nextLink b v) (linkTo start) n) ctx).1 = true := by
  rw [dirIterate_isSome_iff_exists, ← exists_walk_short_iff, ← exists_or]
  exact exists_congr loopFor_dirIterateRound_isSome

/-- The walk leaves the drive as it is. -/
theorem dirIterate_drive {d : Drive} {ctx' : σ}
    (hresult : dirIterate (disk b) v start cb ctx = some (ctx', d)) : d = disk b := by
  suffices hall : ∀ s a, loop (dirIterateRound v cb) s = some a → s.2.2 = disk b →
      a.2 = disk b from hall _ _ hresult rfl
  intro s a hloop
  refine loop_induct (motive := fun s a => s.2.2 = disk b → a.2 = disk b) ?_ ?_ hloop
  · rintro ⟨cluster, ctx, d⟩ a hleave rfl
    have hvisit := visitCluster_drive cb b ctx (clusterToLba v cluster)
      (List.range v.sectorsPerCluster)
    rw [dirIterateRound] at hleave
    split at hleave
    · split at hleave
      · rename_i heq
        rw [heq] at hvisit
        cases hleave
        exact hvisit
      · cases hleave
    · cases hleave
      rfl
  · rintro ⟨cluster, ctx, d⟩ t a hround hlater rfl
    have hvisit := visitCluster_drive cb b ctx (clusterToLba v cluster)
      (List.range v.sectorsPerCluster)
    refine hlater ?_
    rw [dirIterateRound] at hround
    split at hround
    · split at hround
      · cases hround
      · rename_i ctx' d' heq
        rw [heq] at hvisit
        have hsame : d' = disk b := hvisit
        subst hsame
        cases hround
        rfl
    · cases hround

/-! ## Callbacks that stop at the end mark -/

/-- In contexts with the property the callback stops at the mark that ends a
directory, and it keeps the property. -/
structure StopsAtEnd (cb : DirEntry → Nat → Nat → σ → Bool × σ) (keeps : σ → Prop) : Prop where
  stops : ∀ e lba idx ctx, keeps ctx → e 0 = entryEnd → (cb e lba idx ctx).1 = true
  keeps_cb : ∀ e lba idx ctx, keeps ctx → keeps (cb e lba idx ctx).2

section StopsAtEnd

variable {keeps : σ → Prop} (hcb : StopsAtEnd cb keeps)

include hcb

theorem StopsAtEnd.visitSector_end (buf : ByteMap) (lba : Nat) (indices : List Nat)
    (hctx : keeps ctx) :
    keeps (visitSector cb buf lba indices ctx).2 ∧
      ((∃ e ∈ indices, buf (32 * e) = entryEnd) →
        (visitSector cb buf lba indices ctx).1 = true) := by
  induction indices generalizing ctx with
  | nil => exact ⟨hctx, by simp⟩
  | cons e rest ih =>
      have hkept := hcb.keeps_cb (dirEntryAt buf e) lba e ctx hctx
      have hstops := hcb.stops (dirEntryAt buf e) lba e ctx hctx
      rw [visitSector]
      cases hvisit : cb (dirEntryAt buf e) lba e ctx with
      | mk stop ctx' =>
          rw [hvisit] at hkept hstops
          cases stop with
          | true => exact ⟨hkept, fun _ => rfl⟩
          | false =>
              refine ⟨(ih hkept).1, ?_⟩
              rintro ⟨e', hmem, hend⟩
              rcases List.mem_cons.mp hmem with rfl | hlater
              · exact absurd (hstops hend) Bool.false_ne_true
              · exact (ih hkept).2 ⟨e', hlater, hend⟩

theorem StopsAtEnd.visitCluster_end (lba : Nat) (sectors : List Nat) (hctx : keeps ctx) :
    keeps (visitCluster cb lba sectors ctx (disk b)).2.1 ∧
      ((∃ s ∈ sectors, ∃ e < 16, b (u32 (lba + s) * 512 + 32 * e) = entryEnd) →
        (visitCluster cb lba sectors ctx (disk b)).1 = true) := by
  induction sectors generalizing ctx with
  | nil => exact ⟨hctx, by simp⟩
  | cons s rest ih =>
      simp only [visitCluster, read_disk, disk_sectorSize]
      obtain ⟨hkept, hstops⟩ := hcb.visitSector_end (fun i => b (u32 (lba + s) * 512 + i))
        (u32 (lba + s)) (List.range (512 / 32)) hctx
      cases hvisit : visitSector cb (fun i => b (u32 (lba + s) * 512 + i)) (u32 (lba + s))
          (List.range (512 / 32)) ctx with
      | mk stop ctx' =>
          rw [hvisit] at hkept hstops
          cases stop with
          | true => exact ⟨hkept, fun _ => rfl⟩
          | false =>
              refine ⟨(ih hkept).1, ?_⟩
              rintro ⟨s', hmem, e, he, hend⟩
              rcases List.mem_cons.mp hmem with rfl | hlater
              · exact absurd (hstops ⟨e, List.mem_range.mpr he, hend⟩) Bool.false_ne_true
              · exact (ih hkept).2 ⟨s', hlater, e, he, hend⟩

theorem StopsAtEnd.visitClusters_end {clusters : List Nat} (hctx : keeps ctx)
    (hend : ∃ cluster ∈ clusters, HoldsEnd b v cluster) :
    (visitClusters cb b v clusters ctx).1 = true := by
  induction clusters generalizing ctx with
  | nil => simp at hend
  | cons first rest ih =>
      obtain ⟨hkept, hstops⟩ := hcb.visitCluster_end (b := b) (clusterToLba v first)
        (List.range v.sectorsPerCluster) hctx
      rw [visitClusters]
      cases hvisit : visitCluster cb (clusterToLba v first) (List.range v.sectorsPerCluster)
          ctx (disk b) with
      | mk stop state =>
          obtain ⟨ctx', d⟩ := state
          rw [hvisit] at hkept hstops
          cases stop with
          | true => rfl
          | false =>
              refine ih hkept ?_
              obtain ⟨cluster, hmem, hholds⟩ := hend
              rcases List.mem_cons.mp hmem with rfl | hlater
              · obtain ⟨s, hs, e, he, hbyte⟩ := hholds
                exact absurd (hstops ⟨s, List.mem_range.mpr hs, e, he, hbyte⟩) Bool.false_ne_true
              · exact ⟨cluster, hlater, hholds⟩

/-- A walk with such a callback returns when the chain ends or reaches an end mark. -/
theorem StopsAtEnd.dirIterate_end (hctx : keeps ctx)
    (hend : (∃ nodes, Path (nextLink b v) (linkTo start) nodes) ∨
      ∃ cluster, Reach (nextLink b v) (linkTo start) cluster ∧ HoldsEnd b v cluster) :
    (dirIterate (disk b) v start cb ctx).isSome := by
  rw [dirIterate_isSome_iff]
  rcases hend with hpath | ⟨cluster, hreach, hholds⟩
  · exact .inl hpath
  · obtain ⟨n, hmem⟩ := Reach.iff_mem_walk.mp hreach
    exact .inr ⟨n, hcb.visitClusters_end hctx ⟨cluster, hmem, hholds⟩⟩

end StopsAtEnd

theorem enumCountCb_stopsAtEnd : StopsAtEnd enumCountCb fun _ => True where
  stops := fun e lba idx ctx _ hend => by rw [enumCountCb, if_pos hend]
  keeps_cb := fun _ _ _ _ _ => trivial

theorem enumFillCb_stopsAtEnd : StopsAtEnd enumFillCb fun _ => True where
  stops := fun e lba idx ctx _ hend => by rw [enumFillCb, if_pos hend]
  keeps_cb := fun _ _ _ _ _ => trivial

/-- Every search of the driver is for a free slot or for a name. -/
theorem dirSearchCb_stopsAtEnd :
    StopsAtEnd dirSearchCb fun ctx => ctx.findFree = true ∨ ctx.findMatch = true where
  stops := fun e lba idx ctx hctx hend => by
    rw [dirSearchCb]
    by_cases hfree : ctx.findFree = true
    · rw [if_pos hfree, if_pos (.inr hend)]
    · rw [if_neg hfree, if_pos (hctx.resolve_left hfree), if_pos hend]
  keeps_cb := fun e lba idx ctx hctx => by
    rw [dirSearchCb]
    split_ifs <;> exact hctx

/-! ## The listing stops nowhere else -/

/-- The callback stops at the mark that ends a directory only. -/
def OnlyAtEnd (cb : DirEntry → Nat → Nat → σ → Bool × σ) : Prop :=
  ∀ e lba idx ctx, (cb e lba idx ctx).1 = true → e 0 = entryEnd

section OnlyAtEnd

variable (hcb : OnlyAtEnd cb)

include hcb

theorem OnlyAtEnd.visitSector_holds {buf : ByteMap} {lba : Nat} {indices : List Nat}
    (hstop : (visitSector cb buf lba indices ctx).1 = true) :
    ∃ e ∈ indices, buf (32 * e) = entryEnd := by
  induction indices generalizing ctx with
  | nil => cases hstop
  | cons e rest ih =>
      have honly := hcb (dirEntryAt buf e) lba e ctx
      rw [visitSector] at hstop
      cases hvisit : cb (dirEntryAt buf e) lba e ctx with
      | mk stop ctx' =>
          rw [hvisit] at honly hstop
          cases stop with
          | true => exact ⟨e, List.mem_cons_self, honly rfl⟩
          | false =>
              obtain ⟨e', hmem, hend⟩ := ih hstop
              exact ⟨e', List.mem_cons_of_mem _ hmem, hend⟩

theorem OnlyAtEnd.visitCluster_holds {lba : Nat} {sectors : List Nat}
    (hstop : (visitCluster cb lba sectors ctx (disk b)).1 = true) :
    ∃ s ∈ sectors, ∃ e < 16, b (u32 (lba + s) * 512 + 32 * e) = entryEnd := by
  induction sectors generalizing ctx with
  | nil => cases hstop
  | cons s rest ih =>
      simp only [visitCluster, read_disk, disk_sectorSize] at hstop
      cases hvisit : visitSector cb (fun i => b (u32 (lba + s) * 512 + i)) (u32 (lba + s))
          (List.range (512 / 32)) ctx with
      | mk stop ctx' =>
          cases stop with
          | true =>
              obtain ⟨e, he, hend⟩ := hcb.visitSector_holds (by rw [hvisit])
              exact ⟨s, List.mem_cons_self, e, List.mem_range.mp he, hend⟩
          | false =>
              rw [hvisit] at hstop
              obtain ⟨s', hmem, hend⟩ := ih hstop
              exact ⟨s', List.mem_cons_of_mem _ hmem, hend⟩

theorem OnlyAtEnd.visitClusters_holds {clusters : List Nat}
    (hstop : (visitClusters cb b v clusters ctx).1 = true) :
    ∃ cluster ∈ clusters, HoldsEnd b v cluster := by
  induction clusters generalizing ctx with
  | nil => cases hstop
  | cons first rest ih =>
      rw [visitClusters] at hstop
      cases hvisit : visitCluster cb (clusterToLba v first) (List.range v.sectorsPerCluster)
          ctx (disk b) with
      | mk stop state =>
          cases stop with
          | true =>
              obtain ⟨s, hs, hend⟩ := hcb.visitCluster_holds (by rw [hvisit])
              exact ⟨first, List.mem_cons_self, s, List.mem_range.mp hs, hend⟩
          | false =>
              rw [hvisit] at hstop
              obtain ⟨cluster, hmem, hholds⟩ := ih hstop
              exact ⟨cluster, List.mem_cons_of_mem _ hmem, hholds⟩

end OnlyAtEnd

theorem enumCountCb_onlyAtEnd : OnlyAtEnd enumCountCb := by
  intro e lba idx ctx hstop
  by_contra hmore
  rw [enumCountCb, if_neg hmore] at hstop
  split at hstop <;> cases hstop

/-- The chain of a directory that is listed ends, or reaches a cluster that holds the
end mark. -/
def Ends (b : ByteMap) (v : Volume) (start : Nat) : Prop :=
  (∃ nodes, Path (nextLink b v) (linkTo start) nodes) ∨
    ∃ cluster, Reach (nextLink b v) (linkTo start) cluster ∧ HoldsEnd b v cluster

theorem enumCount_isSome_iff {count : Nat} :
    (dirIterate (disk b) v start enumCountCb count).isSome ↔ Ends b v start := by
  constructor
  · intro hreturns
    rcases dirIterate_isSome_iff.mp hreturns with hpath | ⟨n, hstop⟩
    · exact .inl hpath
    · obtain ⟨cluster, hmem, hholds⟩ := enumCountCb_onlyAtEnd.visitClusters_holds hstop
      exact .inr ⟨cluster, Reach.iff_mem_walk.mpr ⟨n, hmem⟩, hholds⟩
  · exact enumCountCb_stopsAtEnd.dirIterate_end trivial

/-- The listing of the root directory returns when its first pass does. -/
theorem getRootEntries_isSome_iff :
    (getRootEntries (disk b) v).isSome ↔ Ends b v v.rootCluster := by
  rw [getRootEntries]
  constructor
  · intro hreturns
    obtain ⟨_, hsome⟩ := Option.isSome_iff_exists.mp hreturns
    obtain ⟨_, hcount, -⟩ := Option.bind_eq_some_iff.mp hsome
    exact enumCount_isSome_iff.mp (by rw [hcount]; rfl)
  · intro hends
    obtain ⟨⟨count, d⟩, hcount⟩ := Option.isSome_iff_exists.mp (enumCount_isSome_iff.mpr hends)
    have hfills : (dirIterate (disk b) v v.rootCluster enumFillCb []).isSome :=
      enumFillCb_stopsAtEnd.dirIterate_end trivial hends
    obtain ⟨⟨entries, d'⟩, hfill⟩ := Option.isSome_iff_exists.mp hfills
    obtain rfl := dirIterate_drive hcount
    rw [hcount, Option.bind_some]
    change (if count = 0 then _ else _ : Option (RootEntries × Drive)).isSome = true
    split
    · rfl
    · rw [hfill]
      rfl

/-- **When a directory walk returns.** A walk over the clusters of a directory
returns exactly when their chain ends or the callback stops it.  The listing of the
root directory returns exactly when the chain ends or reaches the end mark, and then
so does every search. -/
theorem dirWalk_returns (b : ByteMap) (v : Volume) :
    (∀ {σ : Type} (cb : DirEntry → Nat → Nat → σ → Bool × σ) (start : Nat) (ctx : σ),
      (dirIterate (disk b) v start cb ctx).isSome ↔
        (∃ nodes, Path (nextLink b v) (linkTo start) nodes) ∨
          ∃ n, (visitClusters cb b v (walk (nextLink b v) (linkTo start) n) ctx).1 = true) ∧
    ((getRootEntries (disk b) v).isSome ↔ Ends b v v.rootCluster) ∧
    (Ends b v v.rootCluster → ∀ ctx : DirSearchCtx, ctx.findFree = true ∨ ctx.findMatch = true →
      (dirIterate (disk b) v v.rootCluster dirSearchCb ctx).isSome) :=
  ⟨fun _ _ _ => dirIterate_isSome_iff, getRootEntries_isSome_iff,
    fun hends _ hctx => dirSearchCb_stopsAtEnd.dirIterate_end hctx hends⟩

/-- A volume whose root cluster links to itself and holds deleted entries only. -/
def selfLinked : ByteMap := ByteMap.store (fun i => if i < 512 then 0 else entryFree) 8 4 2

theorem selfLinked_not_ends : ¬ Ends selfLinked ⟨512, 1, 1, 0, 1, 2, 1⟩ 2 := by
  have hnext : nextLink selfLinked ⟨512, 1, 1, 0, 1, 2, 1⟩ 2 = some 2 := rfl
  have hbytes : ∀ s < 1, ∀ e < 16, selfLinked
      (u32 (clusterToLba ⟨512, 1, 1, 0, 1, 2, 1⟩ 2 + s) * 512 + 32 * e) ≠ entryEnd := by
    decide +kernel
  rintro (⟨nodes, hpath⟩ | ⟨cluster, hreach, hholds⟩)
  · exact Reach.not_path_of_cycle (.head hnext) (.head rfl) hpath
  · have hcluster : cluster = 2 := by
      refine Reach.invariant (motive := (· = 2)) hreach (fun first hfirst => ?_)
        fun source target hsource htarget => ?_
      · exact (Option.some.inj hfirst).symm
      · rw [hsource, hnext] at htarget
        exact (Option.some.inj htarget).symm
    obtain ⟨s, hs, e, he, hend⟩ := hholds
    rw [hcluster] at hend
    exact hbytes s hs e he hend

/-- Its listing never returns, although no read fails. -/
theorem selfLinked_never_listed :
    dirIterate (disk selfLinked) ⟨512, 1, 1, 0, 1, 2, 1⟩ 2 enumCountCb 0 = none ∧
      getRootEntries (disk selfLinked) ⟨512, 1, 1, 0, 1, 2, 1⟩ = none := by
  constructor
  · rw [← Option.not_isSome_iff_eq_none, enumCount_isSome_iff]
    exact selfLinked_not_ends
  · rw [← Option.not_isSome_iff_eq_none, getRootEntries_isSome_iff]
    exact selfLinked_not_ends

end GeckoOS.Fs
