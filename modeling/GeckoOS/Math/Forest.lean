/-
# Trees in a pool

The nodes of a pool name their children by index, and nothing in this keeps two nodes from
having a child in common or a node from being below itself.  A forest lists the nodes of
some trees in the order in which one walks through them; if the list has no node twice,
then every node has one parent at most and is not its own ancestor.

How the nodes of a tree fit together is given by the labels of the nodes: which labels the
children of a node may have depends on its own.

A pool that grows at its end, and whose new part is always the trees that have been built
so far, ends up as one tree.
-/

import Mathlib.Data.List.Nodup
import Mathlib.Data.List.Range
import Mathlib.Logic.Relation

namespace GeckoOS.Math

variable {α τ : Type} (child : α → List Nat) (label : α → τ) (shape : τ → List τ → Prop)

/-- The nodes of the trees with these roots and root labels, each before those below it. -/
inductive Forest (pool : List α) : List Nat → List τ → List Nat → Prop
  | nil : Forest pool [] [] []
  | cons {n : Nat} {node : α} {kinds labels : List τ} {below roots beside : List Nat}
      (hnode : pool[n]? = some node) (hbelow : Forest pool (child node) kinds below)
      (hshape : shape (label node) kinds) (hbeside : Forest pool roots labels beside) :
      Forest pool (n :: roots) (label node :: labels) (n :: below ++ beside)

/-- A node and a child of it. -/
def Edge (pool : List α) (parent c : Nat) : Prop :=
  ∃ node, pool[parent]? = some node ∧ c ∈ child node

/-- The children of the node at an index. -/
def childrenAt (pool : List α) (n : Nat) : List Nat := (pool[n]?.map child).getD []

/-- From `lo` on, the pool is the trees with these roots. -/
structure Planted (lo : Nat) (pool : List α) (roots : List Nat) (labels : List τ) : Prop where
  le : lo ≤ pool.length
  forest : ∃ members, Forest child label shape pool roots labels members ∧
    members.Perm (List.range' lo (pool.length - lo))

variable {child label shape} {pool pool' : List α} {roots roots' members members' : List Nat}
  {labels labels' kinds : List τ} {n c lo : Nat} {node : α}

/-! ## Forests -/

theorem mem_childrenAt : c ∈ childrenAt child pool n ↔ Edge child pool n c := by
  rw [childrenAt, Edge]
  cases pool[n]? with
  | none => simp
  | some node => simp

/-- Only the listed nodes matter. -/
theorem Forest.congr (hforest : Forest child label shape pool roots labels members)
    (hsame : ∀ i ∈ members, pool'[i]? = pool[i]?) :
    Forest child label shape pool' roots labels members := by
  induction hforest with
  | nil => exact .nil
  | cons hnode _ hshape _ hbelow hbeside =>
      refine .cons ((hsame _ (by simp)).trans hnode) (hbelow fun i hi => hsame i ?_) hshape
        (hbeside fun i hi => hsame i ?_)
      all_goals simp [hi]

theorem Forest.append (hforest : Forest child label shape pool roots labels members)
    (hforest' : Forest child label shape pool roots' labels' members') :
    Forest child label shape pool (roots ++ roots') (labels ++ labels') (members ++ members') := by
  induction hforest with
  | nil => exact hforest'
  | @cons n node _ _ below roots beside hnode hbelow hshape _ _ ih =>
      have hall := Forest.cons hnode hbelow hshape ih
      rw [← List.append_assoc] at hall
      exact hall

/-- The labels belong to the roots. -/
theorem Forest.labels_eq (hforest : Forest child label shape pool roots labels members) :
    roots.map (fun n => pool[n]?.map label) = labels.map some := by
  induction hforest with
  | nil => rfl
  | cons hnode _ _ _ _ ih => rw [List.map_cons, List.map_cons, ih, hnode, Option.map_some]

/-- A node that is listed is a root or a child. -/
theorem Forest.perm (hforest : Forest child label shape pool roots labels members) :
    members.Perm (roots ++ members.flatMap (childrenAt child pool)) := by
  induction hforest with
  | nil => exact .nil
  | @cons n node _ _ below roots beside hnode _ _ _ hbelow hbeside =>
      have hchildren : childrenAt child pool n = child node := by rw [childrenAt, hnode]; rfl
      rw [List.cons_append, List.cons_append, List.flatMap_cons, List.flatMap_append, hchildren]
      refine .cons n ?_
      have hsplit : (below ++ beside).Perm
          ((child node ++ below.flatMap (childrenAt child pool)) ++
            (roots ++ beside.flatMap (childrenAt child pool))) := hbelow.append hbeside
      refine hsplit.trans ?_
      rw [← List.append_assoc]
      exact (List.perm_append_comm.append_right _).trans (.of_eq (by simp only [List.append_assoc]))

/-- What is below a listed node is listed. -/
theorem Forest.closed (hforest : Forest child label shape pool roots labels members)
    (hn : n ∈ members) (hedge : Edge child pool n c) : c ∈ members :=
  hforest.perm.mem_iff.mpr (List.mem_append_right _
    (List.mem_flatMap.mpr ⟨n, hn, mem_childrenAt.mpr hedge⟩))

theorem Forest.root_mem (hforest : Forest child label shape pool roots labels members)
    (hn : n ∈ roots) : n ∈ members :=
  hforest.perm.mem_iff.mpr (List.mem_append_left _ hn)

theorem Forest.closed_trans (hforest : Forest child label shape pool roots labels members)
    (hn : n ∈ members) (hreach : Relation.ReflTransGen (Edge child pool) n c) : c ∈ members := by
  induction hreach with
  | refl => exact hn
  | tail _ hedge ih => exact hforest.closed ih hedge

/-- A listed node has the children that its label asks for. -/
theorem Forest.shape_of_mem (hforest : Forest child label shape pool roots labels members)
    (hn : n ∈ members) : ∃ node kinds, pool[n]? = some node ∧
      (child node).map (fun c => pool[c]?.map label) = kinds.map some ∧
        shape (label node) kinds := by
  induction hforest with
  | nil => exact absurd hn List.not_mem_nil
  | cons hnode hbelow hshape _ ihbelow ihbeside =>
      rcases List.mem_cons.mp hn with rfl | hn
      · exact ⟨_, _, hnode, hbelow.labels_eq, hshape⟩
      · exact (List.mem_append.mp hn).elim ihbelow ihbeside

/-- **One parent.** -/
theorem Forest.parent_unique (hforest : Forest child label shape pool roots labels members)
    (hnodup : members.Nodup) {p q : Nat} (hp : p ∈ members) (hq : q ∈ members)
    (hpc : Edge child pool p c) (hqc : Edge child pool q c) : p = q := by
  have hchildren := (List.nodup_append.mp (hforest.perm.nodup_iff.mp hnodup)).2.1
  have hsymm : Std.Symm (Function.onFun List.Disjoint (childrenAt child pool)) :=
    ⟨fun _ _ hdisjoint _ hx hy => hdisjoint hy hx⟩
  by_contra hne
  exact (List.nodup_flatMap.mp hchildren).2.forall hp hq hne (mem_childrenAt.mpr hpc)
    (mem_childrenAt.mpr hqc)

/-- A node lists a child once. -/
theorem Forest.child_nodup (hforest : Forest child label shape pool roots labels members)
    (hnodup : members.Nodup) (hn : n ∈ members) : (childrenAt child pool n).Nodup := by
  have hchildren := (List.nodup_append.mp (hforest.perm.nodup_iff.mp hnodup)).2.1
  exact (List.nodup_flatMap.mp hchildren).1 n hn

/-- **No cycle.** -/
theorem Forest.acyclic (hforest : Forest child label shape pool roots labels members)
    (hnodup : members.Nodup) (hn : n ∈ members) :
    ¬ Relation.TransGen (Edge child pool) n n := by
  induction hforest with
  | nil => exact absurd hn List.not_mem_nil
  | @cons m node _ _ below roots beside hnode hbelow _ _ ihbelow ihbeside =>
      obtain ⟨hfresh, hrest⟩ := List.nodup_cons.mp hnodup
      obtain ⟨hnodup, hnodup', -⟩ := List.nodup_append.mp hrest
      rcases List.mem_cons.mp hn with rfl | hn
      · intro hcycle
        obtain ⟨c, ⟨node', hnode', hc⟩, hreach⟩ := Relation.TransGen.head'_iff.mp hcycle
        obtain rfl := Option.some.inj (hnode.symm.trans hnode')
        exact hfresh (List.mem_append_left _ (hbelow.closed_trans (hbelow.root_mem hc) hreach))
      · exact (List.mem_append.mp hn).elim (ihbelow hnodup) (ihbeside hnodup')

/-! ## Pools that are forests -/

theorem mem_of_perm_range (hperm : members.Perm (List.range' lo (pool.length - lo)))
    (hn : n ∈ members) : lo ≤ n ∧ n < pool.length := by
  have hrange := List.mem_range'_1.mp (hperm.mem_iff.mp hn)
  omega

theorem Planted.nil (pool : List α) : Planted child label shape pool.length pool [] [] :=
  ⟨le_rfl, [], .nil, by simp⟩

/-- More trees are built at the end. -/
theorem Planted.append (hplanted : Planted child label shape lo pool roots labels)
    (hnew : Planted child label shape pool.length pool' roots' labels')
    (hsame : ∀ i < pool.length, pool'[i]? = pool[i]?) :
    Planted child label shape lo pool' (roots ++ roots') (labels ++ labels') := by
  obtain ⟨members, hforest, hperm⟩ := hplanted.forest
  obtain ⟨members', hforest', hperm'⟩ := hnew.forest
  have hle := hplanted.le
  have hle' := hnew.le
  refine ⟨by omega, members ++ members',
    (hforest.congr fun i hi => hsame i (mem_of_perm_range hperm hi).2).append hforest', ?_⟩
  have hmid : pool.length = lo + (pool.length - lo) := by omega
  have hall : pool'.length - lo = (pool.length - lo) + (pool'.length - pool.length) := by omega
  rw [hall, ← List.range'_append_1, ← hmid]
  exact hperm.append hperm'

/-- A node on top of the trees, made behind them. -/
theorem Planted.graft (hplanted : Planted child label shape lo pool (child node) kinds)
    (hshape : shape (label node) kinds) :
    Planted child label shape lo (pool ++ [node]) [pool.length] [label node] := by
  obtain ⟨members, hforest, hperm⟩ := hplanted.forest
  have hle := hplanted.le
  have hlength : (pool ++ [node]).length = pool.length + 1 := by simp
  refine ⟨by omega, pool.length :: members ++ [], .cons (by simp) (hforest.congr fun i hi => ?_)
    hshape .nil, ?_⟩
  · exact List.getElem?_append_left (mem_of_perm_range hperm hi).2
  · have hall : pool.length + 1 - lo = (pool.length - lo) + 1 := by omega
    have hmid : lo + (pool.length - lo) = pool.length := by omega
    rw [List.append_nil, hlength, hall, List.range'_1_concat, hmid]
    exact (hperm.cons _).trans (List.perm_append_singleton _ _).symm

/-- A node on top of the trees, made before them. -/
theorem Planted.crown (hnode : pool[lo]? = some node)
    (hplanted : Planted child label shape (lo + 1) pool (child node) kinds)
    (hshape : shape (label node) kinds) :
    Planted child label shape lo pool [lo] [label node] := by
  obtain ⟨members, hforest, hperm⟩ := hplanted.forest
  have hle := hplanted.le
  refine ⟨by omega, lo :: members ++ [], .cons hnode hforest hshape .nil, ?_⟩
  rw [List.append_nil]
  have hlength : pool.length - lo = pool.length - (lo + 1) + 1 := by omega
  rw [hlength, List.range'_succ]
  exact hperm.cons lo

/-- Only the nodes from `lo` on matter. -/
theorem Planted.congr (hplanted : Planted child label shape lo pool roots labels)
    (hlength : pool'.length = pool.length) (hsame : ∀ i, lo ≤ i → pool'[i]? = pool[i]?) :
    Planted child label shape lo pool' roots labels := by
  obtain ⟨members, hforest, hperm⟩ := hplanted.forest
  refine ⟨hlength ▸ hplanted.le, members,
    hforest.congr fun i hi => hsame i (mem_of_perm_range hperm hi).1, ?_⟩
  rw [hlength]
  exact hperm

end GeckoOS.Math
