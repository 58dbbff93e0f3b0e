/-
# Radix trees in memory

A table holds an entry for each index, and an entry may lead to another table.  From a
root, a row of indices is a path, and `follow` is the table it leads to.  Nothing in the
memory says that the tables make a tree: two entries could lead to one table.  `Tree` is
the invariant that they do not, for the paths up to a depth, and that no table is used
but those that were taken for it.

Two changes keep it.  Writing an entry of a table at the full depth changes no path, and
only this one entry of all that the paths of full depth reach.  Linking a fresh table
into an empty entry makes one new path, behind which there is nothing yet.
-/

import Mathlib.Data.List.Basic
import Mathlib.Data.Set.Insert
import Mathlib.Logic.Function.Basic

namespace GeckoOS.Math

variable {τ ι ε : Type}

/-- The table that a path leads to. -/
def follow (next : ε → Option τ) (mem : τ → ι → ε) : τ → List ι → Option τ
  | t, [] => some t
  | t, i :: path => (next (mem t i)).bind fun t' => follow next mem t' path

/-- The entry at the end of a path. -/
def entryAt (next : ε → Option τ) (mem : τ → ι → ε) (root : τ) (path : List ι) (i : ι) : Option ε :=
  (follow next mem root path).map fun t => mem t i

/-- The paths up to a depth lead to different tables, all of them taken. -/
structure Tree (next : ε → Option τ) (mem : τ → ι → ε) (root : τ) (depth : Nat) (taken : Set τ) :
    Prop where
  taken : ∀ path t, path.length ≤ depth → follow next mem root path = some t → t ∈ taken
  distinct : ∀ p q t, p.length ≤ depth → q.length ≤ depth →
    follow next mem root p = some t → follow next mem root q = some t → p = q

variable {next : ε → Option τ} {mem mem' : τ → ι → ε} {root t z : τ} {i : ι} {e : ε}
  {path p q : List ι} {depth : Nat} {taken : Set τ}

theorem follow_append (t : τ) (p q : List ι) :
    follow next mem t (p ++ q) = (follow next mem t p).bind fun t' => follow next mem t' q := by
  induction p generalizing t with
  | nil => rfl
  | cons i p ih =>
      rw [List.cons_append, follow, follow]
      cases next (mem t i) with
      | none => rfl
      | some t' => exact ih t'

theorem follow_concat (hp : follow next mem root p = some t) (i : ι) :
    follow next mem root (p ++ [i]) = next (mem t i) := by
  rw [follow_append, hp, Option.bind_some, follow]
  exact Option.bind_fun_some _

/-- A path that meets the same links on its way leads to the same table. -/
theorem follow_congr (hsame : ∀ front j back t', path = front ++ j :: back →
    follow next mem root front = some t' → next (mem' t' j) = next (mem t' j)) :
    follow next mem' root path = follow next mem root path := by
  induction path generalizing root with
  | nil => rfl
  | cons j path ih =>
      rw [follow, follow, hsame [] j path root rfl rfl]
      cases hnext : next (mem root j) with
      | none => rfl
      | some t' =>
          refine ih fun front k back t'' hpath hfollow => ?_
          refine hsame (j :: front) k back t'' (by rw [hpath, List.cons_append]) ?_
          rw [follow, hnext]
          exact hfollow

/-- A new table has no path in it. -/
theorem tree_empty (hempty : ∀ i, next (mem root i) = none) (depth : Nat) :
    Tree next mem root depth {root} := by
  have honly : ∀ path t, follow next mem root path = some t → path = [] ∧ t = root := by
    intro path t hpath
    cases path with
    | nil => exact ⟨rfl, (Option.some.inj hpath).symm⟩
    | cons i path =>
        rw [follow, hempty] at hpath
        cases hpath
  refine ⟨fun path t _ hpath => (honly path t hpath).2, fun p q t _ _ hp hq => ?_⟩
  rw [(honly p t hp).1, (honly q t hq).1]

/-- Only the links out of taken tables matter. -/
theorem Tree.congr (htree : Tree next mem root depth taken)
    (hsame : ∀ t ∈ taken, mem' t = mem t) :
    Tree next mem' root depth taken ∧
      ∀ path, path.length ≤ depth → follow next mem' root path = follow next mem root path := by
  have hfollow : ∀ path, path.length ≤ depth →
      follow next mem' root path = follow next mem root path := by
    intro path hpath
    refine follow_congr fun front j back t' hsplit hfront => ?_
    rw [hsame t' (htree.taken front t' ?_ hfront)]
    rw [hsplit, List.length_append] at hpath
    omega
  refine ⟨⟨fun path t hpath ht => ?_, fun p q t hp hq htp htq => ?_⟩, hfollow⟩
  · exact htree.taken path t hpath (hfollow path hpath ▸ ht)
  · exact htree.distinct p q t hp hq (hfollow p hp ▸ htp) (hfollow q hq ▸ htq)

section Write

variable [DecidableEq τ] [DecidableEq ι]

/-- One entry is written. -/
def write (mem : τ → ι → ε) (t : τ) (i : ι) (e : ε) : τ → ι → ε :=
  Function.update mem t (Function.update (mem t) i e)

theorem write_self : write mem t i e t i = e := by
  rw [write, Function.update_self, Function.update_self]

theorem write_of_ne {t' : τ} {j : ι} (hne : t' ≠ t ∨ j ≠ i) : write mem t i e t' j = mem t' j := by
  rw [write]
  by_cases ht : t' = t
  · subst ht
    rw [Function.update_self, Function.update_of_ne (hne.resolve_left fun h => h rfl)]
  · rw [Function.update_of_ne ht]

/-! ## Writing at the full depth -/

theorem Tree.follow_write (htree : Tree next mem root depth taken) (hp : p.length = depth)
    (ht : follow next mem root p = some t) (hpath : path.length ≤ depth) :
    follow next (write mem t i e) root path = follow next mem root path := by
  refine follow_congr fun front j back t' hsplit hfront => ?_
  rw [hsplit, List.length_append, List.length_cons] at hpath
  rw [write_of_ne]
  refine .inl fun hsame => ?_
  subst hsame
  have heq := htree.distinct front p t' (by omega) hp.le hfront ht
  rw [heq] at hpath
  omega

theorem Tree.write (htree : Tree next mem root depth taken) (hp : p.length = depth)
    (ht : follow next mem root p = some t) :
    Tree next (GeckoOS.Math.write mem t i e) root depth taken := by
  refine ⟨fun path t' hpath hfollow => ?_, fun q r t' hq hr htq htr => ?_⟩
  · exact htree.taken path t' hpath (htree.follow_write hp ht hpath ▸ hfollow)
  · exact htree.distinct q r t' hq hr (htree.follow_write hp ht hq ▸ htq)
      (htree.follow_write hp ht hr ▸ htr)

/-- The entry that is written is the only one that changes. -/
theorem Tree.entryAt_write (htree : Tree next mem root depth taken) (hp : p.length = depth)
    (ht : follow next mem root p = some t) (hq : q.length = depth) (j : ι) :
    entryAt next (GeckoOS.Math.write mem t i e) root q j =
      if q = p ∧ j = i then some e else entryAt next mem root q j := by
  rw [entryAt, htree.follow_write hp ht hq.le]
  split_ifs with hsame
  · obtain ⟨rfl, rfl⟩ := hsame
    rw [ht, Option.map_some, write_self]
  · rw [entryAt]
    cases hfollow : follow next mem root q with
    | none => rfl
    | some t' =>
        rw [Option.map_some, Option.map_some, write_of_ne]
        by_contra hboth
        rw [not_or, not_not, not_not] at hboth
        obtain ⟨rfl, rfl⟩ := hboth
        exact hsame ⟨htree.distinct q p t' hq.le hp.le hfollow ht, rfl⟩

/-! ## Linking a fresh table -/

/-- A fresh table `z`, filled with `empty`, is linked into an entry. -/
def link (mem : τ → ι → ε) (z : τ) (empty : ε) (t : τ) (i : ι) (e : ε) : τ → ι → ε :=
  write (Function.update mem z fun _ => empty) t i e

variable {empty : ε}

theorem link_fresh (hne : z ≠ t) (j : ι) : link mem z empty t i e z j = empty := by
  rw [link, write_of_ne (.inl hne), Function.update_self]

theorem link_of_ne {t' : τ} {j : ι} (hfresh : t' ≠ z) (hne : t' ≠ t ∨ j ≠ i) :
    link mem z empty t i e t' j = mem t' j := by
  rw [link, write_of_ne hne, Function.update_of_ne hfresh]

/-- What a table needs to be linked: it is fresh, and the entry for it leads nowhere. -/
structure Linkable (next : ε → Option τ) (mem : τ → ι → ε) (root : τ) (depth : Nat) (taken : Set τ)
    (p : List ι) (t : τ) (i : ι) (z : τ) (empty e : ε) : Prop where
  path : follow next mem root p = some t
  length : p.length < depth
  unlinked : next (mem t i) = none
  fresh : z ∉ taken
  empty : next empty = none
  entry : next e = some z

omit [DecidableEq τ] [DecidableEq ι] in
theorem Linkable.ne (hlink : Linkable next mem root depth taken p t i z empty e)
    (htree : Tree next mem root depth taken) : z ≠ t := by
  rintro rfl
  exact hlink.fresh (htree.taken p z hlink.length.le hlink.path)

/-- There is one new path. -/
theorem Linkable.follow (hlink : Linkable next mem root depth taken p t i z empty e)
    (htree : Tree next mem root depth taken) (hpath : path.length ≤ depth) :
    GeckoOS.Math.follow next (link mem z empty t i e) root path =
      if path = p ++ [i] then some z else GeckoOS.Math.follow next mem root path := by
  have hne := hlink.ne htree
  -- paths that do not go through the entry meet the same links
  have hother : ∀ path : List ι, path.length ≤ depth → ¬(p ++ [i]) <+: path →
      GeckoOS.Math.follow next (link mem z empty t i e) root path =
        GeckoOS.Math.follow next mem root path := by
    intro path hpath haway
    refine follow_congr fun front j back t' hsplit hfront => ?_
    have hfrontLength : front.length ≤ depth := by
      rw [hsplit, List.length_append] at hpath
      omega
    have htaken := htree.taken front t' hfrontLength hfront
    have hold : t' ≠ z := ne_of_mem_of_not_mem htaken hlink.fresh
    rw [link_of_ne hold]
    by_contra hboth
    rw [not_or, not_not, not_not] at hboth
    obtain ⟨rfl, rfl⟩ := hboth
    obtain rfl := htree.distinct front p t' hfrontLength hlink.length.le hfront hlink.path
    exact haway ⟨back, by rw [hsplit, List.append_assoc, List.singleton_append]⟩
  have hhere : GeckoOS.Math.follow next (link mem z empty t i e) root p = some t := by
    rw [hother p hlink.length.le, hlink.path]
    intro hlonger
    have hle := hlonger.length_le
    rw [List.length_append, List.length_singleton] at hle
    omega
  have hnew : GeckoOS.Math.follow next (link mem z empty t i e) root (p ++ [i]) = some z := by
    rw [follow_concat hhere, link, write_self, hlink.entry]
  by_cases hthrough : (p ++ [i]) <+: path
  · obtain ⟨back, rfl⟩ := hthrough
    rw [follow_append, hnew, Option.bind_some]
    cases back with
    | nil => rw [List.append_nil, if_pos rfl, GeckoOS.Math.follow]
    | cons j back =>
        have hlonger : p ++ [i] ++ j :: back ≠ p ++ [i] := by simp
        rw [GeckoOS.Math.follow, link_fresh hne, hlink.empty, Option.bind_none, if_neg hlonger,
          follow_append, follow_concat hlink.path, hlink.unlinked, Option.bind_none]
  · rw [hother path hpath hthrough, if_neg]
    rintro rfl
    exact hthrough (List.prefix_refl _)

theorem Linkable.tree (hlink : Linkable next mem root depth taken p t i z empty e)
    (htree : Tree next mem root depth taken) :
    Tree next (link mem z empty t i e) root depth (insert z taken) := by
  refine ⟨fun path t' hpath hfollow => ?_, fun q r t' hq hr htq htr => ?_⟩
  · rw [hlink.follow htree hpath] at hfollow
    split_ifs at hfollow with hnew
    · exact .inl (Option.some.inj hfollow).symm
    · exact .inr (htree.taken path t' hpath hfollow)
  · rw [hlink.follow htree hq] at htq
    rw [hlink.follow htree hr] at htr
    split_ifs at htq htr with hnewq hnewr hnewr
    · rw [hnewq, hnewr]
    · obtain rfl := Option.some.inj htq
      exact absurd (htree.taken r z hr htr) hlink.fresh
    · obtain rfl := Option.some.inj htr
      exact absurd (htree.taken q z hq htq) hlink.fresh
    · exact htree.distinct q r t' hq hr htq htr

/-- No entry at the full depth changes, but for those that come into being. -/
theorem Linkable.entryAt (hlink : Linkable next mem root depth taken p t i z empty e)
    (htree : Tree next mem root depth taken) (hq : q.length = depth) (j : ι) :
    GeckoOS.Math.entryAt next (link mem z empty t i e) root q j =
      if q = p ++ [i] then some empty else GeckoOS.Math.entryAt next mem root q j := by
  rw [GeckoOS.Math.entryAt, hlink.follow htree hq.le]
  split_ifs with hnew
  · rw [Option.map_some, link_fresh (hlink.ne htree)]
  · rw [GeckoOS.Math.entryAt]
    cases hfollow : GeckoOS.Math.follow next mem root q with
    | none => rfl
    | some t' =>
        have htaken := htree.taken q t' hq.le hfollow
        have hold : t' ≠ z := ne_of_mem_of_not_mem htaken hlink.fresh
        rw [Option.map_some, Option.map_some, link_of_ne hold (.inl ?_)]
        rintro rfl
        have heq := htree.distinct q p t' hq.le hlink.length.le hfollow hlink.path
        have hless := hlink.length
        rw [← heq] at hless
        omega

end Write

end GeckoOS.Math
