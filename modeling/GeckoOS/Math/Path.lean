/-
# Finite paths of a successor function

A free list, a file allocation table and a bus tree all store one successor per
node and are walked until the successor is missing.  `Path next start nodes`
says that such a walk, begun at `start`, visits exactly `nodes` and then stops.

Because the successor is a function, a walk that stops visits no node twice and
is determined by its start.  Edits are local: changing the successor of a node
off the path leaves the path alone, and redirecting the last node of one path
at the start of another concatenates them.
-/

import Mathlib.Data.List.Nodup
import Mathlib.Logic.Function.Basic

namespace GeckoOS.Math

variable {α : Type*}

/-- Following `next` from `start` visits exactly `nodes`, in order, and stops. -/
inductive Path (next : α → Option α) : Option α → List α → Prop
  | nil : Path next none []
  | cons {node : α} {nodes : List α} :
      Path next (next node) nodes → Path next (some node) (node :: nodes)

/-- The nodes a walk from `start` visits, whether or not it ever stops. -/
inductive Reach (next : α → Option α) (start : Option α) : α → Prop
  | head {node : α} : start = some node → Reach next start node
  | step {node target : α} :
      Reach next start node → next node = some target → Reach next start target

namespace Path

variable {next other : α → Option α} {start : Option α} {node : α} {nodes rest : List α}

@[simp]
theorem nil_iff : Path next start [] ↔ start = none := by
  constructor
  · intro hpath
    cases hpath
    rfl
  · rintro rfl
    exact .nil

@[simp]
theorem cons_iff :
    Path next start (node :: nodes) ↔ start = some node ∧ Path next (next node) nodes := by
  constructor
  · intro hpath
    cases hpath with
    | cons htail => exact ⟨rfl, htail⟩
  · rintro ⟨rfl, htail⟩
    exact .cons htail

/-- The start determines the walk. -/
theorem unique (hfirst : Path next start nodes) (hsecond : Path next start rest) :
    nodes = rest := by
  induction hfirst generalizing rest with
  | nil =>
      cases hsecond
      rfl
  | cons htail ih =>
      cases hsecond with
      | cons hother => rw [ih hother]

/-- Every node of a finished walk starts a finished walk of its own. -/
theorem suffix {front : List α} (hpath : Path next start (front ++ node :: rest)) :
    Path next (some node) (node :: rest) := by
  induction front generalizing start with
  | nil =>
      obtain ⟨-, htail⟩ := cons_iff.mp hpath
      exact .cons htail
  | cons first front ih =>
      rw [List.cons_append, cons_iff] at hpath
      exact ih hpath.2

/-- The walk from the successor of a visited node is the rest of the walk. -/
theorem tail_of_append {front : List α} (hpath : Path next start (front ++ node :: rest)) :
    Path next (next node) rest :=
  (cons_iff.mp hpath.suffix).2

/-- A walk that stops visits no node twice. -/
theorem nodup (hpath : Path next start nodes) : nodes.Nodup := by
  induction nodes generalizing start with
  | nil => exact List.nodup_nil
  | cons node nodes ih =>
      obtain ⟨rfl, htail⟩ := cons_iff.mp hpath
      refine List.nodup_cons.mpr ⟨fun hmem => ?_, ih htail⟩
      -- A second visit would start a shorter walk from the same node.
      obtain ⟨front, back, hsplit⟩ := List.append_of_mem hmem
      have hshort := (hsplit ▸ htail).suffix
      have hequal := hpath.unique hshort
      have hlength := congrArg List.length hequal
      rw [hsplit] at hlength
      simp only [List.length_cons, List.length_append] at hlength
      omega

/-- Only the successors of visited nodes matter. -/
theorem congr (hpath : Path next start nodes)
    (hagree : ∀ node ∈ nodes, other node = next node) : Path other start nodes := by
  induction hpath with
  | nil => exact .nil
  | cons htail ih =>
      refine .cons ?_
      rw [hagree _ List.mem_cons_self]
      exact ih fun node hmem => hagree node (List.mem_cons_of_mem _ hmem)

/-- Redirecting a visited node replaces the rest of the walk. -/
theorem splice {front : List α} {tail : List α} (hpath : Path next start (front ++ node :: rest))
    (hagree : ∀ visited ∈ front, other visited = next visited)
    (htail : Path other (other node) tail) : Path other start (front ++ node :: tail) := by
  induction front generalizing start with
  | nil =>
      obtain ⟨rfl, -⟩ := cons_iff.mp hpath
      exact .cons htail
  | cons first front ih =>
      rw [List.cons_append, cons_iff] at hpath
      obtain ⟨rfl, hrest⟩ := hpath
      refine .cons ?_
      rw [hagree first List.mem_cons_self]
      exact ih hrest fun visited hmem => hagree visited (List.mem_cons_of_mem _ hmem)

/-- The successor of the last node of a walk is missing. -/
theorem next_last (hpath : Path next start (nodes ++ [node])) : next node = none :=
  nil_iff.mp hpath.tail_of_append

/-- A list whose members are each followed by the next one, and the last by nothing,
is a walk. -/
theorem of_getElem? (hlinks : ∀ i (hi : i < nodes.length), next nodes[i] = nodes[i + 1]?) :
    Path next nodes.head? nodes := by
  induction nodes with
  | nil => exact .nil
  | cons node nodes ih =>
      refine .cons ?_
      rw [show next node = (node :: nodes)[1]? from hlinks 0 (Nat.succ_pos _),
        List.getElem?_cons_succ, ← List.head?_eq_getElem?]
      exact ih fun i hi => hlinks (i + 1) (Nat.succ_lt_succ hi)

theorem start_eq_head? (hpath : Path next start nodes) : start = nodes.head? := by
  cases hpath <;> rfl

end Path

namespace Reach

variable {next other : α → Option α} {start : Option α} {node : α} {nodes : List α}

/-- A walk that stops reaches exactly the nodes it visits. -/
theorem iff_mem (hpath : Path next start nodes) : Reach next start node ↔ node ∈ nodes := by
  constructor
  · intro hreach
    induction hreach with
    | head hstart =>
        subst hstart
        cases hpath
        exact List.mem_cons_self
    | step _ hnext ih =>
        obtain ⟨front, back, rfl⟩ := List.append_of_mem ih
        have htail := hpath.tail_of_append
        rw [hnext] at htail
        cases htail
        simp
  · intro hmem
    induction hpath with
    | nil => cases hmem
    | @cons first tail htail ih =>
        rcases List.mem_cons.mp hmem with rfl | hlater
        · exact .head rfl
        · have hreach := ih hlater
          clear ih hmem hlater
          induction hreach with
          | head hstart => exact .step (.head rfl) hstart
          | step _ hnext ih => exact .step ih hnext

/-- Reachability through successors that satisfy an invariant. -/
theorem invariant {motive : α → Prop} (hreach : Reach next start node)
    (hstart : ∀ first, start = some first → motive first)
    (hstep : ∀ source target, motive source → next source = some target → motive target) :
    motive node := by
  induction hreach with
  | head hfirst => exact hstart _ hfirst
  | step _ hnext ih => exact hstep _ _ ih hnext

/-- Reachability only depends on the successors of reached nodes. -/
theorem congr (hreach : Reach next start node)
    (hagree : ∀ reached, Reach next start reached → other reached = next reached) :
    Reach other start node := by
  induction hreach with
  | head hstart => exact .head hstart
  | step hprior hnext ih => exact .step ih ((hagree _ hprior).trans hnext)

theorem of_next {first : α} (hreach : Reach next (next first) node) :
    Reach next (some first) node := by
  induction hreach with
  | head hstart => exact .step (.head rfl) hstart
  | step _ hnext ih => exact .step ih hnext

theorem cons_iff {first : α} :
    Reach next (some first) node ↔ node = first ∨ Reach next (next first) node := by
  constructor
  · intro hreach
    induction hreach with
    | head hstart => exact .inl (Option.some.inj hstart).symm
    | step _ hnext ih =>
        rcases ih with rfl | hlater
        · exact .inr (.head hnext)
        · exact .inr (.step hlater hnext)
  · rintro (rfl | hlater)
    · exact .head rfl
    · exact hlater.of_next

/-- A node reached from its own successor is on a cycle, so no walk through it stops. -/
theorem not_path_of_cycle (hcycle : Reach next (next node) node)
    (hreach : Reach next start node) : ¬ Path next start nodes := by
  intro hpath
  obtain ⟨front, back, rfl⟩ := List.append_of_mem ((iff_mem hpath).mp hreach)
  have hmem := (iff_mem hpath.tail_of_append).mp hcycle
  have hnodup := hpath.nodup
  rw [List.nodup_append] at hnodup
  exact (List.nodup_cons.mp hnodup.2.1).1 hmem

theorem not_none : ¬Reach next none node := by
  intro hreach
  induction hreach with
  | head hstart => cases hstart
  | step _ _ ih => exact ih

/-- Cutting the walk at its first node leaves what is reached from the node behind it. -/
theorem cut_iff [DecidableEq α] {first : α} :
    Reach next (some first) node ↔
      node = first ∨ Reach (Function.update next first none) (next first) node := by
  constructor
  · intro hreach
    rcases cons_iff.mp hreach with rfl | hlater
    · exact .inl rfl
    · clear hreach
      induction hlater with
      | head hstart => exact .inr (.head hstart)
      | @step source target hprior hnext ih =>
          by_cases hfirst : source = first
          · rw [hfirst] at hnext
            exact .inr (.head hnext)
          · refine .inr (.step (ih.resolve_left hfirst) ?_)
            rwa [Function.update_of_ne hfirst]
  · rintro (rfl | hlater)
    · exact .head rfl
    · refine cons_iff.mpr (.inr ?_)
      induction hlater with
      | head hstart => exact .head hstart
      | @step source target _ hnext ih =>
          have hfirst : source ≠ first := fun hsame => by
            rw [hsame, Function.update_self] at hnext
            cases hnext
          rw [Function.update_of_ne hfirst] at hnext
          exact .step ih hnext

end Reach

/-- The first `n` nodes of a walk, or all of them when it stops before. -/
def walk (next : α → Option α) : Option α → Nat → List α
  | none, _ => []
  | some _, 0 => []
  | some node, n + 1 => node :: walk next (next node) n

section Walk

variable {next : α → Option α} {start : Option α} {node : α} {nodes : List α} {n : Nat}

@[simp]
theorem walk_zero : walk next start 0 = [] := by
  cases start <;> rfl

@[simp]
theorem walk_none : walk next none n = [] := by
  cases n <;> rfl

/-- A walk of fewer nodes than were asked for has stopped. -/
theorem path_of_walk_short (hshort : (walk next start n).length < n) :
    Path next start (walk next start n) := by
  induction n generalizing start with
  | zero => omega
  | succ n ih =>
      cases start with
      | none => exact .nil
      | some node => exact .cons (ih (Nat.lt_of_succ_lt_succ hshort))

/-- Asking for more nodes than a walk has gives all of them. -/
theorem Path.walk_eq (hpath : Path next start nodes) :
    walk next start (nodes.length + 1) = nodes := by
  induction hpath with
  | nil => rfl
  | @cons node nodes _ ih => exact congrArg (node :: ·) ih

/-- A walk stops exactly when it has fewer nodes than some number. -/
theorem exists_walk_short_iff :
    (∃ n, (walk next start n).length < n) ↔ ∃ nodes, Path next start nodes := by
  constructor
  · rintro ⟨n, hshort⟩
    exact ⟨_, path_of_walk_short hshort⟩
  · rintro ⟨nodes, hpath⟩
    exact ⟨nodes.length + 1, by rw [hpath.walk_eq]; exact Nat.lt_succ_self _⟩

/-- One more node is asked for, and the successor of a visited node is visited. -/
theorem next_mem_walk {target : α} (hmem : node ∈ walk next start n)
    (hnext : next node = some target) : target ∈ walk next start (n + 1) := by
  induction n generalizing start with
  | zero => simp at hmem
  | succ n ih =>
      cases start with
      | none => simp at hmem
      | some first =>
          refine List.mem_cons_of_mem _ ?_
          rcases List.mem_cons.mp hmem with rfl | hlater
          · rw [hnext]
            exact List.mem_cons_self
          · exact ih hlater

/-- What is reached is reached in a number of steps. -/
theorem Reach.iff_mem_walk : Reach next start node ↔ ∃ n, node ∈ walk next start n := by
  constructor
  · intro hreach
    induction hreach with
    | head hstart =>
        subst hstart
        exact ⟨1, List.mem_cons_self⟩
    | step _ hnext ih =>
        obtain ⟨n, hmem⟩ := ih
        exact ⟨n + 1, next_mem_walk hmem hnext⟩
  · rintro ⟨n, hmem⟩
    induction n generalizing start with
    | zero => simp at hmem
    | succ n ih =>
        cases start with
        | none => simp at hmem
        | some first =>
            rcases List.mem_cons.mp hmem with rfl | hlater
            · exact .head rfl
            · exact (ih hlater).of_next

end Walk

end GeckoOS.Math
