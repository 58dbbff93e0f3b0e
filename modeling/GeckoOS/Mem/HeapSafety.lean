/-
# Payloads never overlap

A run is any sequence of `kmalloc`, `kfree` and `combine_blocks` calls that
return, interleaved with user writes inside live payloads.  The run state keeps,
beside the heap, which payloads are live and which were freed and not handed
out again; the code itself stores neither.

The tiling survives every step, so every payload `kmalloc` returns is aligned,
inside the heap, and apart from every other payload and every header.
-/

import Mathlib.Data.Set.Lattice
import Mathlib.Logic.Relation
import Mathlib.Order.CompletePartialOrder
import Mathlib.Order.Interval.Set.Basic
import GeckoOS.Mem.HeapCalls

namespace GeckoOS.Mem

open GeckoOS.Math ByteMap

/-- The heap together with the history a client of it knows. -/
structure HeapState where
  /-- The allocator. -/
  heap : Heap
  /-- Live payloads, as address and requested size. -/
  live : List (Nat × Nat)
  /-- Payloads freed and not handed out again since. -/
  freed : List Nat

/-- The boot state over arbitrary memory. -/
def HeapState.boot (mem : ByteMap) : HeapState := ⟨kallocInit mem, [], []⟩

/-- What a client of the allocator can do next. -/
inductive HeapCall
  | kmalloc (size : Nat)
  | kfree (ptr : Nat)
  | combineBlocks
  | userWrite (mem : ByteMap)

/-- One returning call.  Only `NULL` and live payloads are freed, and users write
only inside live payloads. -/
inductive HeapStep : HeapState → HeapCall → HeapState → Prop
  | refused {s : HeapState} {size : Nat} {heap' : Heap}
      (hcall : kmalloc s.heap size = some (0, heap')) :
      HeapStep s (.kmalloc size) { s with heap := heap' }
  | allocated {s : HeapState} {size p : Nat} {heap' : Heap}
      (hcall : kmalloc s.heap size = some (p, heap')) (hp : p ≠ 0) :
      HeapStep s (.kmalloc size)
        ⟨heap', (p, size) :: s.live, s.freed.filter fun q => q ≠ p⟩
  | freedNull {s : HeapState} : HeapStep s (.kfree 0) { s with heap := kfree s.heap 0 }
  | freed {s : HeapState} {p n : Nat} (hlive : (p, n) ∈ s.live) :
      HeapStep s (.kfree p)
        ⟨kfree s.heap p, s.live.filter fun payload => payload.1 ≠ p, p :: s.freed⟩
  | combined {s : HeapState} {heap' : Heap} (hcall : combineBlocks s.heap = some heap') :
      HeapStep s .combineBlocks { s with heap := heap' }
  | wrote {s : HeapState} {mem : ByteMap}
      (hinside : ∀ a, (∀ p n, (p, n) ∈ s.live → a ∉ Set.Ico p (p + n)) →
        mem a = s.heap.mem a) :
      HeapStep s (.userWrite mem) { s with heap := { s.heap with mem := mem } }

/-- Runs all of whose calls are allowed in the state they are made in. -/
def HeapRun (allowed : HeapState → HeapCall → Prop) : HeapState → HeapState → Prop :=
  Relation.ReflTransGen fun s t => ∃ call, allowed s call ∧ HeapStep s call t

theorem HeapRun.call {allowed : HeapState → HeapCall → Prop} {s t u : HeapState} {call : HeapCall}
    (hrun : HeapRun allowed s t) (hstep : HeapStep t call u) (hallowed : allowed t call) :
    HeapRun allowed s u :=
  hrun.tail ⟨call, hallowed, hstep⟩

/-- Every request of the call is at most `limit` bytes. -/
def RequestAtMost (limit : Nat) (_ : HeapState) : HeapCall → Prop
  | .kmalloc size => size ≤ limit
  | _ => True

/-- Headers met walking the heap from its start, block by block, up to `heap_ptr`. -/
inductive HeapWalk (heap : Heap) : Nat → Prop
  | first : heapStart < heap.heapPtr → HeapWalk heap heapStart
  | next {b : Nat} : HeapWalk heap b →
      b + headerSize + blockSize heap.mem b < heap.heapPtr →
      HeapWalk heap (b + headerSize + blockSize heap.mem b)

/-- A block header of the state: met walking the heap, listed, or in front of a
live payload. -/
def HeapState.IsHeader (s : HeapState) (b : Nat) : Prop :=
  HeapWalk s.heap b ∨ s.heap.ReachesBlock b ∨ ∃ n, (b + headerSize, n) ∈ s.live

/-! ## The tiling over whole runs -/

/-- A call is representable when its request is. -/
def RepresentableCall (s : HeapState) : HeapCall → Prop
  | .kmalloc size => Representable s.heap size
  | _ => True

namespace HeapInv

variable {s t : HeapState} {call : HeapCall} {blocks : Set Nat}

theorem walk_mem {heap : Heap} {live : List (Nat × Nat)} {b : Nat}
    (hinv : HeapInv heap live blocks) (hwalk : HeapWalk heap b) : b ∈ blocks := by
  induction hwalk with
  | first hgrown => exact hinv.first.resolve_left (Nat.ne_of_gt hgrown)
  | next _ hbelow ih => exact (hinv.behind _ ih).resolve_left (Nat.ne_of_lt hbelow)

theorem isHeader_mem {b : Nat} (hheader : s.IsHeader b) (hinv : HeapInv s.heap s.live blocks) :
    b ∈ blocks := by
  rcases hheader with hwalk | hlisted | ⟨n, hlive⟩
  · exact hinv.walk_mem hwalk
  · exact hinv.listed b hlisted
  · obtain ⟨c, hc, heq, -⟩ := hinv.live_block _ n hlive
    obtain rfl : b = c := Nat.add_right_cancel heq
    exact hc

/-- A user write inside live payloads misses every header. -/
theorem sameHeader_of_userWrite {mem : ByteMap} (hinv : HeapInv s.heap s.live blocks)
    (hinside : ∀ a, (∀ p n, (p, n) ∈ s.live → a ∉ Set.Ico p (p + n)) → mem a = s.heap.mem a) :
    ∀ b ∈ blocks, SameHeader mem s.heap.mem b := by
  intro b hb i hi
  apply hinside
  rintro p n hlive ⟨hlower, hupper⟩
  obtain ⟨c, hc, rfl, hfits, -⟩ := hinv.live_block p n hlive
  rcases Nat.lt_trichotomy b c with hlt | rfl | hgt
  · have := hinv.apart b hb c hc hlt
    omega
  · omega
  · have := hinv.apart c hc b hb hgt
    omega

/-- Every representable call keeps some tiling. -/
theorem step (hinv : HeapInv s.heap s.live blocks) (hfits : RepresentableCall s call)
    (hstep : HeapStep s call t) : ∃ blocks', HeapInv t.heap t.live blocks' := by
  cases hstep with
  | refused hcall =>
      rcases kmalloc_cases hfits hcall with ⟨b, _, _, hp, _⟩ | ⟨_, _, hp, _⟩ | ⟨_, _, rfl⟩
      · omega
      · omega
      · exact ⟨blocks, hinv⟩
  | allocated hcall hp =>
      obtain ⟨b, blocks', -, -, hinv', -⟩ := hinv.malloc hfits hcall hp
      exact ⟨blocks', hinv'⟩
  | freedNull => exact ⟨blocks, hinv⟩
  | freed hlive => exact ⟨blocks, hinv.free hlive⟩
  | combined hcall => exact hinv.combine hcall
  | wrote hinside => exact ⟨blocks, hinv.of_sameHeader (hinv.sameHeader_of_userWrite hinside)⟩

/-- A request of at most `2 ^ 63` bytes never wraps an address of this heap. -/
theorem representable (hinv : HeapInv s.heap s.live blocks)
    (hlimit : RequestAtMost (2 ^ 63) s call) : RepresentableCall s call := by
  cases call with
  | kmalloc size =>
      have hptr := hinv.ptr_le
      simp only [RequestAtMost] at hlimit
      simp only [RepresentableCall, Representable, headerSize, wordModulus]
      omega
  | kfree ptr => trivial
  | combineBlocks => trivial
  | userWrite mem => trivial

/-- Every state of a run with bounded requests has a tiling. -/
theorem of_run {mem : ByteMap}
    (hrun : HeapRun (RequestAtMost (2 ^ 63)) (HeapState.boot mem) s) :
    ∃ blocks, HeapInv s.heap s.live blocks := by
  induction hrun with
  | refl => exact ⟨∅, HeapInv.boot mem⟩
  | tail _ hnext ih =>
      obtain ⟨blocks, hinv⟩ := ih
      obtain ⟨call, hlimit, hstep⟩ := hnext
      exact hinv.step (hinv.representable hlimit) hstep

end HeapInv

/-- **Payload isolation.**  Whatever calls and user writes came before, a payload
`kmalloc` returns is eight-byte aligned, lies inside the heap, and overlaps no
other live payload and no block header. -/
theorem kmalloc_payload_isolated {mem : ByteMap} {s : HeapState} {size p : Nat} {heap' : Heap}
    (hrun : HeapRun (RequestAtMost (2 ^ 63)) (HeapState.boot mem) s) (hsize : size ≤ 2 ^ 63)
    (hcall : kmalloc s.heap size = some (p, heap')) (hp : p ≠ 0) :
    8 ∣ p ∧ Set.Ico p (p + size) ⊆ Set.Ico heapStart heapLimit ∧
      (∀ q n, (q, n) ∈ s.live → Disjoint (Set.Ico p (p + size)) (Set.Ico q (q + n))) ∧
      ∀ b, HeapState.IsHeader ⟨heap', (p, size) :: s.live, s.freed.filter fun q => q ≠ p⟩ b →
        Disjoint (Set.Ico p (p + size)) (Set.Ico b (b + headerSize)) := by
  obtain ⟨blocks, hinv⟩ := HeapInv.of_run hrun
  have hlimit : RequestAtMost (2 ^ 63) s (.kmalloc size) := hsize
  have hfits : Representable s.heap size := hinv.representable hlimit
  obtain ⟨b, blocks', rfl, hb, hinv', hfresh⟩ := hinv.malloc hfits hcall hp
  obtain ⟨c, hc, heq, hroom, -⟩ := hinv'.live_block (b + 16) size List.mem_cons_self
  obtain rfl : b = c := Nat.add_right_cancel heq
  have hlow := hinv'.low b hb
  have hend := (hinv'.size_lt hb).2
  have haligned := (hinv'.aligned b hb).1
  -- A block other than `b` lies wholly before its header or behind its payload.
  have hother : ∀ d ∈ blocks', b ≠ d →
      d + 16 + blockSize heap'.mem d ≤ b ∨ b + 16 + size ≤ d := by
    intro d hd hne
    rcases Nat.lt_or_gt_of_ne hne with hlt | hgt
    · have := hinv'.apart b hb d hd hlt
      omega
    · exact .inl (hinv'.apart d hd b hb hgt)
  refine ⟨by omega, ?_, ?_, ?_⟩
  · rintro a ⟨hlower, hupper⟩
    simp only [heapStart, heapLimit, Set.mem_Ico]
    omega
  · intro q n hlive
    obtain ⟨d, hd, rfl, hfitsN, -⟩ := hinv'.live_block q n (List.mem_cons_of_mem _ hlive)
    have hne : b ≠ d := fun heq => hfresh _ n hlive (by rw [heq])
    refine Set.disjoint_left.mpr ?_
    rintro a ⟨hlower, hupper⟩ ⟨hlower', hupper'⟩
    rcases hother d hd hne with hbefore | hafter <;> omega
  · intro d hheader
    have hd := HeapInv.isHeader_mem hheader hinv'
    refine Set.disjoint_left.mpr ?_
    rintro a ⟨hlower, hupper⟩ ⟨hlower', hupper'⟩
    simp only [headerSize] at hupper'
    rcases eq_or_ne b d with rfl | hne
    · omega
    · rcases hother d hd hne with hbefore | hafter <;> omega

/-- The first `kmalloc(24)` after boot. -/
theorem kmalloc_payload_isolated_boot :
    8 ∣ 0x200010 ∧ Set.Ico 0x200010 (0x200010 + 24) ⊆ Set.Ico heapStart heapLimit := by
  have hroom : 24 ≤ heapLimit - heapStart - headerSize := by decide
  have hcall := kmalloc_boot (fun _ => 0) hroom
  have hisolated := kmalloc_payload_isolated (s := HeapState.boot fun _ => 0) .refl
    (by decide) hcall (by decide)
  exact ⟨hisolated.1, hisolated.2.1⟩

end GeckoOS.Mem
