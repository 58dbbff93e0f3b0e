/-
# When the free list stays a list

`kmalloc` hands a listed block out again without unlinking it, and `kfree` always
relinks its argument at the head.  Freeing a block for the first time prepends it
to the list; freeing a block that is already on the list makes its old
predecessor point back at the new head, and the list never ends again.

So the list of a run is finite exactly as long as no `kfree` hits a block that is
still listed, which is what reusing a freed block and freeing it once more does.
While it is finite it holds every freed block, every search ends, and a freed
block that is large enough is found.
-/

import GeckoOS.Mem.HeapSafety

namespace GeckoOS.Mem

open GeckoOS.Math ByteMap

/-- `kmalloc` returns for every request, the list is finite and holds every freed
block, and a large enough freed block is enough for `kmalloc` to reuse one. -/
def FreeListSound (s : HeapState) : Prop :=
  ∃ nodes, Path (listNext s.heap.mem) (pointer s.heap.freeListHead) nodes ∧
    (∀ p ∈ s.freed, p - headerSize ∈ nodes) ∧
    (∀ size, ∃ p heap', kmalloc s.heap size = some (p, heap')) ∧
    ∀ size, ∀ p ∈ s.freed, align8 size ≤ blockSize s.heap.mem (p - headerSize) →
      ∃ q heap', kmalloc s.heap size = some (q, heap') ∧ q ≠ 0 ∧ q - headerSize ∈ nodes ∧
        heap'.heapPtr = s.heap.heapPtr

/-- Only `kmalloc` and `kfree` of live payloads, and user writes. -/
def MallocFreeOnly (_ : HeapState) : HeapCall → Prop
  | .kmalloc _ => True
  | .kfree ptr => ptr ≠ 0
  | .combineBlocks => False
  | .userWrite _ => True

/-- The same calls, with representable requests, and no `kfree` of a block that
is on the list already. -/
def ListsOnce (s : HeapState) : HeapCall → Prop
  | .kmalloc size => Representable s.heap size
  | .kfree ptr => ptr ≠ 0 ∧ ¬ s.heap.ReachesBlock (ptr - headerSize)
  | .combineBlocks => False
  | .userWrite _ => True

/-! ## The list under each edit -/

section Edits

variable {heap : Heap} {live : List (Nat × Nat)} {blocks : Set Nat} {nodes : List Nat} {b : Nat}

/-- The walk of the list visits blocks only. -/
theorem HeapInv.node_mem (hinv : HeapInv heap live blocks)
    (hpath : Path (listNext heap.mem) (pointer heap.freeListHead) nodes) :
    ∀ c ∈ nodes, c ∈ blocks :=
  fun c hc => hinv.listed c ((Reach.iff_mem hpath).mpr hc)

theorem path_setFree (hinv : HeapInv heap live blocks) (hb : b ∈ blocks) (value : Nat)
    (hpath : Path (listNext heap.mem) (pointer heap.freeListHead) nodes) :
    Path (listNext (setFree heap.mem b value)) (pointer heap.freeListHead) nodes := by
  refine hpath.congr fun c hc => ?_
  rcases eq_or_ne c b with rfl | hne
  · simp [listNext]
  · have hapart := hinv.header_apart hb (hinv.node_mem hpath c hc) hne.symm
    exact (SameHeader.setFree hapart).listNext_eq

/-- A split puts the new block right behind the one it was cut from. -/
theorem path_splitBlock {mem : ByteMap} {front rest : List Nat} {size : Nat}
    (hinv : HeapInv heap live blocks)
    (hsplit : SplitResult heap.mem mem b size) (hlarge : size + 16 < blockSize heap.mem b)
    (hpath : Path (listNext heap.mem) (pointer heap.freeListHead) (front ++ b :: rest)) :
    Path (listNext mem) (pointer heap.freeListHead)
      (front ++ b :: (b + 16 + size) :: rest) := by
  have hmem := hinv.node_mem hpath
  have hb : b ∈ blocks := hmem b (by simp)
  have hsame : ∀ c ∈ front ++ b :: rest, c ≠ b → listNext mem c = listNext heap.mem c := by
    intro c hc hne
    refine (hsplit.same c ?_ ?_).listNext_eq
    · have := hinv.header_apart hb (hmem c hc) hne.symm
      omega
    · rcases Nat.lt_or_gt_of_ne hne with hlt | hgt
      · have := hinv.apart c (hmem c hc) b hb hlt
        omega
      · have := hinv.apart b hb c (hmem c hc) hgt
        omega
  have hnodup := hpath.nodup
  have hfresh : b ∉ front ∧ b ∉ rest := by
    simp only [List.nodup_append, List.nodup_cons, List.mem_cons] at hnodup
    grind
  refine hpath.splice (fun c hc => hsame c (by simp [hc]) fun heq => hfresh.1 (heq ▸ hc)) ?_
  have hlink : listNext mem b = some (b + 16 + size) := by
    rw [listNext, hsplit.next_eq, pointer_eq_some]
    exact ⟨by omega, rfl⟩
  have hnext : listNext mem (b + 16 + size) = listNext heap.mem b := by
    rw [listNext, hsplit.next_new, listNext]
  rw [hlink]
  refine .cons ?_
  rw [hnext]
  exact hpath.tail_of_append.congr fun c hc =>
    hsame c (by simp [hc]) fun heq => hfresh.2 (heq ▸ hc)

/-- Freeing a block that is not listed prepends it. -/
theorem path_relink (hinv : HeapInv heap live blocks) (hb : b ∈ blocks)
    (hpath : Path (listNext heap.mem) (pointer heap.freeListHead) nodes) (hfresh : b ∉ nodes) :
    Path (listNext (setNext heap.mem b heap.freeListHead)) (pointer b) (b :: nodes) := by
  have hpos := hinv.low b hb
  have hstart : pointer b = some b := by simp; omega
  have hnext : listNext (setNext heap.mem b heap.freeListHead) b = pointer heap.freeListHead := by
    rw [listNext, blockNext_setNext, Nat.mod_eq_of_lt hinv.head_lt]
  rw [hstart]
  refine .cons ?_
  rw [hnext]
  refine hpath.congr fun c hc => ?_
  have hne : b ≠ c := fun heq => hfresh (heq ▸ hc)
  exact (SameHeader.setNext (hinv.header_apart hb (hinv.node_mem hpath c hc) hne)).listNext_eq

/-- Freeing a block that is listed closes a cycle through it. -/
theorem not_path_relink (hinv : HeapInv heap live blocks) (hlisted : heap.ReachesBlock b) :
    ¬ Path (listNext (setNext heap.mem b heap.freeListHead)) (pointer b) nodes := by
  have hb := hinv.listed b hlisted
  have hpos := hinv.low b hb
  have hstart : pointer b = some b := by simp; omega
  have hnext : listNext (setNext heap.mem b heap.freeListHead) b = pointer heap.freeListHead := by
    rw [listNext, blockNext_setNext, Nat.mod_eq_of_lt hinv.head_lt]
  -- Until it first meets `b`, the old walk is also a walk of the new list.
  have hwalk : ∀ c, heap.ReachesBlock c →
      Reach (listNext (setNext heap.mem b heap.freeListHead)) (pointer heap.freeListHead) c ∨
      Reach (listNext (setNext heap.mem b heap.freeListHead)) (pointer heap.freeListHead) b := by
    intro c hreach
    induction hreach with
    | head hfirst => exact .inl (.head hfirst)
    | @step source target hsource hlink ih =>
        refine ih.elim (fun hnew => ?_) .inr
        rcases eq_or_ne source b with rfl | hne
        · exact .inr hnew
        · have hapart := hinv.header_apart hb (hinv.listed source hsource) hne.symm
          have hsame : SameHeader (setNext heap.mem b heap.freeListHead) heap.mem source :=
            .setNext hapart
          exact .inl (.step hnew (hsame.listNext_eq.trans hlink))
  have hcycle := (hwalk b hlisted).elim id id
  rw [← hnext] at hcycle
  exact Reach.not_path_of_cycle hcycle (.head hstart)

end Edits

/-! ## The list over whole runs -/

/-- A tiling together with the finite list of every freed block. -/
structure ListInv (s : HeapState) (blocks : Set Nat) (nodes : List Nat) : Prop where
  tiled : HeapInv s.heap s.live blocks
  path : Path (listNext s.heap.mem) (pointer s.heap.freeListHead) nodes
  freed_listed : ∀ p ∈ s.freed, ∃ b ∈ nodes, p = b + 16 ∧ blockFree s.heap.mem b ≠ 0

namespace ListInv

variable {s t : HeapState} {call : HeapCall} {blocks : Set Nat} {nodes : List Nat}

theorem boot (mem : ByteMap) : ListInv (HeapState.boot mem) ∅ [] where
  tiled := HeapInv.boot mem
  path := .nil
  freed_listed := by simp [HeapState.boot]

/-- Handing out a listed block keeps it listed; the list can only gain the block
a split cuts off. -/
theorem reuse {mem : ByteMap} {size b : Nat} (hinv : ListInv s blocks nodes)
    (hfits : Representable s.heap size)
    (hfind : findFreeBlock s.heap (align8 size) = some b) (hb : b ≠ 0)
    (hmem : mem = splitBlock (setFree s.heap.mem b 0) b (align8 size)) :
    ∃ nodes', Path (listNext mem) (pointer s.heap.freeListHead) nodes' ∧
      ∀ c ∈ nodes, c ∈ nodes' ∧ (c ≠ b → blockFree mem c = blockFree s.heap.mem c) := by
  subst hmem
  obtain ⟨hreach, hfree, -⟩ := findFreeBlockFrom_spec hfind hb
  have hnode : b ∈ nodes := (Reach.iff_mem hinv.path).mp hreach
  have hblock : b ∈ blocks := hinv.tiled.listed b hreach
  have hdead : ∀ q n, (q, n) ∈ s.live → q ≠ b + 16 := by
    rintro q n hlive rfl
    obtain ⟨c, -, heq, -, hused⟩ := hinv.tiled.live_block _ n hlive
    obtain rfl : b = c := Nat.add_right_cancel heq
    exact hfree hused
  have hmarked := hinv.tiled.mark hblock 0 hdead
  have hmarkedPath := path_setFree hinv.tiled hblock 0 hinv.path
  have hmarkedSize : blockSize (setFree s.heap.mem b 0) b = blockSize s.heap.mem b := by simp
  have hmarkedFree : ∀ c ∈ nodes, c ≠ b →
      blockFree (setFree s.heap.mem b 0) c = blockFree s.heap.mem c := by
    intro c hc hne
    have hapart := hinv.tiled.header_apart hblock (hinv.tiled.node_mem hinv.path c hc) hne.symm
    exact (SameHeader.setFree hapart).blockFree_eq
  obtain ⟨hsmall, hend⟩ := hinv.tiled.size_lt hblock
  by_cases hcut : align8 size + 16 < blockSize s.heap.mem b
  · have hresult : SplitResult (setFree s.heap.mem b 0)
        (splitBlock (setFree s.heap.mem b 0) b (align8 size)) b (align8 size) :=
      splitBlock_of_lt (by rwa [hmarkedSize]) (by rwa [hmarkedSize])
        (by rw [hmarkedSize]; omega)
    obtain ⟨front, rest, rfl⟩ := List.append_of_mem hnode
    have hlarge : align8 size + 16 < blockSize (setFree s.heap.mem b 0) b := by rwa [hmarkedSize]
    have hsplitPath := path_splitBlock hmarked hresult hlarge hmarkedPath
    refine ⟨_, hsplitPath, ?_⟩
    intro c hc
    have hkept : c ∈ front ++ b :: (b + 16 + align8 size) :: rest := by
      simp only [List.mem_append, List.mem_cons] at hc ⊢
      exact hc.imp_right (Or.imp_right .inr)
    refine ⟨hkept, fun hne => ?_⟩
    rw [← hmarkedFree c hc hne]
    have hcBlock := hinv.tiled.node_mem hinv.path c hc
    refine (hresult.same c ?_ ?_).blockFree_eq
    · have := hinv.tiled.header_apart hblock hcBlock hne.symm
      omega
    · rcases Nat.lt_or_gt_of_ne hne with hlt | hgt
      · have := hinv.tiled.apart c hcBlock b hblock hlt
        omega
      · have := hinv.tiled.apart b hblock c hcBlock hgt
        omega
  · have hround := align8_le_add size
    have hwhole : splitBlock (setFree s.heap.mem b 0) b (align8 size) =
        setFree s.heap.mem b 0 := by
      apply splitBlock_of_le
      simp only [Representable, headerSize, wordModulus] at hfits
      simp only [hmarkedSize, headerSize, wordModulus]
      omega
    rw [hwhole]
    exact ⟨nodes, hmarkedPath, fun c hc => ⟨hc, hmarkedFree c hc⟩⟩

/-- Every call that lists a block at most once keeps the list finite and complete. -/
theorem step (hinv : ListInv s blocks nodes) (hallowed : ListsOnce s call)
    (hstep : HeapStep s call t) : ∃ blocks' nodes', ListInv t blocks' nodes' := by
  cases hstep with
  | refused hcall =>
      rcases kmalloc_cases hallowed hcall with ⟨b, _, _, hp, _⟩ | ⟨_, _, hp, _⟩ | ⟨_, _, rfl⟩
      · omega
      · omega
      · exact ⟨blocks, nodes, hinv⟩
  | @allocated size p heap' hcall hp =>
      obtain ⟨-, blocks', -, -, htiled, -⟩ := hinv.tiled.malloc hallowed hcall hp
      rcases kmalloc_cases hallowed hcall with
        ⟨b, hb, hfind, rfl, rfl⟩ | ⟨-, hroom, rfl, rfl⟩ | ⟨-, hnull, -⟩
      · obtain ⟨nodes', hpath', hkept⟩ := hinv.reuse hallowed hfind hb rfl
        refine ⟨blocks', nodes', htiled, hpath', fun q hq => ?_⟩
        obtain ⟨hqFreed, hqNe⟩ := List.mem_filter.mp hq
        obtain ⟨c, hc, rfl, hcFree⟩ := hinv.freed_listed q hqFreed
        have hne : c ≠ b := by
          rintro rfl
          simp at hqNe
        exact ⟨c, (hkept c hc).1, rfl, by rwa [(hkept c hc).2 hne]⟩
      · have hbefore : ∀ c ∈ nodes, SameHeader
            (HeapInv.freshHeader s.heap.mem s.heap.heapPtr (align8 size)) s.heap.mem c := by
          intro c hc
          have hinside := hinv.tiled.inside c (hinv.tiled.node_mem hinv.path c hc)
          have hapart : s.heap.heapPtr + 16 ≤ c ∨ c + 16 ≤ s.heap.heapPtr := by omega
          exact ((SameHeader.setNext hapart).trans (.setFree hapart)).trans (.setSize hapart)
        refine ⟨blocks', nodes, htiled, hinv.path.congr fun c hc => (hbefore c hc).listNext_eq,
          fun q hq => ?_⟩
        obtain ⟨c, hc, rfl, hcFree⟩ := hinv.freed_listed q (List.mem_filter.mp hq).1
        exact ⟨c, hc, rfl, by rwa [(hbefore c hc).blockFree_eq]⟩
      · exact absurd hnull hp
  | freedNull => exact absurd rfl hallowed.1
  | @freed p n hlive =>
      obtain ⟨b, hb, rfl, -, -⟩ := hinv.tiled.live_block p n hlive
      have hend := (hinv.tiled.size_lt hb).2
      have hheader : (b + 16 + 2 ^ 64 - 16) % 2 ^ 64 = b := by omega
      have hfresh : b ∉ nodes := by
        intro hmem
        exact hallowed.2 ((Reach.iff_mem hinv.path).mpr hmem)
      have hkept : HeapInv s.heap (s.live.filter fun payload => payload.1 ≠ b + 16) blocks :=
        hinv.tiled.mono_live fun payload hmem => (List.mem_filter.mp hmem).1
      have hmarked := hkept.mark hb 1 fun q m hmem => by
        simpa using (List.mem_filter.mp hmem).2
      have hpath := path_relink hmarked hb (path_setFree hinv.tiled hb 1 hinv.path) hfresh
      have hheap : kfree s.heap (b + 16) = { s.heap with
          mem := setNext (setFree s.heap.mem b 1) b s.heap.freeListHead
          freeListHead := b } := by
        simp only [kfree, headerSize, wordModulus, hheader, if_neg (Nat.succ_ne_zero _)]
      refine ⟨blocks, b :: nodes, hinv.tiled.free hlive, ?_, ?_⟩
      · simpa only [hheap] using hpath
      · simp only [hheap]
        intro q hq
        rcases List.mem_cons.mp hq with rfl | hold
        · exact ⟨b, List.mem_cons_self, rfl, by simp⟩
        · obtain ⟨c, hc, rfl, hcFree⟩ := hinv.freed_listed q hold
          refine ⟨c, List.mem_cons_of_mem _ hc, rfl, ?_⟩
          have hne : b ≠ c := fun heq => hfresh (heq ▸ hc)
          have hapart := hinv.tiled.header_apart hb (hinv.tiled.node_mem hinv.path c hc) hne
          have hsame : SameHeader (setNext (setFree s.heap.mem b 1) b s.heap.freeListHead)
              s.heap.mem c := (SameHeader.setNext hapart).trans (.setFree hapart)
          rwa [hsame.blockFree_eq]
  | combined => exact absurd hallowed id
  | wrote hinside =>
      have hsame := hinv.tiled.sameHeader_of_userWrite hinside
      have hnode := hinv.tiled.node_mem hinv.path
      refine ⟨blocks, nodes, hinv.tiled.of_sameHeader hsame,
        hinv.path.congr fun c hc => (hsame c (hnode c hc)).listNext_eq, fun q hq => ?_⟩
      obtain ⟨c, hc, rfl, hcFree⟩ := hinv.freed_listed q hq
      exact ⟨c, hc, rfl, by rwa [(hsame c (hnode c hc)).blockFree_eq]⟩

/-- What the invariant promises a client. -/
theorem sound (hinv : ListInv s blocks nodes) : FreeListSound s := by
  have hfind : ∀ size, findFreeBlockFrom s.heap.mem size s.heap.freeListHead =
      some ((nodes.find? fun b =>
        blockFree s.heap.mem b ≠ 0 ∧ size ≤ blockSize s.heap.mem b).getD 0) :=
    fun size => findFreeBlockFrom_of_path hinv.path
  refine ⟨nodes, hinv.path, ?_, ?_, ?_⟩
  · intro p hp
    obtain ⟨b, hb, rfl, -⟩ := hinv.freed_listed p hp
    exact hb
  · intro size
    simp only [kmalloc, findFreeBlock, hfind]
    split_ifs
    · exact ⟨_, _, rfl⟩
    · cases createBlock s.heap (align8 size) with
      | none => exact ⟨_, _, rfl⟩
      | some created => exact ⟨_, _, rfl⟩
  · intro size p hp hlarge
    obtain ⟨b, hb, rfl, hfree⟩ := hinv.freed_listed p hp
    cases hfirst : nodes.find? fun c =>
        blockFree s.heap.mem c ≠ 0 ∧ align8 size ≤ blockSize s.heap.mem c with
    | none =>
        have hnone := List.find?_eq_none.mp hfirst b hb
        simp only [decide_eq_true_eq, not_and] at hnone
        exact absurd hlarge (hnone hfree)
    | some c =>
        have hc := List.mem_of_find?_eq_some hfirst
        have hpos := hinv.tiled.low c (hinv.tiled.node_mem hinv.path c hc)
        have hfound : findFreeBlock s.heap (align8 size) = some c := by
          rw [findFreeBlock, hfind, hfirst]
          rfl
        exact ⟨c + 16, _, kmalloc_reuse hfound (by omega), by omega, hc, rfl⟩

/-- Every state of a run that lists each block at most once. -/
theorem of_run {mem : ByteMap} (hrun : HeapRun ListsOnce (HeapState.boot mem) s) :
    ∃ blocks nodes, ListInv s blocks nodes := by
  induction hrun with
  | refl => exact ⟨∅, [], ListInv.boot mem⟩
  | tail _ hnext ih =>
      obtain ⟨blocks, nodes, hinv⟩ := ih
      obtain ⟨call, hallowed, hstep⟩ := hnext
      exact hinv.step hallowed hstep

end ListInv

/-- Freeing a live payload whose block is still listed ends all of it at once. -/
theorem not_sound_of_relisted {s : HeapState} {blocks : Set Nat} {p n : Nat}
    {live : List (Nat × Nat)} {freed : List Nat} (hinv : HeapInv s.heap s.live blocks)
    (hlive : (p, n) ∈ s.live) (hlisted : s.heap.ReachesBlock (p - headerSize)) :
    ¬ FreeListSound ⟨kfree s.heap p, live, freed⟩ := by
  obtain ⟨b, hb, rfl, -, -⟩ := hinv.live_block p n hlive
  have hend := (hinv.size_lt hb).2
  have hheader : (b + 16 + 2 ^ 64 - 16) % 2 ^ 64 = b := by omega
  have hkept : HeapInv s.heap (s.live.filter fun payload => payload.1 ≠ b + 16) blocks :=
    hinv.mono_live fun payload hmem => (List.mem_filter.mp hmem).1
  have hmarked := hkept.mark hb 1 fun q m hmem => by
    simpa using (List.mem_filter.mp hmem).2
  have hmarkedListed : Reach (listNext (setFree s.heap.mem b 1))
      (pointer s.heap.freeListHead) b := by
    refine hlisted.congr fun c hc => ?_
    rcases eq_or_ne c b with rfl | hne
    · simp [listNext]
    · have hapart := hinv.header_apart hb (hinv.listed c hc) hne.symm
      exact (SameHeader.setFree hapart).listNext_eq
  rintro ⟨nodes, hpath, -⟩
  simp only [kfree, headerSize, wordModulus, hheader, if_neg (Nat.succ_ne_zero _)] at hpath
  exact not_path_relink hmarked hmarkedListed hpath

/-- **The free list stays a list.**  In a run that never frees a block which is
still listed, every reached state has a finite list of all freed blocks, every
`kmalloc` returns, and a large enough freed block is reused. -/
theorem freeList_sound_of_listsOnce {mem : ByteMap} {s : HeapState}
    (hrun : HeapRun ListsOnce (HeapState.boot mem) s) : FreeListSound s := by
  obtain ⟨blocks, nodes, hinv⟩ := ListInv.of_run hrun
  exact hinv.sound

/-! ## Free, reuse, free -/

section Relisting

/-- Boot memory of the runs below. -/
def blankMemory : ByteMap := fun _ => 0

/-- The heap after `kmalloc(8)`. -/
def heapAllocated : Heap where
  mem := HeapInv.freshHeader blankMemory 0x200000 8
  heapPtr := 0x200018
  heapEnd := 0x500000
  freeListHead := 0

/-- The heap after freeing that payload. -/
def heapFreed : Heap where
  mem := setNext (setFree heapAllocated.mem 0x200000 1) 0x200000 0
  heapPtr := 0x200018
  heapEnd := 0x500000
  freeListHead := 0x200000

/-- The heap after `kmalloc(8)` handed the same payload out again. -/
def heapReused : Heap := { heapFreed with mem := setFree heapFreed.mem 0x200000 0 }

theorem kmalloc_blank : kmalloc (kallocInit blankMemory) 8 = some (0x200010, heapAllocated) :=
  kmalloc_boot blankMemory (by decide)

theorem kmalloc_freed : kmalloc heapFreed 8 = some (0x200010, heapReused) := by
  have hsize : blockSize heapFreed.mem 0x200000 = 8 := by
    simp [heapFreed, heapAllocated, HeapInv.freshHeader]
  have hfree : blockFree heapFreed.mem 0x200000 = 1 := by
    simp [heapFreed]
  have hfind : findFreeBlock heapFreed (align8 8) = some 0x200000 := by
    rw [findFreeBlock, findFreeBlockFrom_eq, if_neg (by decide), if_pos]
    · rfl
    · exact ⟨by rw [show heapFreed.freeListHead = 0x200000 from rfl, hfree]; decide,
        by rw [show heapFreed.freeListHead = 0x200000 from rfl, hsize]; decide⟩
  have hwhole : splitBlock (setFree heapFreed.mem 0x200000 0) 0x200000 (align8 8) =
      setFree heapFreed.mem 0x200000 0 := by
    apply splitBlock_of_le
    rw [blockSize_setFree, hsize]
    decide
  rw [kmalloc_reuse hfind (by decide), hwhole]
  rfl

/-- Allocating, freeing, reusing and freeing one block makes the list cyclic. -/
theorem freeList_not_sound_after_reuse :
    ¬ ∀ s, HeapRun MallocFreeOnly (HeapState.boot blankMemory) s → FreeListSound s := by
  intro hsound
  let allocated : HeapState := ⟨heapAllocated, [(0x200010, 8)], []⟩
  let reused : HeapState := ⟨heapReused, [(0x200010, 8)], []⟩
  have hfirst : HeapStep (HeapState.boot blankMemory) (.kmalloc 8) allocated :=
    .allocated kmalloc_blank (by decide)
  have hsecond : HeapStep allocated (.kfree 0x200010) ⟨heapFreed, [], [0x200010]⟩ :=
    .freed (n := 8) List.mem_cons_self
  have hthird : HeapStep ⟨heapFreed, [], [0x200010]⟩ (.kmalloc 8) reused :=
    .allocated kmalloc_freed (by decide)
  have hfourth : HeapStep reused (.kfree 0x200010) ⟨kfree heapReused 0x200010, [], [0x200010]⟩ :=
    .freed (n := 8) List.mem_cons_self
  have hrun : HeapRun MallocFreeOnly (HeapState.boot blankMemory)
      ⟨kfree heapReused 0x200010, [], [0x200010]⟩ :=
    (((HeapRun.call .refl hfirst trivial).call hsecond (Nat.succ_ne_zero _)).call
      hthird trivial).call hfourth (Nat.succ_ne_zero _)
  have hsmall : ∀ s : HeapState, RequestAtMost (2 ^ 63) s (.kmalloc 8) := fun _ => by
    simp [RequestAtMost]
  have hbounded : HeapRun (RequestAtMost (2 ^ 63)) (HeapState.boot blankMemory) reused :=
    ((HeapRun.call .refl hfirst (hsmall _)).call hsecond trivial).call hthird (hsmall _)
  obtain ⟨blocks, hinv⟩ := HeapInv.of_run hbounded
  have hlive : (0x200010, 8) ∈ reused.live := List.mem_cons_self
  have hlisted : reused.heap.ReachesBlock (0x200010 - headerSize) := .head rfl
  exact not_sound_of_relisted hinv hlive hlisted (hsound _ hrun)

end Relisting

/-- One allocation and its release list the block once. -/
theorem freeList_sound_after_free : FreeListSound ⟨heapFreed, [], [0x200010]⟩ := by
  have hfits : Representable (kallocInit blankMemory) 8 := by
    change 0x200000 + 16 + (8 + 7) < 2 ^ 64
    decide
  have hfirst : HeapStep (HeapState.boot blankMemory) (.kmalloc 8)
      ⟨heapAllocated, [(0x200010, 8)], []⟩ := .allocated kmalloc_blank (by decide)
  have hsecond : HeapStep ⟨heapAllocated, [(0x200010, 8)], []⟩ (.kfree 0x200010)
      ⟨heapFreed, [], [0x200010]⟩ := .freed (n := 8) List.mem_cons_self
  have hunlisted : ¬ heapAllocated.ReachesBlock (0x200010 - headerSize) := by
    intro hreach
    have hempty : Path (listNext heapAllocated.mem) (pointer heapAllocated.freeListHead) [] := .nil
    exact absurd ((Reach.iff_mem hempty).mp hreach) List.not_mem_nil
  exact freeList_sound_of_listsOnce
    ((HeapRun.call .refl hfirst hfits).call hsecond ⟨Nat.succ_ne_zero _, hunlisted⟩)

end GeckoOS.Mem
