/-
# Allocator calls keep the tiling

`kmalloc` either reuses a listed block, lays a new one out at `heap_ptr`, or
refuses; `kfree` marks and relinks; `combine_blocks` merges along the list.
Each call is a short sequence of the edits the tiling invariant survives.

The one point with an argument of its own is `combine_blocks`.  A merge removes a
block, which is only sound while no list position still refers to it, and the
list may be cyclic.  But on a cyclic list the call never returns, so a call that
does return walked a finite list, on which every block has one position.
-/

import GeckoOS.Mem.HeapTiling

namespace GeckoOS.Mem

open GeckoOS.Math ByteMap

/-! ## `kmalloc` -/

theorem align8_le_add (size : Nat) : align8 size ≤ size + 7 := by
  have hwrap := Nat.mod_le (size + 7) wordModulus
  unfold align8
  omega

theorem le_align8 {size : Nat} (hsmall : size + 7 < 2 ^ 64) : size ≤ align8 size := by
  simp only [align8, wordModulus, Nat.mod_eq_of_lt hsmall]
  omega

theorem eight_dvd_align8 (size : Nat) : 8 ∣ align8 size := Nat.dvd_mul_left 8 _

/-- A request is representable when neither rounding it up nor laying it out at
`heap_ptr` wraps around the address space. -/
def Representable (heap : Heap) (size : Nat) : Prop :=
  heap.heapPtr + headerSize + (size + 7) < wordModulus

section Calls

variable {heap heap' : Heap} {size p b : Nat}

/-- A block found on the list is handed out again. -/
theorem kmalloc_reuse (hfind : findFreeBlock heap (align8 size) = some b) (hb : b ≠ 0) :
    kmalloc heap size = some (b + 16,
      { heap with mem := splitBlock (setFree heap.mem b 0) b (align8 size) }) := by
  simp [kmalloc, hfind, hb]

/-- With nothing to reuse, a representable request is laid out at `heap_ptr` if
that leaves it below `heap_end`, and refused otherwise. -/
theorem kmalloc_grow (hfits : Representable heap size)
    (hfind : findFreeBlock heap (align8 size) = some 0) :
    kmalloc heap size =
      if heap.heapEnd < heap.heapPtr + 16 + align8 size then some (0, heap)
      else some (heap.heapPtr + 16, { heap with
        mem := HeapInv.freshHeader heap.mem heap.heapPtr (align8 size)
        heapPtr := heap.heapPtr + 16 + align8 size }) := by
  have hround := align8_le_add size
  have hdvd := eight_dvd_align8 size
  simp only [Representable, headerSize, wordModulus] at hfits
  have hsum : (heap.heapPtr + 16 + align8 size) % 2 ^ 64 = heap.heapPtr + 16 + align8 size :=
    Nat.mod_eq_of_lt (by omega)
  have hheader : align8 ((16 + align8 size) % 2 ^ 64) = 16 + align8 size := by
    rw [Nat.mod_eq_of_lt (by omega)]
    conv_lhs => rw [align8]
    rw [Nat.mod_eq_of_lt (a := 16 + align8 size + 7) (by simp only [wordModulus]; omega)]
    omega
  have hstep : (heap.heapPtr + align8 ((16 + align8 size) % 2 ^ 64)) % 2 ^ 64 =
      heap.heapPtr + 16 + align8 size := by
    rw [hheader, Nat.mod_eq_of_lt (by omega), Nat.add_assoc]
  simp only [kmalloc, hfind, createBlock, headerSize, wordModulus, hsum, hstep, ne_eq,
    not_true_eq_false, if_false]
  split_ifs <;> rfl

/-- What a returning `kmalloc` does: reuse a listed block, create one, or refuse. -/
theorem kmalloc_cases (hfits : Representable heap size)
    (hcall : kmalloc heap size = some (p, heap')) :
    (∃ b, b ≠ 0 ∧ findFreeBlock heap (align8 size) = some b ∧ p = b + 16 ∧
      heap' = { heap with mem := splitBlock (setFree heap.mem b 0) b (align8 size) }) ∨
    (findFreeBlock heap (align8 size) = some 0 ∧
      heap.heapPtr + 16 + align8 size ≤ heap.heapEnd ∧ p = heap.heapPtr + 16 ∧
      heap' = { heap with
        mem := HeapInv.freshHeader heap.mem heap.heapPtr (align8 size)
        heapPtr := heap.heapPtr + 16 + align8 size }) ∨
    (findFreeBlock heap (align8 size) = some 0 ∧ p = 0 ∧ heap' = heap) := by
  cases hfind : findFreeBlock heap (align8 size) with
  | none => simp [kmalloc, hfind] at hcall
  | some b =>
      by_cases hb : b = 0
      · subst hb
        rw [kmalloc_grow hfits hfind] at hcall
        split_ifs at hcall with hroom
        · obtain ⟨rfl, rfl⟩ := Prod.mk.inj (Option.some.inj hcall)
          exact .inr (.inr ⟨rfl, rfl, rfl⟩)
        · obtain ⟨rfl, rfl⟩ := Prod.mk.inj (Option.some.inj hcall)
          exact .inr (.inl ⟨rfl, Nat.not_lt.mp hroom, rfl, rfl⟩)
      · rw [kmalloc_reuse hfind hb] at hcall
        obtain ⟨rfl, rfl⟩ := Prod.mk.inj (Option.some.inj hcall)
        exact .inl ⟨b, hb, rfl, rfl, rfl⟩

/-- The first request after boot gets the start of the heap if it fits at all. -/
theorem kmalloc_boot (mem : ByteMap) (hroom : size ≤ heapLimit - heapStart - headerSize) :
    kmalloc (kallocInit mem) size = some (heapStart + 16, { kallocInit mem with
      mem := HeapInv.freshHeader mem heapStart (align8 size)
      heapPtr := heapStart + 16 + align8 size }) := by
  simp only [heapLimit, heapStart, headerSize] at hroom
  have hfind : findFreeBlock (kallocInit mem) (align8 size) = some 0 := by
    rw [findFreeBlock, findFreeBlockFrom_eq]
    rfl
  have hfits : Representable (kallocInit mem) size := by
    simp only [Representable, kallocInit, heapStart, headerSize, wordModulus]
    omega
  have hround := align8_le_add size
  have hdvd := eight_dvd_align8 size
  rw [kmalloc_grow hfits hfind, if_neg]
  · rfl
  · simp only [kallocInit, heapStart, heapLimit]
    omega

end Calls

namespace HeapInv

variable {heap heap' : Heap} {live : List (Nat × Nat)} {blocks : Set Nat} {size p : Nat}

/-- A payload `kmalloc` returns starts a block that was not in use, and the
tiling goes on with that payload live. -/
theorem malloc (hinv : HeapInv heap live blocks) (hfits : Representable heap size)
    (hcall : kmalloc heap size = some (p, heap')) (hp : p ≠ 0) :
    ∃ b blocks', p = b + 16 ∧ b ∈ blocks' ∧ HeapInv heap' ((p, size) :: live) blocks' ∧
      (∀ q n, (q, n) ∈ live → q ≠ p) := by
  have hsize : size ≤ align8 size := le_align8 (by
    simp only [Representable, headerSize, wordModulus] at hfits; omega)
  rcases kmalloc_cases hfits hcall with
    ⟨b, hb, hfind, rfl, rfl⟩ | ⟨-, hroom, rfl, rfl⟩ | ⟨-, hnull, -⟩
  · obtain ⟨hreach, hfree, hlarge⟩ := findFreeBlockFrom_spec hfind hb
    have hmem := hinv.listed b hreach
    have hdead : ∀ q n, (q, n) ∈ live → q ≠ b + 16 := by
      rintro q n hlive rfl
      obtain ⟨c, -, heq, -, hused⟩ := hinv.live_block _ n hlive
      obtain rfl : b = c := by omega
      exact hfree hused
    have hmarked := hinv.mark hmem 0 hdead
    have hflag : blockFree (setFree heap.mem b 0) b = 0 := by simp
    have hmarkedSize : blockSize (setFree heap.mem b 0) b = blockSize heap.mem b := by simp
    have hend := (hinv.size_lt hmem).2
    by_cases hcut : align8 size + 16 < blockSize heap.mem b
    · have hlow := hinv.low b hmem
      have hsplit := hmarked.split hmem (eight_dvd_align8 size) (by simpa using hcut) hdead
      have hresult : SplitResult (setFree heap.mem b 0)
          (splitBlock (setFree heap.mem b 0) b (align8 size)) b (align8 size) :=
        splitBlock_of_lt (by rwa [hmarkedSize]) (by rw [hmarkedSize]; exact (hinv.size_lt hmem).1)
          (by rw [hmarkedSize]; omega)
      refine ⟨b, insert (b + 16 + align8 size) blocks, rfl, Set.mem_insert_of_mem _ hmem,
        ?_, hdead⟩
      refine hsplit.add_live (Set.mem_insert_of_mem _ hmem) ?_ ?_
      · simpa only [hresult.size_eq] using hsize
      · simp only [hresult.free_eq, hflag]
    · have hwhole : splitBlock (setFree heap.mem b 0) b (align8 size) =
          setFree heap.mem b 0 := by
        apply splitBlock_of_le
        simp only [hmarkedSize, headerSize, wordModulus]
        simp only [Representable, headerSize, wordModulus] at hfits
        have := align8_le_add size
        omega
      refine ⟨b, blocks, rfl, hmem, ?_, hdead⟩
      rw [hwhole]
      exact hmarked.add_live hmem (by simp only [hmarkedSize]; omega) hflag
  · rw [hinv.end_eq] at hroom
    have hcreated := hinv.create (eight_dvd_align8 size) hroom
    refine ⟨heap.heapPtr, insert heap.heapPtr blocks, rfl, Set.mem_insert _ _, ?_, ?_⟩
    · refine hcreated.add_live (Set.mem_insert _ _) ?_ ?_
      · simp only [freshHeader, blockSize_setNext, blockSize_setFree, blockSize_setSize]
        rw [Nat.mod_eq_of_lt (by omega), signExtend_of_lt (by omega)]
        exact hsize
      · simp [freshHeader]
    · rintro q n hlive rfl
      obtain ⟨c, hc, heq, -⟩ := hinv.live_block _ n hlive
      have := hinv.inside c hc
      omega
  · exact absurd hnull hp

/-- Freeing a live payload. -/
theorem free {n : Nat} (hinv : HeapInv heap live blocks) (hlive : (p, n) ∈ live) :
    HeapInv (kfree heap p) (live.filter fun payload => payload.1 ≠ p) blocks := by
  obtain ⟨b, hb, rfl, -, -⟩ := hinv.live_block p n hlive
  have hsize := (hinv.size_lt hb).2
  have hheader : (b + 16 + 2 ^ 64 - 16) % 2 ^ 64 = b := by omega
  have hkept : HeapInv heap (live.filter fun payload => payload.1 ≠ b + 16) blocks :=
    hinv.mono_live fun payload hmem => (List.mem_filter.mp hmem).1
  have hmarked := hkept.mark hb 1 fun q m hmem => by
    simpa using (List.mem_filter.mp hmem).2
  have hlinked := hmarked.relink hb
  simpa only [kfree, headerSize, wordModulus, hheader, if_neg (Nat.succ_ne_zero _)] using
    hlinked

end HeapInv

/-! ## `combine_blocks` -/

/-- Merging touches one header, which takes over the successor it absorbs. -/
theorem mergedHeader_links {mem : ByteMap} {b next : Nat} {listed : Set Nat} (hb : b ∈ listed)
    (hnext : next ∈ listed)
    (hapart : ∀ c ∈ listed, ∀ d ∈ listed, c ≠ d → c + 16 ≤ d ∨ d + 16 ≤ c) :
    (∀ c ∈ listed, c ≠ b → SameHeader (HeapInv.mergedHeader mem b next) mem c) ∧
      listNext (HeapInv.mergedHeader mem b next) b = listNext mem next := by
  constructor
  · intro c hc hne
    have hfar := hapart b hb c hc hne.symm
    exact (SameHeader.setNext hfar).trans (.setSize hfar)
  · simp only [listNext, HeapInv.mergedHeader, blockNext_setNext]
    rw [Nat.mod_eq_of_lt (blockNext_lt _ _)]
    rcases eq_or_ne b next with rfl | hne
    · rw [blockNext_setSize]
    · rw [(SameHeader.setSize (hapart b hb next hnext hne)).blockNext_eq]

/-- If the walk of `combine_blocks` returns then the list it walked was finite.
Only the separation of the listed headers is needed, not the tiling. -/
theorem path_of_combineBlocksFrom {mem result : ByteMap} {b : Nat} (listed : Set Nat)
    (hreturns : combineBlocksFrom mem b = some result)
    (hstart : ∀ c, pointer b = some c → c ∈ listed)
    (hclosed : ∀ c ∈ listed, ∀ d, listNext mem c = some d → d ∈ listed)
    (hapart : ∀ c ∈ listed, ∀ d ∈ listed, c ≠ d → c + 16 ≤ d ∨ d + 16 ≤ c) :
    ∃ nodes, Path (listNext mem) (pointer b) nodes := by
  revert hstart hclosed
  refine combineBlocksFrom_induct (motive := fun mem b => (∀ c, pointer b = some c → c ∈ listed) →
    (∀ c ∈ listed, ∀ d, listNext mem c = some d → d ∈ listed) →
    ∃ nodes, Path (listNext mem) (pointer b) nodes) ?_ ?_ ?_ hreturns
  · intro mem b hlast hstart _
    by_cases hzero : b = 0
    · exact ⟨[], by simp [hzero]⟩
    · have hnone : listNext mem b = none := by
        simp only [listNext, pointer_eq_none]
        by_contra hne
        exact hlast ⟨hzero, hne⟩
      refine ⟨[b], ?_⟩
      rw [Path.cons_iff]
      exact ⟨by simpa using hzero, by simpa using hnone⟩
  · intro mem b hb hbNext ih hstart hclosed
    have hbMem : b ∈ listed := hstart b (by simpa using hb)
    have hnext : listNext mem b = some (blockNext mem b) := by simpa [listNext] using hbNext
    have hnextMem := hclosed b hbMem _ hnext
    have hpointer : pointer b = some b := by simpa using hb
    obtain ⟨hsame, hlink⟩ := mergedHeader_links hbMem hnextMem hapart
    have hclosed' : ∀ c ∈ listed, ∀ d,
        listNext (HeapInv.mergedHeader mem b (blockNext mem b)) c = some d → d ∈ listed := by
      intro c hc d hd
      rcases eq_or_ne c b with rfl | hne
      · exact hclosed _ hnextMem d (hlink ▸ hd)
      · exact hclosed c hc d ((hsame c hc hne).listNext_eq ▸ hd)
    obtain ⟨nodes, hpath⟩ := ih hstart hclosed'
    have hlisted : ∀ d ∈ nodes, d ∈ listed := fun d hd =>
      ((Reach.iff_mem hpath).mpr hd).invariant hstart
        fun c d hc => hclosed' c hc d
    rw [hpointer] at hpath
    cases hpath with
    | @cons _ rest hrest =>
        have hfresh : b ∉ rest := (List.nodup_cons.mp (Path.cons hrest).nodup).1
        change Path (listNext (HeapInv.mergedHeader mem b (blockNext mem b)))
          (listNext (HeapInv.mergedHeader mem b (blockNext mem b)) b) rest at hrest
        rw [hlink] at hrest
        have hrest' : Path (listNext mem) (listNext mem (blockNext mem b)) rest := by
          refine hrest.congr fun d hd => ?_
          have hne : d ≠ b := fun heq => hfresh (heq ▸ hd)
          exact (hsame d (hlisted d (List.mem_cons_of_mem _ hd)) hne).listNext_eq.symm
        exact ⟨b :: blockNext mem b :: rest, hpointer ▸ .cons (hnext ▸ .cons hrest')⟩
  · intro mem b hb _ ih hstart hclosed
    have hbMem : b ∈ listed := hstart b (by simpa using hb)
    have hpointer : pointer b = some b := by simpa using hb
    obtain ⟨nodes, hpath⟩ := ih (fun c hc => hclosed b hbMem c hc) hclosed
    exact ⟨b :: nodes, hpointer ▸ .cons hpath⟩

namespace HeapInv

variable {heap : Heap} {live : List (Nat × Nat)} {blocks : Set Nat}

/-- Along a finite list, from any position reached so far, merging keeps a tiling. -/
theorem combineFrom {mem : ByteMap} {rest : List Nat} {b : Nat}
    (hinv : HeapInv heap live blocks) (front : List Nat)
    (hpath : Path (listNext heap.mem) (pointer heap.freeListHead) (front ++ b :: rest))
    (hcall : combineBlocksFrom heap.mem b = some mem) :
    ∃ blocks', HeapInv { heap with mem := mem } live blocks' := by
  have hb : pointer b = some b := by
    have hmem := hinv.listed b ((Reach.iff_mem hpath).mpr (by simp))
    have := hinv.low b hmem
    simp
    omega
  have hb' : b ≠ 0 := by simpa using hb
  induction hlength : rest.length generalizing heap blocks front b rest with
  | zero =>
      obtain rfl := List.length_eq_zero_iff.mp hlength
      have hlast : blockNext heap.mem b = 0 := by simpa [listNext] using hpath.next_last
      rw [combineBlocksFrom_eq, if_neg (by simp [hlast])] at hcall
      obtain rfl := Option.some.inj hcall
      exact ⟨blocks, hinv⟩
  | succ length ih =>
      cases rest with
      | nil => cases hlength
      | cons c rest =>
          have hlink : listNext heap.mem b = some c := (Path.cons_iff.mp hpath.tail_of_append).1
          obtain ⟨hc, hcEq⟩ := pointer_eq_some.mp hlink
          rw [combineBlocksFrom_eq, if_pos ⟨hb', hc⟩] at hcall
          simp only [hcEq] at hcall
          have hlength' : rest.length = length := by simpa using hlength
          have hbMem := hinv.listed b ((Reach.iff_mem hpath).mpr (by simp))
          have hend := (hinv.size_lt hbMem).2
          split_ifs at hcall with hmerge
          · have hbehind : c = b + 16 + blockSize heap.mem b := by
              have := hmerge.1
              simp only [headerSize, wordModulus] at this
              omega
            obtain ⟨hinv', hpath'⟩ := hinv.merge hpath hbehind hmerge.2
            have hrest := ih hinv' front hpath' hcall hb hb' hlength'
            exact hrest
          · have hpath' : Path (listNext heap.mem) (pointer heap.freeListHead)
                ((front ++ [b]) ++ c :: rest) := by simpa using hpath
            have hc' : c ≠ 0 := hcEq ▸ hc
            exact ih hinv (front ++ [b]) hpath' hcall (by simpa using hc') hc' hlength'

/-- `combine_blocks`, when it returns. -/
theorem combine {heap' : Heap} (hinv : HeapInv heap live blocks)
    (hcall : combineBlocks heap = some heap') : ∃ blocks', HeapInv heap' live blocks' := by
  obtain ⟨mem, hloop, rfl⟩ := Option.map_eq_some_iff.mp hcall
  obtain ⟨nodes, hpath⟩ := path_of_combineBlocksFrom { b | heap.ReachesBlock b } hloop
    (fun _ => Reach.head) (fun _ hc _ => Reach.step hc)
    (fun c hc d hd hne => hinv.header_apart (hinv.listed c hc) (hinv.listed d hd) hne)
  cases nodes with
  | nil =>
      have hhead : heap.freeListHead = 0 := by simpa using hpath
      rw [hhead, combineBlocksFrom_eq, if_neg (by simp)] at hloop
      obtain rfl := Option.some.inj hloop
      exact ⟨blocks, hinv⟩
  | cons b rest =>
      obtain ⟨hstart, -⟩ := Path.cons_iff.mp hpath
      obtain ⟨-, heq⟩ := pointer_eq_some.mp hstart
      rw [heq] at hloop
      exact hinv.combineFrom [] (by simpa using hpath) hloop

end HeapInv

end GeckoOS.Mem
