/-
# The blocks tile the heap

The free list keeps allocated blocks, is relinked at the head and may even be
cyclic, so nothing about disjointness can be read off it.  The invariant here
ignores the shape of the list.  It speaks of a set of blocks that tile the heap
between its start and `heap_ptr`, asks that every block the list can reach is
one of them, and that every live payload lies in a block marked used.

Each primitive edit, marking a block, splitting it, creating one behind the
last, relinking a freed one and merging two neighbours, preserves the invariant
for a possibly different set of blocks.
-/

import Mathlib.Data.Set.Insert
import GeckoOS.Mem.HeapBlocks

namespace GeckoOS.Mem

open GeckoOS.Math ByteMap

/-- `blocks` tile the heap from its start to `heap_ptr`, hold every listed block,
and hold every live payload `(p, n)` in a block marked used. -/
structure HeapInv (heap : Heap) (live : List (Nat × Nat)) (blocks : Set Nat) : Prop where
  end_eq : heap.heapEnd = 0x500000
  ptr_ge : 0x200000 ≤ heap.heapPtr
  ptr_le : heap.heapPtr ≤ 0x500000
  ptr_aligned : 8 ∣ heap.heapPtr
  first : heap.heapPtr = 0x200000 ∨ 0x200000 ∈ blocks
  low : ∀ b ∈ blocks, 0x200000 ≤ b
  aligned : ∀ b ∈ blocks, 8 ∣ b ∧ 8 ∣ blockSize heap.mem b
  inside : ∀ b ∈ blocks, b + 16 + blockSize heap.mem b ≤ heap.heapPtr
  apart : ∀ b ∈ blocks, ∀ c ∈ blocks, b < c → b + 16 + blockSize heap.mem b ≤ c
  behind : ∀ b ∈ blocks, b + 16 + blockSize heap.mem b = heap.heapPtr ∨
    b + 16 + blockSize heap.mem b ∈ blocks
  listed : ∀ b, heap.ReachesBlock b → b ∈ blocks
  live_block : ∀ p n, (p, n) ∈ live → ∃ b ∈ blocks, p = b + 16 ∧
    n ≤ blockSize heap.mem b ∧ blockFree heap.mem b = 0

namespace HeapInv

variable {heap : Heap} {live : List (Nat × Nat)} {blocks : Set Nat} {b c : Nat}

theorem header_apart (hinv : HeapInv heap live blocks) (hb : b ∈ blocks) (hc : c ∈ blocks)
    (hne : b ≠ c) : b + 16 ≤ c ∨ c + 16 ≤ b := by
  rcases Nat.lt_or_gt_of_ne hne with hlt | hgt
  · have := hinv.apart b hb c hc hlt
    omega
  · have := hinv.apart c hc b hb hgt
    omega

theorem size_lt (hinv : HeapInv heap live blocks) (hb : b ∈ blocks) :
    blockSize heap.mem b < 2 ^ 31 ∧ b + 16 + blockSize heap.mem b ≤ 0x500000 := by
  have hinside := hinv.inside b hb
  have hptr := hinv.ptr_le
  omega

/-- No two blocks end at the same place. -/
theorem eq_of_end_eq (hinv : HeapInv heap live blocks) (hb : b ∈ blocks) (hc : c ∈ blocks)
    (hend : b + 16 + blockSize heap.mem b = c + 16 + blockSize heap.mem c) : b = c := by
  by_contra hne
  rcases Nat.lt_or_gt_of_ne hne with hlt | hgt
  · have := hinv.apart b hb c hc hlt
    omega
  · have := hinv.apart c hc b hb hgt
    omega

/-- The boot heap has no block at all. -/
theorem boot (mem : ByteMap) : HeapInv (kallocInit mem) [] ∅ where
  end_eq := rfl
  ptr_ge := le_refl _
  ptr_le := by
    change 0x200000 ≤ 0x500000
    decide
  ptr_aligned := by simp only [Mem.kallocInit]; decide
  first := .inl rfl
  low := by simp
  aligned := by simp
  inside := by simp
  apart := by simp
  behind := by simp
  listed := by
    intro b hreach
    refine hreach.invariant ?_ fun _ _ hfalse _ => hfalse
    intro first hfirst
    simp [kallocInit] at hfirst
  live_block := by simp

/-- Stores outside every header change nothing the invariant speaks of. -/
theorem of_sameHeader {mem : ByteMap} (hinv : HeapInv heap live blocks)
    (hsame : ∀ b ∈ blocks, SameHeader mem heap.mem b) :
    HeapInv { heap with mem := mem } live blocks where
  end_eq := hinv.end_eq
  ptr_ge := hinv.ptr_ge
  ptr_le := hinv.ptr_le
  ptr_aligned := hinv.ptr_aligned
  first := hinv.first
  low := hinv.low
  aligned b hb := by
    simpa only [(hsame b hb).blockSize_eq] using hinv.aligned b hb
  inside b hb := by
    simpa only [(hsame b hb).blockSize_eq] using hinv.inside b hb
  apart b hb c hc hlt := by
    simpa only [(hsame b hb).blockSize_eq] using hinv.apart b hb c hc hlt
  behind b hb := by
    simpa only [(hsame b hb).blockSize_eq] using hinv.behind b hb
  listed b hreach := by
    refine hinv.listed b (hreach.invariant (fun _ => Reach.head) ?_)
    intro source target hsource hnext
    refine .step hsource ?_
    rwa [← (hsame source (hinv.listed source hsource)).listNext_eq]
  live_block p n hlive := by
    obtain ⟨b, hb, hp, hsize, hfree⟩ := hinv.live_block p n hlive
    exact ⟨b, hb, hp, by rwa [(hsame b hb).blockSize_eq], by rwa [(hsame b hb).blockFree_eq]⟩

/-- Writing the `free` flag of a block that holds no live payload. -/
theorem mark (hinv : HeapInv heap live blocks) (hb : b ∈ blocks) (value : Nat)
    (hdead : ∀ p n, (p, n) ∈ live → p ≠ b + 16) :
    HeapInv { heap with mem := setFree heap.mem b value } live blocks := by
  have hsize : ∀ c ∈ blocks, blockSize (setFree heap.mem b value) c = blockSize heap.mem c := by
    intro c hc
    by_cases heq : c = b
    · subst heq
      simp
    · exact (SameHeader.setFree (hinv.header_apart hb hc (Ne.symm heq))).blockSize_eq
  have hnext : ∀ c ∈ blocks, listNext (setFree heap.mem b value) c = listNext heap.mem c := by
    intro c hc
    by_cases heq : c = b
    · subst heq
      simp [listNext]
    · exact (SameHeader.setFree (hinv.header_apart hb hc (Ne.symm heq))).listNext_eq
  exact
    { end_eq := hinv.end_eq
      ptr_ge := hinv.ptr_ge
      ptr_le := hinv.ptr_le
      ptr_aligned := hinv.ptr_aligned
      first := hinv.first
      low := hinv.low
      aligned := fun c hc => by simpa only [hsize c hc] using hinv.aligned c hc
      inside := fun c hc => by simpa only [hsize c hc] using hinv.inside c hc
      apart := fun c hc d hd hlt => by simpa only [hsize c hc] using hinv.apart c hc d hd hlt
      behind := fun c hc => by simpa only [hsize c hc] using hinv.behind c hc
      listed := fun c hreach => by
        refine hinv.listed c (hreach.invariant (fun _ => Reach.head) ?_)
        intro source target hsource htarget
        refine .step hsource ?_
        rwa [← hnext source (hinv.listed source hsource)]
      live_block := fun p n hlive => by
        obtain ⟨c, hc, hp, hfits, hused⟩ := hinv.live_block p n hlive
        have hne : b ≠ c := fun heq => hdead p n hlive (heq ▸ hp)
        have hsame : SameHeader (setFree heap.mem b value) heap.mem c :=
          .setFree (hinv.header_apart hb hc hne)
        exact ⟨c, hc, hp, by rwa [hsize c hc], by rwa [hsame.blockFree_eq]⟩ }

/-- Cutting a block that holds no live payload, or one that stays inside the
front part. -/
theorem split {size : Nat} (hinv : HeapInv heap live blocks) (hb : b ∈ blocks)
    (haligned : 8 ∣ size) (hlarge : size + 16 < blockSize heap.mem b)
    (hdead : ∀ p n, (p, n) ∈ live → p ≠ b + 16) :
    HeapInv { heap with mem := splitBlock heap.mem b size } live
      (insert (b + 16 + size) blocks) := by
  obtain ⟨hsmall, hend⟩ := hinv.size_lt hb
  have hsplit := splitBlock_of_lt hlarge hsmall (by omega)
  generalize splitBlock heap.mem b size = mem at hsplit ⊢
  have hbAligned := hinv.aligned b hb
  have hbInside := hinv.inside b hb
  have hbLow := hinv.low b hb
  -- Every other block lies wholly before `b` or wholly behind its old end.
  have hother : ∀ c ∈ blocks, c ≠ b →
      SameHeader mem heap.mem c ∧
        (c + 16 + blockSize heap.mem c ≤ b ∨ b + 16 + blockSize heap.mem b ≤ c) := by
    intro c hc hne
    rcases Nat.lt_or_gt_of_ne hne with hlt | hgt
    · have hbefore := hinv.apart c hc b hb hlt
      exact ⟨hsplit.same c (by omega) (by omega), .inl hbefore⟩
    · have hafter := hinv.apart b hb c hc hgt
      exact ⟨hsplit.same c (by omega) (by omega), .inr hafter⟩
  have hnew : b + 16 + size ∉ blocks := by
    intro hmem
    rcases (hother _ hmem (by omega)).2 with hbefore | hafter <;> omega
  constructor
  case end_eq => exact hinv.end_eq
  case ptr_ge => exact hinv.ptr_ge
  case ptr_le => exact hinv.ptr_le
  case ptr_aligned => exact hinv.ptr_aligned
  case first => exact hinv.first.imp_right (Set.mem_insert_of_mem _)
  case low =>
    rintro c (rfl | hc)
    · omega
    · exact hinv.low c hc
  case aligned =>
    rintro c (rfl | hc)
    · rw [hsplit.size_new]
      omega
    · by_cases hcb : c = b
      · subst hcb
        rw [hsplit.size_eq]
        exact ⟨hbAligned.1, haligned⟩
      · rw [(hother c hc hcb).1.blockSize_eq]
        exact hinv.aligned c hc
  case inside =>
    rintro c (rfl | hc)
    · simp only [hsplit.size_new]
      omega
    · by_cases hcb : c = b
      · subst hcb
        simp only [hsplit.size_eq]
        omega
      · simp only [(hother c hc hcb).1.blockSize_eq]
        exact hinv.inside c hc
  case apart =>
    rintro c (rfl | hc) d (rfl | hd) hlt
    · omega
    · rw [hsplit.size_new]
      rcases eq_or_ne d b with rfl | hdb
      · omega
      · rcases (hother d hd hdb).2 with hbefore | hafter <;> omega
    · rcases eq_or_ne c b with rfl | hcb
      · rw [hsplit.size_eq]
      · rw [(hother c hc hcb).1.blockSize_eq]
        rcases (hother c hc hcb).2 with hbefore | hafter <;> omega
    · rcases eq_or_ne c b with rfl | hcb
      · rw [hsplit.size_eq]
        have := hinv.apart c hc d hd hlt
        omega
      · rw [(hother c hc hcb).1.blockSize_eq]
        exact hinv.apart c hc d hd hlt
  case behind =>
    rintro c (rfl | hc)
    · have hback : b + 16 + size + 16 + (blockSize heap.mem b - size - 16) =
          b + 16 + blockSize heap.mem b := by omega
      simp only [hsplit.size_new, hback]
      exact (hinv.behind b hb).imp_right (Set.mem_insert_of_mem _)
    · rcases eq_or_ne c b with rfl | hcb
      · simp only [hsplit.size_eq]
        exact .inr (Set.mem_insert _ _)
      · simp only [(hother c hc hcb).1.blockSize_eq]
        exact (hinv.behind c hc).imp_right (Set.mem_insert_of_mem _)
  case listed =>
    intro c hreach
    -- The new block is entered only through `b`, and leaves where `b` used to.
    have hcases : (c = b + 16 + size ∧ heap.ReachesBlock b) ∨ heap.ReachesBlock c := by
      refine Reach.invariant (motive := fun c => (c = b + 16 + size ∧ heap.ReachesBlock b) ∨
        heap.ReachesBlock c) hreach (fun first hfirst => .inr (.head hfirst)) ?_
      rintro source target (⟨rfl, hfrom⟩ | hsource) hnext
      · rw [listNext, hsplit.next_new] at hnext
        exact .inr (.step hfrom hnext)
      · rcases eq_or_ne source b with rfl | hne
        · rw [listNext, hsplit.next_eq, pointer_eq_some] at hnext
          exact .inl ⟨hnext.2.symm, hsource⟩
        · rw [(hother source (hinv.listed source hsource) hne).1.listNext_eq] at hnext
          exact .inr (.step hsource hnext)
    rcases hcases with ⟨rfl, -⟩ | hold
    · exact Set.mem_insert _ _
    · exact Set.mem_insert_of_mem _ (hinv.listed c hold)
  case live_block =>
    intro p n hlive
    obtain ⟨c, hc, hp, hfits, hused⟩ := hinv.live_block p n hlive
    have hcb : c ≠ b := fun heq => hdead p n hlive (heq ▸ hp)
    have hsame := (hother c hc hcb).1
    exact ⟨c, Set.mem_insert_of_mem _ hc, hp, by rwa [hsame.blockSize_eq],
      by rwa [hsame.blockFree_eq]⟩

/-- Forgetting live payloads. -/
theorem mono_live {fewer : List (Nat × Nat)} (hinv : HeapInv heap live blocks)
    (hsubset : ∀ payload ∈ fewer, payload ∈ live) : HeapInv heap fewer blocks :=
  { hinv with live_block := fun p n hlive => hinv.live_block p n (hsubset _ hlive) }

/-- Handing out a payload inside a block marked used. -/
theorem add_live {n : Nat} (hinv : HeapInv heap live blocks) (hb : b ∈ blocks)
    (hfits : n ≤ blockSize heap.mem b) (hused : blockFree heap.mem b = 0) :
    HeapInv heap ((b + 16, n) :: live) blocks := by
  refine { hinv with live_block := fun p m hlive => ?_ }
  rcases List.mem_cons.mp hlive with heq | hold
  · obtain ⟨rfl, rfl⟩ := Prod.mk.inj heq
    exact ⟨b, hb, rfl, hfits, hused⟩
  · exact hinv.live_block p m hold

/-- `free_list_head` is `NULL` or a block. -/
theorem head_lt (hinv : HeapInv heap live blocks) : heap.freeListHead < 2 ^ 64 := by
  rcases Nat.eq_zero_or_pos heap.freeListHead with hzero | hpos
  · omega
  · have hmem := hinv.listed heap.freeListHead (.head (by simp; omega))
    have hsize := (hinv.size_lt hmem).2
    omega

/-- Relinking a block at the head of the list, wherever it was before. -/
theorem relink (hinv : HeapInv heap live blocks) (hb : b ∈ blocks) :
    HeapInv { heap with
      mem := setNext heap.mem b heap.freeListHead
      freeListHead := b } live blocks := by
  have hother : ∀ c ∈ blocks, c ≠ b →
      SameHeader (setNext heap.mem b heap.freeListHead) heap.mem c :=
    fun c hc hne => .setNext (hinv.header_apart hb hc hne.symm)
  have hsize : ∀ c ∈ blocks,
      blockSize (setNext heap.mem b heap.freeListHead) c = blockSize heap.mem c := by
    intro c hc
    rcases eq_or_ne c b with rfl | hne
    · simp
    · exact (hother c hc hne).blockSize_eq
  exact
    { end_eq := hinv.end_eq
      ptr_ge := hinv.ptr_ge
      ptr_le := hinv.ptr_le
      ptr_aligned := hinv.ptr_aligned
      first := hinv.first
      low := hinv.low
      aligned := fun c hc => by simpa only [hsize c hc] using hinv.aligned c hc
      inside := fun c hc => by simpa only [hsize c hc] using hinv.inside c hc
      apart := fun c hc d hd hlt => by simpa only [hsize c hc] using hinv.apart c hc d hd hlt
      behind := fun c hc => by simpa only [hsize c hc] using hinv.behind c hc
      listed := fun c hreach => by
        have hcases : c = b ∨ heap.ReachesBlock c := by
          refine Reach.invariant (motive := fun c => c = b ∨ heap.ReachesBlock c) hreach
            (fun first hfirst => .inl (pointer_eq_some.mp hfirst).2.symm) ?_
          intro source target hsource hnext
          rcases eq_or_ne source b with rfl | hne
          · rw [listNext, blockNext_setNext, Nat.mod_eq_of_lt hinv.head_lt] at hnext
            exact .inr (.head hnext)
          · have hold := hsource.resolve_left hne
            rw [(hother source (hinv.listed source hold) hne).listNext_eq] at hnext
            exact .inr (.step hold hnext)
        rcases hcases with rfl | hold
        · exact hb
        · exact hinv.listed c hold
      live_block := fun p n hlive => by
        obtain ⟨c, hc, hp, hfits, hused⟩ := hinv.live_block p n hlive
        refine ⟨c, hc, hp, by rwa [hsize c hc], ?_⟩
        rcases eq_or_ne c b with rfl | hne
        · simpa using hused
        · rwa [(hother c hc hne).blockFree_eq] }

/-- The header `create_block` writes. -/
def freshHeader (mem : ByteMap) (b size : Nat) : ByteMap :=
  setNext (setFree (setSize mem b size) b 0) b 0

/-- A block created at `heap_ptr`. -/
theorem create {size : Nat} (hinv : HeapInv heap live blocks) (haligned : 8 ∣ size)
    (hroom : heap.heapPtr + 16 + size ≤ 0x500000) :
    HeapInv { heap with
      mem := freshHeader heap.mem heap.heapPtr size
      heapPtr := heap.heapPtr + 16 + size } live (insert heap.heapPtr blocks) := by
  have hptr := hinv.ptr_ge
  have hother : ∀ c ∈ blocks,
      SameHeader (freshHeader heap.mem heap.heapPtr size) heap.mem c := by
    intro c hc
    have hbefore := hinv.inside c hc
    have hapart : heap.heapPtr + 16 ≤ c ∨ c + 16 ≤ heap.heapPtr := by omega
    exact ((SameHeader.setNext hapart).trans (.setFree hapart)).trans (.setSize hapart)
  have hnewSize : blockSize (freshHeader heap.mem heap.heapPtr size) heap.heapPtr = size := by
    simp only [freshHeader, blockSize_setNext, blockSize_setFree, blockSize_setSize]
    rw [Nat.mod_eq_of_lt (by omega), signExtend_of_lt (by omega)]
  constructor
  case end_eq => exact hinv.end_eq
  case ptr_ge => change _ ≤ heap.heapPtr + 16 + size; omega
  case ptr_le => exact hroom
  case ptr_aligned => have := hinv.ptr_aligned; change 8 ∣ heap.heapPtr + 16 + size; omega
  case first =>
    rcases hinv.first with hempty | hfirst
    · exact .inr (hempty ▸ Set.mem_insert _ _)
    · exact .inr (Set.mem_insert_of_mem _ hfirst)
  case low =>
    rintro c (rfl | hc)
    · exact hptr
    · exact hinv.low c hc
  case aligned =>
    rintro c (rfl | hc)
    · simp only [hnewSize]
      exact ⟨hinv.ptr_aligned, haligned⟩
    · simpa only [(hother c hc).blockSize_eq] using hinv.aligned c hc
  case inside =>
    rintro c (rfl | hc)
    · simp only [hnewSize, le_refl]
    · simp only [(hother c hc).blockSize_eq]
      have := hinv.inside c hc
      omega
  case apart =>
    rintro c (rfl | hc) d (rfl | hd) hlt
    · omega
    · have := hinv.inside d hd
      omega
    · simp only [(hother c hc).blockSize_eq]
      exact hinv.inside c hc
    · simp only [(hother c hc).blockSize_eq]
      exact hinv.apart c hc d hd hlt
  case behind =>
    rintro c (rfl | hc)
    · simp only [hnewSize, true_or]
    · simp only [(hother c hc).blockSize_eq]
      rcases hinv.behind c hc with hlast | hnext
      · exact .inr (hlast ▸ Set.mem_insert _ _)
      · exact .inr (Set.mem_insert_of_mem _ hnext)
  case listed =>
    intro c hreach
    refine Set.mem_insert_of_mem _ (hinv.listed c (hreach.invariant (fun _ => Reach.head) ?_))
    intro source target hsource hnext
    refine .step hsource ?_
    rwa [← (hother source (hinv.listed source hsource)).listNext_eq]
  case live_block =>
    intro p n hlive
    obtain ⟨c, hc, hp, hfits, hused⟩ := hinv.live_block p n hlive
    exact ⟨c, Set.mem_insert_of_mem _ hc, hp, by rwa [(hother c hc).blockSize_eq],
      by rwa [(hother c hc).blockFree_eq]⟩

/-- The store of `combine_blocks` that absorbs `next` into `b`. -/
def mergedHeader (mem : ByteMap) (b next : Nat) : ByteMap :=
  let grown := setSize mem b ((blockSize mem b + 16 + blockSize mem next) % 2 ^ 64)
  setNext grown b (blockNext grown next)

/-- Absorbing the free block directly behind `b`, when the list is finite and
goes from one to the other. -/
theorem merge {front rest : List Nat} (hinv : HeapInv heap live blocks)
    (hpath : Path (listNext heap.mem) (pointer heap.freeListHead) (front ++ b :: c :: rest))
    (hbehind : c = b + 16 + blockSize heap.mem b) (hfree : blockFree heap.mem c ≠ 0) :
    HeapInv { heap with mem := mergedHeader heap.mem b c } live (blocks \ {c}) ∧
      Path (listNext (mergedHeader heap.mem b c)) (pointer heap.freeListHead)
        (front ++ b :: rest) := by
  have hlisted : ∀ d ∈ front ++ b :: c :: rest, d ∈ blocks :=
    fun d hd => hinv.listed d ((Reach.iff_mem hpath).mpr hd)
  have hb : b ∈ blocks := hlisted b (by simp)
  have hc : c ∈ blocks := hlisted c (by simp)
  have hbSize := hinv.size_lt hb
  have hcSize := hinv.size_lt hc
  have hbc : b + 16 ≤ c ∨ c + 16 ≤ b := by omega
  have hother : ∀ d ∈ blocks, d ≠ b → SameHeader (mergedHeader heap.mem b c) heap.mem d := by
    intro d hd hne
    have hapart := hinv.header_apart hb hd hne.symm
    exact (SameHeader.setNext hapart).trans (.setSize hapart)
  have hsize : blockSize (mergedHeader heap.mem b c) b =
      blockSize heap.mem b + 16 + blockSize heap.mem c := by
    simp only [mergedHeader, blockSize_setNext, blockSize_setSize]
    rw [Nat.mod_eq_of_lt (a := _ % 2 ^ 64) (by omega), Nat.mod_eq_of_lt (by omega),
      signExtend_of_lt (by omega)]
  have hused : blockFree (mergedHeader heap.mem b c) b = blockFree heap.mem b := by
    simp [mergedHeader]
  have hnext : listNext (mergedHeader heap.mem b c) b = listNext heap.mem c := by
    have hgrown : ∀ value, blockNext (setSize heap.mem b value) c = blockNext heap.mem c :=
      fun value => (SameHeader.setSize hbc).blockNext_eq
    simp only [listNext, mergedHeader, blockNext_setNext, hgrown]
    rw [Nat.mod_eq_of_lt (blockNext_lt _ _)]
  have hnodup := hpath.nodup
  have hnotmem : c ∉ front ++ b :: rest ∧ b ∉ front ∧ b ∉ rest := by
    simp only [List.nodup_append, List.nodup_cons, List.mem_cons, List.mem_append] at hnodup ⊢
    grind
  obtain ⟨hcGone, hbFront, hbRest⟩ := hnotmem
  -- The list loses `c` and nothing else.
  have hpath' : Path (listNext (mergedHeader heap.mem b c)) (pointer heap.freeListHead)
      (front ++ b :: rest) := by
    apply hpath.splice
    · intro d hd
      refine (hother d (hlisted d (by simp [hd])) ?_).listNext_eq
      rintro rfl
      exact hbFront hd
    · rw [hnext]
      have hsuffix : Path (listNext heap.mem) (pointer heap.freeListHead)
          ((front ++ [b]) ++ c :: rest) := by simpa using hpath
      refine hsuffix.tail_of_append.congr ?_
      · intro d hd
        refine (hother d (hlisted d (by simp [hd])) ?_).listNext_eq
        rintro rfl
        exact hbRest hd
  refine ⟨?_, hpath'⟩
  constructor
  case end_eq => exact hinv.end_eq
  case ptr_ge => exact hinv.ptr_ge
  case ptr_le => exact hinv.ptr_le
  case ptr_aligned => exact hinv.ptr_aligned
  case first =>
    refine hinv.first.imp_right fun hfirst => ⟨hfirst, ?_⟩
    have := hinv.low b hb
    simp only [Set.mem_singleton_iff]
    omega
  case low => exact fun d hd => hinv.low d hd.1
  case aligned =>
    rintro d ⟨hd, -⟩
    rcases eq_or_ne d b with rfl | hne
    · simp only [hsize]
      have hdAligned := hinv.aligned d hd
      have hcAligned := hinv.aligned c hc
      omega
    · simpa only [(hother d hd hne).blockSize_eq] using hinv.aligned d hd
  case inside =>
    rintro d ⟨hd, -⟩
    rcases eq_or_ne d b with rfl | hne
    · simp only [hsize]
      have := hinv.inside c hc
      omega
    · simpa only [(hother d hd hne).blockSize_eq] using hinv.inside d hd
  case apart =>
    rintro d ⟨hd, hdc⟩ e ⟨he, hec⟩ hlt
    simp only [Set.mem_singleton_iff] at hdc hec
    rcases eq_or_ne d b with rfl | hne
    · simp only [hsize]
      have hde := hinv.apart d hd e he hlt
      rcases Nat.lt_or_gt_of_ne hec with hbefore | hafter
      · omega
      · have := hinv.apart c hc e he hafter
        omega
    · simpa only [(hother d hd hne).blockSize_eq] using hinv.apart d hd e he hlt
  case behind =>
    rintro d ⟨hd, hdc⟩
    simp only [Set.mem_singleton_iff] at hdc
    rcases eq_or_ne d b with rfl | hne
    · have hend : d + 16 + (blockSize heap.mem d + 16 + blockSize heap.mem c) =
          c + 16 + blockSize heap.mem c := by omega
      have hgrows : c + 16 + blockSize heap.mem c ≠ c := by omega
      simp only [hsize, hend]
      exact (hinv.behind c hc).imp_right fun hmem => ⟨hmem, hgrows⟩
    · simp only [(hother d hd hne).blockSize_eq]
      refine (hinv.behind d hd).imp_right fun hmem => ⟨hmem, fun heq => hne ?_⟩
      -- Only `b` ends where `c` starts.
      exact hinv.eq_of_end_eq hd hb ((Set.mem_singleton_iff.mp heq).trans hbehind)
  case listed =>
    intro d hreach
    have hmem := (Reach.iff_mem hpath').mp hreach
    refine ⟨hlisted d ?_, ?_⟩
    · simp only [List.mem_append, List.mem_cons] at hmem ⊢
      exact hmem.imp_right (Or.imp_right .inr)
    · rintro rfl
      exact hcGone hmem
  case live_block =>
    intro p n hlive
    obtain ⟨d, hd, hp, hfits, hflag⟩ := hinv.live_block p n hlive
    have hdc : d ≠ c := by
      rintro rfl
      exact hfree hflag
    refine ⟨d, ⟨hd, hdc⟩, hp, ?_⟩
    rcases eq_or_ne d b with rfl | hne
    · simp only [hsize, hused]
      exact ⟨by omega, hflag⟩
    · simp only [(hother d hd hne).blockSize_eq, (hother d hd hne).blockFree_eq]
      exact ⟨hfits, hflag⟩

end HeapInv

end GeckoOS.Mem
