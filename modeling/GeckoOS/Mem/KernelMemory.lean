/-
# Two allocators, one memory

`_entry` starts the heap of `kmalloc` at a fixed address and places the bitmap
and the pool of `allocate_blocks` behind the kernel image, wherever the linker
ended it.  Nothing relates the two.  Here both run over one memory, so that the
bytes one of them writes are the bytes the other reads.

Without frees both allocators only ever move up: the heap grows at `heap_ptr`,
and the used blocks are always the first `used_blocks` of the map.  The two
frontiers decide when the regions handed out collide.
-/

import Mathlib.Order.CompletePartialOrder
import GeckoOS.Mem.BlockPool
import GeckoOS.Mem.HeapCalls

namespace GeckoOS.Mem

open GeckoOS.Math ByteMap

/-- Main memory with the static variables of both allocators. -/
structure Machine where
  mem : ByteMap
  heapPtr : Nat
  heapEnd : Nat
  freeListHead : Nat
  memoryMap : Nat
  maxBlocks : Nat
  usedBlocks : Nat

namespace Machine

/-- What `mem.c` sees. -/
def heap (m : Machine) : Heap := ⟨m.mem, m.heapPtr, m.heapEnd, m.freeListHead⟩

/-- What `physical_mem.c` sees. -/
def pool (m : Machine) : PhysMem := ⟨m.mem, m.memoryMap, m.maxBlocks, m.usedBlocks⟩

/-- Both allocators over the memory the second one leaves. -/
def of (heap : Heap) (pool : PhysMem) : Machine where
  mem := pool.mem
  heapPtr := heap.heapPtr
  heapEnd := heap.heapEnd
  freeListHead := heap.freeListHead
  memoryMap := pool.memoryMap
  maxBlocks := pool.maxBlocks
  usedBlocks := pool.usedBlocks

theorem pool_of (heap : Heap) (pool : PhysMem) : (of heap pool).pool = pool := rfl

theorem heap_of (heap : Heap) (pool : PhysMem) :
    (of heap pool).heap = { heap with mem := pool.mem } := rfl

/-- After a call of `mem.c`. -/
def withHeap (m : Machine) (heap : Heap) : Machine :=
  { m with
    mem := heap.mem
    heapPtr := heap.heapPtr
    heapEnd := heap.heapEnd
    freeListHead := heap.freeListHead }

/-- After a call of `physical_mem.c`. -/
def withPool (m : Machine) (pool : PhysMem) : Machine :=
  { m with
    mem := pool.mem
    memoryMap := pool.memoryMap
    maxBlocks := pool.maxBlocks
    usedBlocks := pool.usedBlocks }

variable (m : Machine)

@[simp]
theorem heap_heapPtr : m.heap.heapPtr = m.heapPtr := rfl

@[simp]
theorem heap_heapEnd : m.heap.heapEnd = m.heapEnd := rfl

@[simp]
theorem heap_freeListHead : m.heap.freeListHead = m.freeListHead := rfl

@[simp]
theorem pool_memoryMap : m.pool.memoryMap = m.memoryMap := rfl

@[simp]
theorem pool_maxBlocks : m.pool.maxBlocks = m.maxBlocks := rfl

@[simp]
theorem pool_usedBlocks : m.pool.usedBlocks = m.usedBlocks := rfl

end Machine

/-- Where the kernel image is loaded. -/
abbrev imageStart : Nat := 0x100000

/-- `bitmap_start`: the end of the image, rounded up to a page. -/
def bitmapStart (bssEnd : Nat) : Nat := (bssEnd + 0xFFF) / 0x1000 * 0x1000

/-- `free_start`. -/
def freeStart (bssEnd : Nat) : Nat := bitmapStart bssEnd + 0x1000

/-- The allocator calls of `_entry`, with `_bss_end` as the linker set it. -/
def entry (mem : ByteMap) (bssEnd : Nat) : Machine :=
  let heap := kallocInit mem
  let pool := initializeMemoryManager heap.mem (bitmapStart bssEnd) memEnd
  let pool := initializeMemoryRegion pool (freeStart bssEnd) (memEnd - freeStart bssEnd)
  .of heap pool

/-- The machine with everything either allocator has returned. -/
structure KernelState where
  /-- Memory and both allocators. -/
  machine : Machine
  /-- Payloads of `kmalloc`, as address and requested size. -/
  payloads : List (Nat × Nat)
  /-- Extents of `allocate_blocks`, as address and block count. -/
  extents : List (Nat × Nat)

/-- The state `_entry` leaves. -/
def KernelState.boot (mem : ByteMap) (bssEnd : Nat) : KernelState := ⟨entry mem bssEnd, [], []⟩

/-- The calls of either allocator. -/
inductive KernelCall
  | kmalloc (size : Nat)
  | allocateBlocks (numBlocks : Nat)

/-- One returning call. -/
inductive KernelStep : KernelState → KernelCall → KernelState → Prop
  | mallocRefused {s : KernelState} {size : Nat} {heap' : Heap}
      (hcall : kmalloc s.machine.heap size = some (0, heap')) :
      KernelStep s (.kmalloc size) { s with machine := s.machine.withHeap heap' }
  | malloced {s : KernelState} {size p : Nat} {heap' : Heap}
      (hcall : kmalloc s.machine.heap size = some (p, heap')) (hp : p ≠ 0) :
      KernelStep s (.kmalloc size)
        ⟨s.machine.withHeap heap', (p, size) :: s.payloads, s.extents⟩
  | blocksRefused {s : KernelState} {n : Nat} {pool' : PhysMem}
      (hcall : allocateBlocks s.machine.pool n = (0, pool')) :
      KernelStep s (.allocateBlocks n) { s with machine := s.machine.withPool pool' }
  | allocated {s : KernelState} {n a : Nat} {pool' : PhysMem}
      (hcall : allocateBlocks s.machine.pool n = (a, pool')) (ha : a ≠ 0) :
      KernelStep s (.allocateBlocks n)
        ⟨s.machine.withPool pool', s.payloads, (a, n) :: s.extents⟩

/-- Runs all of whose calls are allowed in the state they are made in. -/
def KernelRun (allowed : KernelState → KernelCall → Prop) : KernelState → KernelState → Prop :=
  Relation.ReflTransGen fun s t => ∃ call, allowed s call ∧ KernelStep s call t

theorem KernelRun.call {allowed : KernelState → KernelCall → Prop} {s t u : KernelState}
    {call : KernelCall} (hrun : KernelRun allowed s t) (hstep : KernelStep t call u)
    (hallowed : allowed t call) : KernelRun allowed s u :=
  hrun.tail ⟨call, hallowed, hstep⟩

/-- The bytes of a payload. -/
def payloadBytes (payload : Nat × Nat) : Set Nat := Set.Ico payload.1 (payload.1 + payload.2)

/-- The bytes of an extent. -/
def extentBytes (extent : Nat × Nat) : Set Nat :=
  Set.Ico extent.1 (extent.1 + blockBytes * extent.2)

/-- The bytes of the kernel image. -/
def imageBytes (bssEnd : Nat) : Set Nat := Set.Ico imageStart bssEnd

/-- The bytes of the allocator bitmap: one bit for each block of the 16 MB. -/
def bitmapBytes (bssEnd : Nat) : Set Nat :=
  Set.Ico (bitmapStart bssEnd) (bitmapStart bssEnd + memEnd / blockBytes / 8)

/-- What the comment in `_entry` promises: image, bitmap, heap and pool stay apart. -/
structure KernelIsolated (bssEnd : Nat) (s : KernelState) : Prop where
  payload_extent : ∀ payload ∈ s.payloads, ∀ extent ∈ s.extents,
    Disjoint (payloadBytes payload) (extentBytes extent)
  payload_kernel : ∀ payload ∈ s.payloads,
    Disjoint (payloadBytes payload) (imageBytes bssEnd ∪ bitmapBytes bssEnd)
  extent_kernel : ∀ extent ∈ s.extents,
    Disjoint (extentBytes extent) (imageBytes bssEnd ∪ bitmapBytes bssEnd)

/-- The frontiers leave room for the call.  A `kmalloc` that fits below `heap_end`
needs the image and the bitmap page to end at or below the heap, and the used
blocks to end at or below `heap_ptr`; a served `allocate_blocks` needs its
blocks, which start at the first unused one, to miss the heap in use. -/
def FrontiersApart (bssEnd : Nat) (s : KernelState) : KernelCall → Prop
  | .kmalloc size =>
      Representable s.machine.heap size ∧
      (s.machine.heapPtr + headerSize + align8 size ≤ s.machine.heapEnd →
        bssEnd ≤ heapStart - 0x1000 ∧ blockBytes * s.machine.usedBlocks ≤ s.machine.heapPtr)
  | .allocateBlocks n =>
      s.machine.usedBlocks + n < s.machine.maxBlocks →
        s.machine.heapPtr = heapStart ∨
        blockBytes * (s.machine.usedBlocks + n) ≤ heapStart ∨
        s.machine.heapPtr ≤ blockBytes * s.machine.usedBlocks

/-! ## The two frontiers -/

/-- Both allocators only move up. -/
structure KernelInv (bssEnd : Nat) (s : KernelState) : Prop where
  list_empty : s.machine.freeListHead = 0
  end_eq : s.machine.heapEnd = 0x500000
  ptr_ge : 0x200000 ≤ s.machine.heapPtr
  payload : ∀ payload ∈ s.payloads,
    0x200000 ≤ payload.1 ∧ payload.1 + payload.2 ≤ s.machine.heapPtr
  below : s.machine.heapPtr = 0x200000 ∨ bssEnd ≤ 0x1FF000
  map_eq : s.machine.memoryMap = bitmapStart bssEnd
  max_eq : s.machine.maxBlocks = 4096
  used_le : s.machine.usedBlocks ≤ 4096
  used_eq : ∀ b < 4096, blockUsed s.machine.pool b = decide (b < s.machine.usedBlocks)
  extent : ∀ extent ∈ s.extents,
    freeStart bssEnd ≤ extent.1 ∧ extent.1 + 4096 * extent.2 ≤ 4096 * s.machine.usedBlocks
  first : freeStart bssEnd ≤ 4096 * s.machine.usedBlocks
  apart : ∀ payload ∈ s.payloads, ∀ extent ∈ s.extents,
    Disjoint (payloadBytes payload) (extentBytes extent)

theorem bitmapStart_spec (bssEnd : Nat) :
    4096 ∣ bitmapStart bssEnd ∧ bssEnd ≤ bitmapStart bssEnd ∧
      bitmapStart bssEnd < bssEnd + 4096 := by
  unfold bitmapStart
  omega

section Entry

variable {mem : ByteMap} {bssEnd : Nat} (hhigh : bssEnd < 0xFFE000)

theorem entry_pool : (entry mem bssEnd).pool =
    (PoolState.boot mem (bitmapStart bssEnd) (freeStart bssEnd)).pm := by
  rw [entry, Machine.pool_of]
  rfl

theorem entry_heap : (entry mem bssEnd).heap = kallocInit (entry mem bssEnd).mem := by
  rw [entry, Machine.heap_of]
  rfl

theorem entry_heapPtr : (entry mem bssEnd).heapPtr = 0x200000 := by
  rw [← Machine.heap_heapPtr, entry_heap, kallocInit]

theorem entry_heapEnd : (entry mem bssEnd).heapEnd = 0x500000 := by
  rw [← Machine.heap_heapEnd, entry_heap, kallocInit]

theorem entry_freeListHead : (entry mem bssEnd).freeListHead = 0 := by
  rw [← Machine.heap_freeListHead, entry_heap, kallocInit]

include hhigh

theorem freeStart_spec :
    4096 ∣ freeStart bssEnd ∧ 0 < freeStart bssEnd ∧ freeStart bssEnd ≤ 0x1000000 := by
  obtain ⟨hwhole, -, habove⟩ := bitmapStart_spec bssEnd
  unfold freeStart
  omega

theorem entry_memoryMap : (entry mem bssEnd).memoryMap = bitmapStart bssEnd := by
  obtain ⟨hwhole, -, hend⟩ := freeStart_spec hhigh
  rw [← Machine.pool_memoryMap, entry_pool, PoolInv.boot_eq hend hwhole]
  rfl

theorem entry_maxBlocks : (entry mem bssEnd).maxBlocks = 4096 := by
  obtain ⟨hwhole, -, hend⟩ := freeStart_spec hhigh
  rw [← Machine.pool_maxBlocks, entry_pool, PoolInv.boot_maxBlocks hwhole hend]

theorem entry_usedBlocks : (entry mem bssEnd).usedBlocks = freeStart bssEnd / 4096 := by
  obtain ⟨hwhole, -, hend⟩ := freeStart_spec hhigh
  rw [← Machine.pool_usedBlocks, entry_pool, PoolInv.boot_usedBlocks hwhole hend]

theorem KernelInv.boot : KernelInv bssEnd (KernelState.boot mem bssEnd) := by
  obtain ⟨hwhole, hpos, hend⟩ := freeStart_spec hhigh
  have hused := @entry_usedBlocks mem _ hhigh
  rw [KernelState.boot]
  refine ⟨entry_freeListHead, entry_heapEnd, entry_heapPtr.ge, nofun, .inl entry_heapPtr,
    entry_memoryMap hhigh, entry_maxBlocks hhigh, ?_, fun b hb => ?_, nofun, ?_, nofun⟩
  · simp only [hused]
    omega
  · simp only [hused, entry_pool]
    exact PoolInv.blockUsed_boot hwhole hpos hend hb
  · simp only [hused]
    omega

end Entry

namespace KernelInv

variable {bssEnd : Nat} {s t : KernelState} {call : KernelCall}

/-- The end of the image, the bitmap behind it and the pool behind that. -/
theorem isolated (hinv : KernelInv bssEnd s) : KernelIsolated bssEnd s := by
  obtain ⟨hwhole, hbss, hpage⟩ := bitmapStart_spec bssEnd
  have hbytes : memEnd / blockBytes / 8 = 512 := rfl
  refine ⟨hinv.apart, ?_, ?_⟩
  · rintro payload hpayload
    obtain ⟨hlow, hptr⟩ := hinv.payload payload hpayload
    refine Set.disjoint_left.mpr ?_
    rintro p ⟨hlower, hupper⟩ hkernel
    rcases hinv.below with hempty | hbelow
    · omega
    · rcases hkernel with ⟨-, himage⟩ | ⟨-, hbitmap⟩
      · omega
      · rw [hbytes] at hbitmap
        omega
  · rintro extent hextent
    obtain ⟨hlow, -⟩ := hinv.extent extent hextent
    unfold freeStart at hlow
    refine Set.disjoint_left.mpr ?_
    rintro p ⟨hlower, hupper⟩ (⟨-, himage⟩ | ⟨-, hbitmap⟩)
    · omega
    · rw [hbytes] at hbitmap
      omega

/-- A header laid out above the bitmap leaves its bits alone. -/
theorem blockUsed_freshHeader (pm : PhysMem) {b block : Nat} (value : Nat)
    (habove : pm.memoryMap + 512 ≤ b) (hblock : block < 4096) :
    blockUsed { pm with mem := HeapInv.freshHeader pm.mem b value } block = blockUsed pm block := by
  apply Bitmap.bit_congr
  intro i hi
  have hbefore : pm.memoryMap + 4 * (block / 32) + i < b := by omega
  simp only [HeapInv.freshHeader, setNext, setFree, setSize]
  rw [store_apply_of_lt (by omega), store_apply_of_lt (by omega), store_apply_of_lt hbefore]

/-- With an empty free list `kmalloc` extends the heap or refuses. -/
theorem kmalloc_eq {size : Nat} (hinv : KernelInv bssEnd s)
    (hfits : Representable s.machine.heap size) :
    kmalloc s.machine.heap size =
      if s.machine.heapEnd < s.machine.heapPtr + 16 + align8 size then some (0, s.machine.heap)
      else some (s.machine.heapPtr + 16, { s.machine.heap with
        mem := HeapInv.freshHeader s.machine.mem s.machine.heapPtr (align8 size)
        heapPtr := s.machine.heapPtr + 16 + align8 size }) := by
  refine kmalloc_grow hfits ?_
  rw [findFreeBlock, show s.machine.heap.freeListHead = 0 from hinv.list_empty,
    findFreeBlockFrom_eq, if_pos rfl]

/-- The used blocks are a prefix, so the first clear run starts right behind it. -/
theorem allocateBlocks_eq {n a : Nat} {pool' : PhysMem} (hinv : KernelInv bssEnd s)
    (hcall : allocateBlocks s.machine.pool n = (a, pool')) :
    (a = 0 ∧ pool' = s.machine.pool) ∨
    (n ≠ 0 ∧ s.machine.usedBlocks + n < 4096 ∧ a = 4096 * s.machine.usedBlocks ∧
      pool' = markedRun s.machine.pool s.machine.usedBlocks n) := by
  rcases allocateBlocks_cases hinv.max_eq hinv.used_le hcall with
    hrefused | ⟨hpos, hroom, start, hstart, hrun, hleast, rfl, rfl⟩
  · exact .inl hrefused
  · change s.machine.usedBlocks + n < 4096 at hroom
    have hclear := hrun 0 (Nat.pos_of_ne_zero hpos)
    rw [Nat.add_zero, hinv.used_eq start hstart, decide_eq_false_iff_not] at hclear
    have hfirst : RunClear s.machine.pool s.machine.usedBlocks n := by
      intro k hk
      rw [hinv.used_eq _ (by omega)]
      exact decide_eq_false (by omega)
    have hle : start ≤ s.machine.usedBlocks := Nat.not_lt.mp fun hlt => hleast _ hlt hfirst
    obtain rfl : start = s.machine.usedBlocks := by omega
    exact .inr ⟨hpos, hroom, rfl, rfl⟩

/-- Every call the frontiers leave room for keeps the invariant. -/
theorem step (hinv : KernelInv bssEnd s) (hapart : FrontiersApart bssEnd s call)
    (hstep : KernelStep s call t) : KernelInv bssEnd t := by
  have hptr := hinv.ptr_ge
  cases hstep with
  | mallocRefused hcall =>
      obtain ⟨hfits, -⟩ := hapart
      rw [hinv.kmalloc_eq hfits] at hcall
      split_ifs at hcall
      · obtain ⟨-, rfl⟩ := Prod.mk.inj (Option.some.inj hcall)
        exact hinv
      · have hzero := (Prod.mk.inj (Option.some.inj hcall)).1
        omega
  | @malloced size p heap' hcall hp =>
      obtain ⟨hfits, hroom⟩ := hapart
      rw [hinv.kmalloc_eq hfits] at hcall
      split_ifs at hcall with hfull
      · obtain ⟨rfl, -⟩ := Prod.mk.inj (Option.some.inj hcall)
        exact absurd rfl hp
      · obtain ⟨rfl, rfl⟩ := Prod.mk.inj (Option.some.inj hcall)
        obtain ⟨hbss, hblocks⟩ := hroom (Nat.not_lt.mp hfull)
        simp only [heapStart, blockBytes] at hbss hblocks
        have hsize : size ≤ align8 size := le_align8 (by
          simp only [Representable, headerSize, wordModulus] at hfits; omega)
        have hbitmap : s.machine.memoryMap + 512 ≤ s.machine.heapPtr := by
          obtain ⟨hwhole, -, hpage⟩ := bitmapStart_spec bssEnd
          have hmap := hinv.map_eq
          omega
        refine ⟨hinv.list_empty, hinv.end_eq, ?_, ?_, .inr (by omega), hinv.map_eq, hinv.max_eq,
          hinv.used_le, ?_, hinv.extent, hinv.first, ?_⟩
        · change 0x200000 ≤ s.machine.heapPtr + 16 + align8 size
          omega
        · intro payload hpayload
          change 0x200000 ≤ payload.1 ∧
            payload.1 + payload.2 ≤ s.machine.heapPtr + 16 + align8 size
          rcases List.mem_cons.mp hpayload with rfl | hold
          · exact ⟨by omega, by omega⟩
          · obtain ⟨hlow, hhigh⟩ := hinv.payload payload hold
            exact ⟨hlow, by omega⟩
        · intro b hb
          have hsame := blockUsed_freshHeader s.machine.pool (align8 size) hbitmap hb
          exact hsame.trans (hinv.used_eq b hb)
        · intro payload hpayload extent hextent
          rcases List.mem_cons.mp hpayload with rfl | hold
          · obtain ⟨-, hbelow⟩ := hinv.extent extent hextent
            refine Set.disjoint_left.mpr ?_
            rintro p ⟨hlower, -⟩ ⟨-, hupper⟩
            simp only [blockBytes] at hupper
            omega
          · exact hinv.apart payload hold extent hextent
  | blocksRefused hcall =>
      rcases hinv.allocateBlocks_eq hcall with ⟨-, rfl⟩ | ⟨-, -, hzero, -⟩
      · exact hinv
      · have hfirst := hinv.first
        unfold freeStart at hfirst
        omega
  | @allocated n a pool' hcall ha =>
      rcases hinv.allocateBlocks_eq hcall with ⟨hnull, -⟩ | ⟨hpos, hroom, rfl, rfl⟩
      · exact absurd hnull ha
      · have hmiss := hapart (by rw [hinv.max_eq]; exact hroom)
        simp only [heapStart, blockBytes] at hmiss
        have hfirst := hinv.first
        refine ⟨hinv.list_empty, hinv.end_eq, hinv.ptr_ge, hinv.payload, hinv.below, hinv.map_eq,
          hinv.max_eq, ?_, ?_, ?_, ?_, ?_⟩
        · change s.machine.usedBlocks + n ≤ 4096
          omega
        · intro b hb
          change blockUsed (markedRun s.machine.pool s.machine.usedBlocks n) b =
            decide (b < s.machine.usedBlocks + n)
          rw [blockUsed_markedRun, hinv.used_eq b hb, ← Bool.decide_or]
          exact decide_eq_decide.mpr (by omega)
        · intro extent hextent
          change freeStart bssEnd ≤ extent.1 ∧
            extent.1 + 4096 * extent.2 ≤ 4096 * (s.machine.usedBlocks + n)
          rcases List.mem_cons.mp hextent with rfl | hold
          · exact ⟨hfirst, by omega⟩
          · obtain ⟨hlow, hhigh⟩ := hinv.extent extent hold
            exact ⟨hlow, by omega⟩
        · change freeStart bssEnd ≤ 4096 * (s.machine.usedBlocks + n)
          omega
        · intro payload hpayload extent hextent
          rcases List.mem_cons.mp hextent with rfl | hold
          · obtain ⟨hlow, hhigh⟩ := hinv.payload payload hpayload
            refine Set.disjoint_left.mpr ?_
            rintro p ⟨hlower, hupper⟩ ⟨hlower', hupper'⟩
            simp only [blockBytes] at hlower' hupper'
            omega
          · exact hinv.apart payload hpayload extent hold

theorem of_run {mem : ByteMap} (hhigh : bssEnd < 0xFFE000)
    (hrun : KernelRun (FrontiersApart bssEnd) (KernelState.boot mem bssEnd) s) :
    KernelInv bssEnd s := by
  induction hrun with
  | refl => exact KernelInv.boot hhigh
  | tail _ hnext ih =>
      obtain ⟨call, hapart, hstep⟩ := hnext
      exact ih.step hapart hstep

/-- The first page-sized payload lies just behind the start of the heap. -/
theorem kmalloc_page (hinv : KernelInv bssEnd s) (hempty : s.machine.heapPtr = 0x200000) :
    ∃ t, KernelStep s (.kmalloc 0x1000) t ∧ (0x200010, 0x1000) ∈ t.payloads ∧
      t.extents = s.extents := by
  have hround : align8 0x1000 = 0x1000 := rfl
  have hend := hinv.end_eq
  have hfits : Representable s.machine.heap 0x1000 := by
    simp only [Representable, Machine.heap_heapPtr, hempty]
    decide
  have hcall := hinv.kmalloc_eq hfits
  rw [if_neg (by omega), hempty] at hcall
  exact ⟨_, .malloced hcall (by decide), List.mem_cons_self, rfl⟩

/-- The pool starts with a stretch up to two pages into the heap, when it starts
at or below the heap. -/
theorem boot_allocate (mem : ByteMap) (hhigh : bssEnd < 0xFFE000) (hlow : bssEnd ≤ 0x1FF000) :
    ∃ t, KernelStep (KernelState.boot mem bssEnd)
        (.allocateBlocks (0x202 - freeStart bssEnd / 4096)) t ∧
      (freeStart bssEnd, 0x202 - freeStart bssEnd / 4096) ∈ t.extents ∧
      t.machine.heapPtr = 0x200000 := by
  obtain ⟨hwhole, hpos, hend⟩ := freeStart_spec hhigh
  obtain ⟨hpage, -, habove⟩ := bitmapStart_spec bssEnd
  have hstart : freeStart bssEnd ≤ 0x200000 := by
    unfold freeStart
    omega
  have hcall : allocateBlocks (entry mem bssEnd).pool (0x202 - freeStart bssEnd / 4096) = _ :=
    entry_pool ▸ PoolInv.boot_allocateBlocks hwhole hpos hend (by omega) (by omega)
  have hempty : (entry mem bssEnd).heapPtr = 0x200000 := entry_heapPtr
  exact ⟨_, .allocated hcall (by omega), List.mem_cons_self, hempty⟩

end KernelInv

/-- Wherever the image ends, some calls hand out memory that is already taken. -/
theorem exists_overlap (mem : ByteMap) {bssEnd : Nat} (hhigh : bssEnd < 0xFFE000) :
    ∃ s, KernelRun (fun _ _ => True) (KernelState.boot mem bssEnd) s ∧
      ¬ KernelIsolated bssEnd s := by
  have hinv : KernelInv bssEnd (KernelState.boot mem bssEnd) := KernelInv.boot hhigh
  obtain ⟨hpage, hbss, habove⟩ := bitmapStart_spec bssEnd
  by_cases hbelow : bssEnd ≤ 0x1FF000
  · -- The pool starts below the heap: let it grow into the heap's first page.
    obtain ⟨s, hstep, hextent, hempty⟩ := KernelInv.boot_allocate mem hhigh hbelow
    have happart : FrontiersApart bssEnd (KernelState.boot mem bssEnd)
        (.allocateBlocks (0x202 - freeStart bssEnd / 4096)) := fun _ => .inl entry_heapPtr
    obtain ⟨t, hstep', hpayload, hextents⟩ := (hinv.step happart hstep).kmalloc_page hempty
    refine ⟨t, (KernelRun.call .refl hstep trivial).call hstep' trivial, fun hisolated => ?_⟩
    have hdisjoint := hisolated.payload_extent _ hpayload _ (hextents ▸ hextent)
    have hstart : freeStart bssEnd ≤ 0x200000 := by
      unfold freeStart
      omega
    have hwhole : 4096 ∣ freeStart bssEnd := (freeStart_spec hhigh).1
    refine absurd hdisjoint (Set.not_disjoint_iff.mpr ⟨0x200010, ⟨by decide, by decide⟩, ?_, ?_⟩)
    · change freeStart bssEnd ≤ 0x200010
      omega
    · change 0x200010 < freeStart bssEnd + 4096 * (0x202 - freeStart bssEnd / 4096)
      omega
  · -- Image and bitmap reach into the heap's first page.
    obtain ⟨t, hstep, hpayload, -⟩ := hinv.kmalloc_page entry_heapPtr
    refine ⟨t, KernelRun.call .refl hstep trivial, fun hisolated => ?_⟩
    have hdisjoint := hisolated.payload_kernel _ hpayload
    by_cases himage : 0x200010 < bssEnd
    · exact absurd hdisjoint (Set.not_disjoint_iff.mpr
        ⟨0x200010, ⟨by decide, by decide⟩, .inl ⟨by decide, himage⟩⟩)
    · refine absurd hdisjoint (Set.not_disjoint_iff.mpr ⟨max 0x200010 (bitmapStart bssEnd),
        ⟨le_max_left _ _, ?_⟩, .inr ⟨le_max_right _ _, ?_⟩⟩)
      · change max 0x200010 (bitmapStart bssEnd) < 0x200010 + 0x1000
        omega
      · change max 0x200010 (bitmapStart bssEnd) < bitmapStart bssEnd + 512
        omega

/-- **No layout is safe.**  For every end of the image some calls overlap; and as
long as every call is made with the frontiers apart, none do. -/
theorem no_layout_isolated {mem : ByteMap} {bssEnd : Nat} (hhigh : bssEnd < 0xFFE000) :
    (¬ ∀ s, KernelRun (fun _ _ => True) (KernelState.boot mem bssEnd) s →
      KernelIsolated bssEnd s) ∧
    ∀ s, KernelRun (FrontiersApart bssEnd) (KernelState.boot mem bssEnd) s →
      KernelIsolated bssEnd s := by
  constructor
  · intro hall
    obtain ⟨s, hrun, hoverlap⟩ := exists_overlap mem hhigh
    exact hoverlap (hall s hrun)
  · intro s hrun
    exact (KernelInv.of_run hhigh hrun).isolated

/-- An image that ends half a megabyte below the heap. -/
theorem no_layout_isolated_below_heap :
    (¬ ∀ s, KernelRun (fun _ _ => True) (KernelState.boot (fun _ => 0) 0x180000) s →
      KernelIsolated 0x180000 s) ∧
    ∀ s, KernelRun (FrontiersApart 0x180000) (KernelState.boot (fun _ => 0) 0x180000) s →
      KernelIsolated 0x180000 s :=
  no_layout_isolated (by decide)

/-- An image that ends at 4 MB, as one with 2.5 MB of console history must, covers
the heap's first page. -/
theorem heap_inside_image :
    ¬ ∀ s, KernelRun (fun _ _ => True) (KernelState.boot (fun _ => 0) 0x400000) s →
      KernelIsolated 0x400000 s := by
  intro hall
  have hinv : KernelInv 0x400000 (KernelState.boot (fun _ => 0) 0x400000) :=
    KernelInv.boot (by decide)
  obtain ⟨t, hstep, hpayload, -⟩ := hinv.kmalloc_page entry_heapPtr
  have hisolated := hall t (KernelRun.call .refl hstep trivial)
  exact absurd (hisolated.payload_kernel _ hpayload) (Set.not_disjoint_iff.mpr
    ⟨0x200010, ⟨by decide, by decide⟩, .inl ⟨by decide, by decide⟩⟩)

end GeckoOS.Mem
