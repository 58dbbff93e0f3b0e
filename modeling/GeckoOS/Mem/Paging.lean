/-
# Page tables

The virtual memory manager keeps the four levels of page tables of x86-64 in physical
memory and reaches them through the identity map.  `get_pte` walks down from the PML4 by
the four indices of an address and, when it is told to, makes the tables that are missing
on its way; `vmm_map`, `vmm_unmap` and `vmm_get_phys` use the entry it finds.

Memory holds a 64-bit word at each address.  `allocate_blocks` is not the subject here:
what it returns during a call is a list of pages, with 0 for no page.
-/

import Mathlib.Logic.Function.Basic

namespace GeckoOS.Mem

/-! ## Entries -/

/-- `PTE_PRESENT`. -/
abbrev ptePresent : UInt64 := 0x1

/-- `PTE_WRITABLE`. -/
abbrev pteWritable : UInt64 := 0x2

/-- `PTE_CACHE_DISABLE`. -/
abbrev pteCacheDisable : UInt64 := 0x10

/-- `PTE_ADDR_MASK`. -/
abbrev pteAddrMask : UInt64 := 0x000FFFFFFFFFF000

/-- `pte_get_phys`. -/
def pteGetPhys (e : UInt64) : UInt64 := e &&& pteAddrMask

/-- `pte_is_present`. -/
def pteIsPresent (e : UInt64) : Bool := e &&& ptePresent ≠ 0

/-! ## Indices -/

theorem and_511_lt (a : UInt64) : (a &&& 0x1FF).toNat < 512 := by
  rw [UInt64.toNat_and]
  exact Nat.lt_succ_of_le Nat.and_le_right

/-- The nine bits of an address from `shift` on. -/
def indexAt (shift a : UInt64) : Fin 512 := ⟨((a >>> shift) &&& 0x1FF).toNat, and_511_lt _⟩

/-- `PML4_INDEX`. -/
def pml4Index (a : UInt64) : Fin 512 := indexAt 39 a

/-- `PDPT_INDEX`. -/
def pdptIndex (a : UInt64) : Fin 512 := indexAt 30 a

/-- `PD_INDEX`. -/
def pdIndex (a : UInt64) : Fin 512 := indexAt 21 a

/-- `PT_INDEX`. -/
def ptIndex (a : UInt64) : Fin 512 := indexAt 12 a

/-! ## Tables -/

/-- Physical memory, and what `allocate_blocks` will return. -/
structure TableMemory where
  mem : Nat → UInt64
  supply : List UInt64

/-- The address of `entries[i]` of a table. -/
def entryAddr (table : UInt64) (i : Fin 512) : Nat := table.toNat + 8 * i

/-- `alloc_table`. -/
def allocTable (m : TableMemory) : UInt64 × TableMemory :=
  match m.supply with
  | [] => (0, m)
  | t :: supply =>
      if t = 0 then (0, { m with supply := supply })
      else
        let cleared := fun address =>
          if t.toNat ≤ address ∧ address < t.toNat + 4096 then 0 else m.mem address
        (t, ⟨cleared, supply⟩)

/-- One level of `get_pte`: the table that the entry at an address leads to, which is made if
it is missing and `create` is set. -/
def nextTable (entry : Nat) (create : Bool) (m : TableMemory) : Option UInt64 × TableMemory :=
  if pteIsPresent (m.mem entry) then (some (pteGetPhys (m.mem entry)), m)
  else if !create then (none, m)
  else
    let (t, m) := allocTable m
    if t = 0 then (none, m)
    else
      let mem := Function.update m.mem entry (t ||| ptePresent ||| pteWritable)
      (some (pteGetPhys (mem entry)), { m with mem := mem })

/-- The levels of `get_pte`, which all do the same with an index of their own. -/
def walk (create : Bool) : UInt64 → List (Fin 512) → TableMemory → Option UInt64 × TableMemory
  | table, [], m => (some table, m)
  | table, i :: indices, m =>
      match nextTable (entryAddr table i) create m with
      | (none, m) => (none, m)
      | (some table, m) => walk create table indices m

/-- The indices of the levels above the page table. -/
def upperIndices (virt : UInt64) : List (Fin 512) := [pml4Index virt, pdptIndex virt, pdIndex virt]

/-- `get_pte`: the address of the entry. -/
def getPte (pml4 virt : UInt64) (create : Bool) (m : TableMemory) : Option Nat × TableMemory :=
  let (pt, m) := walk create pml4 (upperIndices virt) m
  (pt.map fun pt => entryAddr pt (ptIndex virt), m)

/-! ## Mappings -/

/-- `vmm_map`. -/
def vmmMap (pml4 phys virt flags : UInt64) (m : TableMemory) : Bool × TableMemory :=
  match getPte pml4 virt true m with
  | (none, m) => (false, m)
  | (some pte, m) =>
      let e := (phys &&& pteAddrMask) ||| (flags &&& ~~~pteAddrMask) ||| ptePresent
      (true, { m with mem := Function.update m.mem pte e })

/-- `vmm_unmap`. -/
def vmmUnmap (pml4 virt : UInt64) (m : TableMemory) : TableMemory :=
  match getPte pml4 virt false m with
  | (none, m) => m
  | (some pte, m) => { m with mem := Function.update m.mem pte 0 }

/-- `vmm_get_phys`. -/
def vmmGetPhys (pml4 virt : UInt64) (m : TableMemory) : UInt64 :=
  match getPte pml4 virt false m with
  | (none, _) => 0
  | (some pte, m) => if pteIsPresent (m.mem pte) then pteGetPhys (m.mem pte) else 0

/-! ## Device memory -/

/-- `PAGE_SIZE`. -/
abbrev pageSize : UInt64 := 4096

/-- `MMIO_VIRT_BASE`. -/
abbrev mmioVirtBase : UInt64 := 0xFFFFFFFF90000000

/-- The loop of `mmio_map`, from page `i` on with so many pages to go. -/
def mapPages (pml4 physAligned virtBase : UInt64) : Nat → Nat → TableMemory → Bool × TableMemory
  | _, 0, m => (true, m)
  | i, left + 1, m =>
      match vmmMap pml4 (physAligned + .ofNat i * pageSize) (virtBase + .ofNat i * pageSize)
          (ptePresent ||| pteWritable ||| pteCacheDisable) m with
      | (false, m) => (false, m)
      | (true, m) => mapPages pml4 physAligned virtBase (i + 1) left m

/-- The `phys_aligned` of `mmio_map`. -/
def mmioAligned (phys : UInt64) : UInt64 := phys &&& ~~~(pageSize - 1)

/-- The `offset` of `mmio_map`. -/
def mmioOffset (phys : UInt64) : UInt64 := phys - mmioAligned phys

/-- The `pages` of `mmio_map`. -/
def mmioPages (phys size : UInt64) : UInt64 := (size + mmioOffset phys + pageSize - 1) / pageSize

/-- `mmio_map` in the address space `pml4` with `mmio_virt_next` at `next`: the address that it
returns, and `mmio_virt_next` after it. -/
def mmioMap (pml4 phys size next : UInt64) (m : TableMemory) : UInt64 × UInt64 × TableMemory :=
  if pml4 = 0 then (0, next, m)
  else
    let pages := mmioPages phys size
    match mapPages pml4 (mmioAligned phys) next 0 pages.toNat m with
    | (false, m) => (0, next + pages * pageSize, m)
    | (true, m) => (next + mmioOffset phys, next + pages * pageSize, m)

end GeckoOS.Mem
