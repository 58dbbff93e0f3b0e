/-
# Device windows

`mmio_map` rounds the physical side of a window down to a page and its length up, and takes the
virtual side from `mmio_virt_next`, which only ever moves up.  The windows are therefore one
after the other in the virtual pages from `MMIO_VIRT_BASE` on, and a call maps only pages that
no window has.  As long as the pages last, which is up to the end of the address space, every
byte of a window is where it was asked for, and it stays there whatever is mapped elsewhere.
-/

import GeckoOS.Math.Runs
import GeckoOS.Mem.PageTables
import Mathlib.Data.Nat.Bitwise

namespace GeckoOS.Mem

open GeckoOS.Math

/-! ## Whole pages -/

theorem nat_and_shiftLeft (x m : Nat) : x &&& m <<< 12 = (x / 2 ^ 12 &&& m) <<< 12 := by
  rw [← Nat.shiftRight_eq_div_pow]
  apply Nat.eq_of_testBit_eq
  intro k
  simp only [Nat.testBit_and, Nat.testBit_shiftLeft, Nat.testBit_shiftRight]
  by_cases hk : 12 ≤ k
  · rw [Nat.add_sub_cancel' hk]
    simp [hk]
  · simp [hk]

/-- A mask of the bits from 12 to 52 or on. -/
theorem nat_and_pages (x width : Nat) :
    x &&& (2 ^ width - 1) <<< 12 = x / 4096 % 2 ^ width * 4096 := by
  rw [nat_and_shiftLeft, Nat.and_two_pow_sub_one_eq_mod, Nat.shiftLeft_eq,
    show 2 ^ 12 = 4096 from rfl]

/-- An address of the physical address space is what it is in an entry. -/
theorem and_pteAddrMask {a : UInt64} (haligned : a.toNat % 4096 = 0) (hbound : a.toNat < 2 ^ 52) :
    a &&& pteAddrMask = a := by
  apply UInt64.toNat_inj.mp
  rw [UInt64.toNat_and, show pteAddrMask.toNat = (2 ^ 40 - 1) <<< 12 from rfl, nat_and_pages]
  omega

theorem mmioAligned_toNat (phys : UInt64) :
    (mmioAligned phys).toNat = phys.toNat / 4096 * 4096 := by
  have hlt := phys.toNat_lt
  rw [mmioAligned, UInt64.toNat_and,
    show (~~~(pageSize - 1)).toNat = (2 ^ 52 - 1) <<< 12 from rfl, nat_and_pages]
  omega

theorem mmioOffset_toNat (phys : UInt64) : (mmioOffset phys).toNat = phys.toNat % 4096 := by
  have hlt := phys.toNat_lt
  rw [mmioOffset, UInt64.toNat_sub_of_le, mmioAligned_toNat]
  · omega
  · rw [UInt64.le_iff_toNat_le, mmioAligned_toNat]
    omega

theorem mmioPages_toNat {phys size : UInt64} (hbound : phys.toNat + size.toNat < 2 ^ 52) :
    (mmioPages phys size).toNat = (size.toNat + phys.toNat % 4096 + 4095) / 4096 := by
  have hoffset := mmioOffset_toNat phys
  rw [mmioPages, UInt64.toNat_div, UInt64.toNat_sub, UInt64.toNat_add, UInt64.toNat_add, hoffset,
    show pageSize.toNat = 4096 from rfl, UInt64.toNat_one]
  omega

/-! ## The loop -/

variable {pml4 : Page} {m m' : TableMemory} {taken taken' : Set Page}
  {frames frames' : Nat → Option UInt64} {phys virt : UInt64} {first i left : Nat} {ok : Bool}

/-- The tables during a call, which say what the map says. -/
structure Mapping (pml4 : Page) (m : TableMemory) (taken : Set Page)
    (frames : Nat → Option UInt64) : Prop where
  tables : Tables pml4 m.mem taken
  fresh : Fresh m.supply taken
  agree : ∀ a, (translate pml4 m.mem a).map Subtype.val = frames (pageNumber a)

/-- The tables before and after a part of a call, which takes pages from the supply. -/
structure Mapping.Leads (pml4 : Page) (m : TableMemory) (taken : Set Page) (m' : TableMemory)
    (taken' : Set Page) (frames' : Nat → Option UInt64) : Prop where
  mapping : Mapping pml4 m' taken' frames'
  supply : m'.supply ⊆ m.supply
  taken : ∀ t ∈ taken', t ∈ taken ∨ t.1 ∈ m.supply ∧ t.1 ≠ 0

theorem Mapping.Leads.refl (hmapping : Mapping pml4 m taken frames) :
    Mapping.Leads pml4 m taken m taken frames :=
  ⟨hmapping, List.Subset.refl _, fun _ => .inl⟩

theorem Mapping.Leads.trans {m'' : TableMemory} {taken'' : Set Page}
    {frames'' : Nat → Option UInt64} (hfirst : Mapping.Leads pml4 m taken m' taken' frames')
    (hsecond : Mapping.Leads pml4 m' taken' m'' taken'' frames'') :
    Mapping.Leads pml4 m taken m'' taken'' frames'' := by
  refine ⟨hsecond.mapping, fun z hz => hfirst.supply (hsecond.supply hz), fun t ht => ?_⟩
  rcases hsecond.taken t ht with hold | hnew
  · exact hfirst.taken t hold
  · exact .inr ⟨hfirst.supply hnew.1, hnew.2⟩

/-- One `vmm_map` of a call. -/
theorem Mapping.leads_vmmMap (hmapping : Mapping pml4 m taken frames) (phys virt flags : UInt64) :
    ∃ taken', Mapping.Leads pml4 m taken (vmmMap pml4.1 phys virt flags m).2 taken'
      (if (vmmMap pml4.1 phys virt flags m).1 = true then
        Function.update frames (pageNumber virt) (some (phys &&& pteAddrMask)) else frames) := by
  obtain ⟨taken', htables, hfresh, hsupply, htaken, hchange⟩ :=
    @vmmMap_spec pml4 m taken phys virt flags hmapping.tables hmapping.fresh
  refine ⟨taken', ⟨htables, hfresh, fun a => ?_⟩, hsupply, htaken⟩
  exact @Represents.of_translate pml4 ⟨m.mem, []⟩ ⟨_, []⟩ frames _ hmapping.agree _ _ _ _ hchange
    rfl a

/-- The pages from `first` on that the loop still has to map. -/
abbrev Ahead (first i left p : Nat) : Prop := first + i ≤ p ∧ p < first + i + left

/-- The loop maps one page after the other, and nothing else. -/
theorem Mapping.leads_mapPages (hmapping : Mapping pml4 m taken frames)
    (hpages : ∀ j < i + left, pageNumber (virt + .ofNat j * pageSize) = first + j) :
    ∃ taken' frames', Mapping.Leads pml4 m taken (mapPages pml4.1 phys virt i left m).2 taken'
        frames' ∧
      (∀ p, ¬Ahead first i left p → frames' p = frames p) ∧
      ((mapPages pml4.1 phys virt i left m).1 = true → ∀ j, i ≤ j → j < i + left →
        frames' (first + j) = some ((phys + .ofNat j * pageSize) &&& pteAddrMask)) := by
  induction left generalizing i m taken frames with
  | zero =>
      refine ⟨taken, frames, .refl hmapping, fun _ _ => rfl, fun _ j hlower hupper => ?_⟩
      omega
  | succ left ih =>
      obtain ⟨taken₁, hleads⟩ := hmapping.leads_vmmMap (phys + .ofNat i * pageSize)
        (virt + .ofNat i * pageSize) (ptePresent ||| pteWritable ||| pteCacheDisable)
      rw [hpages i (by omega)] at hleads
      rw [mapPages]
      generalize vmmMap pml4.1 (phys + .ofNat i * pageSize) (virt + .ofNat i * pageSize)
        (ptePresent ||| pteWritable ||| pteCacheDisable) m = call at hleads ⊢
      obtain ⟨ok, m₁⟩ := call
      cases ok with
      | false => exact ⟨taken₁, frames, hleads, fun _ _ => rfl, fun hok => absurd hok Bool.false_ne_true⟩
      | true =>
          rw [if_pos rfl] at hleads
          obtain ⟨taken', frames', hrest, hothers, hmapped⟩ :=
            ih hleads.mapping (i := i + 1) fun j hj => hpages j (by omega)
          refine ⟨taken', frames', hleads.trans hrest, fun p hp => ?_, fun hok j hlower hupper => ?_⟩
          · rw [hothers p fun h => hp ⟨by omega, by omega⟩, Function.update_of_ne]
            exact fun heq => hp ⟨by omega, by omega⟩
          · rcases Nat.eq_or_lt_of_le hlower with rfl | hlater
            · rw [hothers _ fun h => by omega, Function.update_self]
            · exact hmapped hok j hlater (by omega)

/-! ## Windows -/

/-- A call of `mmio_map` and the address that it returned. -/
structure Window where
  phys : UInt64
  size : UInt64
  virt : UInt64
  deriving DecidableEq

/-- How many pages a window takes. -/
def Window.pages (w : Window) : Nat := (mmioPages w.phys w.size).toNat

/-- The page of a window, counted from `MMIO_VIRT_BASE` on. -/
def Window.slot (w : Window) : Nat := (w.virt.toNat - mmioVirtBase.toNat) / 4096

/-- An address space with `mmio_virt_next`; with them the windows that were made so far and the
number of pages that were taken for windows. -/
structure Mmio where
  vmm : Vmm
  next : UInt64
  windows : List Window
  reserved : Nat

/-- An address space without windows. -/
def Mmio.start (s : Vmm) : Mmio := ⟨s, mmioVirtBase, [], 0⟩

/-- A call of `mmio_map`, with the pages that `allocate_blocks` returns during it, or something
else that happens to the address space. -/
inductive MmioEvent where
  | mmioMap (phys size : UInt64) (blocks : List UInt64)
  | other (c : Call)

/-- The number of the page of `MMIO_VIRT_BASE`. -/
abbrev mmioFirst : Nat := 2 ^ 36 - 0x70000

/-- A call that maps or unmaps an address does so below the windows. -/
def Call.BelowMmio : Call → Prop
  | map _ virt _ _ => pageNumber virt < mmioFirst
  | unmap virt => pageNumber virt < mmioFirst
  | others _ => True

/-- A window has bytes, and all of them in the physical address space. -/
def MmioEvent.Allowed (s : Mmio) : MmioEvent → Prop
  | mmioMap phys size blocks =>
      0 < size ∧ phys.toNat + size.toNat < 2 ^ 52 ∧ (Call.map 0 0 0 blocks).Allowed s.vmm
  | other c => c.Allowed s.vmm ∧ c.BelowMmio

/-- What happens next.  A call that returns 0 has failed and made no window. -/
def MmioEvent.exec (pml4 : UInt64) (s : Mmio) : MmioEvent → Mmio
  | mmioMap phys size blocks =>
      let (virt, next, m) := GeckoOS.Mem.mmioMap pml4 phys size s.next ⟨s.vmm.mem, blocks⟩
      { vmm := ⟨m.mem, s.vmm.owned ++ blocks.filter (· ≠ 0)⟩
        next := next
        windows := if virt = 0 then s.windows else s.windows ++ [⟨phys, size, virt⟩]
        reserved := s.reserved + (mmioPages phys size).toNat }
  | other c => { s with vmm := (c.exec pml4 s.vmm).2 }

/-! ## The invariant -/

/-- A window is on pages that were taken for windows, each with its frame. -/
structure Window.Placed (w : Window) (reserved : Nat) (frames : Nat → Option UInt64) : Prop where
  size : 0 < w.size
  bound : w.phys.toNat + w.size.toNat < 2 ^ 52
  fits : w.slot + w.pages ≤ reserved
  virt : w.virt.toNat = mmioVirtBase.toNat + 4096 * w.slot + w.phys.toNat % 4096
  frames : ∀ j < w.pages,
    frames (mmioFirst + (w.slot + j)) = some (mmioAligned w.phys + .ofNat j * pageSize)

/-- The windows are one after the other, up to `mmio_virt_next`. -/
structure MmioInv (pml4 : Page) (s : Mmio) (frames : Nat → Option UInt64) : Prop where
  represents : Represents pml4 s.vmm frames
  next : s.next.toNat = mmioVirtBase.toNat + 4096 * s.reserved
  placed : ∀ w ∈ s.windows, w.Placed s.reserved frames
  ascending : s.windows.Pairwise fun w w' => w.slot + w.pages ≤ w'.slot

variable {s s' : Mmio} {w w' : Window} {reserved reserved' : Nat}

theorem Window.Placed.mono (hplaced : w.Placed reserved frames) (hle : reserved ≤ reserved')
    (hsame : ∀ p, mmioFirst ≤ p → p < mmioFirst + reserved → frames' p = frames p) :
    w.Placed reserved' frames' := by
  have hfits := hplaced.fits
  refine ⟨hplaced.size, hplaced.bound, by omega, hplaced.virt, fun j hj => ?_⟩
  rw [hsame _ (by omega) (by omega)]
  exact hplaced.frames j hj

theorem mmioVirtBase_toNat : mmioVirtBase.toNat = 4096 * (2 ^ 52 - 0x70000) := rfl

theorem pageNumber_mmio {a : UInt64} {slot low : Nat}
    (ha : a.toNat = mmioVirtBase.toNat + 4096 * slot + low) (hlow : low < 4096)
    (hslot : slot < 0x70000) : pageNumber a = mmioFirst + slot := by
  have hfirst : mmioFirst = 2 ^ 36 - 0x70000 := rfl
  rw [pageNumber, ha, mmioVirtBase_toNat]
  omega

/-- The pages of a window are the next ones. -/
theorem MmioInv.page_ahead (hinv : MmioInv pml4 s frames) {j : Nat}
    (hj : s.reserved + j < 0x70000) :
    pageNumber (s.next + .ofNat j * pageSize) = mmioFirst + s.reserved + j := by
  have hbase := mmioVirtBase_toNat
  rw [Nat.add_assoc]
  apply @pageNumber_mmio _ (s.reserved + j) 0 _ (by decide) hj
  rw [UInt64.toNat_add, UInt64.toNat_mul, UInt64.toNat_ofNat', hinv.next,
    show pageSize.toNat = 4096 from rfl]
  omega

/-- An address without a window keeps its frame below the windows. -/
theorem Call.effect_above {c : Call} (hbelow : c.BelowMmio) (ok : Bool) {p : Nat}
    (hp : mmioFirst ≤ p) : c.effect ok frames p = frames p := by
  cases c with
  | map phys virt flags blocks =>
      have hne : p ≠ pageNumber virt := by
        have hlt : pageNumber virt < mmioFirst := hbelow
        omega
      rw [Call.effect]
      split
      · exact Function.update_of_ne hne _ _
      · rfl
  | unmap virt =>
      have hlt : pageNumber virt < mmioFirst := hbelow
      exact Function.update_of_ne (by omega) _ _
  | others mem => rfl

theorem Represents.pml4_ne (hrep : Represents pml4 s.vmm frames) : pml4.1 ≠ 0 := by
  intro hzero
  apply hrep.nonzero
  have htaken := hrep.tables.taken [] pml4 (Nat.zero_le _) rfl
  rwa [← hzero]

/-! ## One step -/

/-- The frames of a window are in the physical address space. -/
theorem mmioFrame_toNat {phys size : UInt64} (hbound : phys.toNat + size.toNat < 2 ^ 52) {j : Nat}
    (hj : j < (mmioPages phys size).toNat) :
    (mmioAligned phys + .ofNat j * pageSize).toNat = phys.toNat / 4096 * 4096 + 4096 * j ∧
      phys.toNat / 4096 * 4096 + 4096 * j < 2 ^ 52 := by
  rw [mmioPages_toNat hbound] at hj
  rw [UInt64.toNat_add, UInt64.toNat_mul, UInt64.toNat_ofNat', mmioAligned_toNat,
    show pageSize.toNat = 4096 from rfl]
  omega

theorem mmioFrame_masked {phys size : UInt64} (hbound : phys.toNat + size.toNat < 2 ^ 52) {j : Nat}
    (hj : j < (mmioPages phys size).toNat) :
    (mmioAligned phys + .ofNat j * pageSize) &&& pteAddrMask =
      mmioAligned phys + .ofNat j * pageSize := by
  obtain ⟨hframe, hlt⟩ := mmioFrame_toNat hbound hj
  apply and_pteAddrMask
  · rw [hframe]
    omega
  · rwa [hframe]

/-- The window that a call makes is on the next pages. -/
theorem MmioInv.placed_new (hinv : MmioInv pml4 s frames) {phys size : UInt64} (hsize : 0 < size)
    (hbound : phys.toNat + size.toNat < 2 ^ 52)
    (hlast : s.reserved + (mmioPages phys size).toNat < 0x70000)
    (hmapped : ∀ j, 0 ≤ j → j < 0 + (mmioPages phys size).toNat →
      frames' (mmioFirst + s.reserved + j) =
        some ((mmioAligned phys + .ofNat j * pageSize) &&& pteAddrMask)) :
    let w : Window := ⟨phys, size, s.next + mmioOffset phys⟩
    w.slot = s.reserved ∧ w.Placed (s.reserved + (mmioPages phys size).toNat) frames' := by
  intro w
  have hbase := mmioVirtBase_toNat
  have hvirt : w.virt.toNat =
      mmioVirtBase.toNat + 4096 * s.reserved + phys.toNat % 4096 := by
    rw [UInt64.toNat_add, hinv.next, mmioOffset_toNat]
    omega
  have hslot : w.slot = s.reserved := by
    rw [Window.slot, hvirt]
    omega
  refine ⟨hslot, hsize, hbound, ?_, ?_, fun j hj => ?_⟩
  · rw [hslot]
    exact le_rfl
  · rw [hvirt, hslot]
  · rw [hslot, ← Nat.add_assoc, hmapped j (Nat.zero_le j) (by rwa [Nat.zero_add]),
      mmioFrame_masked hbound hj]

/-- The address space after a call, whose pages are taken now. -/
theorem Mapping.Leads.represents {blocks : List UInt64}
    (hrep : Represents pml4 s.vmm frames)
    (hleads : Mapping.Leads pml4 ⟨s.vmm.mem, blocks⟩ {t | t.1 ∈ s.vmm.owned} m' taken' frames') :
    Represents pml4 ⟨m'.mem, s.vmm.owned ++ blocks.filter (· ≠ 0)⟩ frames' := by
  have howned : ∀ z, z ∈ s.vmm.owned ++ blocks.filter (· ≠ 0) ↔
      z ∈ s.vmm.owned ∨ z ∈ blocks ∧ z ≠ 0 := by
    intro z
    rw [List.mem_append, List.mem_filter, decide_eq_true_eq]
  refine ⟨?_, fun hzero => ?_, hleads.mapping.agree⟩
  · exact Tree.mono hleads.mapping.tables fun t ht => (howned t.1).mpr (hleads.taken t ht)
  · rcases (howned 0).mp hzero with hold | hnew
    · exact hrep.nonzero hold
    · exact hnew.2 rfl

theorem MmioInv.mmioMap (hinv : MmioInv pml4 s frames) {phys size : UInt64} {blocks : List UInt64}
    (hallowed : (MmioEvent.mmioMap phys size blocks).Allowed s)
    (hlast : s.reserved + (mmioPages phys size).toNat < 0x70000) :
    ∃ frames', MmioInv pml4 ((MmioEvent.mmioMap phys size blocks).exec pml4.1 s) frames' := by
  obtain ⟨hsize, hbound, haligned, hunused, hnodup⟩ := hallowed
  have hfresh : Fresh blocks {t : Page | t.1 ∈ s.vmm.owned} :=
    ⟨fun z hz _ => haligned z hz, fun t ht _ => hunused t.1 ht, hnodup⟩
  have hmapping : Mapping pml4 ⟨s.vmm.mem, blocks⟩ {t | t.1 ∈ s.vmm.owned} frames :=
    ⟨hinv.represents.tables, hfresh, hinv.represents.agree⟩
  obtain ⟨taken', frames', hleads, hothers, hmapped⟩ :=
    @Mapping.leads_mapPages pml4 _ _ frames (mmioAligned phys) s.next (mmioFirst + s.reserved) 0
      (mmioPages phys size).toNat hmapping fun j hj => hinv.page_ahead (by omega)
  have hnext : (s.next + mmioPages phys size * pageSize).toNat =
      mmioVirtBase.toNat + 4096 * (s.reserved + (mmioPages phys size).toNat) := by
    have hbase := mmioVirtBase_toNat
    rw [UInt64.toNat_add, UInt64.toNat_mul, hinv.next, show pageSize.toNat = 4096 from rfl]
    omega
  have hplaced : ∀ w ∈ s.windows,
      w.Placed (s.reserved + (mmioPages phys size).toNat) frames' := by
    intro w hw
    apply (hinv.placed w hw).mono (Nat.le_add_right _ _)
    exact fun p _ hupper => hothers p fun h => by omega
  refine ⟨frames', ?_⟩
  rw [MmioEvent.exec, GeckoOS.Mem.mmioMap, if_neg hinv.represents.pml4_ne]
  dsimp only
  generalize mapPages pml4.1 (mmioAligned phys) s.next 0 (mmioPages phys size).toNat
    ⟨s.vmm.mem, blocks⟩ = call at hleads hmapped
  obtain ⟨ok, m'⟩ := call
  have hrep := Mapping.Leads.represents hinv.represents hleads
  cases ok with
  | false => exact ⟨hrep, hnext, hplaced, hinv.ascending⟩
  | true =>
      obtain ⟨hslot, hnew⟩ := hinv.placed_new hsize hbound hlast (hmapped rfl)
      have hne : s.next + mmioOffset phys ≠ 0 := by
        intro hzero
        have hvirt := hnew.virt
        dsimp only at hvirt
        rw [hzero, mmioVirtBase_toNat, UInt64.toNat_zero] at hvirt
        omega
      dsimp only
      rw [if_neg hne]
      refine ⟨hrep, hnext, fun w hw => ?_, ?_⟩
      · rcases List.mem_append.mp hw with hold | hlast
        · exact hplaced w hold
        · rw [List.mem_singleton.mp hlast]
          exact hnew
      · apply List.pairwise_append.mpr
        refine ⟨hinv.ascending, List.pairwise_singleton _ _, fun w hw w' hw' => ?_⟩
        rw [List.mem_singleton.mp hw', hslot]
        exact (hinv.placed w hw).fits

/-! ## Runs -/

/-- What happens, as a step of a run. -/
def mmioStep (pml4 : UInt64) (s : Mmio) (e : MmioEvent) : Mmio := e.exec pml4 s

theorem reserved_le_mmioStep (pml4 : UInt64) (s : Mmio) (e : MmioEvent) :
    s.reserved ≤ (mmioStep pml4 s e).reserved := by
  cases e with
  | mmioMap phys size blocks => exact Nat.le_add_right _ _
  | other c => exact le_rfl

theorem windows_prefix_mmioStep (pml4 : UInt64) (s : Mmio) (e : MmioEvent) :
    s.windows <+: (mmioStep pml4 s e).windows := by
  cases e with
  | mmioMap phys size blocks =>
      rw [mmioStep, MmioEvent.exec]
      dsimp only
      split_ifs
      · exact List.prefix_rfl
      · exact List.prefix_append _ _
  | other c => exact List.prefix_rfl

theorem windows_prefix_foldl (pml4 : UInt64) (s : Mmio) (events : List MmioEvent) :
    s.windows <+: (events.foldl (mmioStep pml4) s).windows := by
  induction events generalizing s with
  | nil => exact List.prefix_rfl
  | cons e events ih => exact (windows_prefix_mmioStep pml4 s e).trans (ih _)

theorem reserved_le_foldl (pml4 : UInt64) (s : Mmio) (events : List MmioEvent) :
    s.reserved ≤ (events.foldl (mmioStep pml4) s).reserved := by
  induction events generalizing s with
  | nil => exact le_rfl
  | cons e events ih => exact (reserved_le_mmioStep pml4 s e).trans (ih _)

/-- One step keeps the invariant while the pages last. -/
theorem MmioInv.step (hinv : MmioInv pml4 s frames) {e : MmioEvent} (hallowed : e.Allowed s)
    (hlast : (mmioStep pml4.1 s e).reserved < 0x70000) :
    ∃ frames', MmioInv pml4 (mmioStep pml4.1 s e) frames' := by
  cases e with
  | mmioMap phys size blocks => exact hinv.mmioMap hallowed hlast
  | other c =>
      have habove := fun p => @Call.effect_above frames c hallowed.2 (c.exec pml4.1 s.vmm).1 p
      refine ⟨_, hinv.represents.call c hallowed.1, hinv.next, fun w hw => ?_, hinv.ascending⟩
      exact (hinv.placed w hw).mono le_rfl fun p hlower _ => habove p hlower

/-- A run that the pages last for. -/
theorem MmioInv.run (hinv : MmioInv pml4 s frames) {events : List MmioEvent}
    (hallowed : AtEveryStep (mmioStep pml4.1) MmioEvent.Allowed s events)
    (hlast : (events.foldl (mmioStep pml4.1) s).reserved < 0x70000) :
    ∃ frames', MmioInv pml4 (events.foldl (mmioStep pml4.1) s) frames' := by
  have hkeeps : ∀ (s : Mmio) (e : MmioEvent),
      (s.reserved < 0x70000 → ∃ frames, MmioInv pml4 s frames) → e.Allowed s →
        (mmioStep pml4.1 s e).reserved < 0x70000 →
          ∃ frames', MmioInv pml4 (mmioStep pml4.1 s e) frames' := by
    intro s e hgood hallowed hlast
    obtain ⟨frames, hinv⟩ := hgood (Nat.lt_of_le_of_lt (reserved_le_mmioStep pml4.1 s e) hlast)
    exact hinv.step hallowed hlast
  exact hallowed.inv_foldl hkeeps (fun _ => ⟨frames, hinv⟩) hlast

theorem MmioInv.start {vmm : Vmm} (hrep : Represents pml4 vmm frames) :
    MmioInv pml4 (Mmio.start vmm) frames := by
  refine ⟨hrep, rfl, fun w hw => ?_, List.Pairwise.nil⟩
  cases hw

/-! ## Bytes -/

/-- Where a byte of a window is. -/
theorem Window.Placed.byte_toNat (hplaced : w.Placed reserved frames) (hlast : reserved < 0x70000)
    {i : UInt64} (hi : i < w.size) :
    (w.virt + i).toNat =
        mmioVirtBase.toNat + 4096 * (w.slot + (w.phys.toNat % 4096 + i.toNat) / 4096) +
          (w.phys.toNat % 4096 + i.toNat) % 4096 ∧
      (w.phys.toNat % 4096 + i.toNat) / 4096 < w.pages := by
  have hbase := mmioVirtBase_toNat
  have hfits := hplaced.fits
  have hvirt := hplaced.virt
  have hpages : w.pages = _ := mmioPages_toNat hplaced.bound
  rw [UInt64.lt_iff_toNat_lt] at hi
  rw [UInt64.toNat_add]
  omega

/-- Every byte of a window is where it was asked for. -/
theorem Window.Placed.byte (hplaced : w.Placed reserved frames) (hlast : reserved < 0x70000)
    (hrep : Represents pml4 s.vmm frames) {i : UInt64} (hi : i < w.size) (supply : List UInt64) :
    vmmGetPhys pml4.1 (w.virt + i) ⟨s.vmm.mem, supply⟩ + (w.virt + i) % pageSize = w.phys + i := by
  obtain ⟨hvirt, hpage⟩ := hplaced.byte_toNat hlast hi
  have hbase := mmioVirtBase_toNat
  have hfits := hplaced.fits
  have hbound := hplaced.bound
  have hnumber := pageNumber_mmio hvirt (Nat.mod_lt _ (by decide)) (by omega)
  rw [hrep.vmmGetPhys_eq, hnumber, hplaced.frames _ hpage, Option.getD_some]
  rw [UInt64.lt_iff_toNat_lt] at hi
  apply UInt64.toNat_inj.mp
  rw [UInt64.toNat_add, (mmioFrame_toNat hbound hpage).1, UInt64.toNat_mod, hvirt,
    UInt64.toNat_add w.phys, show pageSize.toNat = 4096 from rfl]
  omega

/-- Bytes of windows one after the other are in different pages. -/
theorem Window.Placed.apart (hplaced : w.Placed reserved frames)
    (hplaced' : w'.Placed reserved frames) (hlast : reserved < 0x70000)
    (hafter : w.slot + w.pages ≤ w'.slot) {i j : UInt64} (hi : i < w.size) (hj : j < w'.size) :
    (w.virt + i) / pageSize ≠ (w'.virt + j) / pageSize := by
  obtain ⟨hvirt, hpage⟩ := hplaced.byte_toNat hlast hi
  obtain ⟨hvirt', -⟩ := hplaced'.byte_toNat hlast hj
  have hbase := mmioVirtBase_toNat
  intro hsame
  have hnat := congrArg UInt64.toNat hsame
  rw [UInt64.toNat_div, UInt64.toNat_div, hvirt, hvirt',
    show pageSize.toNat = 4096 from rfl] at hnat
  omega

/-- All device windows, at the end of any run that starts in any address space: each byte is where
it was asked for, two windows are in different pages, and the translations of a window are what
they were when the window was made. -/
theorem mmio_windows (mem : Nat → UInt64) (pml4 : UInt64) (hpage : pml4 &&& pteAddrMask = pml4)
    (hne : pml4 ≠ 0) {vmm : Vmm} {frames : Nat → Option UInt64}
    (hstart : Run pml4 (Vmm.new mem pml4) vmm frames) {events : List MmioEvent}
    (hallowed : AtEveryStep (mmioStep pml4) MmioEvent.Allowed (Mmio.start vmm) events)
    (hlast : (events.foldl (mmioStep pml4) (Mmio.start vmm)).reserved < 0x70000)
    (supply : List UInt64) :
    (∀ w ∈ (events.foldl (mmioStep pml4) (Mmio.start vmm)).windows, ∀ i < w.size,
      vmmGetPhys pml4 (w.virt + i)
          ⟨(events.foldl (mmioStep pml4) (Mmio.start vmm)).vmm.mem, supply⟩ +
        (w.virt + i) % pageSize = w.phys + i) ∧
    ((events.foldl (mmioStep pml4) (Mmio.start vmm)).windows.Pairwise fun w w' =>
      ∀ i < w.size, ∀ j < w'.size, (w.virt + i) / pageSize ≠ (w'.virt + j) / pageSize) ∧
    ∀ before, before <+: events →
      ∀ w ∈ (before.foldl (mmioStep pml4) (Mmio.start vmm)).windows, ∀ i < w.size,
        vmmGetPhys pml4 (w.virt + i)
            ⟨(events.foldl (mmioStep pml4) (Mmio.start vmm)).vmm.mem, supply⟩ =
          vmmGetPhys pml4 (w.virt + i)
            ⟨(before.foldl (mmioStep pml4) (Mmio.start vmm)).vmm.mem, supply⟩ := by
  have hrep : Represents ⟨pml4, hpage⟩ vmm frames := Represents.run hne hstart
  have hrun : ∀ before, before <+: events →
      (before.foldl (mmioStep pml4) (Mmio.start vmm)).reserved < 0x70000 ∧ ∃ frames,
        MmioInv ⟨pml4, hpage⟩ (before.foldl (mmioStep pml4) (Mmio.start vmm)) frames := by
    rintro before ⟨after, rfl⟩
    rw [List.foldl_append] at hlast
    have hbefore := Nat.lt_of_le_of_lt (reserved_le_foldl pml4 _ after) hlast
    exact ⟨hbefore,
      (MmioInv.start hrep).run (hallowed.of_prefix (List.prefix_append _ _)) hbefore⟩
  obtain ⟨-, framesEnd, hinv⟩ := hrun events List.prefix_rfl
  have hbytes : ∀ w ∈ (events.foldl (mmioStep pml4) (Mmio.start vmm)).windows, ∀ i < w.size,
      vmmGetPhys pml4 (w.virt + i)
          ⟨(events.foldl (mmioStep pml4) (Mmio.start vmm)).vmm.mem, supply⟩ +
        (w.virt + i) % pageSize = w.phys + i :=
    fun w hw i hi => (hinv.placed w hw).byte hlast hinv.represents hi supply
  refine ⟨hbytes, ?_, fun before hbefore w hw i hi => ?_⟩
  · apply hinv.ascending.imp_of_mem
    intro w w' hw hw' hafter i hi j hj
    exact (hinv.placed w hw).apart (hinv.placed w' hw') hlast hafter hi hj
  · obtain ⟨hlastBefore, framesBefore, hinvBefore⟩ := hrun before hbefore
    have hkept : w ∈ (events.foldl (mmioStep pml4) (Mmio.start vmm)).windows := by
      obtain ⟨after, rfl⟩ := hbefore
      rw [List.foldl_append]
      exact (windows_prefix_foldl pml4 _ after).subset hw
    have hthen := (hinvBefore.placed w hw).byte hlastBefore hinvBefore.represents hi supply
    exact (UInt64.add_left_inj _).mp ((hbytes w hkept i hi).trans hthen.symm)

/-- A framebuffer that starts in the middle of a page. -/
def framebufferWindow : MmioEvent :=
  .mmioMap 0xFD000800 0x1000 [0x2000, 0x3000, 0x4000]

/-- The address space with it. -/
def framebufferSpace : Mmio :=
  [framebufferWindow].foldl (mmioStep 0x1000) (Mmio.start (Vmm.new (fun _ => 0xFF) 0x1000))

theorem framebufferSpace_windows : framebufferSpace.reserved = 2 ∧
    framebufferSpace.windows = [⟨0xFD000800, 0x1000, 0xFFFFFFFF90000800⟩] := by
  decide

theorem framebufferWindow_allowed :
    framebufferWindow.Allowed (Mmio.start (Vmm.new (fun _ => 0xFF) 0x1000)) := by
  refine ⟨by decide, by decide, ?_, List.forall_mem_singleton.mpr (by decide), by decide⟩
  exact List.forall_mem_cons.mpr
    ⟨rfl, List.forall_mem_cons.mpr ⟨rfl, List.forall_mem_singleton.mpr rfl⟩⟩

theorem mmio_windows_framebuffer :
    framebufferSpace.reserved < 0x70000 ∧
      (⟨0xFD000800, 0x1000, 0xFFFFFFFF90000800⟩ : Window) ∈ framebufferSpace.windows ∧
        vmmGetPhys 0x1000 (0xFFFFFFFF90000800 + 0x900) ⟨framebufferSpace.vmm.mem, []⟩ +
          (0xFFFFFFFF90000800 + 0x900) % pageSize = 0xFD000800 + 0x900 := by
  obtain ⟨hreserved, hwindows⟩ := framebufferSpace_windows
  have hlast : framebufferSpace.reserved < 0x70000 := by
    rw [hreserved]
    decide
  have hmem : (⟨0xFD000800, 0x1000, 0xFFFFFFFF90000800⟩ : Window) ∈ framebufferSpace.windows := by
    rw [hwindows]
    exact List.mem_singleton_self _
  have hallowed : AtEveryStep (mmioStep 0x1000) MmioEvent.Allowed
      (Mmio.start (Vmm.new (fun _ => 0xFF) 0x1000)) [framebufferWindow] :=
    atEveryStep_cons.mpr ⟨framebufferWindow_allowed, atEveryStep_nil⟩
  have hall := mmio_windows (fun _ => 0xFF) 0x1000 rfl (by decide) .start hallowed hlast []
  exact ⟨hlast, hmem, hall.1 _ hmem 0x900 (by decide)⟩

end GeckoOS.Mem
