/-
# PCI enumeration

`enumerate_pci` reads the configuration space through the two ports of the host bridge
and builds a tree of `pci_bus` records: each bus has the devices found on it and, for
each bridge among them, a child.  A bus is scanned slot by slot; the bus behind a bridge
is scanned before the scan of the bridge's own bus goes on.

The number that the child gets, and that its devices are read under, is what
`alloc_new_bus` reads from the bridge, the byte at `bridge.ss_busnum`.  The recursion is
bounded by nothing but the topology, so the model takes a bound for its depth.

`parent`, `self` and `pci_dev.bus` are the shape of the tree here and not fields.
-/

import Mathlib.Data.List.Basic
import Mathlib.Tactic.Ring

namespace GeckoOS.Drivers

/-! ## Configuration space -/

/-- What the configuration space of the machine holds: for a bus, a device, a function and
the offset of a register, its 32 bits. -/
abbrev ConfigSpace := Nat → Nat → Nat → Nat → UInt32

/-- What `PCI_CFG_DATA` gives for an address in `PCI_CFG_ADDR`. -/
def configData (cfg : ConfigSpace) (addr : Nat) : UInt32 :=
  cfg (addr / 2 ^ 16 % 256) (addr / 2 ^ 11 % 32) (addr / 2 ^ 8 % 8) (addr / 4 % 64 * 4)

/-- `pci_readl`. -/
def pciReadl (cfg : ConfigSpace) (bus slot func off : Nat) : UInt32 :=
  configData cfg (bus <<< 16 ||| slot <<< 11 ||| func <<< 8 ||| (off &&& 0xFC) ||| 0x80000000)

/-- `pci_readb`. -/
def pciReadb (cfg : ConfigSpace) (bus slot func off : Nat) : Nat :=
  ((pciReadl cfg bus slot func (off / 4 * 4)).toNat >>> (off % 4 * 8)) % 256

/-! ## Offsets in `struct pci_hdr` -/

/-- `common.vendid`. -/
abbrev vendidOffset : Nat := 0x00

/-- `common.clas`. -/
abbrev clasOffset : Nat := 0x0B

/-- `common.htype`. -/
abbrev htypeOffset : Nat := 0x0E

/-- `bridge.s_busnum`. -/
abbrev sBusnumOffset : Nat := 0x19

/-- `bridge.ss_busnum`. -/
abbrev ssBusnumOffset : Nat := 0x1A

/-! ## The tree -/

/-- `struct pci_dev`. -/
structure PciDev where
  devfn : Nat
  vendor : Nat
  device : Nat
  clas : Nat
  deriving DecidableEq

/-- `struct pci_bus`, its lists of devices and of children in their order. -/
structure PciBus where
  bus : Nat
  primary : Nat
  secondary : Nat
  subordinate : Nat
  devices : List PciDev
  children : List PciBus

/-- What `alloc_new_bus` puts into the record for the bus behind a bridge. -/
def newBus (number : Nat) : PciBus := ⟨number, number, number, 0, [], []⟩

/-- `alloc_new_bus`; `enumerate` is the scan of the new bus. -/
def allocNewBus (cfg : ConfigSpace) (enumerate : PciBus → Option PciBus) (parent : PciBus)
    (self : PciDev) : Option PciBus := do
  let number := pciReadb cfg parent.bus (self.devfn / 8) (self.devfn % 8) ssBusnumOffset
  let subordinate :=
    if number = parent.bus then (parent.subordinate + 1) % 256 else parent.subordinate
  let child ← enumerate (newBus number)
  return { parent with subordinate := subordinate, children := parent.children ++ [child] }

/-- `enumerate_pcidev`. -/
def enumeratePcidev (cfg : ConfigSpace) (enumerate : PciBus → Option PciBus) (parent : PciBus)
    (dev func : Nat) : Option PciBus := do
  let tmp := pciReadl cfg parent.primary dev func vendidOffset
  if tmp = 0xFFFFFFFF then return parent
  let htype := pciReadb cfg parent.primary dev func htypeOffset
  let pciDev : PciDev :=
    { devfn := dev * 8 + func % 8
      vendor := tmp.toNat % 2 ^ 16
      device := tmp.toNat / 2 ^ 16
      clas := pciReadb cfg parent.primary dev func clasOffset }
  let parent ← if htype % 128 = 1 then allocNewBus cfg enumerate parent pciDev else some parent
  return { parent with devices := parent.devices ++ [pciDev] }

/-- The loop of `enumerate_pcibus` over the functions of a device. -/
def functionLoop (cfg : ConfigSpace) (enumerate : PciBus → Option PciBus) (device : Nat) :
    List Nat → PciBus → Option PciBus
  | [], bus => some bus
  | fn :: more, bus =>
      let htype := pciReadb cfg bus.primary device fn htypeOffset
      if htype = 0xFF then some bus
      else do
        let bus ← enumeratePcidev cfg enumerate bus device fn
        if htype < 128 then return bus
        functionLoop cfg enumerate device more bus

/-- The loop of `enumerate_pcibus` over the devices. -/
def deviceLoop (cfg : ConfigSpace) (enumerate : PciBus → Option PciBus) :
    List Nat → PciBus → Option PciBus
  | [], bus => some bus
  | device :: more, bus => do
      let bus ← functionLoop cfg enumerate device (List.range 8) bus
      deviceLoop cfg enumerate more bus

/-- `enumerate_pcibus`, with at most `fuel` buses below one another. -/
def enumeratePcibus (cfg : ConfigSpace) : Nat → PciBus → Option PciBus
  | 0, _ => none
  | fuel + 1, bus => deviceLoop cfg (enumeratePcibus cfg fuel) (List.range 32) bus

/-- `enumerate_pci`; `pci_root_bus` is zero before, also its `secondary`. -/
def enumeratePci (cfg : ConfigSpace) (fuel : Nat) : Option PciBus :=
  enumeratePcibus cfg fuel (newBus 0)

theorem or_shiftLeft {b i : Nat} (a : Nat) (hb : b < 2 ^ i) : a <<< i ||| b = a * 2 ^ i + b := by
  rw [← Nat.shiftLeft_add_eq_or_of_lt hb, Nat.shiftLeft_eq]

/-- The port decodes the address that `pci_readl` makes. -/
theorem pciReadl_eq {bus slot func off : Nat} (cfg : ConfigSpace) (hbus : bus < 256)
    (hslot : slot < 32) (hfunc : func < 8) (hoff : off < 256) :
    pciReadl cfg bus slot func (off / 4 * 4) = cfg bus slot func (off / 4 * 4) := by
  have hmask : off / 4 * 4 &&& 0xFC = off / 4 * 4 := by
    have hall : ∀ off < 256, off / 4 * 4 &&& 0xFC = off / 4 * 4 := by decide +kernel
    exact hall off hoff
  have hslots : bus <<< 16 ||| slot <<< 11 = (bus * 32 + slot) <<< 11 := by
    rw [or_shiftLeft bus (by rw [Nat.shiftLeft_eq]; omega), Nat.shiftLeft_eq, Nat.shiftLeft_eq]
    ring
  have hfuncs : (bus * 32 + slot) <<< 11 ||| func <<< 8 = ((bus * 32 + slot) * 8 + func) <<< 8 := by
    rw [or_shiftLeft _ (by rw [Nat.shiftLeft_eq]; omega), Nat.shiftLeft_eq, Nat.shiftLeft_eq]
    ring
  have henable : (((bus * 32 + slot) * 8 + func) <<< 8 ||| off / 4 * 4) ||| 0x80000000 =
      2 ^ 31 + (((bus * 32 + slot) * 8 + func) * 2 ^ 8 + off / 4 * 4) := by
    rw [or_shiftLeft _ (by omega), Nat.or_comm, show 0x80000000 = 1 <<< 31 from rfl,
      or_shiftLeft _ (by omega)]
    omega
  rw [pciReadl, hmask, hslots, hfuncs, henable, configData]
  congr 1 <;> omega

end GeckoOS.Drivers
