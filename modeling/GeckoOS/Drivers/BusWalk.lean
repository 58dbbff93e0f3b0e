/-
# The walk over the buses

`alloc_new_bus` links the buses behind the bridges of a bus by `next`, and the first of them is
the `children` of that bus.  `walk_buses` goes through these records with one cursor: to the
children of a bus if it has any, and else to the next bus.

It never climbs.  Once it has gone to the children of a bus it does not come back to the buses
after that one, and the devices there, and those behind them, get no call.  The table of visited
buses has no part in this: in a tree no bus is met twice, and the walk ends because the tree does,
also when the table is full.
-/

import GeckoOS.Drivers.Pci
import GeckoOS.Math.Loop
import Mathlib.Data.List.Nodup

namespace GeckoOS.Drivers

open GeckoOS.Math

variable {δ : Type}

/-! ## The walk -/

/-- A `struct pci_bus` as the walk reads it, with its list of devices. -/
structure BusNode (δ : Type) where
  devices : List δ
  children : UInt64
  next : UInt64

/-- `cur`, the part of `visited` that is filled, and the devices for which `cb` has been called. -/
structure Walk (δ : Type) where
  cur : UInt64
  visited : List UInt64
  called : List δ

/-- `cur` is put into the table if there is room. -/
def remember (visited : List UInt64) (cur : UInt64) : List UInt64 :=
  if visited.length < 64 then visited ++ [cur] else visited

/-- A round of the loop of `walk_buses`. -/
def walkRound (mem : UInt64 → BusNode δ) (w : Walk δ) : List δ ⊕ Walk δ :=
  if w.cur = 0 then .inl w.called
  else if w.cur ∈ w.visited then .inl w.called
  else
    let node := mem w.cur
    .inr ⟨if node.children ≠ 0 then node.children else node.next, remember w.visited w.cur,
      w.called ++ node.devices⟩

/-- `walk_buses`: the devices for which it calls `cb`, one after another, if it ends. -/
noncomputable def walkBuses (mem : UInt64 → BusNode δ) (start : UInt64) : Option (List δ) :=
  loop (walkRound mem) ⟨start, [], []⟩

theorem mem_remember {visited : List UInt64} {cur a : UInt64} (hmem : a ∈ remember visited cur) :
    a ∈ visited ∨ a = cur := by
  rw [remember] at hmem
  split_ifs at hmem
  · rwa [List.mem_append, List.mem_singleton] at hmem
  · exact .inl hmem

theorem walkRound_null (mem : UInt64 → BusNode δ) (visited : List UInt64) (called : List δ) :
    walkRound mem ⟨0, visited, called⟩ = .inl called := rfl

/-- A bus that is not in the table. -/
theorem walkRound_new {mem : UInt64 → BusNode δ} {cur : UInt64} {visited : List UInt64}
    (hne : cur ≠ 0) (hnew : cur ∉ visited) (called : List δ) :
    walkRound mem ⟨cur, visited, called⟩ =
      .inr ⟨if (mem cur).children ≠ 0 then (mem cur).children else (mem cur).next,
        remember visited cur, called ++ (mem cur).devices⟩ := by
  rw [walkRound, if_neg hne, if_neg hnew]

/-! ## Trees of buses -/

/-- A bus and the buses that are linked to it: at an address, its devices, the buses that begin
with its first child, and those that begin with the next bus. -/
inductive Buses (δ : Type) where
  | none
  | bus (addr : UInt64) (devices : List δ) (children next : Buses δ)

namespace Buses

/-- The devices of all the buses. -/
def allDevices : Buses δ → List δ
  | none => []
  | bus _ devices children next => devices ++ (children.allDevices ++ next.allDevices)

/-- The addresses of the buses. -/
def addresses : Buses δ → List UInt64
  | none => []
  | bus addr _ children next => addr :: (children.addresses ++ next.addresses)

/-- The buses are in memory, linked to a pointer. -/
def LinkedAt (mem : UInt64 → BusNode δ) : UInt64 → Buses δ → Prop
  | ptr, none => ptr = 0
  | ptr, bus addr devices children next =>
      ptr = addr ∧ addr ≠ 0 ∧ (mem addr).devices = devices ∧
        LinkedAt mem (mem addr).children children ∧ LinkedAt mem (mem addr).next next

end Buses

/-- A tree of buses below the one at `root`, in records of their own. -/
structure BusTree (mem : UInt64 → BusNode δ) (root : UInt64) where
  devices : List δ
  children : Buses δ
  linked : Buses.LinkedAt mem root (.bus root devices children .none)
  apart : (Buses.bus root devices children .none).addresses.Nodup

namespace BusTree

variable {mem : UInt64 → BusNode δ} {root : UInt64}

/-- The tree as a bus that has no next. -/
def buses (tree : BusTree mem root) : Buses δ := .bus root tree.devices tree.children .none

end BusTree

/-! ## What the walk comes to -/

namespace Buses

/-- The devices that the walk comes to. -/
def walked : Buses δ → List δ
  | none => []
  | bus _ devices none next => devices ++ next.walked
  | bus _ devices (bus addr below children beside) _ =>
      devices ++ (bus addr below children beside).walked

variable {mem : UInt64 → BusNode δ} {ptr addr : UInt64} {devices : List δ}
  {buses children next : Buses δ}

theorem LinkedAt.eq_zero_iff (hlinked : LinkedAt mem ptr buses) : ptr = 0 ↔ buses = none := by
  cases buses with
  | none => exact iff_of_true hlinked rfl
  | bus addr devices children next =>
      obtain ⟨rfl, hne, -⟩ := hlinked
      exact iff_of_false hne (by simp)

theorem walked_of_leaf : (bus addr devices none next).walked = devices ++ next.walked := rfl

theorem walked_of_ne (hne : children ≠ none) :
    (bus addr devices children next).walked = devices ++ children.walked := by
  cases children with
  | none => exact absurd rfl hne
  | bus _ _ _ _ => rfl

/-- A walk from these buses, none of them seen before, calls `cb` for what it comes to and
ends. -/
theorem LinkedAt.loop_eq (hlinked : LinkedAt mem ptr buses) (hapart : buses.addresses.Nodup)
    {visited : List UInt64} (hfresh : ∀ a ∈ buses.addresses, a ∉ visited) (called : List δ) :
    loop (walkRound mem) ⟨ptr, visited, called⟩ = some (called ++ buses.walked) := by
  induction buses generalizing ptr visited called with
  | none =>
      obtain rfl : ptr = 0 := hlinked
      rw [Math.loop_eq, walkRound_null, walked, List.append_nil]
  | bus addr devices children next hchildren hnext =>
      obtain ⟨rfl, hne, hdevices, hbelow, hbeside⟩ := hlinked
      rw [addresses, List.nodup_cons] at hapart
      obtain ⟨hself, hrest⟩ := hapart
      rw [addresses, List.forall_mem_cons] at hfresh
      -- whether or not the table is full, only this bus is new in it
      have hfresh' : ∀ a ∈ children.addresses ++ next.addresses, a ∉ remember visited ptr := by
        intro a ha hmem
        rcases mem_remember hmem with hold | rfl
        · exact hfresh.2 a ha hold
        · exact hself ha
      rw [List.forall_mem_append] at hfresh'
      rw [Math.loop_eq, walkRound_new hne hfresh.1, hdevices]
      by_cases hleaf : children = none
      · rw [if_neg (not_not.mpr (hbelow.eq_zero_iff.mpr hleaf)), hleaf, walked_of_leaf,
          ← List.append_assoc]
        exact hnext hbeside hrest.of_append_right hfresh'.2 _
      · rw [if_pos (mt hbelow.eq_zero_iff.mp hleaf), walked_of_ne hleaf, ← List.append_assoc]
        exact hchildren hbelow hrest.of_append_left hfresh'.1 _

/-- The walk comes to no device that is not there. -/
theorem walked_sublist (buses : Buses δ) : buses.walked.Sublist buses.allDevices := by
  induction buses with
  | none => exact .slnil
  | bus addr devices children next hchildren hnext =>
      rw [allDevices]
      by_cases hleaf : children = none
      · rw [hleaf, walked_of_leaf, allDevices, List.nil_append]
        exact hnext.append_left devices
      · rw [walked_of_ne hleaf]
        exact (hchildren.trans (List.sublist_append_left _ _)).append_left devices

/-- No device is missed: from every bus that has children and that the walk comes to, there is
no device on the buses after it, nor on any behind these. -/
def Straight : Buses δ → Prop
  | none => True
  | bus _ _ none next => next.Straight
  | bus _ _ (bus addr devices below beside) next =>
      next.allDevices = [] ∧ (bus addr devices below beside).Straight

theorem straight_of_leaf : (bus addr devices none next).Straight ↔ next.Straight := Iff.rfl

theorem straight_of_ne (hne : children ≠ none) :
    (bus addr devices children next).Straight ↔ next.allDevices = [] ∧ children.Straight := by
  cases children with
  | none => exact absurd rfl hne
  | bus _ _ _ _ => exact Iff.rfl

/-- The walk comes to every device once if and only if none is missed. -/
theorem walked_perm_iff (buses : Buses δ) :
    buses.walked.Perm buses.allDevices ↔ buses.Straight := by
  induction buses with
  | none => exact iff_of_true (.refl _) trivial
  | bus addr devices children next hchildren hnext =>
      rw [allDevices]
      by_cases hleaf : children = none
      · rw [hleaf, walked_of_leaf, straight_of_leaf, allDevices, List.nil_append,
          List.perm_append_left_iff, hnext]
      · rw [walked_of_ne hleaf, straight_of_ne hleaf, List.perm_append_left_iff, ← hchildren]
        constructor
        · intro hperm
          have hlength := hperm.length_eq
          rw [List.length_append] at hlength
          have hle := children.walked_sublist.length_le
          have hnone : next.allDevices = [] := List.length_eq_zero_iff.mp (by omega)
          rw [hnone, List.append_nil] at hperm
          exact ⟨hnone, hperm⟩
        · rintro ⟨hnone, hperm⟩
          rwa [hnone, List.append_nil]

end Buses

/-! ## Every device once -/

/-- The walk ends and has called `cb` exactly once for every device of every bus. -/
def WalksAll {mem : UInt64 → BusNode δ} {root : UInt64} (tree : BusTree mem root) : Prop :=
  ∃ called, walkBuses mem root = some called ∧ called.Perm tree.buses.allDevices

theorem BusTree.walkBuses_eq {mem : UInt64 → BusNode δ} {root : UInt64}
    (tree : BusTree mem root) : walkBuses mem root = some tree.buses.walked := by
  rw [walkBuses, tree.linked.loop_eq tree.apart fun _ _ => List.not_mem_nil, List.nil_append]
  rfl

/-- On a tree the walk ends, and it misses no device if and only if nothing is beside a bus with
children. -/
theorem walksAll_iff {mem : UInt64 → BusNode δ} {root : UInt64} (tree : BusTree mem root) :
    WalksAll tree ↔ tree.buses.Straight := by
  rw [← Buses.walked_perm_iff, WalksAll, tree.walkBuses_eq]
  constructor
  · rintro ⟨called, hcalled, hperm⟩
    rwa [Option.some.inj hcalled]
  · exact fun hperm => ⟨_, rfl, hperm⟩

/-! ## Two bridges on one bus -/

/-- A bridge. -/
def pciBridge (devfn : Nat) : PciDev := ⟨devfn, 0x8086, 0x2448, 6⟩

/-- A network card. -/
def pciNic : PciDev := ⟨0x18, 0x8086, 0x100E, 2⟩

/-- The root bus has two bridges.  Behind the first one is a bus with another bridge, behind the
second one a bus with a network card. -/
def twoBridges (addr : UInt64) : BusNode PciDev :=
  if addr = 0x200000 then ⟨[pciBridge 0x08, pciBridge 0x10], 0x200040, 0⟩
  else if addr = 0x200040 then ⟨[pciBridge 0x08], 0x200080, 0x2000C0⟩
  else if addr = 0x2000C0 then ⟨[pciNic], 0, 0⟩
  else ⟨[], 0, 0⟩

/-- The buses below the root. -/
def belowTwoBridges : Buses PciDev :=
  .bus 0x200040 [pciBridge 0x08] (.bus 0x200080 [] .none .none)
    (.bus 0x2000C0 [pciNic] .none .none)

theorem twoBridges_linked : Buses.LinkedAt twoBridges 0x200000
    (.bus 0x200000 [pciBridge 0x08, pciBridge 0x10] belowTwoBridges .none) := by
  have hchild : Buses.LinkedAt twoBridges 0x200080 (.bus 0x200080 [] .none .none) :=
    ⟨rfl, by decide, rfl, rfl, rfl⟩
  have hnext : Buses.LinkedAt twoBridges 0x2000C0 (.bus 0x2000C0 [pciNic] .none .none) :=
    ⟨rfl, by decide, rfl, rfl, rfl⟩
  exact ⟨rfl, by decide, rfl, ⟨rfl, by decide, rfl, hchild, hnext⟩, rfl⟩

theorem twoBridges_apart : Buses.addresses
    (.bus 0x200000 [pciBridge 0x08, pciBridge 0x10] belowTwoBridges .none) |>.Nodup := by
  decide

/-- These buses as a tree. -/
def twoBridgesTree : BusTree twoBridges 0x200000 :=
  ⟨[pciBridge 0x08, pciBridge 0x10], belowTwoBridges, twoBridges_linked, twoBridges_apart⟩

/-- The walk does not come to the card. -/
theorem walkBuses_misses_nic : ¬WalksAll twoBridgesTree := by
  rintro ⟨called, hcalled, hperm⟩
  rw [twoBridgesTree.walkBuses_eq] at hcalled
  rw [← Option.some.inj hcalled] at hperm
  exact absurd hperm.length_eq (by decide)

end GeckoOS.Drivers
