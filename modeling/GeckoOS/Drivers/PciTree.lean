/-
# Which functions enumeration finds

The bridges of a machine form a tree of buses: every bridge has a bus behind it, its
secondary bus, and names with its subordinate number the largest bus anywhere below it.
`NumberedTree` says that a configuration space is such a tree and that the functions that
are not there read as ones.

`enumerate_pci` always ends on a tree, but it need not find all of it.  The bus behind a
bridge is scanned under the bridge's subordinate number, which is the number of that bus
only if there is no bridge on it; and the functions of a device are followed only up to
the first gap and the first one without the bit for more functions.  `Enumerable` says
that neither happens, and this is exactly when the tree that is built has every function
once.
-/

import GeckoOS.Drivers.Pci
import Mathlib.Data.List.Nodup
import Mathlib.Logic.Relation
import Mathlib.Order.Bounds.Basic

namespace GeckoOS.Drivers

/-! ## Trees of buses -/

/-- A place for a function. -/
structure PciFunction where
  bus : Nat
  device : Nat
  fn : Nat
  deriving DecidableEq

/-- There is such a place. -/
def PciFunction.InRange (x : PciFunction) : Prop := x.bus < 256 ∧ x.device < 32 ∧ x.fn < 8

section Machine

variable (cfg : ConfigSpace)

/-- There is a function. -/
def Present (x : PciFunction) : Prop :=
  x.InRange ∧ cfg x.bus x.device x.fn vendidOffset ≠ 0xFFFFFFFF

/-- The header type of a function, with the bit for more functions. -/
def headerType (x : PciFunction) : Nat := pciReadb cfg x.bus x.device x.fn htypeOffset

/-- The number of the bus behind a bridge. -/
def secondaryBus (x : PciFunction) : Nat := pciReadb cfg x.bus x.device x.fn sBusnumOffset

/-- The largest number of a bus below a bridge. -/
def subordinateBus (x : PciFunction) : Nat := pciReadb cfg x.bus x.device x.fn ssBusnumOffset

/-- A function is a bridge. -/
def IsBridge (x : PciFunction) : Prop := Present cfg x ∧ headerType cfg x % 128 = 1

/-- The second bus is behind a bridge on the first. -/
def Behind (first second : Nat) : Prop :=
  ∃ x, IsBridge cfg x ∧ x.bus = first ∧ secondaryBus cfg x = second

/-- The second bus is the first or below it. -/
def Below : Nat → Nat → Prop := Relation.ReflTransGen (Behind cfg)

/-- The bridges form a tree with proper numbers. -/
structure NumberedTree : Prop where
  absent : ∀ x : PciFunction, x.InRange → ¬Present cfg x →
    ∀ reg, cfg x.bus x.device x.fn reg = 0xFFFFFFFF
  first : ∀ x, Present cfg x → Present cfg { x with fn := 0 }
  attached : ∀ x, Present cfg x → x.bus ≠ 0 → ∃ y, IsBridge cfg y ∧ secondaryBus cfg y = x.bus
  unique : ∀ x y, IsBridge cfg x → IsBridge cfg y → secondaryBus cfg x = secondaryBus cfg y → x = y
  greater : ∀ x, IsBridge cfg x → x.bus < secondaryBus cfg x
  subordinate : ∀ x, IsBridge cfg x →
    IsGreatest {b | Below cfg (secondaryBus cfg x) b} (subordinateBus cfg x)

/-- The scan of a device comes to a function: it finds one at each number before, and the
bit for more functions there. -/
def Scanned (x : PciFunction) : Prop :=
  ∀ g ≤ x.fn, headerType cfg { x with fn := g } ≠ 0xFF ∧
    (g < x.fn → 128 ≤ headerType cfg { x with fn := g })

/-- Every function is scanned, and every bridge has the last bus right behind it. -/
def Enumerable : Prop :=
  (∀ x, Present cfg x → Scanned cfg x) ∧
    ∀ x, IsBridge cfg x → subordinateBus cfg x = secondaryBus cfg x

end Machine

mutual

/-- The functions in a tree, each with the number of the bus it is listed on. -/
def PciBus.entries : PciBus → List PciFunction
  | ⟨bus, _, _, _, devices, children⟩ =>
      devices.map (fun dev => ⟨bus, dev.devfn / 8, dev.devfn % 8⟩) ++ entriesBelow children

/-- The functions in the trees of the children. -/
def entriesBelow : List PciBus → List PciFunction
  | [] => []
  | child :: more => child.entries ++ entriesBelow more

end

/-- A tree has every function once, on the bus it is on. -/
def ListsAll (cfg : ConfigSpace) (tree : PciBus) : Prop :=
  tree.entries.Nodup ∧ ∀ x, x ∈ tree.entries ↔ Present cfg x

variable {cfg : ConfigSpace} {bus : PciBus} {x : PciFunction} {n : Nat}

theorem entriesBelow_append (children more : List PciBus) :
    entriesBelow (children ++ more) = entriesBelow children ++ entriesBelow more := by
  induction children with
  | nil => rfl
  | cons child children ih =>
      rw [List.cons_append, entriesBelow, entriesBelow, ih, List.append_assoc]

/-! ## What is scanned -/

section Scan

variable (cfg)

/-- The functions of a device that the scan comes to. -/
def scan (n device : Nat) : List Nat → List Nat
  | [] => []
  | fn :: more =>
      if headerType cfg ⟨n, device, fn⟩ = 0xFF then []
      else if headerType cfg ⟨n, device, fn⟩ < 128 then [fn]
      else fn :: scan n device more

/-- The functions of a bus that the scan comes to, in order. -/
def visited (n : Nat) : List PciFunction :=
  (List.range 32).flatMap fun device =>
    (scan cfg n device (List.range 8)).map fun fn => ⟨n, device, fn⟩

end Scan

theorem scan_sublist (device : Nat) (fns : List Nat) : (scan cfg n device fns).Sublist fns := by
  induction fns with
  | nil => exact List.Sublist.refl _
  | cons fn fns ih =>
      rw [scan]
      split_ifs
      · exact List.nil_sublist _
      · exact (List.nil_sublist _).cons_cons fn
      · exact ih.cons_cons fn

theorem mem_scan (device start count fn : Nat) :
    fn ∈ scan cfg n device (List.range' start count) ↔ start ≤ fn ∧ fn < start + count ∧
      ∀ g, start ≤ g → g ≤ fn → headerType cfg ⟨n, device, g⟩ ≠ 0xFF ∧
        (g < fn → 128 ≤ headerType cfg ⟨n, device, g⟩) := by
  induction count generalizing start with
  | zero =>
      simp only [List.range'_zero, scan, List.not_mem_nil, false_iff]
      omega
  | succ count ih =>
      rw [List.range'_succ, scan]
      split_ifs with hgap hlast
      · simp only [List.not_mem_nil, false_iff]
        rintro ⟨hstart, -, hall⟩
        exact (hall start le_rfl hstart).1 hgap
      · rw [List.mem_singleton]
        constructor
        · rintro rfl
          refine ⟨le_rfl, by omega, fun g hg hg' => ?_⟩
          obtain rfl := Nat.le_antisymm hg hg'
          exact ⟨hgap, fun hless => absurd hless (Nat.lt_irrefl _)⟩
        · rintro ⟨hstart, -, hall⟩
          by_contra hne
          exact absurd ((hall start le_rfl hstart).2 (by omega)) (by omega)
      · rw [List.mem_cons, ih]
        constructor
        · rintro (rfl | ⟨hstart, hend, hall⟩)
          · refine ⟨le_rfl, by omega, fun g hg hg' => ?_⟩
            obtain rfl := Nat.le_antisymm hg hg'
            exact ⟨hgap, fun hless => absurd hless (Nat.lt_irrefl _)⟩
          · refine ⟨by omega, by omega, fun g hg hg' => ?_⟩
            rcases Nat.eq_or_lt_of_le hg with rfl | hless
            · exact ⟨hgap, fun _ => by omega⟩
            · exact hall g hless hg'
        · rintro ⟨hstart, hend, hall⟩
          rcases Nat.eq_or_lt_of_le hstart with rfl | hless
          · exact .inl rfl
          · exact .inr ⟨hless, by omega, fun g hg hg' => hall g (by omega) hg'⟩

theorem mem_visited :
    x ∈ visited cfg n ↔ x.bus = n ∧ x.device < 32 ∧ x.fn < 8 ∧ Scanned cfg x := by
  obtain ⟨b, device, fn⟩ := x
  simp only [visited, List.mem_flatMap, List.mem_map, PciFunction.mk.injEq,
    List.range_eq_range', mem_scan, Scanned]
  constructor
  · rintro ⟨d, hd, f, ⟨-, hf, hall⟩, rfl, rfl, rfl⟩
    exact ⟨rfl, by simpa using hd, by omega, fun g hg => hall g (Nat.zero_le _) hg⟩
  · rintro ⟨rfl, hd, hf, hall⟩
    exact ⟨device, by simpa using hd, fn, ⟨Nat.zero_le _, by omega, fun g _ hg => hall g hg⟩,
      rfl, rfl, rfl⟩

theorem nodup_visited (cfg : ConfigSpace) (n : Nat) : (visited cfg n).Nodup := by
  rw [visited, List.nodup_flatMap]
  constructor
  · intro device _
    refine ((scan_sublist device _).nodup List.nodup_range).map fun f g hfg => ?_
    simpa using hfg
  · refine List.nodup_range.imp fun {d e} hne => ?_
    intro y hd he
    obtain ⟨f, -, rfl⟩ := List.mem_map.mp hd
    obtain ⟨g, -, hsame⟩ := List.mem_map.mp he
    exact hne (congrArg PciFunction.device hsame).symm

/-! ## What the scan of a bus returns -/

section Trees

variable (cfg) (tree : Nat → PciBus)

/-- The record for a function. -/
def devOf (x : PciFunction) : PciDev :=
  { devfn := x.device * 8 + x.fn
    vendor := (pciReadl cfg x.bus x.device x.fn vendidOffset).toNat % 2 ^ 16
    device := (pciReadl cfg x.bus x.device x.fn vendidOffset).toNat / 2 ^ 16
    clas := pciReadb cfg x.bus x.device x.fn clasOffset }

/-- The bus with one more function, and with the tree behind it if it is a bridge. -/
def withFunction (bus : PciBus) (x : PciFunction) : PciBus :=
  let number := subordinateBus cfg x
  let bus :=
    if headerType cfg x % 128 = 1 then
      { bus with
        subordinate := if number = bus.bus then (bus.subordinate + 1) % 256 else bus.subordinate
        children := bus.children ++ [tree number] }
    else bus
  { bus with devices := bus.devices ++ [devOf cfg x] }

/-- The bus with all that the scan comes to. -/
def busTree (n : Nat) : PciBus := (visited cfg n).foldl (withFunction cfg tree) (newBus n)

/-- What a function adds to the entries of a tree. -/
def found (x : PciFunction) : List PciFunction :=
  x :: if headerType cfg x % 128 = 1 then (tree (subordinateBus cfg x)).entries else []

end Trees

variable {tree : Nat → PciBus} {enumerate : PciBus → Option PciBus}

/-- The record is one of the bus `n` itself. -/
def ForBus (n : Nat) (bus : PciBus) : Prop := bus.bus = n ∧ bus.primary = n

theorem forBus_newBus (n : Nat) : ForBus n (newBus n) := ⟨rfl, rfl⟩

theorem ForBus.withFunction (hbus : ForBus n bus) (x : PciFunction) :
    ForBus n (withFunction cfg tree bus x) := by
  rw [GeckoOS.Drivers.withFunction]
  split_ifs <;> exact hbus

theorem ForBus.foldl (hbus : ForBus n bus) (xs : List PciFunction) :
    ForBus n (xs.foldl (GeckoOS.Drivers.withFunction cfg tree) bus) := by
  induction xs generalizing bus with
  | nil => exact hbus
  | cons x xs ih => exact ih (hbus.withFunction x)

theorem PciBus.entries_eq (bus : PciBus) : bus.entries =
    bus.devices.map (fun dev => ⟨bus.bus, dev.devfn / 8, dev.devfn % 8⟩) ++
      entriesBelow bus.children := by
  cases bus
  rw [PciBus.entries]

theorem entries_withFunction (hbus : bus.bus = x.bus) (hfn : x.fn < 8) :
    (withFunction cfg tree bus x).entries.Perm (bus.entries ++ found cfg tree x) := by
  have hself : (⟨bus.bus, (devOf cfg x).devfn / 8, (devOf cfg x).devfn % 8⟩ : PciFunction) = x := by
    rw [hbus, devOf]
    obtain ⟨b, d, f⟩ := x
    simp only [PciFunction.mk.injEq, true_and] at hfn ⊢
    omega
  by_cases htype : headerType cfg x % 128 = 1
  · rw [withFunction, if_pos htype, found, if_pos htype, PciBus.entries_eq, PciBus.entries_eq bus]
    simp only [List.map_append, List.map_cons, List.map_nil, hself, entriesBelow_append,
      entriesBelow, List.append_nil, List.append_assoc]
    exact List.Perm.append_left _ (List.perm_append_comm_assoc [x] _ _)
  · rw [withFunction, if_neg htype, found, if_neg htype, PciBus.entries_eq, PciBus.entries_eq bus]
    simp only [List.map_append, List.map_cons, List.map_nil, hself, List.append_assoc]
    exact List.Perm.append_left _ List.perm_append_comm

theorem entries_foldl (hbus : ForBus n bus) {xs : List PciFunction}
    (hxs : ∀ x ∈ xs, x.bus = n ∧ x.fn < 8) :
    (xs.foldl (withFunction cfg tree) bus).entries.Perm
      (bus.entries ++ xs.flatMap (found cfg tree)) := by
  induction xs generalizing bus with
  | nil => rw [List.foldl_nil, List.flatMap_nil, List.append_nil]
  | cons x xs ih =>
      obtain ⟨hx, hfn⟩ := hxs x (List.mem_cons_self ..)
      refine (ih (hbus.withFunction x) fun y hy => hxs y (List.mem_cons_of_mem _ hy)).trans ?_
      rw [List.flatMap_cons, ← List.append_assoc]
      exact (entries_withFunction (hbus.1.trans hx.symm) hfn).append_right _

theorem entries_busTree (n : Nat) :
    (busTree cfg tree n).entries.Perm ((visited cfg n).flatMap (found cfg tree)) := by
  have hall : ∀ x ∈ visited cfg n, x.bus = n ∧ x.fn < 8 := fun x hx =>
    ⟨(mem_visited.mp hx).1, (mem_visited.mp hx).2.2.1⟩
  have hempty : (newBus n).entries = [] := by
    rw [newBus, PciBus.entries, entriesBelow]
    rfl
  have hfold := @entries_foldl cfg _ n tree (forBus_newBus n) _ hall
  rwa [hempty] at hfold

/-! ## The loops -/

/-- What the scan needs of the buses behind the bridges among some functions. -/
def Enumerates (cfg : ConfigSpace) (enumerate : PciBus → Option PciBus) (tree : Nat → PciBus)
    (xs : List PciFunction) : Prop :=
  ∀ x ∈ xs, cfg x.bus x.device x.fn vendidOffset ≠ 0xFFFFFFFF ∧ (headerType cfg x % 128 = 1 →
    enumerate (newBus (subordinateBus cfg x)) = some (tree (subordinateBus cfg x)))

theorem enumeratePcidev_eq (hbus : ForBus x.bus bus) (hrange : x.InRange)
    (hx : Enumerates cfg enumerate tree [x]) :
    enumeratePcidev cfg enumerate bus x.device x.fn = some (withFunction cfg tree bus x) := by
  obtain ⟨hpresent, hbridge⟩ := hx x (List.mem_singleton_self x)
  have hread : pciReadl cfg x.bus x.device x.fn vendidOffset ≠ 0xFFFFFFFF := by
    rwa [show vendidOffset = vendidOffset / 4 * 4 from rfl,
      pciReadl_eq cfg hrange.1 hrange.2.1 hrange.2.2 (by decide)]
  have hfn : x.fn % 8 = x.fn := Nat.mod_eq_of_lt hrange.2.2
  have hdevfn : (x.device * 8 + x.fn) / 8 = x.device ∧ (x.device * 8 + x.fn) % 8 = x.fn := by
    have hlt := hrange.2.2
    omega
  rw [enumeratePcidev, hbus.2]
  dsimp only
  rw [if_neg hread, hfn]
  by_cases htype : headerType cfg x % 128 = 1
  · have htype' : pciReadb cfg x.bus x.device x.fn htypeOffset % 128 = 1 := htype
    have hchild := hbridge htype
    rw [subordinateBus] at hchild
    rw [if_pos htype', allocNewBus, hbus.1]
    dsimp only
    rw [hdevfn.1, hdevfn.2, hchild, withFunction, if_pos htype, hbus.1]
    rfl
  · have htype' : ¬pciReadb cfg x.bus x.device x.fn htypeOffset % 128 = 1 := htype
    rw [if_neg htype', withFunction, if_neg htype]
    rfl

theorem functionLoop_eq {device : Nat} {fns : List Nat} (hbus : ForBus n bus) (hn : n < 256)
    (hdevice : device < 32) (hfns : ∀ fn ∈ fns, fn < 8)
    (hall : Enumerates cfg enumerate tree ((scan cfg n device fns).map fun fn => ⟨n, device, fn⟩)) :
    functionLoop cfg enumerate device fns bus =
      some (((scan cfg n device fns).map fun fn => ⟨n, device, fn⟩).foldl
        (withFunction cfg tree) bus) := by
  induction fns generalizing bus with
  | nil => rfl
  | cons fn fns ih =>
      have hfn := hfns fn (List.mem_cons_self ..)
      have hread : pciReadb cfg bus.primary device fn htypeOffset =
          headerType cfg ⟨n, device, fn⟩ := by
        rw [hbus.2]
        rfl
      rw [functionLoop, hread]
      rw [scan] at hall ⊢
      by_cases hgap : headerType cfg ⟨n, device, fn⟩ = 0xFF
      · rw [if_pos hgap, if_pos hgap]
        rfl
      rw [if_neg hgap] at hall ⊢
      rw [if_neg hgap]
      have hone : Enumerates cfg enumerate tree [⟨n, device, fn⟩] := by
        intro y hy
        refine hall y ?_
        split_ifs
        · exact hy
        · exact List.mem_cons.mpr (.inl (List.mem_singleton.mp hy))
      rw [@enumeratePcidev_eq _ _ ⟨n, device, fn⟩ _ _ hbus ⟨hn, hdevice, hfn⟩ hone]
      dsimp only [Option.bind_eq_bind, Option.bind_some]
      by_cases hlast : headerType cfg ⟨n, device, fn⟩ < 128
      · rw [if_pos hlast, if_pos hlast]
        rfl
      · rw [if_neg hlast] at hall ⊢
        rw [if_neg hlast]
        exact ih (hbus.withFunction _) (fun g hg => hfns g (List.mem_cons_of_mem _ hg))
          fun y hy => hall y (List.mem_cons_of_mem _ hy)

theorem deviceLoop_eq {devices : List Nat} (hbus : ForBus n bus) (hn : n < 256)
    (hdevices : ∀ device ∈ devices, device < 32)
    (hall : Enumerates cfg enumerate tree (devices.flatMap fun device =>
      (scan cfg n device (List.range 8)).map fun fn => ⟨n, device, fn⟩)) :
    deviceLoop cfg enumerate devices bus = some ((devices.flatMap fun device =>
      (scan cfg n device (List.range 8)).map fun fn => ⟨n, device, fn⟩).foldl
        (withFunction cfg tree) bus) := by
  induction devices generalizing bus with
  | nil => rfl
  | cons device devices ih =>
      rw [List.flatMap_cons] at hall ⊢
      rw [deviceLoop, List.foldl_append, functionLoop_eq hbus hn
        (hdevices device (List.mem_cons_self ..)) (fun fn hfn => List.mem_range.mp hfn)
        fun y hy => hall y (List.mem_append_left _ hy)]
      exact ih (hbus.foldl _) (fun other hother => hdevices other (List.mem_cons_of_mem _ hother))
        fun y hy => hall y (List.mem_append_right _ hy)

/-! ## Enumeration ends -/

theorem NumberedTree.present_of_visited (htree : NumberedTree cfg) (hn : n < 256)
    (hx : x ∈ visited cfg n) : Present cfg x := by
  obtain ⟨rfl, hdevice, hfn, hscanned⟩ := mem_visited.mp hx
  have hrange : x.InRange := ⟨hn, hdevice, hfn⟩
  by_contra habsent
  have hones := htree.absent x hrange habsent (htypeOffset / 4 * 4)
  refine (hscanned x.fn le_rfl).1 ?_
  rw [headerType, pciReadb, pciReadl_eq cfg hrange.1 hrange.2.1 hrange.2.2 (by decide), hones]
  rfl

theorem subordinateBus_lt (x : PciFunction) : subordinateBus cfg x < 256 :=
  Nat.mod_lt _ (by decide)

theorem NumberedTree.secondary_le (htree : NumberedTree cfg) (hx : IsBridge cfg x) :
    secondaryBus cfg x ≤ subordinateBus cfg x :=
  (htree.subordinate x hx).2 .refl

theorem NumberedTree.bus_lt (htree : NumberedTree cfg) (hx : IsBridge cfg x) :
    x.bus < subordinateBus cfg x :=
  (htree.greater x hx).trans_le (htree.secondary_le hx)

/-- Under proper numbers the scan of a bus ends when as many buses may be below one another
as there are greater numbers, and its result is a tree for each number. -/
theorem NumberedTree.exists_trees (htree : NumberedTree cfg) : ∃ tree : Nat → PciBus,
    ∀ n < 256, tree n = busTree cfg tree n ∧
      ∀ fuel, 256 - n ≤ fuel → enumeratePcibus cfg fuel (newBus n) = some (tree n) := by
  set tree : Nat → PciBus := fun n =>
    (enumeratePcibus cfg 256 (newBus n)).getD (newBus n) with htrees
  have hall : ∀ left n, n < 256 → 256 - n ≤ left → ∀ fuel, 256 - n ≤ fuel →
      enumeratePcibus cfg fuel (newBus n) = some (busTree cfg tree n) := by
    intro left
    induction left with
    | zero => omega
    | succ left ih =>
        intro n hn hleft fuel hfuel
        obtain ⟨fuel, rfl⟩ := Nat.exists_eq_add_one.mpr (show 0 < fuel by omega)
        refine deviceLoop_eq (forBus_newBus n) hn (fun device => List.mem_range.mp) ?_
        intro x hx
        have hpresent := htree.present_of_visited hn hx
        refine ⟨hpresent.2, fun htype => ?_⟩
        have hless := htree.bus_lt ⟨hpresent, htype⟩
        rw [(mem_visited.mp hx).1] at hless
        have hbelow := ih (subordinateBus cfg x) (subordinateBus_lt x) (by omega)
        rw [hbelow fuel (by omega), htrees]
        dsimp only
        rw [hbelow 256 (by omega)]
        rfl
  refine ⟨tree, fun n hn => ?_⟩
  have htree : tree n = busTree cfg tree n := by
    rw [htrees]
    dsimp only
    rw [hall 256 n hn (by omega) 256 (by omega)]
    rfl
  exact ⟨htree, fun fuel hfuel => htree ▸ hall 256 n hn (by omega) fuel hfuel⟩

/-- Every tree that the scan of a bus makes. -/
def Trees (cfg : ConfigSpace) (tree : Nat → PciBus) : Prop := ∀ n < 256, tree n = busTree cfg tree n

theorem Trees.entries (htrees : Trees cfg tree) (hn : n < 256) :
    (tree n).entries.Perm ((visited cfg n).flatMap (found cfg tree)) := by
  rw [htrees n hn]
  exact entries_busTree n

/-! ## What is missed -/

/-- Every function in a tree was scanned, on a bus that is the first or has the subordinate
number of a bridge. -/
theorem Trees.visited_of_mem (htrees : Trees cfg tree) (htree : NumberedTree cfg) :
    ∀ left n, n < 256 → 256 - n ≤ left → ∀ x ∈ (tree n).entries,
      x ∈ visited cfg x.bus ∧ (x.bus = n ∨ ∃ z, IsBridge cfg z ∧ subordinateBus cfg z = x.bus) := by
  intro left
  induction left with
  | zero => omega
  | succ left ih =>
      intro n hn hleft x hx
      obtain ⟨z, hz, hmem⟩ := List.mem_flatMap.mp ((htrees.entries hn).mem_iff.mp hx)
      have hbus := (mem_visited.mp hz).1
      rcases List.mem_cons.mp hmem with rfl | hbelow
      · exact ⟨hbus.symm ▸ hz, .inl hbus⟩
      · split_ifs at hbelow with htype
        · have hbridge : IsBridge cfg z := ⟨htree.present_of_visited hn hz, htype⟩
          have hless := htree.bus_lt hbridge
          obtain ⟨hvisited, hwhere⟩ :=
            ih (subordinateBus cfg z) (subordinateBus_lt z) (by omega) x hbelow
          refine ⟨hvisited, .inr (hwhere.elim (fun h => ⟨z, hbridge, h.symm⟩) id)⟩
        · cases hbelow

/-- A bus above itself would have two bridges with one number. -/
theorem NumberedTree.eq_or_below (htree : NumberedTree cfg) {y : PciFunction}
    (hx : IsBridge cfg x) (hy : IsBridge cfg y)
    (hbelow : Below cfg (secondaryBus cfg y) (secondaryBus cfg x)) :
    y = x ∨ Below cfg (secondaryBus cfg y) x.bus := by
  cases hbelow.cases_tail with
  | inl hsame => exact .inl (htree.unique y x hy hx hsame.symm)
  | inr hstep =>
      obtain ⟨b, habove, z, hz, rfl, hnumber⟩ := hstep
      obtain rfl := htree.unique z x hz hx hnumber
      exact .inr habove

/-- A tree without a gap has no bridge behind another. -/
theorem NumberedTree.enumerable_of_listsAll (htree : NumberedTree cfg) (htrees : Trees cfg tree)
    (hall : ListsAll cfg (tree 0)) : Enumerable cfg := by
  have hvisited := htrees.visited_of_mem htree 256 0 (by decide) (by decide)
  refine ⟨fun x hx => (mem_visited.mp (hvisited x ((hall.2 x).mpr hx)).1).2.2.2, fun x hx => ?_⟩
  by_contra hne
  -- there is a bus right below the secondary one, so there is a bridge on it
  have hreach : Below cfg (secondaryBus cfg x) (subordinateBus cfg x) := (htree.subordinate x hx).1
  obtain hsame | ⟨b, ⟨y, hy, hbus, -⟩, -⟩ := hreach.cases_head
  · exact hne hsame.symm
  -- and the bus of this bridge is not scanned
  obtain ⟨-, hwhere⟩ := hvisited y ((hall.2 y).mpr hy.1)
  rw [hbus] at hwhere
  rcases hwhere with hzero | ⟨z, hz, hnumber⟩
  · exact absurd (htree.greater x hx) (by omega)
  · have hgreatest := htree.subordinate z hz
    rw [hnumber] at hgreatest
    have hle := htree.secondary_le hx
    rcases htree.eq_or_below hx hz hgreatest.1 with rfl | habove
    · exact hne hnumber
    · have hbeyond : Below cfg (secondaryBus cfg z) (subordinateBus cfg x) :=
        (habove.tail ⟨x, hx, rfl, rfl⟩).trans hreach
      exact absurd (hgreatest.2 hbeyond) (by omega)

/-! ## What is found -/

theorem Enumerable.mem_visited_iff (henum : Enumerable cfg) (htree : NumberedTree cfg)
    (hn : n < 256) : x ∈ visited cfg n ↔ Present cfg x ∧ x.bus = n := by
  constructor
  · exact fun hx => ⟨htree.present_of_visited hn hx, (mem_visited.mp hx).1⟩
  · rintro ⟨hpresent, hbus⟩
    exact mem_visited.mpr ⟨hbus, hpresent.1.2.1, hpresent.1.2.2, henum.1 x hpresent⟩

theorem Enumerable.bus_ne (henum : Enumerable cfg) (htree : NumberedTree cfg)
    (hx : IsBridge cfg x) {z : PciFunction} (hz : IsBridge cfg z) : z.bus ≠ secondaryBus cfg x := by
  intro hbus
  have hbelow : Below cfg (secondaryBus cfg x) (secondaryBus cfg z) := .single ⟨z, hz, hbus, rfl⟩
  have hle := (htree.subordinate x hx).2 hbelow
  have hgreater := htree.greater z hz
  rw [henum.2 x hx] at hle
  omega

/-- The tree behind a bridge is one bus. -/
theorem Enumerable.entries_behind (henum : Enumerable cfg) (htree : NumberedTree cfg)
    (htrees : Trees cfg tree) (hx : IsBridge cfg x) :
    (tree (subordinateBus cfg x)).entries.Perm (visited cfg (secondaryBus cfg x)) := by
  have hnumber : secondaryBus cfg x < 256 := Nat.mod_lt _ (by decide)
  rw [henum.2 x hx]
  have hplain : (visited cfg (secondaryBus cfg x)).flatMap (found cfg tree) =
      (visited cfg (secondaryBus cfg x)).flatMap fun z => [z] := by
    refine List.flatMap_congr fun z hz => ?_
    have hbus := (mem_visited.mp hz).1
    rw [found, if_neg]
    exact fun htype => henum.bus_ne htree hx ⟨htree.present_of_visited hnumber hz, htype⟩ hbus
  have hentries := htrees.entries hnumber
  rwa [hplain, List.flatMap_singleton'] at hentries

/-- What the scan of the first bus adds for one of its functions. -/
theorem Enumerable.mem_found (henum : Enumerable cfg) (htree : NumberedTree cfg)
    (htrees : Trees cfg tree) (hx : x ∈ visited cfg 0) {y : PciFunction} :
    y ∈ found cfg tree x ↔ y = x ∨ IsBridge cfg x ∧ y ∈ visited cfg (secondaryBus cfg x) := by
  have hpresent := htree.present_of_visited (by decide) hx
  rw [found, List.mem_cons]
  refine or_congr_right ?_
  split_ifs with htype
  · rw [(henum.entries_behind htree htrees ⟨hpresent, htype⟩).mem_iff]
    exact (and_iff_right ⟨hpresent, htype⟩).symm
  · exact iff_of_false List.not_mem_nil fun hy => htype hy.1.2

theorem Enumerable.nodup_found (henum : Enumerable cfg) (htree : NumberedTree cfg)
    (htrees : Trees cfg tree) (hx : x ∈ visited cfg 0) : (found cfg tree x).Nodup := by
  have hpresent := htree.present_of_visited (by decide) hx
  rw [found]
  split_ifs with htype
  · have hbridge : IsBridge cfg x := ⟨hpresent, htype⟩
    have hbehind := henum.entries_behind htree htrees hbridge
    rw [List.nodup_cons, hbehind.mem_iff]
    refine ⟨fun hmem => ?_, hbehind.nodup_iff.mpr (nodup_visited cfg _)⟩
    exact henum.bus_ne htree hbridge hbridge (mem_visited.mp hmem).1
  · exact List.nodup_singleton x

theorem Enumerable.listsAll (henum : Enumerable cfg) (htree : NumberedTree cfg)
    (htrees : Trees cfg tree) : ListsAll cfg (tree 0) := by
  have hentries := htrees.entries (show 0 < 256 by decide)
  constructor
  · rw [hentries.nodup_iff, List.nodup_flatMap]
    refine ⟨fun x hx => henum.nodup_found htree htrees hx, ?_⟩
    refine (nodup_visited cfg 0).imp_of_mem fun {x y} hx hy hne => ?_
    intro z hzx hzy
    have hxbus := (mem_visited.mp hx).1
    have hybus := (mem_visited.mp hy).1
    rcases (henum.mem_found htree htrees hx).mp hzx with rfl | ⟨hbridge, hmem⟩
    · rcases (henum.mem_found htree htrees hy).mp hzy with rfl | ⟨hbridge', hmem'⟩
      · exact hne rfl
      · have hgreater := htree.greater y hbridge'
        have hbus := (mem_visited.mp hmem').1
        omega
    · have hgreater := htree.greater x hbridge
      have hbus := (mem_visited.mp hmem).1
      rcases (henum.mem_found htree htrees hy).mp hzy with rfl | ⟨hbridge', hmem'⟩
      · omega
      · have hbus' := (mem_visited.mp hmem').1
        exact hne (htree.unique x y hbridge hbridge' (hbus.symm.trans hbus'))
  · intro x
    rw [hentries.mem_iff, List.mem_flatMap]
    constructor
    · rintro ⟨z, hz, hmem⟩
      rcases (henum.mem_found htree htrees hz).mp hmem with rfl | ⟨hbridge, hmem⟩
      · exact htree.present_of_visited (by decide) hz
      · exact htree.present_of_visited (Nat.mod_lt _ (by decide)) hmem
    · intro hpresent
      by_cases hbus : x.bus = 0
      · have hx := (henum.mem_visited_iff htree (by decide)).mpr ⟨hpresent, hbus⟩
        exact ⟨x, hx, List.mem_cons_self ..⟩
      · obtain ⟨y, hy, hnumber⟩ := htree.attached x hpresent hbus
        -- the bridge is on the first bus, because there is none behind another one
        have hfirst : y.bus = 0 := by
          by_contra hdeep
          obtain ⟨z, hz, habove⟩ := htree.attached y hy.1 hdeep
          exact henum.bus_ne htree hz hy habove.symm
        have hyvisited := (henum.mem_visited_iff htree (by decide)).mpr ⟨hy.1, hfirst⟩
        refine ⟨y, hyvisited, (henum.mem_found htree htrees hyvisited).mpr (.inr ⟨hy, ?_⟩)⟩
        exact (henum.mem_visited_iff htree (Nat.mod_lt _ (by decide))).mpr
          ⟨hpresent, hnumber.symm⟩

/-! ## A chain of bridges -/

/-- A machine with a bridge on each bus below the last, and a network card on that one. -/
def chain (last : Nat) : ConfigSpace := fun bus device fn reg =>
  if device = 0 ∧ fn = 0 ∧ bus < last then
    if reg = 0x0C then 0x00010000
    else if reg = 0x18 then UInt32.ofNat (last * 2 ^ 16 + (bus + 1) * 2 ^ 8 + bus)
    else 0x244E8086
  else if device = 0 ∧ fn = 0 ∧ bus = last then
    if reg = 0x0C then 0 else 0x100E8086
  else 0xFFFFFFFF

section Chain

variable {last : Nat}

theorem present_chain (hlast : last < 256) :
    Present (chain last) x ↔ x.device = 0 ∧ x.fn = 0 ∧ x.bus ≤ last := by
  obtain ⟨b, d, f⟩ := x
  simp only [Present, PciFunction.InRange, chain, vendidOffset]
  constructor
  · rintro ⟨-, hread⟩
    by_contra hother
    rw [if_neg (by omega), if_neg (by omega)] at hread
    exact hread rfl
  · rintro ⟨rfl, rfl, hb⟩
    refine ⟨by omega, ?_⟩
    split_ifs <;> first | decide | omega

theorem pciReadb_chain {bus off : Nat} (hbus : bus < 256) (hoff : off < 256) :
    pciReadb (chain last) bus 0 0 off =
      ((chain last bus 0 0 (off / 4 * 4)).toNat >>> (off % 4 * 8)) % 256 := by
  rw [pciReadb, pciReadl_eq _ hbus (by decide) (by decide) hoff]

theorem isBridge_chain (hlast : last < 256) :
    IsBridge (chain last) x ↔ x.device = 0 ∧ x.fn = 0 ∧ x.bus < last := by
  rw [IsBridge, present_chain hlast]
  obtain ⟨b, d, f⟩ := x
  constructor
  · rintro ⟨⟨rfl, rfl, hb⟩, htype⟩
    refine ⟨rfl, rfl, lt_of_le_of_ne hb ?_⟩
    rintro rfl
    rw [headerType, pciReadb_chain hlast (by decide), chain, if_neg (by omega),
      if_pos ⟨rfl, rfl, rfl⟩, if_pos (by decide)] at htype
    exact absurd htype (by decide)
  · rintro ⟨rfl, rfl, hb⟩
    refine ⟨⟨rfl, rfl, hb.le⟩, ?_⟩
    have hbus : b < 256 := hb.trans hlast
    rw [headerType, pciReadb_chain hbus (by decide), chain, if_pos ⟨rfl, rfl, hb⟩,
      if_pos (by decide)]
    rfl

theorem busNumbers_chain (hlast : last < 256) (hx : IsBridge (chain last) x) :
    secondaryBus (chain last) x = x.bus + 1 ∧ subordinateBus (chain last) x = last := by
  obtain ⟨hd, hf, hb⟩ := (isBridge_chain hlast).mp hx
  obtain ⟨b, d, f⟩ := x
  dsimp only at hd hf hb
  subst hd hf
  have hword : (chain last b 0 0 0x18).toNat = last * 2 ^ 16 + (b + 1) * 2 ^ 8 + b := by
    rw [chain, if_pos ⟨rfl, rfl, hb⟩, if_neg (by decide), if_pos rfl]
    exact Nat.mod_eq_of_lt (by omega)
  have hbus : b < 256 := hb.trans hlast
  rw [secondaryBus, subordinateBus, pciReadb_chain hbus (by decide),
    pciReadb_chain hbus (by decide), show sBusnumOffset / 4 * 4 = 0x18 from rfl,
    show ssBusnumOffset / 4 * 4 = 0x18 from rfl, hword, Nat.shiftRight_eq_div_pow,
    Nat.shiftRight_eq_div_pow, show sBusnumOffset % 4 * 8 = 8 from rfl,
    show ssBusnumOffset % 4 * 8 = 16 from rfl]
  have hsecond : (last * 2 ^ 16 + (b + 1) * 2 ^ 8 + b) / 2 ^ 8 = last * 256 + (b + 1) := by omega
  have hthird : (last * 2 ^ 16 + (b + 1) * 2 ^ 8 + b) / 2 ^ 16 = last := by omega
  rw [hsecond, hthird]
  dsimp only
  omega

theorem below_chain (hlast : last < 256) {first : Nat} (hfirst : first ≤ last) {b : Nat} :
    Below (chain last) first b ↔ first ≤ b ∧ b ≤ last := by
  constructor
  · intro hbelow
    induction hbelow with
    | refl => exact ⟨le_rfl, hfirst⟩
    | tail _ hstep ih =>
        obtain ⟨x, hx, rfl, rfl⟩ := hstep
        rw [(busNumbers_chain hlast hx).1]
        have hb := ((isBridge_chain hlast).mp hx).2.2
        omega
  · rintro ⟨hle, hb⟩
    induction b, hle using Nat.le_induction with
    | base => exact .refl
    | succ b hle ih =>
        have hx : IsBridge (chain last) ⟨b, 0, 0⟩ := (isBridge_chain hlast).mpr ⟨rfl, rfl, hb⟩
        exact (ih (by omega)).tail ⟨_, hx, rfl, (busNumbers_chain hlast hx).1⟩

theorem numberedTree_chain (hlast : last < 256) : NumberedTree (chain last) where
  absent x hrange habsent reg := by
    have hnone : ¬(x.device = 0 ∧ x.fn = 0 ∧ x.bus ≤ last) := fun h =>
      habsent ((present_chain hlast).mpr h)
    rw [chain, if_neg (by omega), if_neg (by omega)]
  first x hx := by
    obtain ⟨hd, -, hb⟩ := (present_chain hlast).mp hx
    exact (present_chain hlast).mpr ⟨hd, rfl, hb⟩
  attached x hx hbus := by
    obtain ⟨hd, hf, hb⟩ := (present_chain hlast).mp hx
    have hy : IsBridge (chain last) ⟨x.bus - 1, 0, 0⟩ :=
      (isBridge_chain hlast).mpr ⟨rfl, rfl, by dsimp only; omega⟩
    refine ⟨_, hy, ?_⟩
    rw [(busNumbers_chain hlast hy).1]
    dsimp only
    omega
  unique x y hx hy hsame := by
    rw [(busNumbers_chain hlast hx).1, (busNumbers_chain hlast hy).1] at hsame
    obtain ⟨hd, hf, -⟩ := (isBridge_chain hlast).mp hx
    obtain ⟨hd', hf', -⟩ := (isBridge_chain hlast).mp hy
    cases x
    cases y
    simp_all
  greater x hx := by
    rw [(busNumbers_chain hlast hx).1]
    exact Nat.lt_succ_self _
  subordinate x hx := by
    have hb := ((isBridge_chain hlast).mp hx).2.2
    rw [(busNumbers_chain hlast hx).1, (busNumbers_chain hlast hx).2]
    refine ⟨(below_chain hlast (by omega)).mpr ⟨by omega, le_rfl⟩, fun b hbelow => ?_⟩
    exact ((below_chain hlast (by omega)).mp hbelow).2

end Chain

/-- In a tree of buses enumeration ends, and it finds every function once, on its bus, exactly
if no bridge is behind another and no device has a gap in its functions. -/
theorem enumeratePci_listsAll_iff (htree : NumberedTree cfg) : ∃ tree,
    (∀ fuel, 256 ≤ fuel → enumeratePci cfg fuel = some tree) ∧
      (ListsAll cfg tree ↔ Enumerable cfg) := by
  obtain ⟨tree, htrees⟩ := htree.exists_trees
  have hall : Trees cfg tree := fun n hn => (htrees n hn).1
  exact ⟨tree 0, (htrees 0 (by decide)).2, htree.enumerable_of_listsAll hall,
    fun henum => henum.listsAll htree hall⟩

/-- On the machine with a network card behind one bridge everything is found. -/
theorem enumeratePci_listsAll_chain : ∃ tree,
    (∀ fuel, 256 ≤ fuel → enumeratePci (chain 1) fuel = some tree) ∧
      (ListsAll (chain 1) tree ↔ Enumerable (chain 1)) :=
  enumeratePci_listsAll_iff (numberedTree_chain (by decide))

/-- Of two bridges behind each other the second is missed. -/
theorem enumeratePci_misses_chain : NumberedTree (chain 2) ∧ ∃ tree,
    (∀ fuel, 256 ≤ fuel → enumeratePci (chain 2) fuel = some tree) ∧ ¬ListsAll (chain 2) tree := by
  have htree : NumberedTree (chain 2) := numberedTree_chain (by decide)
  obtain ⟨tree, htrees⟩ := htree.exists_trees
  refine ⟨htree, tree 0, (htrees 0 (by decide)).2, fun hall => ?_⟩
  have hbridge : IsBridge (chain 2) ⟨0, 0, 0⟩ := (isBridge_chain (by decide)).mpr (by decide)
  have hnumbers := busNumbers_chain (by decide) hbridge
  have hlast := (htree.enumerable_of_listsAll (fun n hn => (htrees n hn).1) hall).2 _ hbridge
  rw [hnumbers.1, hnumbers.2] at hlast
  exact absurd hlast (by decide)

end GeckoOS.Drivers
