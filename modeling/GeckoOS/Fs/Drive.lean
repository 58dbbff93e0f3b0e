/-
# Drives

A `kdrive_t` reads and writes whole sectors, and either may fail.  The medium is
kept as one flat byte map in which sector `lba` is the run of `sectorSize` bytes
from `lba * sectorSize`, so that fields, directory slots and clusters are all
plain byte positions.

Whether the next transfers fail is a stream of outcomes that each transfer
consumes.  Most results are about drives on which no transfer fails; such a
drive is determined by its bytes and is written `disk bytes`.
-/

import GeckoOS.Math.ByteMap

namespace GeckoOS.Fs

open GeckoOS.Math ByteMap

/-- `uint32_t` arithmetic wraps here. -/
def u32 (value : Nat) : Nat := value % 2 ^ 32

/-- The driver's view of a `kdrive_t`. -/
structure Drive where
  /-- `sector_size`. -/
  sectorSize : Nat
  /-- The medium, byte by byte. -/
  bytes : ByteMap
  /-- Whether the next transfer fails, the one after it, and so on. -/
  faults : Nat → Bool

namespace Drive

/-- One transfer has been made. -/
def tick (d : Drive) : Drive := { d with faults := fun n => d.faults (n + 1) }

/-- `drive->read(drive, lba, 1, buf)`: the sector, or `none` for a negative result. -/
def read (d : Drive) (lba : Nat) : Option ByteMap × Drive :=
  (if d.faults 0 then none else some fun i => d.bytes (lba * d.sectorSize + i), d.tick)

/-- `drive->write(drive, lba, 1, buf)`, with whether it succeeded.  A failed
write leaves the sector as it was. -/
def write (d : Drive) (lba : Nat) (buf : ByteMap) : Bool × Drive :=
  if d.faults 0 then (false, d.tick)
  else (true, { d.tick with bytes := d.bytes.blit (lba * d.sectorSize) buf d.sectorSize })

end Drive

/-- A drive of 512-byte sectors on which no transfer fails. -/
def disk (bytes : ByteMap) : Drive := ⟨512, bytes, fun _ => false⟩

section Disk

variable (b : ByteMap) (lba : Nat) (buf : ByteMap)

@[simp]
theorem disk_sectorSize : (disk b).sectorSize = 512 := rfl

@[simp]
theorem disk_bytes : (disk b).bytes = b := rfl

@[simp]
theorem read_disk : (disk b).read lba = (some fun i => b (lba * 512 + i), disk b) := rfl

@[simp]
theorem write_disk : (disk b).write lba buf = (true, disk (b.blit (lba * 512) buf 512)) := rfl

@[simp]
theorem u32_of_lt {value : Nat} (hsmall : value < 2 ^ 32) : u32 value = value :=
  Nat.mod_eq_of_lt hsmall

end Disk

end GeckoOS.Fs
