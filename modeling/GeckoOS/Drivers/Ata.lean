/-
# The disk driver

`ata_read_sectors` and `ata_write_sectors` talk to the disks of the primary ATA channel by
programmed I/O.  They select a drive, write the number of the first sector into four registers,
give a command, and then move each sector as 256 words through the data register, as soon as the
status register says that the drive is no longer busy and has or takes data.

The other side is a model of the channel.  A drive that gets a command, or between two sectors,
stays busy for a number of looks at the status that is not known.  If it is always less than the
driver's patience, runs of the driver read and write the two disks as if they were byte maps: a
sector number counts modulo 2^28, and the drive that is not selected is left alone.
-/

import GeckoOS.Fs.Drive

namespace GeckoOS.Drivers

open GeckoOS.Math ByteMap

/-- `ATA_SR_BSY`. -/
abbrev srBsy : UInt8 := 0x80

/-- `ATA_SR_DRDY`. -/
abbrev srDrdy : UInt8 := 0x40

/-- `ATA_SR_DRQ`. -/
abbrev srDrq : UInt8 := 0x08

/-- `ATA_SR_ERR`. -/
abbrev srErr : UInt8 := 0x01

/-- `ATA_LBA_MASTER` and `ATA_LBA_SLAVE`. -/
def ataLba (slave : Bool) : UInt8 := if slave then 0xF0 else 0xE0

/-- `ATA_CMD_READ_PIO`. -/
abbrev cmdReadPio : UInt8 := 0x20

/-- `ATA_CMD_WRITE_PIO`. -/
abbrev cmdWritePio : UInt8 := 0x30

/-- `ATA_CMD_FLUSH`. -/
abbrev cmdFlush : UInt8 := 0xE7

/-! ## The channel -/

/-- What the data register is used for. -/
inductive Transfer
  | idle
  /-- Word `index` of this sector is read next; `left` sectors are left with this one. -/
  | toHost (slave : Bool) (lba left index : Nat)
  /-- Word `index` of this sector is written next. -/
  | toDisk (slave : Bool) (lba left index : Nat) (sector : ByteMap)

/-- The channel with the media of its two drives. -/
structure Bus where
  hddevsel : UInt8
  seccount : UInt8
  lbaLo : UInt8
  lbaMid : UInt8
  lbaHi : UInt8
  /-- The bytes on the master and on the slave. -/
  media : Bool → ByteMap
  transfer : Transfer
  /-- How many more looks at the status find the drive busy. -/
  busy : Nat
  /-- How long the drive is busy next, and after this, and so on. -/
  delays : Nat → Nat

namespace Bus

/-- The drive becomes busy. -/
def pause (bus : Bus) : Bus :=
  { bus with busy := bus.delays 0, delays := fun n => bus.delays (n + 1) }

/-- The selected drive. -/
def slave (bus : Bus) : Bool := bus.hddevsel &&& 0x10 ≠ 0

/-- The sector in the four registers. -/
def lba (bus : Bus) : Nat :=
  bus.lbaLo.toNat + 2 ^ 8 * bus.lbaMid.toNat + 2 ^ 16 * bus.lbaHi.toNat +
    2 ^ 24 * (bus.hddevsel &&& 0x0F).toNat

/-- The number of sectors of a command. -/
def sectors (bus : Bus) : Nat := if bus.seccount = 0 then 256 else bus.seccount.toNat

/-- `inb` from the status register. -/
def inStatus (bus : Bus) : UInt8 × Bus :=
  if 0 < bus.busy then (srBsy, { bus with busy := bus.busy - 1 })
  else
    match bus.transfer with
    | .idle => (srDrdy, bus)
    | .toHost .. | .toDisk .. => (srDrdy ||| srDrq, bus)

/-- `inw` from the data register. -/
def inData (bus : Bus) : Nat × Bus :=
  match bus.transfer with
  | .toHost slave lba left index =>
      ((bus.media slave).load (lba * 512 + 2 * index) 2,
        if index + 1 < 256 then { bus with transfer := .toHost slave lba left (index + 1) }
        else if 1 < left then { bus with transfer := .toHost slave (lba + 1) (left - 1) 0 }.pause
        else { bus with transfer := .idle })
  | .idle | .toDisk .. => (0xFFFF, bus)

/-- `outw` to the data register. -/
def outData (word : Nat) (bus : Bus) : Bus :=
  match bus.transfer with
  | .toDisk slave lba left index sector =>
      let sector := sector.store (2 * index) 2 word
      if index + 1 < 256 then { bus with transfer := .toDisk slave lba left (index + 1) sector }
      else
        { bus with
          media := Function.update bus.media slave
            ((bus.media slave).blit (lba * 512) sector 512)
          transfer :=
            if 1 < left then .toDisk slave (lba + 1) (left - 1) 0 (fun _ => 0) else .idle }.pause
  | .idle | .toHost .. => bus

/-- `outb` to the command register; a busy drive takes no command. -/
def outCommand (command : UInt8) (bus : Bus) : Bus :=
  if 0 < bus.busy then bus
  else if command = cmdReadPio then
    { bus with transfer := .toHost bus.slave bus.lba bus.sectors 0 }.pause
  else if command = cmdWritePio then
    { bus with transfer := .toDisk bus.slave bus.lba bus.sectors 0 fun _ => 0 }.pause
  else if command = cmdFlush then { bus with transfer := .idle }.pause
  else bus

end Bus

/-! ## The driver -/

/-- `ata_delay`: four reads of the other status register. -/
def ataDelay (bus : Bus) : Bus := bus.inStatus.2.inStatus.2.inStatus.2.inStatus.2

/-- `ata_wait_not_busy` with so many looks left. -/
def waitNotBusy : Nat → Bus → Bool × Bus
  | 0, bus => (false, bus)
  | timeout + 1, bus =>
      let (status, bus) := bus.inStatus
      if status = 0xFF then (false, bus)
      else if status &&& srBsy = 0 then (true, bus)
      else waitNotBusy timeout bus

/-- `ata_poll_drq` with so many looks left. -/
def pollDrq : Nat → Bus → Bool × Bus
  | 0, bus => (false, bus)
  | timeout + 1, bus =>
      let (status, bus) := bus.inStatus
      if status &&& srErr ≠ 0 then (false, bus)
      else if status &&& srDrq ≠ 0 then (true, bus)
      else pollDrq timeout bus

/-- The looks of `ata_wait_not_busy`. -/
def busyTimeout : Nat := 1000000

/-- The looks of `ata_poll_drq`. -/
def drqTimeout : Nat := 100000

/-- The registers and the command of a transfer. -/
def issue (slave : Bool) (lba : UInt32) (count command : UInt8) (bus : Bus) : Bus :=
  let lbaSelect := ataLba slave ||| ((lba >>> 24).toUInt8 &&& 0x0F)
  let bus := ataDelay { bus with hddevsel := lbaSelect }
  ({ bus with
    seccount := count
    lbaLo := lba.toUInt8
    lbaMid := (lba >>> 8).toUInt8
    lbaHi := (lba >>> 16).toUInt8 }).outCommand command

/-- So many words into the buffer from word `k` on. -/
def readWords : Nat → Nat → ByteMap → Bus → ByteMap × Bus
  | 0, _, buf, bus => (buf, bus)
  | n + 1, k, buf, bus =>
      let (word, bus) := bus.inData
      readWords n (k + 1) (buf.store (2 * k) 2 word) bus

/-- So many words of the buffer from word `k` on. -/
def writeWords : Nat → Nat → ByteMap → Bus → Bus
  | 0, _, _, bus => bus
  | n + 1, k, buf, bus => writeWords n (k + 1) buf (bus.outData (buf.load (2 * k) 2))

/-- The driver's two waits for the next sector. -/
def waitSector (bus : Bus) : Bool × Bus :=
  match waitNotBusy busyTimeout bus with
  | (false, bus) => (false, bus)
  | (true, bus) => pollDrq drqTimeout bus

/-- The loop of `ata_read_sectors` from sector `s` on, with whether it came to its end. -/
def readSectors : Nat → Nat → ByteMap → Bus → Bool × ByteMap × Bus
  | 0, _, buf, bus => (true, buf, bus)
  | n + 1, s, buf, bus =>
      match waitSector bus with
      | (false, bus) => (false, buf, bus)
      | (true, bus) =>
          let words := readWords 256 (s * 256) buf bus
          readSectors n (s + 1) words.1 words.2

/-- The flush behind every sector that is written. -/
def flush (bus : Bus) : Bool × Bus := waitNotBusy busyTimeout (bus.outCommand cmdFlush)

/-- One round of the loop of `ata_write_sectors`. -/
def writeSector (s : Nat) (buf : ByteMap) (bus : Bus) : Bool × Bus :=
  match waitSector bus with
  | (false, bus) => (false, bus)
  | (true, bus) => flush (writeWords 256 (s * 256) buf bus)

/-- The loop of `ata_write_sectors`. -/
def writeSectors : Nat → Nat → ByteMap → Bus → Bool × Bus
  | 0, _, _, bus => (true, bus)
  | n + 1, s, buf, bus =>
      match writeSector s buf bus with
      | (false, bus) => (false, bus)
      | (true, bus) => writeSectors n (s + 1) buf bus

/-- `ata_read_sectors`, with what `drive_present` holds. -/
def ataReadSectors (present : Bool → Bool) (slave : Bool) (lba : UInt32) (count : UInt8)
    (buf : ByteMap) (bus : Bus) : Int × ByteMap × Bus :=
  if present slave = false then (-1, buf, bus)
  else
    match waitNotBusy busyTimeout bus with
    | (false, bus) => (-1, buf, bus)
    | (true, bus) =>
        match readSectors count.toNat 0 buf (issue slave lba count cmdReadPio bus) with
        | (done, buf, bus) => (if done then count.toNat else -1, buf, bus)

/-- `ata_write_sectors`. -/
def ataWriteSectors (present : Bool → Bool) (slave : Bool) (lba : UInt32) (count : UInt8)
    (buf : ByteMap) (bus : Bus) : Int × Bus :=
  if present slave = false then (-1, bus)
  else
    match waitNotBusy busyTimeout bus with
    | (false, bus) => (-1, bus)
    | (true, bus) =>
        match writeSectors count.toNat 0 buf (issue slave lba count cmdWritePio bus) with
        | (done, bus) => (if done then 0 else -1, bus)

variable {bus : Bus} {slave : Bool} {lba : UInt32} {count : UInt8} {buf sector : ByteMap}
  {at_ left index n k s timeout : Nat}

/-! ## Waiting -/

/-- The drive is never busy for longer than the driver waits. -/
def Bus.Quick (bus : Bus) : Prop := ∀ n, bus.delays n < busyTimeout

/-- The channel between two calls. -/
structure Bus.Ready (bus : Bus) : Prop where
  idle : bus.transfer = .idle
  soon : bus.busy < busyTimeout
  quick : bus.Quick

theorem busyTimeout_pos : 0 < busyTimeout := Nat.succ_pos 999999

theorem drqTimeout_pos : 0 < drqTimeout := Nat.succ_pos 99999

theorem inStatus_busy (hbusy : 0 < bus.busy) :
    bus.inStatus = (srBsy, { bus with busy := bus.busy - 1 }) := if_pos hbusy

/-- What the status register of a drive that is not busy says. -/
theorem inStatus_free (hfree : bus.busy = 0) : bus.inStatus.2 = bus ∧
    (bus.inStatus.1 = srDrdy ∨ bus.transfer ≠ .idle ∧ bus.inStatus.1 = srDrdy ||| srDrq) := by
  rw [Bus.inStatus, if_neg (by omega)]
  cases htransfer : bus.transfer with
  | idle => exact ⟨rfl, .inl rfl⟩
  | toHost => exact ⟨rfl, .inr ⟨Transfer.noConfusion, rfl⟩⟩
  | toDisk => exact ⟨rfl, .inr ⟨Transfer.noConfusion, rfl⟩⟩

theorem waitNotBusy_eq (hsoon : bus.busy < timeout) :
    waitNotBusy timeout bus = (true, { bus with busy := 0 }) := by
  induction timeout generalizing bus with
  | zero => exact absurd hsoon (Nat.not_lt_zero _)
  | succ timeout ih =>
      rw [waitNotBusy]
      by_cases hbusy : 0 < bus.busy
      · rw [inStatus_busy hbusy]
        have hrest := @ih { bus with busy := bus.busy - 1 } (by
          change bus.busy - 1 < timeout
          omega)
        dsimp only
        rw [if_neg (by decide), if_neg (by decide)]
        exact hrest
      · have hzero : bus.busy = 0 := by omega
        obtain ⟨hsame, hstatus⟩ := inStatus_free hzero
        have hpair : bus.inStatus = (bus.inStatus.1, bus) := Prod.ext rfl hsame
        rw [hpair]
        have hbus : bus = { bus with busy := 0 } := by rw [← hzero]
        rcases hstatus with hstatus | ⟨-, hstatus⟩ <;> rw [hstatus] <;> exact congrArg _ hbus

theorem pollDrq_eq (hfree : bus.busy = 0) (hactive : bus.transfer ≠ .idle) (hpos : 0 < timeout) :
    pollDrq timeout bus = (true, bus) := by
  cases timeout with
  | zero => exact absurd hpos (Nat.lt_irrefl 0)
  | succ timeout =>
      have hstatus : bus.inStatus = (srDrdy ||| srDrq, bus) := by
        rw [Bus.inStatus, if_neg (by omega)]
        cases htransfer : bus.transfer with
        | idle => exact absurd htransfer hactive
        | toHost | toDisk => rfl
      rw [pollDrq, hstatus]
      rfl

/-- A sector comes, or is taken, once the drive is not busy. -/
theorem waitSector_eq (hsoon : bus.busy < busyTimeout) (hactive : bus.transfer ≠ .idle) :
    waitSector bus = (true, { bus with busy := 0 }) := by
  rw [waitSector, waitNotBusy_eq hsoon]
  exact pollDrq_eq rfl hactive drqTimeout_pos

theorem ataDelay_free (hfree : bus.busy = 0) : ataDelay bus = bus := by
  have hsame := (inStatus_free hfree).1
  rw [ataDelay, hsame, hsame, hsame, hsame]

/-! ## Giving a command -/

theorem or_and_distrib (a x mask : UInt8) : (a ||| x) &&& mask = (a &&& mask) ||| (x &&& mask) :=
  UInt8.toBitVec_inj.1 BitVec.and_or_distrib_right

theorem select_slave (slave : Bool) (x : UInt8) :
    (ataLba slave ||| (x &&& 0x0F)) &&& 0x10 = if slave then 0x10 else 0 := by
  rw [or_and_distrib, UInt8.and_assoc, show (0x0F : UInt8) &&& 0x10 = 0 from rfl, UInt8.and_zero,
    UInt8.or_zero]
  cases slave <;> rfl

theorem select_lba (slave : Bool) (x : UInt8) :
    (ataLba slave ||| (x &&& 0x0F)) &&& 0x0F = x &&& 0x0F := by
  rw [or_and_distrib, UInt8.and_assoc, UInt8.and_self]
  cases slave <;> exact UInt8.zero_or

/-- The registers hold the number of the sector modulo 2^28. -/
theorem registers_lba (lba : UInt32) :
    lba.toUInt8.toNat + 2 ^ 8 * (lba >>> 8).toUInt8.toNat + 2 ^ 16 * (lba >>> 16).toUInt8.toNat +
      2 ^ 24 * ((lba >>> 24).toUInt8 &&& 0x0F).toNat = lba.toNat % 2 ^ 28 := by
  have hlow : ((lba >>> 24).toUInt8 &&& 0x0F).toNat = (lba >>> 24).toUInt8.toNat % 16 := by
    rw [UInt8.toNat_and]
    exact Nat.and_two_pow_sub_one_eq_mod _ 4
  have h8 : (lba >>> 8).toNat = lba.toNat / 2 ^ 8 := by
    rw [UInt32.toNat_shiftRight, Nat.shiftRight_eq_div_pow]
    rfl
  have h16 : (lba >>> 16).toNat = lba.toNat / 2 ^ 16 := by
    rw [UInt32.toNat_shiftRight, Nat.shiftRight_eq_div_pow]
    rfl
  have h24 : (lba >>> 24).toNat = lba.toNat / 2 ^ 24 := by
    rw [UInt32.toNat_shiftRight, Nat.shiftRight_eq_div_pow]
    rfl
  rw [hlow, UInt32.toNat_toUInt8, UInt32.toNat_toUInt8, UInt32.toNat_toUInt8, UInt32.toNat_toUInt8,
    h8, h16, h24]
  omega

/-- The number of sectors that a count register asks for. -/
def sectorsOf (count : UInt8) : Nat := if count = 0 then 256 else count.toNat

/-- A drive that is not busy takes the command. -/
theorem issue_eq (hfree : bus.busy = 0) (slave : Bool) (lba : UInt32) (count command : UInt8) :
    ∃ taken : Bus, issue slave lba count command bus = taken.outCommand command ∧
      taken.busy = 0 ∧ taken.slave = slave ∧ taken.lba = lba.toNat % 2 ^ 28 ∧
      taken.sectors = sectorsOf count ∧ taken.media = bus.media ∧ taken.delays = bus.delays := by
  have hdelay := @ataDelay_free
    { bus with hddevsel := ataLba slave ||| ((lba >>> 24).toUInt8 &&& 0x0F) } hfree
  rw [issue, hdelay]
  refine ⟨_, rfl, hfree, ?_, ?_, rfl, rfl, rfl⟩
  · rw [Bus.slave]
    dsimp only
    rw [select_slave]
    cases slave <;> rfl
  · rw [Bus.lba]
    dsimp only
    rw [select_lba]
    exact registers_lba lba

/-! ## Words -/

/-- The channel once a sector was read. -/
def Bus.afterRead (bus : Bus) (slave : Bool) (lba left : Nat) : Bus :=
  if 1 < left then { bus with transfer := .toHost slave (lba + 1) (left - 1) 0 }.pause
  else { bus with transfer := .idle }

theorem readWords_eq (htransfer : bus.transfer = .toHost slave at_ left index)
    (hall : index + n = 256) (hpos : 0 < n) :
    readWords n k buf bus =
      (buf.blit (2 * k) (fun i => bus.media slave (at_ * 512 + 2 * index + i)) (2 * n),
        bus.afterRead slave at_ left) := by
  induction n generalizing index k buf bus with
  | zero => exact absurd hpos (Nat.lt_irrefl 0)
  | succ n ih =>
      rw [readWords, Bus.inData, htransfer]
      dsimp only
      rw [store_load]
      by_cases hlast : n = 0
      · subst hlast
        rw [if_neg (by omega)]
        rfl
      · have hrest : index + 1 + n = 256 := by omega
        rw [if_pos (by omega), ih rfl hrest (Nat.pos_of_ne_zero hlast)]
        refine Prod.ext ?_ rfl
        dsimp only
        rw [show 2 * (k + 1) = 2 * k + 2 by omega, show 2 * (n + 1) = 2 + 2 * n by omega]
        refine blit_append (fun i _ => rfl) fun i _ => ?_
        rw [show at_ * 512 + 2 * (index + 1) + i = at_ * 512 + 2 * index + (2 + i) by omega]

/-- The 256 words of a sector. -/
theorem readWords_sector (htransfer : bus.transfer = .toHost slave at_ left 0) :
    readWords 256 (s * 256) buf bus =
      (buf.blit (s * 512) (fun i => bus.media slave (at_ * 512 + i)) 512,
        bus.afterRead slave at_ left) := by
  have hwords := @readWords_eq bus slave buf at_ left 0 256 (s * 256) htransfer rfl (by decide)
  simp only [Nat.mul_zero, Nat.add_zero] at hwords
  rw [hwords, show 2 * (s * 256) = s * 512 by omega]

/-- The channel once a sector was written. -/
def Bus.afterWrite (bus : Bus) (slave : Bool) (lba left : Nat) (sector : ByteMap) : Bus :=
  { bus with
    media := Function.update bus.media slave ((bus.media slave).blit (lba * 512) sector 512)
    transfer :=
      if 1 < left then .toDisk slave (lba + 1) (left - 1) 0 (fun _ => 0) else .idle }.pause

theorem writeWords_eq (htransfer : bus.transfer = .toDisk slave at_ left index sector)
    (hall : index + n = 256) (hpos : 0 < n) :
    writeWords n k buf bus = bus.afterWrite slave at_ left
      (sector.blit (2 * index) (fun i => buf (2 * k + i)) (2 * n)) := by
  induction n generalizing index k sector bus with
  | zero => exact absurd hpos (Nat.lt_irrefl 0)
  | succ n ih =>
      rw [writeWords, Bus.outData, htransfer]
      dsimp only
      rw [store_load]
      by_cases hlast : n = 0
      · subst hlast
        rw [if_neg (by omega)]
        rfl
      · have hrest : index + 1 + n = 256 := by omega
        rw [if_pos (by omega), ih rfl hrest (Nat.pos_of_ne_zero hlast)]
        have hsector : (sector.blit (2 * index) (fun i => buf (2 * k + i)) 2).blit (2 * (index + 1))
            (fun i => buf (2 * (k + 1) + i)) (2 * n) =
            sector.blit (2 * index) (fun i => buf (2 * k + i)) (2 * (n + 1)) := by
          rw [show 2 * (index + 1) = 2 * index + 2 by omega,
            show 2 * (n + 1) = 2 + 2 * n by omega]
          refine blit_append (fun i _ => rfl) fun i _ => ?_
          rw [show 2 * (k + 1) + i = 2 * k + (2 + i) by omega]
        rw [hsector]
        rfl

theorem writeWords_sector (htransfer : bus.transfer = .toDisk slave at_ left 0 sector) :
    writeWords 256 (s * 256) buf bus = bus.afterWrite slave at_ left
      (sector.blit 0 (fun i => buf (s * 512 + i)) 512) := by
  have hwords := @writeWords_eq bus slave buf sector at_ left 0 256 (s * 256) htransfer rfl
    (by decide)
  rw [hwords, show 2 * (s * 256) = s * 512 by omega]

/-! ## Sectors -/

/-- A run of sectors, each of which is waited for. -/
theorem readSectors_eq (htransfer : bus.transfer = .toHost slave at_ n 0)
    (hsoon : bus.busy < busyTimeout) (hquick : bus.Quick) (hpos : 0 < n) :
    ∃ bus', readSectors n s buf bus =
        (true, buf.blit (s * 512) (fun i => bus.media slave (at_ * 512 + i)) (n * 512), bus') ∧
      bus'.Ready ∧ bus'.media = bus.media := by
  induction n generalizing bus at_ s buf with
  | zero => exact absurd hpos (Nat.lt_irrefl 0)
  | succ n ih =>
      rw [readSectors, waitSector_eq hsoon (by rw [htransfer]; exact Transfer.noConfusion)]
      dsimp only
      rw [@readWords_sector { bus with busy := 0 } slave buf at_ (n + 1) s htransfer, Bus.afterRead]
      dsimp only
      by_cases hlast : n = 0
      · subst hlast
        rw [if_neg (by omega), Nat.zero_add, Nat.one_mul, readSectors]
        exact ⟨_, rfl, ⟨rfl, busyTimeout_pos, hquick⟩, rfl⟩
      · rw [if_pos (by omega)]
        obtain ⟨bus', hrest, hready, hmedia⟩ := @ih
          { bus with busy := 0, transfer := .toHost slave (at_ + 1) (n + 1 - 1) 0 }.pause
          (buf.blit (s * 512) (fun i => bus.media slave (at_ * 512 + i)) 512) (at_ + 1) (s + 1)
          rfl (hquick 0) (fun j => hquick (j + 1)) (Nat.pos_of_ne_zero hlast)
        have happend := @blit_append buf (s * 512) 512 (n * 512)
          (fun i => bus.media slave (at_ * 512 + i)) (fun i => bus.media slave (at_ * 512 + i))
          (fun i => bus.media slave ((at_ + 1) * 512 + i)) (fun i _ => rfl) fun i _ =>
            congrArg (bus.media slave) (by omega)
        refine ⟨bus', ?_, hready, hmedia⟩
        rw [show (n + 1) * 512 = 512 + n * 512 by omega, ← happend,
          show s * 512 + 512 = (s + 1) * 512 by omega]
        exact hrest

/-- **Reading.** Sectors are read in order from the drive that is asked for. -/
theorem ataReadSectors_eq {present : Bool → Bool} (hready : bus.Ready)
    (hpresent : present slave = true) (hcount : count ≠ 0) :
    ∃ bus', ataReadSectors present slave lba count buf bus =
        ((count.toNat : Int), buf.blit 0 (fun i => bus.media slave (lba.toNat % 2 ^ 28 * 512 + i))
          (count.toNat * 512), bus') ∧
      bus'.Ready ∧ bus'.media = bus.media := by
  have hpos : 0 < count.toNat := Nat.pos_of_ne_zero fun hzero =>
    hcount (UInt8.toNat_inj.mp hzero)
  obtain ⟨taken, hissue, hfree, hslave, hlba, hsectors, hmedia, hdelays⟩ :=
    @issue_eq { bus with busy := 0 } rfl slave lba count cmdReadPio
  have hcommand : taken.outCommand cmdReadPio =
      { taken with transfer := .toHost slave (lba.toNat % 2 ^ 28) count.toNat 0 }.pause := by
    rw [Bus.outCommand, if_neg (by omega), if_pos rfl, hslave, hlba, hsectors, sectorsOf,
      if_neg hcount]
  have hquick : ∀ n, taken.delays n < busyTimeout := by
    rw [hdelays]
    exact hready.quick
  obtain ⟨bus', hrun, hready', hmedia'⟩ := @readSectors_eq
    (Bus.pause { taken with transfer := .toHost slave (lba.toNat % 2 ^ 28) count.toNat 0 }) slave buf
    (lba.toNat % 2 ^ 28) count.toNat 0 rfl (hquick 0) (fun j => hquick (j + 1)) hpos
  have hkept : bus'.media = bus.media := hmedia'.trans hmedia
  refine ⟨bus', ?_, hready', hkept⟩
  rw [ataReadSectors, if_neg (by rw [hpresent]; decide), waitNotBusy_eq hready.soon]
  dsimp only
  rw [hissue, hcommand, hrun, if_pos rfl, Nat.zero_mul, ← hkept, ← hmedia']

theorem flush_eq (hready : bus.Ready) :
    ∃ bus', flush bus = (true, bus') ∧ bus'.Ready ∧ bus'.media = bus.media := by
  have hflushed : (bus.outCommand cmdFlush).Ready ∧
      (bus.outCommand cmdFlush).media = bus.media := by
    rw [Bus.outCommand]
    split_ifs with hbusy hread hwrite
    · exact ⟨hready, rfl⟩
    · exact absurd hread (by decide)
    · exact absurd hwrite (by decide)
    · exact ⟨⟨rfl, hready.quick 0, fun j => hready.quick (j + 1)⟩, rfl⟩
    · exact ⟨hready, rfl⟩
  exact ⟨_, waitNotBusy_eq hflushed.1.soon, ⟨hflushed.1.idle, busyTimeout_pos, hflushed.1.quick⟩,
    hflushed.2⟩

theorem writeSector_eq (htransfer : bus.transfer = .toDisk slave at_ 1 0 sector)
    (hsoon : bus.busy < busyTimeout) (hquick : bus.Quick) :
    ∃ bus', writeSector 0 buf bus = (true, bus') ∧ bus'.Ready ∧
      bus'.media = Function.update bus.media slave
        ((bus.media slave).blit (at_ * 512) buf 512) := by
  have hwords := @writeWords_sector { bus with busy := 0 } slave buf sector at_ 1 0 htransfer
  have hready : (Bus.afterWrite { bus with busy := 0 } slave at_ 1
      (sector.blit 0 (fun i => buf (0 * 512 + i)) 512)).Ready :=
    ⟨rfl, hquick 0, fun j => hquick (j + 1)⟩
  obtain ⟨bus', hflush, hready', hmedia⟩ := flush_eq hready
  refine ⟨bus', ?_, hready', hmedia.trans ?_⟩
  · rw [writeSector, waitSector_eq hsoon (by rw [htransfer]; exact Transfer.noConfusion)]
    dsimp only
    rw [hwords, hflush]
  · have hblit : (bus.media slave).blit (at_ * 512)
        (sector.blit 0 (fun i => buf (0 * 512 + i)) 512) 512 =
        (bus.media slave).blit (at_ * 512) buf 512 := by
      refine blit_congr fun i hi => ?_
      have happly := @blit_apply_of_mem sector 0 (fun i => buf (0 * 512 + i)) 512 i hi
      rwa [Nat.zero_mul, Nat.zero_add] at happly
    exact congrArg (Function.update bus.media slave) hblit

/-- **Writing.** One sector is written to the drive that is asked for. -/
theorem ataWriteSectors_eq {present : Bool → Bool} (hready : bus.Ready)
    (hpresent : present slave = true) :
    ∃ bus', ataWriteSectors present slave lba 1 buf bus = (0, bus') ∧ bus'.Ready ∧
      bus'.media = Function.update bus.media slave
        ((bus.media slave).blit (lba.toNat % 2 ^ 28 * 512) buf 512) := by
  obtain ⟨taken, hissue, hfree, hslave, hlba, hsectors, hmedia, hdelays⟩ :=
    @issue_eq { bus with busy := 0 } rfl slave lba 1 cmdWritePio
  have hcommand : taken.outCommand cmdWritePio =
      { taken with transfer := .toDisk slave (lba.toNat % 2 ^ 28) 1 0 fun _ => 0 }.pause := by
    rw [Bus.outCommand, if_neg (by omega), if_neg (by decide), if_pos rfl, hslave, hlba, hsectors]
    rfl
  have hquick : ∀ n, taken.delays n < busyTimeout := by
    rw [hdelays]
    exact hready.quick
  obtain ⟨bus', hrun, hready', hmedia'⟩ := @writeSector_eq
    (Bus.pause { taken with transfer := .toDisk slave (lba.toNat % 2 ^ 28) 1 0 fun _ => 0 }) slave
    buf _ (lba.toNat % 2 ^ 28) rfl (hquick 0) fun j => hquick (j + 1)
  have hstart : (Bus.pause { taken with
      transfer := .toDisk slave (lba.toNat % 2 ^ 28) 1 0 fun _ => 0 }).media = bus.media := hmedia
  rw [hstart] at hmedia'
  refine ⟨bus', ?_, hready', hmedia'⟩
  rw [ataWriteSectors, if_neg (by rw [hpresent]; decide), waitNotBusy_eq hready.soon]
  dsimp only
  have hall (bus : Bus) (hsector : writeSector 0 buf bus = (true, bus')) :
      writeSectors (0 + 1) 0 buf bus = (true, bus') := by
    rw [writeSectors, hsector]
    rfl
  rw [hissue, hcommand, show (1 : UInt8).toNat = 0 + 1 from rfl, hall _ hrun, if_pos rfl]

/-! ## Runs -/

/-- A transfer of one sector, as the file system asks for it. -/
inductive SectorCall
  | read (slave : Bool) (lba : UInt32)
  | write (slave : Bool) (lba : UInt32) (buf : ByteMap)

/-- What a call returns: its result, and for a read the sector. -/
abbrev SectorResult := Int × List UInt8

/-- A call of the driver; a read is given a buffer that holds `fresh`. -/
def SectorCall.exec (present : Bool → Bool) (fresh : ByteMap) (bus : Bus) :
    SectorCall → SectorResult × Bus
  | .read slave lba =>
      let (r, buf, bus) := ataReadSectors present slave lba 1 fresh bus
      ((r, buf.slice 0 512), bus)
  | .write slave lba buf =>
      let (r, bus) := ataWriteSectors present slave lba 1 buf bus
      ((r, []), bus)

/-- The same call on two disks that are byte maps. -/
def SectorCall.onDisks (media : Bool → ByteMap) : SectorCall → SectorResult × (Bool → ByteMap)
  | .read slave lba =>
      match (Fs.disk (media slave)).read (lba.toNat % 2 ^ 28) with
      | (none, _) => ((-1, []), media)
      | (some sector, d) => ((1, sector.slice 0 512), Function.update media slave d.bytes)
  | .write slave lba buf =>
      match (Fs.disk (media slave)).write (lba.toNat % 2 ^ 28) buf with
      | (done, d) => ((if done then 0 else -1, []), Function.update media slave d.bytes)

/-- Calls one after the other. -/
def execAll (present : Bool → Bool) (fresh : ByteMap) (bus : Bus) :
    List SectorCall → List SectorResult × Bus
  | [] => ([], bus)
  | call :: calls =>
      let (r, bus) := call.exec present fresh bus
      let (rs, bus) := execAll present fresh bus calls
      (r :: rs, bus)

/-- Calls on two disks. -/
def disksAll (media : Bool → ByteMap) : List SectorCall → List SectorResult × (Bool → ByteMap)
  | [] => ([], media)
  | call :: calls =>
      let (r, media) := call.onDisks media
      let (rs, media) := disksAll media calls
      (r :: rs, media)

/-- One call does what it does on the disks. -/
theorem SectorCall.exec_eq {present : Bool → Bool} {fresh : ByteMap} (hready : bus.Ready)
    (call : SectorCall) (hpresent : ∀ slave, present slave = true) :
    ∃ bus', call.exec present fresh bus = ((call.onDisks bus.media).1, bus') ∧ bus'.Ready ∧
      bus'.media = (call.onDisks bus.media).2 := by
  cases call with
  | read slave lba =>
      obtain ⟨bus', hrun, hready', hmedia⟩ := @ataReadSectors_eq bus slave lba 1 fresh present hready
        (hpresent slave) (by decide)
      have hsector : (fresh.blit 0 (fun i => bus.media slave (lba.toNat % 2 ^ 28 * 512 + i))
          ((1 : UInt8).toNat * 512)).slice 0 512 =
          ByteMap.slice (fun i => bus.media slave (lba.toNat % 2 ^ 28 * 512 + i)) 0 512 := by
        refine slice_congr fun i hi => ?_
        rw [show (1 : UInt8).toNat * 512 = 512 from rfl]
        exact blit_apply_of_mem hi |>.trans (by rw [Nat.zero_add])
      rw [SectorCall.exec, SectorCall.onDisks, hrun, Fs.read_disk]
      dsimp only
      rw [hsector, Fs.disk_bytes, Function.update_eq_self]
      exact ⟨bus', rfl, hready', hmedia⟩
  | write slave lba buf =>
      obtain ⟨bus', hrun, hready', hmedia⟩ := @ataWriteSectors_eq bus slave lba buf present hready
        (hpresent slave)
      rw [SectorCall.exec, SectorCall.onDisks, hrun, Fs.write_disk]
      dsimp only
      rw [if_pos rfl, Fs.disk_bytes]
      exact ⟨bus', rfl, hready', hmedia⟩

/-- **The driver and the disks.** As long as the drives are never busy for longer than the driver
waits, every run of its calls on them, in any order, returns what it returns on two byte maps, and
leaves what it leaves there. -/
theorem execAll_eq {present : Bool → Bool} {fresh : ByteMap} (hready : bus.Ready)
    (hpresent : ∀ slave, present slave = true) (calls : List SectorCall) :
    (execAll present fresh bus calls).1 = (disksAll bus.media calls).1 ∧
      (execAll present fresh bus calls).2.media = (disksAll bus.media calls).2 := by
  induction calls generalizing bus with
  | nil => exact ⟨rfl, rfl⟩
  | cons call calls ih =>
      obtain ⟨bus', hrun, hready', hmedia⟩ := @call.exec_eq bus present fresh hready hpresent
      obtain ⟨hresults, hleft⟩ := ih hready'
      rw [execAll, disksAll, hrun]
      dsimp only
      rw [hresults, hleft, hmedia]
      exact ⟨rfl, rfl⟩

/-- Two empty disks that are busy for up to three looks. -/
def twoDisks : Bus := ⟨0xA0, 0, 0, 0, 0, fun _ _ => 0, .idle, 0, fun n => n % 4⟩

theorem execAll_eq_twoDisks :
    (execAll (fun _ => true) (fun _ => 0) twoDisks [.write true 5 fun _ => 7, .read true 5]).1 =
        (disksAll twoDisks.media [.write true 5 fun _ => 7, .read true 5]).1 ∧
      (execAll (fun _ => true) (fun _ => 0) twoDisks
        [.write true 5 fun _ => 7, .read true 5]).2.media =
        (disksAll twoDisks.media [.write true 5 fun _ => 7, .read true 5]).2 :=
  execAll_eq ⟨rfl, busyTimeout_pos, fun n =>
    (Nat.mod_lt n (by decide)).trans (Nat.lt_add_of_pos_left (Nat.succ_pos 999995))⟩ (fun _ => rfl) _

end GeckoOS.Drivers
