import MPStuBS.FsState

/-! The ATA driver: `fs/harddisk.h` and `fs/harddisk.cc`. What an I/O port answers is given
from outside; a loop that polls the drive has fuel. -/
namespace MPStuBS

inductive Drive where
  | primaryBusMaster | primaryBusSlave | secondaryBusMaster | secondaryBusSlave
  | thirdBusMaster | thirdBusSlave | fourthBusMaster | fourthBusSlave
  deriving DecidableEq, Repr

namespace Drive

def basePort : Drive → BitVec 16
  | primaryBusMaster | primaryBusSlave => 0x1F0
  | secondaryBusMaster | secondaryBusSlave => 0x170
  | thirdBusMaster | thirdBusSlave => 0x1E8
  | fourthBusMaster | fourthBusSlave => 0x168

def isMaster : Drive → Bool
  | primaryBusMaster | secondaryBusMaster | thirdBusMaster | fourthBusMaster => true
  | _ => false

end Drive

namespace HarddiskPorts

def data (drive : Drive) : BitVec 16 := drive.basePort
def sectorCount (drive : Drive) : BitVec 16 := drive.basePort + 2
def lbaLow (drive : Drive) : BitVec 16 := drive.basePort + 3
def lbaMid (drive : Drive) : BitVec 16 := drive.basePort + 4
def lbaHigh (drive : Drive) : BitVec 16 := drive.basePort + 5
def driveSelect (drive : Drive) : BitVec 16 := drive.basePort + 6
def command (drive : Drive) : BitVec 16 := drive.basePort + 7

end HarddiskPorts

/-- A command of `transmit_command`, with what the other registers of the bus were last given. -/
structure Issued where
  drive : Drive
  lba : BitVec 64
  sectors : BitVec 8
  command : BitVec 8
  sectorCount : BitVec 8
  lbaLow : BitVec 8
  lbaMid : BitVec 8
  lbaHigh : BitVec 8
  driveSelect : BitVec 8
  deriving DecidableEq, Repr

/-- The address in the registers. -/
def Issued.address (e : Issued) : Nat :=
  (e.driveSelect &&& (0xF : BitVec 8)).toNat * 2 ^ 24 + e.lbaHigh.toNat * 2 ^ 16 + e.lbaMid.toNat * 2 ^ 8 + e.lbaLow.toNat

/-- The last byte and all words that were given to each port, and what the ports answer. -/
structure IOPorts where
  bytes : BitVec 16 → BitVec 8
  words : List (BitVec 16 × BitVec 16)
  answers : Nat → BitVec 16 → BitVec 16
  reads : Nat
  issued : List Issued

abbrev PortM := StateT IOPorts Option

namespace IOPort

def outb (address : BitVec 16) (val : BitVec 8) : PortM Unit := fun p =>
  some ((), { p with bytes := Function.update p.bytes address val })

def outw (address val : BitVec 16) : PortM Unit := fun p =>
  some ((), { p with words := p.words ++ [(address, val)] })

def inw (address : BitVec 16) : PortM (BitVec 16) := fun p =>
  some (p.answers p.reads address, { p with reads := p.reads + 1 })

def inb (address : BitVec 16) : PortM (BitVec 8) := do
  let out ← inw address
  pure (out.setWidth 8)

end IOPort

structure Harddisk where
  blocksize : BitVec 32
  attached : Bool
  maxLba : BitVec 32
  drive : Drive
  lastDriveSelectBits : BitVec 8

namespace Harddisk

open IOPort

def dmaRequestBit : BitVec 8 := 0x8
def errorBits : BitVec 8 := 0x21
def busyBit : BitVec 8 := 0x80

/-- The loop of `wait_for_harddisk`. -/
def poll (drive : Drive) : Nat → PortM Bool
  | 0 => failure
  | fuel + 1 => do
    let ret ← inb (HarddiskPorts.command drive)
    let bsySet := ret &&& busyBit ≠ 0
    let drqUnset := ret &&& dmaRequestBit = 0
    if ¬ bsySet ∧ ret &&& errorBits ≠ 0 then pure false
    else if bsySet ∧ drqUnset then poll drive fuel
    else pure true

def waitForHarddisk (fuel : Nat) (drive : Drive) (delay : Bool) : PortM Bool := do
  if delay then do
    let _ ← inb (HarddiskPorts.command drive)
    let _ ← inb (HarddiskPorts.command drive)
    let _ ← inb (HarddiskPorts.command drive)
    let _ ← inb (HarddiskPorts.command drive)
    poll drive fuel
  else poll drive fuel

def waitUntilBsyClear (fuel : Nat) (drive : Drive) (delay : Bool) : PortM Unit := do
  let _ ← waitForHarddisk fuel drive delay
  pure ()

/-- The byte that selects the drive and the highest four bits of the address. -/
def newDriveSelectBits (drive : Drive) (lbaStart : BitVec 64) : BitVec 8 :=
  let driveBits : BitVec 8 := if drive.isMaster then 0x0 else 0x10
  driveBits ||| 0x40 ||| 0xA0 ||| ((lbaStart >>> 24) &&& 0xF).setWidth 8

def driveSelect (fuel : Nat) (d : Harddisk) (lbaStart : BitVec 64) : PortM Harddisk := do
  let bits := newDriveSelectBits d.drive lbaStart
  if bits = d.lastDriveSelectBits then pure d
  else do
    waitUntilBsyClear fuel d.drive true
    outb (HarddiskPorts.driveSelect d.drive) bits
    pure { d with lastDriveSelectBits := bits }

/-- The address and the number of sectors for sectors of 512 bytes. -/
def convertLba (d : Harddisk) (lba : BitVec 64) (sectors : BitVec 8) : Except Errno (BitVec 64 × BitVec 8) :=
  let blockFactor := d.blocksize / 512
  let lba := lba * blockFactor.setWidth 64
  if 255 < sectors.setWidth 32 * blockFactor then .error .einval
  else
    let sectors := (sectors.setWidth 32 * blockFactor).setWidth 8
    if d.maxLba.setWidth 64 < lba ∨ d.maxLba.setWidth 64 < lba + sectors.setWidth 64 then .error .einval
    else .ok (lba &&& 0xfffffff, sectors)

def note (drive : Drive) (lba : BitVec 64) (sectors command : BitVec 8) : PortM Unit := fun p =>
  some ((), { p with issued := p.issued ++ [⟨drive, lba, sectors, command, p.bytes (HarddiskPorts.sectorCount drive),
    p.bytes (HarddiskPorts.lbaLow drive), p.bytes (HarddiskPorts.lbaMid drive), p.bytes (HarddiskPorts.lbaHigh drive),
    p.bytes (HarddiskPorts.driveSelect drive)⟩] })

def transmitCommand (drive : Drive) (lba : BitVec 64) (sectors command : BitVec 8) : PortM Unit := do
  outb (HarddiskPorts.sectorCount drive) sectors
  outb (HarddiskPorts.lbaLow drive) (lba.setWidth 8)
  outb (HarddiskPorts.lbaMid drive) ((lba >>> 8).setWidth 8)
  outb (HarddiskPorts.lbaHigh drive) ((lba >>> 16).setWidth 8)
  outb (HarddiskPorts.command drive) command
  note drive lba sectors command

/-- Receives `n` words. -/
def receive (fuel : Nat) (drive : Drive) : Nat → PortM (List (BitVec 16))
  | 0 => pure []
  | n + 1 => do
    let word ← inw (HarddiskPorts.data drive)
    waitUntilBsyClear fuel drive false
    let rest ← receive fuel drive n
    pure (word :: rest)

def readSectors (fuel : Nat) (d : Harddisk) (lba : BitVec 64) (sectors : BitVec 8) :
    PortM (Harddisk × Except Errno (List (BitVec 16))) := do
  match d.convertLba lba sectors with
  | .error e => pure (d, .error e)
  | .ok (lbaStart, sectors512Byte) => do
    let d ← driveSelect fuel d lbaStart
    transmitCommand d.drive lbaStart sectors512Byte 0x20
    let ready ← waitForHarddisk fuel d.drive false
    if ready then do
      let dest ← receive fuel d.drive (256 * sectors512Byte.toNat)
      let done ← waitForHarddisk fuel d.drive true
      if done then pure (d, .ok dest) else pure (d, .error .eio)
    else pure (d, .error .eio)

/-- Sends `n` words from index `i` on. -/
def send (fuel : Nat) (drive : Drive) (src : Nat → BitVec 16) : Nat → Nat → PortM Unit
  | 0, _ => pure ()
  | n + 1, i => do
    outw (HarddiskPorts.data drive) (src i)
    waitUntilBsyClear fuel drive false
    send fuel drive src n (i + 1)

def writeSectors (fuel : Nat) (d : Harddisk) (lba : BitVec 64) (sectors : BitVec 8) (src : Nat → BitVec 16) :
    PortM (Harddisk × Except Errno Unit) := do
  match d.convertLba lba sectors with
  | .error e => pure (d, .error e)
  | .ok (lbaStart, sectors512Byte) => do
    let d ← driveSelect fuel d lbaStart
    transmitCommand d.drive lbaStart sectors512Byte 0x30
    send fuel d.drive src (256 * sectors512Byte.toNat) 0
    outb (HarddiskPorts.command d.drive) 0xE7
    waitUntilBsyClear fuel d.drive false
    pure (d, .ok ())

/-- The loop over the 256 words of the answer to `IDENTIFY`, from word `i` on. -/
def identify (drive : Drive) : Nat → Nat → BitVec 32 → PortM (BitVec 32)
  | 0, _, maxLba => pure maxLba
  | n + 1, i, maxLba => do
    let buf ← inw (HarddiskPorts.data drive)
    identify drive n (i + 1)
      (if i = 60 then buf.setWidth 32 else if i = 61 then maxLba ||| (buf.setWidth 32 <<< 16) else maxLba)

/-- Whether both bytes are set; the second is only read if the first is. -/
def noAtaDrive (drive : Drive) : PortM Bool := do
  let mid ← inb (HarddiskPorts.lbaMid drive)
  if mid = 0 then pure false
  else do
    let high ← inb (HarddiskPorts.lbaHigh drive)
    pure (high ≠ 0)

def isAttached (fuel : Nat) (d : Harddisk) : PortM (Harddisk × Bool) := do
  let d ← driveSelect fuel d 0
  transmitCommand d.drive 0 0 0xEC
  let status ← inb (HarddiskPorts.command d.drive)
  if status = 0 then pure (d, false)
  else do
    waitUntilBsyClear fuel d.drive false
    let noAta ← noAtaDrive d.drive
    if noAta then pure (d, false)
    else do
      let ready ← waitForHarddisk fuel d.drive false
      if ready then do
        let maxLba ← identify d.drive 256 0 d.maxLba
        pure ({ d with maxLba := maxLba }, true)
      else pure (d, false)

/-- The constructor. Before `is_attached` sets it, `max_lba` is any value. -/
def construct (fuel : Nat) (drive : Drive) (maxLba : BitVec 32) : PortM Harddisk := do
  let (d, attached) ← isAttached fuel ⟨0, false, maxLba, drive, 0⟩
  pure { d with attached := attached }

end Harddisk
end MPStuBS
