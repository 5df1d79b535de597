import MPStuBS.BitFields
import Mathlib.Logic.Function.Basic

/-! The I/O APIC and its driver: `machine/ioapic.cc` and `ioapic_registers.h`. The registers are reached through a
selector; some bits belong to the hardware, which may change them before every access. -/
namespace MPStuBS.Ioapic

abbrev Register := BitVec 32

/-- An entry of the redirection table. -/
abbrev RedirectionTableEntry := BitVec 64

namespace RedirectionTableEntry

abbrev vector : BitField 64 := ⟨0, 8, by decide⟩
abbrev deliveryMode : BitField 64 := ⟨8, 3, by decide⟩
abbrev destinationMode : BitField 64 := ⟨11, 1, by decide⟩
abbrev deliveryStatus : BitField 64 := ⟨12, 1, by decide⟩
abbrev polarity : BitField 64 := ⟨13, 1, by decide⟩
abbrev remoteIrr : BitField 64 := ⟨14, 1, by decide⟩
abbrev triggerMode : BitField 64 := ⟨15, 1, by decide⟩
abbrev interruptMask : BitField 64 := ⟨16, 1, by decide⟩
abbrev reserved : BitField 64 := ⟨17, 39, by decide⟩
abbrev destination : BitField 64 := ⟨56, 8, by decide⟩

/-- The registers with the smaller and the higher index. -/
abbrev low : BitField 64 := ⟨0, 32, by decide⟩
abbrev high : BitField 64 := ⟨32, 32, by decide⟩

end RedirectionTableEntry

namespace Identification

abbrev id : BitField 32 := ⟨24, 4, by decide⟩

end Identification

def ioapicidIdx : Register := 0x00
def ioredtblIdx : Register := 0x10
def ioredtblEntrySize : Register := 0x02

def slotMax : Nat := 24

def unmasked : BitVec 1 := 0
def masked : BitVec 1 := 1
def high : BitVec 1 := 0
def edge : BitVec 1 := 0
def logical : BitVec 1 := 1
def lowestPriority : BitVec 3 := 1
def panic : BitVec 8 := 34

/-- What the hardware tells of a source: the delivery status and the remote IRR bit. -/
structure Signal where
  slot : Fin slotMax
  status : BitVec 1
  irr : BitVec 1

def lowIndex (slot : Nat) : Register := ioredtblIdx + BitVec.ofNat 32 slot * ioredtblEntrySize
def highIndex (slot : Nat) : Register := lowIndex slot + 1

namespace Signal

abbrev status32 : BitField 32 := ⟨12, 1, by decide⟩
abbrev irr32 : BitField 32 := ⟨14, 1, by decide⟩

end Signal

structure Device where
  select : Register
  registers : Register → Register
  time : Nat

namespace Device

variable (signals : Nat → List Signal) (d : Device)

/-- The registers with bits that only the hardware writes. -/
def isLow (index : Register) : Prop := 0x10 ≤ index ∧ index < 0x40 ∧ index &&& 1 = 0

instance (index : Register) : Decidable (isLow index) := inferInstanceAs (Decidable (_ ∧ _ ∧ _))

/-- The hardware stores the bits of one source. -/
def signal (d : Device) (signal : Signal) : Device :=
  let index := lowIndex signal.slot
  { d with
    registers := Function.update d.registers index
      (Signal.status32.set signal.status (Signal.irr32.set signal.irr (d.registers index))) }

/-- Time goes on until the next access. -/
def tick : Device := (signals d.time).foldl signal { d with time := d.time + 1 }

def readSelect : Register × Device := ((d.tick signals).select, d.tick signals)

def writeSelect (value : Register) : Device := { d.tick signals with select := value }

def readWindow : Register × Device := ((d.tick signals).registers (d.tick signals).select, d.tick signals)

def writeWindow (value : Register) : Device :=
  let d := d.tick signals
  let old := d.registers d.select
  let new := if isLow d.select then
      Signal.status32.set (Signal.status32.get old) (Signal.irr32.set (Signal.irr32.get old) value)
    else value
  { d with registers := Function.update d.registers d.select new }

end Device

section Driver

variable (signals : Nat → List Signal)

def readEntry (slot : Nat) (d : Device) : RedirectionTableEntry × Device :=
  let d := d.writeSelect signals (lowIndex slot)
  let (low, d) := d.readWindow signals
  let (select, d) := d.readSelect signals
  let d := d.writeSelect signals (select + ioredtblEntrySize / 2)
  let (high, d) := d.readWindow signals
  (high ++ low, d)

def writeEntry (slot : Nat) (entry : RedirectionTableEntry) (d : Device) : Device :=
  let d := d.writeSelect signals (lowIndex slot)
  let d := d.writeWindow signals (RedirectionTableEntry.low.get entry)
  let (select, d) := d.readSelect signals
  let d := d.writeSelect signals (select + ioredtblEntrySize / 2)
  d.writeWindow signals (RedirectionTableEntry.high.get entry)

def initEntry (count : Nat) (entry : RedirectionTableEntry) : RedirectionTableEntry :=
  let entry := RedirectionTableEntry.destination.set (BitVec.ofNat 8 (2 ^ count - 1)) entry
  let entry := RedirectionTableEntry.interruptMask.set masked entry
  let entry := RedirectionTableEntry.triggerMode.set edge entry
  let entry := RedirectionTableEntry.polarity.set high entry
  let entry := RedirectionTableEntry.destinationMode.set logical entry
  let entry := RedirectionTableEntry.deliveryMode.set lowestPriority entry
  RedirectionTableEntry.vector.set panic entry

/-- The loop of `init` over the slots from this one on. -/
def initSlots (count : Nat) : Nat → Nat → Device → Device
  | _, 0, d => d
  | slot, n + 1, d =>
    let (entry, d) := readEntry signals slot d
    initSlots count (slot + 1) n (writeEntry signals slot (initEntry count entry) d)

def init (count : Nat) (id : BitVec 8) (d : Device) : Device :=
  let d := initSlots signals count 0 slotMax d
  let d := d.writeSelect signals ioapicidIdx
  let (value, d) := d.readWindow signals
  d.writeWindow signals (Identification.id.set (id.setWidth 4) value)

/-- What one of the functions does to an entry; the assertion fails for a slot that does not exist. -/
def change (slot : Nat) (f : RedirectionTableEntry → RedirectionTableEntry) (d : Device) : Option Device :=
  if slot < slotMax then
    let (entry, d) := readEntry signals slot d
    some (writeEntry signals slot (f entry) d)
  else none

def config (slot : Nat) (vector : BitVec 8) (triggerMode polarity : BitVec 1) : Device → Option Device :=
  change signals slot fun entry =>
    let entry := RedirectionTableEntry.vector.set vector entry
    let entry := RedirectionTableEntry.triggerMode.set triggerMode entry
    RedirectionTableEntry.polarity.set polarity entry

def allow (slot : Nat) : Device → Option Device :=
  change signals slot (RedirectionTableEntry.interruptMask.set unmasked)

def forbid (slot : Nat) : Device → Option Device :=
  change signals slot (RedirectionTableEntry.interruptMask.set masked)

def status (slot : Nat) (d : Device) : Option (Bool × Device) :=
  if slot < slotMax then
    let (entry, d) := readEntry signals slot d
    some (decide (RedirectionTableEntry.interruptMask.get entry = unmasked), d)
  else none

end Driver

end MPStuBS.Ioapic
