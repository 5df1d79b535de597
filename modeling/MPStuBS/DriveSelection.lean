import MPStuBS.Harddisk
import MPStuBS.Run

/-! Which drive a command reaches. The objects of a bus share its ports, but each skips the
selection of its drive if it was the last that the object itself has made. -/
namespace MPStuBS.Harddisk

open IOPort

section Ports

variable {α β : Type} {p p' : IOPorts}

theorem bind_eq_some {x : PortM α} {f : α → PortM β} {b : β} :
    (x >>= f) p = some (b, p') ↔ ∃ a between, x p = some (a, between) ∧ f a between = some (b, p') := by
  change (x p).bind (fun r => f r.1 r.2) = _ ↔ _
  rw [Option.bind_eq_some_iff]
  exact Prod.exists

/-- No command is issued and no selection is made. -/
def Quiet (x : PortM α) : Prop := ∀ p a p', x p = some (a, p') →
  (∀ drive, p'.bytes (HarddiskPorts.driveSelect drive) = p.bytes (HarddiskPorts.driveSelect drive)) ∧
    p'.issued = p.issued

namespace Quiet

variable {fuel : Nat} {drive : Drive}

theorem pure (a : α) : Quiet (Pure.pure a : PortM α) := by
  intro p b p' ran
  cases ran
  exact ⟨fun _ => rfl, rfl⟩

theorem bind {x : PortM α} {f : α → PortM β} (first : Quiet x) (next : ∀ a, Quiet (f a)) : Quiet (x >>= f) := by
  intro p b p' ran
  obtain ⟨a, between, ran, rest⟩ := bind_eq_some.mp ran
  obtain ⟨selects, issued⟩ := first p a between ran
  obtain ⟨selects', issued'⟩ := next a between b p' rest
  exact ⟨fun drive => (selects' drive).trans (selects drive), issued'.trans issued⟩

theorem ite {c : Prop} [Decidable c] {x y : PortM α} (fst : Quiet x) (snd : Quiet y) : Quiet (if c then x else y) := by
  split
  · exact fst
  · exact snd

theorem inw (address : BitVec 16) : Quiet (IOPort.inw address) := by
  intro p a p' ran
  cases ran
  exact ⟨fun _ => rfl, rfl⟩

theorem inb (address : BitVec 16) : Quiet (IOPort.inb address) := (inw address).bind fun _ => pure _

theorem outw (address val : BitVec 16) : Quiet (IOPort.outw address val) := by
  intro p a p' ran
  cases ran
  exact ⟨fun _ => rfl, rfl⟩

theorem outb {address : BitVec 16} (val : BitVec 8) (other : ∀ drive, HarddiskPorts.driveSelect drive ≠ address) :
    Quiet (IOPort.outb address val) := by
  intro p a p' ran
  cases ran
  exact ⟨fun drive => Function.update_of_ne (other drive) _ _, rfl⟩

theorem poll : Quiet (Harddisk.poll drive fuel) := by
  induction fuel with
  | zero =>
    intro p a p' ran
    cases ran
  | succ fuel ih => exact (inb _).bind fun _ => ite (pure _) (ite ih (pure _))

theorem waitForHarddisk (delay : Bool) : Quiet (Harddisk.waitForHarddisk fuel drive delay) :=
  ite ((inb _).bind fun _ => (inb _).bind fun _ => (inb _).bind fun _ => (inb _).bind fun _ => poll) poll

theorem waitUntilBsyClear (delay : Bool) : Quiet (Harddisk.waitUntilBsyClear fuel drive delay) :=
  (waitForHarddisk delay).bind fun _ => pure _

theorem receive (n : Nat) : Quiet (Harddisk.receive fuel drive n) := by
  induction n with
  | zero => exact pure _
  | succ n ih => exact (inw _).bind fun _ => (waitUntilBsyClear false).bind fun _ => ih.bind fun _ => pure _

theorem send {src : Nat → BitVec 16} (n : Nat) : ∀ i, Quiet (Harddisk.send fuel drive src n i) := by
  induction n with
  | zero => exact fun _ => pure _
  | succ n ih => exact fun i => (outw _ _).bind fun _ => (waitUntilBsyClear false).bind fun _ => ih (i + 1)

theorem identify (n : Nat) : ∀ i maxLba, Quiet (Harddisk.identify drive n i maxLba) := by
  induction n with
  | zero => exact fun _ _ => pure _
  | succ n ih => exact fun i maxLba => (inw _).bind fun _ => ih (i + 1) _

theorem noAtaDrive : Quiet (Harddisk.noAtaDrive drive) :=
  (inb _).bind fun _ => ite (pure _) ((inb _).bind fun _ => pure _)

end Quiet
end Ports

section Commands

variable {fuel : Nat} {d d' : Harddisk} {lba : BitVec 64} {sectors command : BitVec 8} {p p' : IOPorts}

/-- What the drive-select port of the bus was last given when the command is issued. -/
def selected (d : Harddisk) (lba : BitVec 64) (p : IOPorts) : BitVec 8 :=
  if newDriveSelectBits d.drive lba = d.lastDriveSelectBits then p.bytes (HarddiskPorts.driveSelect d.drive)
  else newDriveSelectBits d.drive lba

/-- The record of a command. -/
def issue (d : Harddisk) (lba : BitVec 64) (sectors command : BitVec 8) (p : IOPorts) : Issued :=
  ⟨d.drive, lba, sectors, command, sectors, lba.setWidth 8, (lba >>> 8).setWidth 8, (lba >>> 16).setWidth 8,
    selected d lba p⟩

/-- One command is issued, and the select ports of the other buses keep their values. -/
structure Commands (d : Harddisk) (lba : BitVec 64) (sectors command : BitVec 8) (p p' : IOPorts) : Prop where
  selects : ∀ drive, p'.bytes (HarddiskPorts.driveSelect drive) =
    if HarddiskPorts.driveSelect drive = HarddiskPorts.driveSelect d.drive then selected d lba p
    else p.bytes (HarddiskPorts.driveSelect drive)
  issued : p'.issued = p.issued ++ [issue d lba sectors command p]

theorem Commands.quiet {α : Type} {x : PortM α} {a : α} {between : IOPorts}
    (commands : Commands d lba sectors command p between) (quiet : Quiet x) (ran : x between = some (a, p')) :
    Commands d lba sectors command p p' := by
  obtain ⟨selects, issued⟩ := quiet between a p' ran
  exact ⟨fun drive => (selects drive).trans (commands.selects drive), issued.trans commands.issued⟩

theorem driveSelect_spec (ran : driveSelect fuel d lba p = some (d', p')) :
    d' = { d with lastDriveSelectBits := newDriveSelectBits d.drive lba } ∧ p'.issued = p.issued ∧
      ∀ drive, p'.bytes (HarddiskPorts.driveSelect drive) =
        if HarddiskPorts.driveSelect drive = HarddiskPorts.driveSelect d.drive then selected d lba p
        else p.bytes (HarddiskPorts.driveSelect drive) := by
  unfold driveSelect at ran
  unfold selected
  by_cases skip : newDriveSelectBits d.drive lba = d.lastDriveSelectBits
  · simp only [if_pos skip] at ran ⊢
    cases ran
    refine ⟨by rw [skip], rfl, fun drive => ?_⟩
    split
    · rename_i same
      rw [same]
    · rfl
  · simp only [if_neg skip] at ran ⊢
    obtain ⟨_, waited, wait, ran⟩ := bind_eq_some.mp ran
    obtain ⟨selects, issued⟩ := Quiet.waitUntilBsyClear true p _ waited wait
    cases ran
    refine ⟨rfl, issued, fun drive => ?_⟩
    dsimp only
    rw [Function.update_apply, selects]

theorem select_ne (drive other : Drive) :
    HarddiskPorts.driveSelect drive ≠ HarddiskPorts.sectorCount other ∧
    HarddiskPorts.driveSelect drive ≠ HarddiskPorts.lbaLow other ∧
    HarddiskPorts.driveSelect drive ≠ HarddiskPorts.lbaMid other ∧
    HarddiskPorts.driveSelect drive ≠ HarddiskPorts.lbaHigh other ∧
    HarddiskPorts.driveSelect drive ≠ HarddiskPorts.command other := by
  cases drive <;> cases other <;> decide

theorem ports_ne (drive : Drive) :
    HarddiskPorts.sectorCount drive ≠ HarddiskPorts.lbaLow drive ∧
    HarddiskPorts.sectorCount drive ≠ HarddiskPorts.lbaMid drive ∧
    HarddiskPorts.sectorCount drive ≠ HarddiskPorts.lbaHigh drive ∧
    HarddiskPorts.sectorCount drive ≠ HarddiskPorts.command drive ∧
    HarddiskPorts.lbaLow drive ≠ HarddiskPorts.lbaMid drive ∧
    HarddiskPorts.lbaLow drive ≠ HarddiskPorts.lbaHigh drive ∧
    HarddiskPorts.lbaLow drive ≠ HarddiskPorts.command drive ∧
    HarddiskPorts.lbaMid drive ≠ HarddiskPorts.lbaHigh drive ∧
    HarddiskPorts.lbaMid drive ≠ HarddiskPorts.command drive ∧
    HarddiskPorts.lbaHigh drive ≠ HarddiskPorts.command drive := by
  cases drive <;> decide

/-- `drive_select` and then `transmit_command`. -/
theorem commands {between : IOPorts} {u : Unit} (select : driveSelect fuel d lba p = some (d', between))
    (transmit : transmitCommand d'.drive lba sectors command between = some (u, p')) :
    d' = { d with lastDriveSelectBits := newDriveSelectBits d.drive lba } ∧ Commands d lba sectors command p p' := by
  obtain ⟨rfl, issued, selects⟩ := driveSelect_spec select
  have kept : ∀ drive, p'.bytes (HarddiskPorts.driveSelect drive) = between.bytes (HarddiskPorts.driveSelect drive) := by
    intro drive
    obtain ⟨count, low, mid, high, cmd⟩ := select_ne drive d.drive
    cases transmit
    simp only [Function.update_of_ne count, Function.update_of_ne low, Function.update_of_ne mid,
      Function.update_of_ne high, Function.update_of_ne cmd]
  have own := selects d.drive
  rw [if_pos rfl] at own
  refine ⟨rfl, fun drive => (kept drive).trans (selects drive), ?_⟩
  obtain ⟨count, low, mid, high, cmd⟩ := select_ne d.drive d.drive
  obtain ⟨h₁, h₂, h₃, h₄, h₅, h₆, h₇, h₈, h₉, h₁₀⟩ := ports_ne d.drive
  cases transmit
  simp only [issued, issue, Function.update_self, Function.update_of_ne, ne_eq, not_false_eq_true, h₁, h₂, h₃, h₄, h₅,
    h₆, h₇, h₈, h₉, h₁₀, count, low, mid, high, cmd, own]

/-- What a call does that converts the address: nothing, or one command. -/
def Performs (d : Harddisk) (lba : BitVec 64) (sectors command : BitVec 8) (d' : Harddisk) (p p' : IOPorts) : Prop :=
  match d.convertLba lba sectors with
  | .error _ => d' = d ∧ p' = p
  | .ok (lbaStart, sectors512Byte) =>
    d' = { d with lastDriveSelectBits := newDriveSelectBits d.drive lbaStart } ∧
      Commands d lbaStart sectors512Byte command p p'

theorem readSectors_performs {result : Except Errno (List (BitVec 16))}
    (ran : readSectors fuel d lba sectors p = some ((d', result), p')) : Performs d lba sectors 0x20 d' p p' := by
  unfold readSectors at ran
  unfold Performs
  cases converted : d.convertLba lba sectors with
  | error e =>
    rw [converted] at ran
    cases ran
    exact ⟨rfl, rfl⟩
  | ok both =>
    rw [converted] at ran
    obtain ⟨d₁, p₁, select, ran⟩ := bind_eq_some.mp ran
    obtain ⟨_, p₂, transmit, ran⟩ := bind_eq_some.mp ran
    obtain ⟨rfl, done⟩ := commands select transmit
    obtain ⟨ready, p₃, wait, ran⟩ := bind_eq_some.mp ran
    replace done := done.quiet (.waitForHarddisk false) wait
    cases ready with
    | false =>
      cases ran
      exact ⟨rfl, done⟩
    | true =>
      obtain ⟨dest, p₄, received, ran⟩ := bind_eq_some.mp ran
      obtain ⟨finished, p₅, wait, ran⟩ := bind_eq_some.mp ran
      replace done := (done.quiet (.receive _) received).quiet (.waitForHarddisk true) wait
      cases finished <;> (cases ran; exact ⟨rfl, done⟩)

theorem writeSectors_performs {src : Nat → BitVec 16} {result : Except Errno Unit}
    (ran : writeSectors fuel d lba sectors src p = some ((d', result), p')) : Performs d lba sectors 0x30 d' p p' := by
  unfold writeSectors at ran
  unfold Performs
  cases converted : d.convertLba lba sectors with
  | error e =>
    rw [converted] at ran
    cases ran
    exact ⟨rfl, rfl⟩
  | ok both =>
    rw [converted] at ran
    obtain ⟨d₁, p₁, select, ran⟩ := bind_eq_some.mp ran
    obtain ⟨_, p₂, transmit, ran⟩ := bind_eq_some.mp ran
    obtain ⟨rfl, done⟩ := commands select transmit
    obtain ⟨_, p₃, sent, ran⟩ := bind_eq_some.mp ran
    obtain ⟨_, p₄, flushed, ran⟩ := bind_eq_some.mp ran
    obtain ⟨_, p₅, wait, ran⟩ := bind_eq_some.mp ran
    cases ran
    refine ⟨rfl, ?_⟩
    refine ((done.quiet (.send _ _) sent).quiet (.outb _ fun other => ?_) flushed).quiet (.waitUntilBsyClear false) wait
    exact (select_ne other d.drive).2.2.2.2

theorem isAttached_commands {attached : Bool} (ran : isAttached fuel d p = some ((d', attached), p')) :
    d'.drive = d.drive ∧ Commands d 0 0 0xEC p p' := by
  unfold isAttached at ran
  obtain ⟨d₁, p₁, select, ran⟩ := bind_eq_some.mp ran
  obtain ⟨_, p₂, transmit, ran⟩ := bind_eq_some.mp ran
  obtain ⟨rfl, done⟩ := commands select transmit
  obtain ⟨status, p₃, asked, ran⟩ := bind_eq_some.mp ran
  replace done := done.quiet (.inb _) asked
  by_cases none : status = 0
  · rw [if_pos none] at ran
    cases ran
    exact ⟨rfl, done⟩
  · rw [if_neg none] at ran
    obtain ⟨_, p₄, wait, ran⟩ := bind_eq_some.mp ran
    obtain ⟨noAta, p₅, asked, ran⟩ := bind_eq_some.mp ran
    replace done := (done.quiet (.waitUntilBsyClear false) wait).quiet .noAtaDrive asked
    cases noAta with
    | true =>
      cases ran
      exact ⟨rfl, done⟩
    | false =>
      obtain ⟨ready, p₇, wait, ran⟩ := bind_eq_some.mp ran
      replace done := done.quiet (.waitForHarddisk false) wait
      cases ready with
      | false =>
        cases ran
        exact ⟨rfl, done⟩
      | true =>
        obtain ⟨maxLba, p₈, identified, ran⟩ := bind_eq_some.mp ran
        replace done := done.quiet (.identify _ _ _) identified
        cases ran
        exact ⟨rfl, done⟩

theorem construct_commands {drive : Drive} {maxLba : BitVec 32} (ran : construct fuel drive maxLba p = some (d', p')) :
    d'.drive = drive ∧ Commands ⟨0, false, maxLba, drive, 0⟩ 0 0 0xEC p p' := by
  obtain ⟨⟨d, attached⟩, between, identified, ran⟩ := bind_eq_some.mp ran
  cases ran
  exact isAttached_commands identified

end Commands

section Selections

variable {d : Harddisk} {lba : BitVec 64} {sectors command : BitVec 8} {p p' : IOPorts}

/-- The byte at the drive-select port has the bit of the drive that the command is for, and the
bits 24 to 27 of its address. -/
def Right (e : Issued) : Prop :=
  e.driveSelect.getLsbD 4 = !e.drive.isMaster ∧ e.driveSelect &&& (0xF : BitVec 8) = ((e.lba >>> 24) &&& 0xF).setWidth 8

theorem nibble_eq (x : BitVec 64) : (x &&& 0xF).setWidth 8 = (x.setWidth 4).setWidth 8 := by
  have low : (0xF : BitVec 64) = BitVec.setWidth 64 (BitVec.allOnes 4) := by decide
  ext i inside
  simp only [low, BitVec.getElem_setWidth, BitVec.getLsbD_and, BitVec.getLsbD_setWidth, BitVec.getLsbD_allOnes]
  grind

theorem right_bits (drive : Drive) (lba : BitVec 64) :
    (newDriveSelectBits drive lba).getLsbD 4 = (!drive.isMaster) ∧
      newDriveSelectBits drive lba &&& (0xF : BitVec 8) = ((lba >>> 24) &&& 0xF).setWidth 8 ∧ newDriveSelectBits drive lba ≠ 0 := by
  unfold newDriveSelectBits
  rw [nibble_eq]
  generalize (lba >>> 24).setWidth 4 = nibble
  generalize drive.isMaster = master
  revert nibble master
  decide

/-- Any byte that selects a drive is the right one exactly if it is the one of this drive and address. -/
theorem bits_eq_iff (drive other : Drive) (lba lba' : BitVec 64) :
    newDriveSelectBits other lba' = newDriveSelectBits drive lba ↔
      (newDriveSelectBits other lba').getLsbD 4 = (!drive.isMaster) ∧
        newDriveSelectBits other lba' &&& (0xF : BitVec 8) = ((lba >>> 24) &&& 0xF).setWidth 8 := by
  obtain ⟨master, nibble, -⟩ := right_bits drive lba
  obtain ⟨master', nibble', -⟩ := right_bits other lba'
  constructor
  · intro same
    rw [same]
    exact ⟨master, nibble⟩
  · rintro ⟨sameMaster, sameNibble⟩
    have drives : other.isMaster = drive.isMaster := Bool.not_inj (master'.symm.trans sameMaster)
    unfold newDriveSelectBits
    rw [nibble'.symm.trans sameNibble, drives]

end Selections

/-- The objects, named by numbers, and the ports. -/
structure Disks where
  disks : Nat → Option Harddisk
  ports : IOPorts

/-- A call of one object, with the fuel of its polling loops. -/
inductive Call where
  | construct (fuel i : Nat) (drive : Drive) (maxLba : BitVec 32)
  | setBlocksize (i : Nat) (blocksize : BitVec 32)
  | readSectors (fuel i : Nat) (lba : BitVec 64) (sectors : BitVec 8)
  | writeSectors (fuel i : Nat) (lba : BitVec 64) (sectors : BitVec 8) (src : Nat → BitVec 16)

namespace Disks

def update (s : Disks) (i : Nat) (d : Harddisk) (ports : IOPorts) : Disks :=
  ⟨Function.update s.disks i (some d), ports⟩

/-- Whole calls of the objects; a call of an object that does not exist is impossible. -/
def step (s : Disks) : Call → Option Disks
  | .construct fuel i drive maxLba =>
    match s.disks i with
    | some _ => none
    | none => (construct fuel drive maxLba s.ports).map fun (d, ports) => s.update i d ports
  | .setBlocksize i blocksize => (s.disks i).map fun d => s.update i { d with blocksize := blocksize } s.ports
  | .readSectors fuel i lba sectors => (s.disks i).bind fun d =>
    (readSectors fuel d lba sectors s.ports).map fun ((d, _), ports) => s.update i d ports
  | .writeSectors fuel i lba sectors src => (s.disks i).bind fun d =>
    (writeSectors fuel d lba sectors src s.ports).map fun ((d, _), ports) => s.update i d ports

/-- No object exists and no command has been issued. -/
def start (bytes : BitVec 16 → BitVec 8) (answers : Nat → BitVec 16 → BitVec 16) : Disks :=
  ⟨fun _ => none, bytes, [], answers, 0, []⟩

/-- The selection is made, or the port still has what the object gave it last. -/
def Selects (s : Disks) (i : Nat) (lba : BitVec 64) (sectors : BitVec 8) : Prop :=
  ∀ d, s.disks i = some d → match d.convertLba lba sectors with
    | .error _ => True
    | .ok (lbaStart, _) => newDriveSelectBits d.drive lbaStart ≠ d.lastDriveSelectBits ∨
        s.ports.bytes (HarddiskPorts.driveSelect d.drive) = d.lastDriveSelectBits

/-- The object did not skip a selection that another object of the bus has overwritten. -/
def Keeps (s : Disks) : Call → Prop
  | .construct .. => True
  | .setBlocksize .. => True
  | .readSectors _ i lba sectors => s.Selects i lba sectors
  | .writeSectors _ i lba sectors _ => s.Selects i lba sectors

/-- The drive-select port of every object has been given a selection. -/
def Selected (s : Disks) : Prop := ∀ i d, s.disks i = some d →
  ∃ drive lba, s.ports.bytes (HarddiskPorts.driveSelect d.drive) = newDriveSelectBits drive lba

variable {s s' : Disks} {i : Nat} {d d' : Harddisk} {lba : BitVec 64} {sectors command : BitVec 8} {ports : IOPorts} {e : Issued}

theorem start_selected (bytes : BitVec 16 → BitVec 8) (answers : Nat → BitVec 16 → BitVec 16) :
    (start bytes answers).Selected := by
  intro i d known
  cases known

/-- An object is added or changed, and commands one selection at most. -/
theorem Selected.update (is : s.Selected)
    (kept : ∀ drive, ports.bytes (HarddiskPorts.driveSelect drive) = s.ports.bytes (HarddiskPorts.driveSelect drive) ∨
      ∃ drive' lba, ports.bytes (HarddiskPorts.driveSelect drive) = newDriveSelectBits drive' lba)
    (own : ∃ drive lba, ports.bytes (HarddiskPorts.driveSelect d.drive) = newDriveSelectBits drive lba) :
    (s.update i d ports).Selected := by
  intro j other known
  replace known : Function.update s.disks i (some d) j = some other := known
  by_cases same : j = i
  · rw [same, Function.update_self, Option.some.injEq] at known
    exact known ▸ own
  · rw [Function.update_of_ne same] at known
    obtain kept | made := kept other.drive
    · obtain ⟨drive, lba, selection⟩ := is j other known
      exact ⟨drive, lba, kept.trans selection⟩
    · exact made

theorem Selected.commands (is : s.Selected) (commands : Commands d lba sectors command s.ports ports)
    (sameDrive : d'.drive = d.drive)
    (own : ∃ drive lba', selected d lba s.ports = newDriveSelectBits drive lba') : (s.update i d' ports).Selected := by
  refine is.update (fun drive => ?_) ?_
  · rw [commands.selects drive]
    split
    · exact .inr own
    · exact .inl rfl
  · rw [commands.selects d'.drive, sameDrive, if_pos rfl]
    exact own

theorem Selected.made (is : s.Selected) (known : s.disks i = some d) :
    ∃ drive lba', selected d lba s.ports = newDriveSelectBits drive lba' := by
  unfold Harddisk.selected
  split
  · exact is i d known
  · exact ⟨d.drive, lba, rfl⟩

/-- A command reaches the right drive exactly if the object made the selection or it was still there. -/
theorem Selected.right_iff (is : s.Selected) (known : s.disks i = some d) :
    Right (issue d lba sectors command s.ports) ↔
      newDriveSelectBits d.drive lba ≠ d.lastDriveSelectBits ∨
        s.ports.bytes (HarddiskPorts.driveSelect d.drive) = d.lastDriveSelectBits := by
  obtain ⟨drive, lba', port⟩ := is i d known
  unfold Right issue Harddisk.selected
  dsimp only
  split
  · rename_i skip
    rw [port, ← bits_eq_iff, skip]
    simp
  · rename_i made
    obtain ⟨master, nibble, -⟩ := right_bits d.drive lba
    exact iff_of_true ⟨master, nibble⟩ (.inl made)

/-- All commands so far have reached the right drive. -/
def AllRight (s : Disks) : Prop := ∀ e ∈ s.ports.issued, Right e

theorem allRight_append (issued : ports.issued = s.ports.issued ++ [e]) :
    (s.update i d ports).AllRight ↔ s.AllRight ∧ Right e := by
  unfold AllRight Disks.update
  rw [issued]
  simp [or_imp, forall_and]

theorem Selected.performs (is : s.Selected) (known : s.disks i = some d)
    (performs : Performs d lba sectors command d' s.ports ports) :
    (s.update i d' ports).Selected ∧ ((s.update i d' ports).AllRight ↔ s.AllRight ∧ s.Selects i lba sectors) := by
  unfold Performs at performs
  unfold Selects
  simp only [known, Option.some.injEq, forall_eq']
  cases converted : d.convertLba lba sectors with
  | error e =>
    rw [converted] at performs
    obtain ⟨rfl, rfl⟩ := performs
    exact ⟨is.update (fun _ => .inl rfl) (is i _ known), by simp [AllRight, Disks.update]⟩
  | ok both =>
    rw [converted] at performs
    obtain ⟨rfl, commands⟩ := performs
    refine ⟨is.commands commands rfl (is.made known), ?_⟩
    rw [allRight_append commands.issued, is.right_iff known]

theorem step_selected (is : s.Selected) (call : Call) (stepped : s.step call = some s') :
    s'.Selected ∧ (s'.AllRight ↔ s.AllRight ∧ s.Keeps call) := by
  cases call with
  | construct fuel i drive maxLba =>
    cases free : s.disks i with
    | some d =>
      simp only [step, free] at stepped
      cases stepped
    | none =>
      simp only [step, free] at stepped
      obtain ⟨⟨d, ports⟩, built, rfl⟩ := Option.map_eq_some_iff.mp stepped
      obtain ⟨rfl, commands⟩ := construct_commands built
      obtain ⟨master, nibble, zero⟩ := right_bits d.drive 0
      have made : selected ⟨0, false, maxLba, d.drive, 0⟩ 0 s.ports = newDriveSelectBits d.drive 0 := if_neg zero
      refine ⟨is.commands commands rfl ⟨d.drive, 0, made⟩, ?_⟩
      rw [allRight_append commands.issued]
      refine and_congr_right fun _ => iff_of_true ?_ trivial
      unfold Right issue
      rw [made]
      exact ⟨master, nibble⟩
  | setBlocksize i blocksize =>
    obtain ⟨d, known, rfl⟩ := Option.map_eq_some_iff.mp stepped
    exact ⟨is.update (fun _ => .inl rfl) (is i d known), by simp [AllRight, Disks.update, Keeps]⟩
  | readSectors fuel i lba sectors =>
    obtain ⟨d, known, stepped⟩ := Option.bind_eq_some_iff.mp stepped
    obtain ⟨⟨⟨d', result⟩, ports⟩, ran, rfl⟩ := Option.map_eq_some_iff.mp stepped
    exact is.performs known (readSectors_performs ran)
  | writeSectors fuel i lba sectors src =>
    obtain ⟨d, known, stepped⟩ := Option.bind_eq_some_iff.mp stepped
    obtain ⟨⟨⟨d', result⟩, ports⟩, ran, rfl⟩ := Option.map_eq_some_iff.mp stepped
    exact is.performs known (writeSectors_performs ran)

theorem run_allRight (is : s.Selected) {calls : List Call} {final : Disks} (run : Run.exec step s calls = some final) :
    final.AllRight ↔ s.AllRight ∧ Run.Along step Keeps s calls := by
  induction calls generalizing s with
  | nil =>
    cases run
    simp [Run.Along]
  | cons call rest ih =>
    obtain ⟨next, first, later⟩ := Run.exec_cons_eq_some.mp run
    obtain ⟨after, right⟩ := step_selected is call first
    rw [ih after later, right, and_assoc]
    simp [Run.Along, first]

/-- In every interleaving of the calls, all commands reach the right drive exactly if no object
skips a selection that another object of its bus has overwritten. -/
theorem commands_right_iff (bytes : BitVec 16 → BitVec 8) (answers : Nat → BitVec 16 → BitVec 16) (calls : List Call)
    (final : Disks) (run : Run.exec step (start bytes answers) calls = some final) :
    (∀ e ∈ final.ports.issued, Right e) ↔ Run.Along step Keeps (start bytes answers) calls := by
  have none : (start bytes answers).AllRight := fun e issued => by cases issued
  exact (run_allRight (start_selected bytes answers) run).trans (and_iff_right none)

/-- Drives that are ready and answer every word with 1000. -/
def ready (_ : Nat) (address : BitVec 16) : BitVec 16 :=
  if address = 0x1F7 then 0x58 else if address = 0x1F0 then 1000 else 0

theorem single_reads_right : ∃ final,
    Run.exec step (start (fun _ => 0) ready) [.construct 1 0 .primaryBusMaster 0, .setBlocksize 0 512,
      .readSectors 1 0 0 1] = some final ∧ ((∀ e ∈ final.ports.issued, Right e) ↔
    Run.Along step Keeps (start (fun _ => 0) ready) [.construct 1 0 .primaryBusMaster 0, .setBlocksize 0 512,
      .readSectors 1 0 0 1]) := by
  have ends : (Run.exec step (start (fun _ => 0) ready) [.construct 1 0 .primaryBusMaster 0, .setBlocksize 0 512,
      .readSectors 1 0 0 1]).isSome := by decide +kernel
  obtain ⟨final, run⟩ := Option.isSome_iff_exists.mp ends
  exact ⟨final, run, commands_right_iff (fun _ => 0) ready _ final run⟩

/-- Both drives of a bus, the second of which is selected when the first is read. -/
def bothOfBus : List Call := [.construct 1 0 .primaryBusMaster 0, .construct 1 1 .primaryBusSlave 0,
  .setBlocksize 0 512, .readSectors 1 0 0 1]

instance (e : Issued) : Decidable (Right e) := inferInstanceAs (Decidable (_ ∧ _))

theorem read_reaches_slave : ∃ final, Run.exec step (start (fun _ => 0) ready) bothOfBus = some final ∧
    ¬ ∀ e ∈ final.ports.issued, Right e := by
  have wrong : (Run.exec step (start (fun _ => 0) ready) bothOfBus).any
      (fun final => decide ¬ ∀ e ∈ final.ports.issued, Right e) = true := by decide +kernel
  obtain ⟨final, run, wrong⟩ := (Option.any_eq_true _ _).mp wrong
  exact ⟨final, run, of_decide_eq_true wrong⟩

end Disks

end MPStuBS.Harddisk
