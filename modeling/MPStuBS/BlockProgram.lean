import Mathlib.Logic.Function.Basic

/-! Programs that work on a state of their own and on the blocks of a device. A program
fixes a block, reads and changes it in memory, marks it dirty and releases it. The
device either lends its own memory or hands out a copy, which it writes back on release
if it was marked dirty. Nothing here names a particular program or its state. -/
namespace MPStuBS

abbrev Bytes := Nat → UInt8

/-- What is done to a fixed block, besides reading it. -/
inductive Command where
  | store (bytes : Bytes)
  | markDirty
  | clearDirty
  | sync
  | unfix

/-- A program with states `σ`, device errors `ε` and faults `φ`; blocks are held by number
of their `fix`. -/
inductive Prog (σ ε φ : Type) (α : Type) where
  | pure (a : α)
  | fault (f : φ)
  | get (k : σ → Prog σ ε φ α)
  | set (s : σ) (k : Prog σ ε φ α)
  | fix (number : Nat) (k : Except ε Nat → Prog σ ε φ α)
  | load (block : Nat) (k : Option Bytes → Prog σ ε φ α)
  | command (block : Nat) (c : Command) (k : Prog σ ε φ α)

/-- A block in memory. The copy is used only by a device that hands out copies. -/
structure Block where
  number : Nat
  present : Bool
  dirty : Bool
  copy : Bytes

/-- The stored blocks, all blocks that were ever fixed, and how often `fix` was called. -/
structure Device where
  contents : Nat → Bytes
  blocks : Nat → Block
  next : Nat
  clock : Nat

/-- The kind of device: whether `fix` makes a copy, and which of its calls fail. -/
structure Disk (ε : Type) where
  copies : Bool
  fails : Nat → Nat → Option ε

structure World (σ : Type) where
  state : σ
  device : Device

namespace Device

def new (contents : Nat → Bytes) : Device :=
  ⟨contents, fun _ => ⟨0, false, false, fun _ => 0⟩, 0, 0⟩

def setBlock (d : Device) (block : Nat) (b : Block) : Device :=
  { d with blocks := Function.update d.blocks block b }

def setContents (d : Device) (number : Nat) (bytes : Bytes) : Device :=
  { d with contents := Function.update d.contents number bytes }

def tick (d : Device) : Device := { d with clock := d.clock + 1 }

def hold (d : Device) (number : Nat) : Device :=
  { d.setBlock d.next ⟨number, true, false, d.contents number⟩ with next := d.next + 1 }

def load {ε : Type} (disk : Disk ε) (d : Device) (block : Nat) : Option Bytes :=
  let b := d.blocks block
  if b.present then some (if disk.copies then b.copy else d.contents b.number) else none

/-- A copy is written back if it is dirty. -/
def sync {ε : Type} (disk : Disk ε) (d : Device) (block : Nat) : Device :=
  let b := d.blocks block
  if disk.copies ∧ b.dirty then (d.setContents b.number b.copy).setBlock block { b with dirty := false }
  else d

def exec {ε : Type} (disk : Disk ε) (d : Device) (block : Nat) : Command → Device
  | .store bytes =>
    let b := d.blocks block
    if disk.copies then d.setBlock block { b with copy := bytes } else d.setContents b.number bytes
  | .markDirty => d.setBlock block { d.blocks block with dirty := true }
  | .clearDirty => d.setBlock block { d.blocks block with dirty := false }
  | .sync => d.sync disk block
  | .unfix =>
    let d := d.sync disk block
    d.setBlock block { d.blocks block with present := false }

end Device

namespace Prog

variable {σ ε φ α β γ : Type}

def bind : Prog σ ε φ α → (α → Prog σ ε φ β) → Prog σ ε φ β
  | .pure a, f => f a
  | .fault e, _ => .fault e
  | .get k, f => .get fun s => (k s).bind f
  | .set s k, f => .set s (k.bind f)
  | .fix number k, f => .fix number fun r => (k r).bind f
  | .load block k, f => .load block fun r => (k r).bind f
  | .command block c k, f => .command block c (k.bind f)

instance : Monad (Prog σ ε φ) where
  pure := .pure
  bind := .bind

def run (disk : Disk ε) : Prog σ ε φ α → World σ → Except φ (α × World σ)
  | .pure a, w => .ok (a, w)
  | .fault e, _ => .error e
  | .get k, w => (k w.state).run disk w
  | .set s k, w => k.run disk { w with state := s }
  | .fix number k, w =>
    match disk.fails w.device.clock number with
    | some e => (k (.error e)).run disk { w with device := w.device.tick }
    | none => (k (.ok w.device.next)).run disk { w with device := (w.device.hold number).tick }
  | .load block k, w => (k (w.device.load disk block)).run disk w
  | .command block c k, w => k.run disk { w with device := w.device.exec disk block c }

end Prog
end MPStuBS
