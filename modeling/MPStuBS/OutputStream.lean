import Mathlib.Init

/-! Formatted output: `object/outputstream.cc`. `put` stands for `Stringbuffer::put` of the
derived class, which may fail. -/
namespace MPStuBS

/-- An `OutputStream` on a device that takes characters. -/
structure OutputStream (σ : Type) where
  base : Nat
  device : σ

namespace OutputStream

variable {σ : Type} (put : UInt8 → σ → Option σ)

/-- The characters one after the other. -/
def puts (s : List UInt8) (device : σ) : Option σ := s.foldlM (fun device c => put c device) device

section Characters

def char (c : UInt8) (os : OutputStream σ) : Option (OutputStream σ) := do
  let device ← put c os.device
  some { os with device := device }

def string (s : List UInt8) (os : OutputStream σ) : Option (OutputStream σ) :=
  s.foldlM (fun os c => char put c os) os

end Characters

section Numbers

def hexChars : List UInt8 :=
  ['0', '1', '2', '3', '4', '5', '6', '7', '8', '9', 'a', 'b', 'c', 'd', 'e', 'f'].map Char.toUInt8

/-- The loop that fills the array `helper`, which has room for so many characters behind `size`.
It fails if an array is indexed out of its range. -/
def digits (base : BitVec 64) : Nat → BitVec 64 → Nat → (Nat → UInt8) → Option (Nat × (Nat → UInt8))
  | room, ival, size, helper =>
    if ival = 0 then some (size, helper)
    else
      match room with
      | 0 => none
      | room + 1 => do
        let c ← hexChars[(ival % base).toNat]?
        digits base room (ival / base) (size + 1) fun i => if i = size then c else helper i

/-- The loop that puts the digits from the last to the second. -/
def putDigits (helper : Nat → UInt8) : Nat → OutputStream σ → Option (OutputStream σ)
  | 0, os => some os
  | i + 1, os => do
    let os ← char put (helper (i + 1)) os
    putDigits helper i os

/-- The beginning of `helper`: the prefix of the base or the sign. -/
def putPrefix (ival : BitVec 64) (sign : Bool) (os : OutputStream σ) : Option (OutputStream σ) :=
  if os.base = 2 then string put (['0', 'b'].map Char.toUInt8) os
  else if os.base = 8 then string put (['0'].map Char.toUInt8) os
  else if os.base = 10 ∧ sign = true ∧ ival ≠ 0 then char put '-'.toUInt8 os
  else if os.base = 16 then string put (['0', 'x'].map Char.toUInt8) os
  else some os

/-- The rest of `helper`: the digits. -/
def putValue (ival : BitVec 64) (os : OutputStream σ) : Option (OutputStream σ) :=
  if ival = 0 then char put '0'.toUInt8 os
  else do
    let (size, helper) ← digits (BitVec.ofNat 64 os.base) 64 ival 0 fun _ => 0
    let os ← putDigits put helper (size - 1) os
    char put (helper 0) os

def helper (ival : BitVec 64) (sign : Bool) (os : OutputStream σ) : Option (OutputStream σ) := do
  let os ← putPrefix put ival sign os
  putValue put ival os

def longLong (ival : BitVec 64) (os : OutputStream σ) : Option (OutputStream σ) :=
  if ival = BitVec.intMin 64 then helper put (BitVec.intMin 64) true os
  else if ival.slt 0 then helper put (ival * -1) true os
  else helper put ival false os

def unsignedLongLong (ival : BitVec 64) (os : OutputStream σ) : Option (OutputStream σ) := helper put ival false os

def short (ival : BitVec 16) (os : OutputStream σ) : Option (OutputStream σ) := longLong put (ival.signExtend 64) os

def unsignedShort (ival : BitVec 16) (os : OutputStream σ) : Option (OutputStream σ) :=
  unsignedLongLong put (ival.setWidth 64) os

def int (ival : BitVec 32) (os : OutputStream σ) : Option (OutputStream σ) := longLong put (ival.signExtend 64) os

def unsignedInt (ival : BitVec 32) (os : OutputStream σ) : Option (OutputStream σ) :=
  unsignedLongLong put (ival.setWidth 64) os

def long (ival : BitVec 64) (os : OutputStream σ) : Option (OutputStream σ) := longLong put ival os

def unsignedLong (ival : BitVec 64) (os : OutputStream σ) : Option (OutputStream σ) := unsignedLongLong put ival os

end Numbers

end OutputStream
end MPStuBS
