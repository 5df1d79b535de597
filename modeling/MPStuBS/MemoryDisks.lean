import MPStuBS.Vfs
import MPStuBS.DeviceKinds

/-! Block devices whose blocks lie in memory: `fs/blockdevice.h`, `fs/ramdisk.cc` and the
`Bufferdisk` of `fs/tool/fs_image.cc`. Their check lets one block too many pass. -/
namespace MPStuBS

/-- A `BlockDevice` whose blocksize is set. -/
structure BlockDevice where
  blocksize : Nat
  blocksizeBits : Nat
  power : blocksize = 2 ^ blocksizeBits
  small : blocksizeBits < 32

namespace BlockDevice

/-- The address of a block in a buffer. -/
def fixIn (dev : BlockDevice) (buf : Nat) (size blockNumber : BitVec 64) : Except Errno Nat :=
  if (blockNumber <<< dev.blocksizeBits) >>> dev.blocksizeBits ≠ blockNumber ∨
      size < blockNumber <<< dev.blocksizeBits then .error .enospc
  else .ok (buf + (blockNumber * BitVec.ofNat 64 dev.blocksize).toNat)

/-- The whole block lies in a buffer of this size. -/
def Within (dev : BlockDevice) (size blockNumber : BitVec 64) : Prop :=
  (blockNumber.toNat + 1) * dev.blocksize ≤ size.toNat

/-- What `fix` answers is the address of a block that lies in the buffer, or an error for any other. -/
def FixesWithin (dev : BlockDevice) (buf : Nat) (size blockNumber : BitVec 64) (fixed : Except Errno Nat) : Prop :=
  match fixed with
  | .ok data => data = buf + blockNumber.toNat * dev.blocksize ∧ dev.Within size blockNumber
  | .error e => e = .enospc ∧ ¬ dev.Within size blockNumber

variable (dev : BlockDevice) (buf : Nat) (size blockNumber : BitVec 64)

theorem blocksize_pos : 0 < dev.blocksize := by
  rw [dev.power]
  exact Nat.two_pow_pos _

theorem shift_back_ne_iff : (blockNumber <<< dev.blocksizeBits) >>> dev.blocksizeBits ≠ blockNumber ↔
    2 ^ 64 ≤ blockNumber.toNat * dev.blocksize := by
  have inside := blockNumber.isLt
  have whole : 2 ^ (64 - dev.blocksizeBits) * dev.blocksize = 2 ^ 64 := by
    rw [dev.power, ← Nat.pow_add, Nat.sub_add_cancel (by have := dev.small; omega)]
  rw [Ne, ← BitVec.toNat_inj, BitVec.toNat_ushiftRight, BitVec.toNat_shiftLeft, Nat.shiftLeft_eq,
    Nat.shiftRight_eq_div_pow, ← dev.power]
  constructor
  · intro lost
    by_contra less
    rw [Nat.mod_eq_of_lt (Nat.not_le.mp less), Nat.mul_div_cancel _ dev.blocksize_pos] at lost
    exact lost rfl
  · intro wraps back
    have high : 2 ^ (64 - dev.blocksizeBits) ≤ blockNumber.toNat :=
      Nat.le_of_mul_le_mul_right (whole ▸ wraps) dev.blocksize_pos
    have low : blockNumber.toNat * dev.blocksize % 2 ^ 64 / dev.blocksize < 2 ^ (64 - dev.blocksizeBits) := by
      rw [Nat.div_lt_iff_lt_mul dev.blocksize_pos, whole]
      exact Nat.mod_lt _ (by decide)
    omega

/-- `fix` without the wrap-around of 64 bits. -/
theorem fixIn_eq : dev.fixIn buf size blockNumber =
    if size.toNat < blockNumber.toNat * dev.blocksize then .error .enospc
    else .ok (buf + blockNumber.toNat * dev.blocksize) := by
  have room := size.isLt
  have place : (blockNumber <<< dev.blocksizeBits).toNat = blockNumber.toNat * dev.blocksize % 2 ^ 64 := by
    rw [BitVec.toNat_shiftLeft, Nat.shiftLeft_eq, ← dev.power]
  have offset : (blockNumber * BitVec.ofNat 64 dev.blocksize).toNat = blockNumber.toNat * dev.blocksize % 2 ^ 64 := by
    rw [BitVec.toNat_mul, BitVec.toNat_ofNat, Nat.mul_mod_mod]
  unfold fixIn
  simp only [shift_back_ne_iff, BitVec.lt_def, place, offset]
  by_cases wraps : 2 ^ 64 ≤ blockNumber.toNat * dev.blocksize
  · rw [if_pos (.inl wraps), if_pos (by omega)]
  · rw [Nat.mod_eq_of_lt (Nat.not_le.mp wraps)]
    simp only [wraps, false_or]

theorem within_iff : dev.Within size blockNumber ↔ blockNumber.toNat < size.toNat / dev.blocksize := by
  unfold Within
  rw [← Nat.le_div_iff_mul_le dev.blocksize_pos, Nat.succ_le_iff]

theorem beyond_iff : size.toNat < blockNumber.toNat * dev.blocksize ↔ size.toNat / dev.blocksize < blockNumber.toNat :=
  (Nat.div_lt_iff_lt_mul dev.blocksize_pos).symm

theorem fixesWithin_iff : dev.FixesWithin buf size blockNumber (dev.fixIn buf size blockNumber) ↔
    blockNumber.toNat ≠ size.toNat / dev.blocksize := by
  unfold FixesWithin
  rw [fixIn_eq, within_iff]
  by_cases beyond : size.toNat < blockNumber.toNat * dev.blocksize
  · rw [if_pos beyond]
    have far := (dev.beyond_iff size blockNumber).mp beyond
    simp only [true_and]
    omega
  · rw [if_neg beyond]
    have near := mt (dev.beyond_iff size blockNumber).mpr beyond
    simp only [true_and]
    omega

end BlockDevice

structure Ramdisk extends BlockDevice where
  buf : Nat
  size : BitVec 64

def Ramdisk.fix (d : Ramdisk) (blockNumber : BitVec 64) : Except Errno Nat :=
  d.fixIn d.buf d.size blockNumber

/-- Its size is an `unsigned`. -/
structure Bufferdisk extends BlockDevice where
  buf : Nat
  size : BitVec 32

def Bufferdisk.fix (d : Bufferdisk) (blockNumber : BitVec 64) : Except Errno Nat :=
  d.fixIn d.buf (d.size.setWidth 64) blockNumber

/-- The device as the file system sees it. The `fix` of each call may be another, as a mount sets
the blocksize. -/
def lending (fix : Nat → BitVec 64 → Except Errno Nat) : Disk Errno where
  copies := false
  fails clock number :=
    match fix clock (BitVec.ofNat 64 number) with
    | .ok _ => none
    | .error e => some e

/-- Of the blocks that are handed out only the one behind the last whole block is not in the buffer. -/
theorem BlockDevice.within_of_granted {fix : Nat → BitVec 64 → Except Errno Nat} {dev : BlockDevice} {buf : Nat}
    {size : BitVec 64} {clock number : Nat} (same : fix clock = dev.fixIn buf size)
    (granted : (lending fix).fails clock number = none) :
    dev.Within size (BitVec.ofNat 64 number) ↔ (BitVec.ofNat 64 number).toNat ≠ size.toNat / dev.blocksize := by
  have inside : ¬ size.toNat < (BitVec.ofNat 64 number).toNat * dev.blocksize := by
    intro beyond
    simp only [lending, same, fixIn_eq, if_pos beyond] at granted
    cases granted
  rw [beyond_iff] at inside
  rw [within_iff]
  omega

def ramdisk64 : Ramdisk := ⟨⟨1024, 10, rfl, by decide⟩, 0, 65536⟩

end MPStuBS
