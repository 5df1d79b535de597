import MPStuBS.FsState

/-! Allocation of zones and inodes: `fs/minix/bitmap.cc`, with `Inode_Cache::insert_inode`
of `fs/inode_cache.cc`. -/
namespace MPStuBS.Minix

open FsM

def newBlockFrom : Nat → Nat → FsM Nat
  | 0, _ => pure 0
  | n + 1, i => do
    let s ← get
    let bitmap ← load (s.zmap i)
    let j := bitmap.findFirstZeroBit s.bitsPerBlock
    if j < s.bitsPerBlock then do
      store (s.zmap i) (bitmap.setBit j)
      markDirty (s.zmap i)
      let j := j + i * s.bitsPerBlock + s.super.firstdatazone - 1
      if j < s.super.firstdatazone ∨ s.super.nzones ≤ j then pure 0 else pure j
    else newBlockFrom n (i + 1)

def newBlock : FsM Nat := do
  let s ← get
  newBlockFrom s.super.zmapBlocks 0

def freeBlock (block : Nat) : FsM Unit := do
  let s ← get
  if block < s.super.firstdatazone ∨ s.super.nzones ≤ block then pure ()
  else do
    let zone := block - s.super.firstdatazone + 1
    let bit := zone % s.bitsPerBlock
    let zone := zone / s.bitsPerBlock
    if s.super.zmapBlocks ≤ zone then pure ()
    else do
      let bitmap ← load (s.zmap zone)
      store (s.zmap zone) (bitmap.clearBit bit)
      markDirty (s.zmap zone)

/-- The block of the inode table and the position of the inode in it. -/
def rawInode (ino : Nat) : FsM (Except Errno (Nat × Nat)) := do
  let s ← get
  if ino = 0 ∨ s.super.ninodes < ino then pure (.error .einval)
  else do
    let blockno := 2 + s.super.imapBlocks + s.super.zmapBlocks + (ino - 1) / s.inodesPerBlock
    match ← fix blockno with
    | .error e => pure (.error e)
    | .ok block => pure (.ok (block, 64 * ((ino - 1) % s.inodesPerBlock)))

/-- The first zero bit of the inode bitmap, as block and bit. -/
def findFreeInode : Nat → Nat → FsM (Option (Nat × Nat))
  | 0, _ => pure none
  | n + 1, i => do
    let s ← get
    let bitmap ← load (s.imap i)
    let j := bitmap.findFirstZeroBit s.bitsPerBlock
    if j < s.bitsPerBlock then pure (some (i, j)) else findFreeInode n (i + 1)

end Minix

namespace InodeCache

open FsM

/-- Whether one of the inodes has the number. -/
def contains (ino : Nat) : List Nat → FsM Bool
  | [] => pure false
  | cur :: rest => do
    let i ← inode cur
    if i.ino = ino then pure true else contains ino rest

/-- An inode whose number is in the cache already is not inserted. -/
def insertInode (new : Nat) : FsM Unit := do
  let s ← get
  let i ← inode new
  if ← contains i.ino s.icache then pure ()
  else modify fun s => { s with icache := s.icache ++ [new], numInodes := s.numInodes + 1 }

end InodeCache

namespace Minix

open FsM

def newInode (mode : Nat) : FsM (Except Errno Nat) := do
  let s ← get
  match ← findFreeInode s.super.imapBlocks 0 with
  | none => pure (.error .enospc)
  | some (i, bit) => do
    let bitmap ← load (s.imap i)
    if bitmap.bit bit then pure (.error .enospc)
    else do
      store (s.imap i) (bitmap.setBit bit)
      let j := bit + i * s.bitsPerBlock
      if j = 0 ∨ s.super.ninodes < j then pure (.error .enospc)
      else do
        let new ← allocateInode
        markDirty (s.imap i)
        setInode new fun i => { i with ino := j, mode := mode, data := fun _ => 0 }
        setInode new .setDirty
        setInode new fun i => { i with new := false }
        InodeCache.insertInode new
        pure (.ok new)

/-- The fields `nlinks` and `mode` on the disk become zero. -/
def clearDiskInode (ino : Nat) : FsM Unit := do
  match ← rawInode ino with
  | .error _ => pure ()
  | .ok (block, raw) => do
    let bytes ← load block
    store block ((bytes.setU16 (raw + 2) 0).setU16 raw 0)
    markDirty block
    unfix block

def freeInode (inode : Nat) : FsM Unit := do
  let s ← get
  let i ← FsM.inode inode
  if i.ino < 1 ∨ s.super.ninodes < i.ino then pure ()
  else do
    let bit := i.ino % s.bitsPerBlock
    let ino := i.ino / s.bitsPerBlock
    if s.super.imapBlocks ≤ ino then pure ()
    else do
      clearDiskInode i.ino
      let bitmap ← load (s.imap ino)
      store (s.imap ino) (bitmap.clearBit bit)
      markDirty (s.imap ino)

end MPStuBS.Minix
