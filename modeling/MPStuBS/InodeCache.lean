import MPStuBS.FileData

/-! The life of inode objects: the destructor of `MinixInode`, the cache of
`fs/inode_cache.cc`, and `iget` and `write_inode` of `fs/minix/minix.cc`. -/
namespace MPStuBS

namespace Minix

open FsM

/-- The record that `write_inode` stores at the position, except for the zones. -/
def writeFields (bytes : Bytes) (raw : Nat) (i : Inode) : Bytes :=
  ((((((((bytes.setU16 raw i.mode).setU16 (raw + 2) i.nlinks).setU16 (raw + 4) i.uid).setU16
    (raw + 6) i.gid).setU32 (raw + 8) (u64 i.size)).setU32 (raw + 12) i.atime).setU32
    (raw + 16) i.mtime).setU32 (raw + 20) i.ctime)

def writeZones (raw : Nat) (data : Nat → Nat) : Nat → Bytes → Bytes
  | 0, bytes => bytes
  | n + 1, bytes => (writeZones raw data n bytes).setU32 (raw + 24 + 4 * n) (data n)

def writeInode (inode : Nat) : FsM (Except Errno Unit) := do
  let i ← FsM.inode inode
  match ← rawInode i.ino with
  | .error e => pure (.error e)
  | .ok (block, raw) => do
    let bytes ← load block
    store block (writeZones raw i.data 10 (writeFields bytes raw i))
    markDirty block
    unfix block
    pure (.ok ())

/-- The fields that `iget` reads from the record at the position. -/
def readInode (bytes : Bytes) (raw ino : Nat) (i : Inode) : Inode :=
  { i with
    ino := ino
    mode := bytes.u16 raw
    nlinks := bytes.u16 (raw + 2)
    uid := bytes.u16 (raw + 4)
    gid := bytes.u16 (raw + 6) % 256
    size := bytes.u32 (raw + 8)
    atime := bytes.u32 (raw + 12)
    mtime := bytes.u32 (raw + 16)
    ctime := bytes.u32 (raw + 20)
    data := fun n => if n < 10 then bytes.u32 (raw + 24 + 4 * n) else i.data n }

end Minix

namespace Inode

open FsM

def writeToDisk (inode : Nat) : FsM (Except Errno Unit) := do
  let i ← FsM.inode inode
  if i.dirty then do
    match ← Minix.writeInode inode with
    | .error e => pure (.error e)
    | .ok () => do
      setInode inode fun i => { i with dirty := false }
      pure (.ok ())
  else pure (.ok ())

/-- `delete inode`. -/
def destroy (inode : Nat) : FsM Unit := do
  let i ← FsM.inode inode
  if i.nlinks = 0 then do
    Minix.truncate inode 0
    Minix.freeInode inode
  else if !i.new && i.dirty then do
    let _ ← writeToDisk inode
    pure ()
  else pure ()
  setInode inode fun i => { i with deleted := true }

end Inode

namespace InodeCache

open FsM

def softLimit : Nat := 64

def remove (inode : Nat) : FsM Unit :=
  modify fun s => { s with icache := s.icache.erase inode }

def decrement : FsM Unit := modify fun s => { s with numInodes := s.numInodes - 1 }

/-- The loop of `maybe_evict_inodes` over the list as it was. -/
def evictLoop : List Nat → FsM Unit
  | [] => pure ()
  | cur :: rest => do
    let s ← get
    if s.numInodes ≤ softLimit then pure ()
    else do
      let i ← inode cur
      if i.refcount = 0 then do
        remove cur
        Inode.destroy cur
        decrement
        evictLoop rest
      else evictLoop rest

def maybeEvictInodes : FsM Unit := do
  let s ← get
  evictLoop s.icache

/-- The first inode with the number. -/
def find (ino : Nat) : List Nat → FsM (Option Nat)
  | [] => pure none
  | cur :: rest => do
    let i ← inode cur
    if i.ino = ino then pure (some cur) else find ino rest

/-- A new object is inserted before it has its number. -/
def getInode (ino : Nat) : FsM Nat := do
  maybeEvictInodes
  let s ← get
  match ← find ino s.icache with
  | some cur => do
    Inode.get cur
    pure cur
  | none => do
    let new ← allocateInode
    insertInode new
    pure new

def syncLoop : List Nat → FsM Unit
  | [] => pure ()
  | cur :: rest => do
    let i ← inode cur
    if i.refcount = 0 ∧ i.nlinks = 0 then do
      remove cur
      Inode.destroy cur
      decrement
    else if i.dirty then do
      let _ ← Inode.writeToDisk cur
      pure ()
    else pure ()
    syncLoop rest

def syncFsInodes : FsM Unit := do
  let s ← get
  syncLoop s.icache

def removeLoop : List Nat → FsM Unit
  | [] => pure ()
  | cur :: rest => do
    remove cur
    let i ← inode cur
    if i.refcount = 0 then Inode.destroy cur else pure ()
    decrement
    removeLoop rest

def removeFsInodes : FsM Unit := do
  let s ← get
  removeLoop s.icache

end InodeCache

namespace Minix

open FsM

/-- The bit of the inode in the bitmap; it is only noted. -/
def inodeMarked (ino : Nat) : FsM Bool := do
  let s ← get
  Prog.load (s.imap (ino / s.bitsPerBlock)) fun
    | none => .pure false
    | some bitmap => .pure (bitmap.bit (ino % s.bitsPerBlock))

/-- A new inode that cannot be read is deleted but stays in the cache. -/
def iget (ino : Nat) : FsM (Except Errno Nat) := do
  let inode ← InodeCache.getInode ino
  let i ← FsM.inode inode
  if !i.new then pure (.ok inode)
  else do
    match ← rawInode ino with
    | .error e => do
      Inode.destroy inode
      note (.lost inode)
      pure (.error e)
    | .ok (block, raw) => do
      let bytes ← load block
      setInode inode (readInode bytes raw ino)
      unfix block
      setInode inode fun i => { i with new := false }
      note (.loaded ino (← inodeMarked ino))
      pure (.ok inode)

end Minix
end MPStuBS
