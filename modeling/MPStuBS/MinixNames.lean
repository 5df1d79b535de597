import MPStuBS.MinixDirectory

/-! The namespace operations of `fs/minix/minix.cc`, with `mount`, `umount` and `sync`. -/
namespace MPStuBS.Minix

open FsM

def link (dir : Nat) (name : List UInt8) (inode : Nat) : FsM (Except Errno Unit) := do
  if 60 < name.length then pure (.error .enametoolong)
  else do
    match ← addLink dir inode name with
    | .error e => pure (.error e)
    | .ok () => do
      setInode inode .incNlinks
      setInode inode .setDirty
      pure (.ok ())

def create (dir : Nat) (name : List UInt8) (mode : Nat) : FsM (Except Errno Nat) := do
  if 60 < name.length then pure (.error .enametoolong)
  else do
    match ← newInode mode with
    | .error e => pure (.error e)
    | .ok inode => do
      match ← addLink dir inode name with
      | .error e => do
        abandon inode
        pure (.error e)
      | .ok () => do
        setInode inode fun i => { i with nlinks := 1 }
        setInode inode .setDirty
        pure (.ok inode)

/-- `write` until all bytes have been written. -/
def writeAll (inode : Nat) (buf : List UInt8) : Nat → Nat → FsM (Except Errno Unit)
  | 0, _ => fault .endless
  | fuel + 1, written => do
    match ← Filesystem.write inode (buf.drop written) written with
    | .error e => pure (.error e)
    | .ok n =>
      if written + n < buf.length then writeAll inode buf fuel (written + n) else pure (.ok ())

/-- The target is stored with its null byte. -/
def symlink (dir : Nat) (name symname : List UInt8) : FsM (Except Errno Unit) := do
  if 60 < name.length then pure (.error .enametoolong)
  else do
    let s ← get
    let len := symname.length + 1
    if s.blocksize < len ∨ Filesystem.maxSymlinkLen < len then pure (.error .enametoolong)
    else do
      match ← newInode (Mode.iflnk ||| 0o777) with
      | .error e => pure (.error e)
      | .ok inode => do
        setInode inode fun i => { i with nlinks := 0 }
        match ← writeAll inode (symname ++ [0]) (len + 1) 0 with
        | .error e => do
          setInode inode .setDirty
          Inode.put inode
          pure (.error e)
        | .ok () => do
          let result ← addLink dir inode name
          if result = .ok () then setInode inode fun i => { i with nlinks := 1, size := len }
          else pure ()
          setInode inode .setDirty
          Inode.put inode
          pure result

def unlink (dir : Nat) (name : List UInt8) (inode : Nat) : FsM (Except Errno Unit) := do
  match ← deleteEntry dir name with
  | .error e => pure (.error e)
  | .ok () => do
    setInode inode .decNlinks
    setInode inode .setDirty
    pure (.ok ())

/-- A `put` of `rename`, which has not taken the reference. -/
def release (inode : Nat) : FsM Unit := do
  note (.released inode)
  Inode.put inode

/-- `strcmp(dirent->name, "..") == 0` for the second entry. -/
def isDotDot (bytes : Bytes) : Bool := bytes 68 == 46 && bytes 69 == 46 && bytes 70 == 0

/-- The end of `rename`: the old entry goes, and `..` of a directory is redirected. -/
def renameFinish (oldDir oldInode newDir : Nat) (oldBlock oldK : Nat) (oldIsDir : Bool) :
    FsM (Except Errno Unit) := do
  release oldInode
  let bytes ← load oldBlock
  store oldBlock (bytes.setU32 (64 * oldK) 0)
  markDirty oldBlock
  unfix oldBlock
  if oldIsDir then do
    match ← getBlock oldInode 0 false with
    | .error e => pure (.error e)
    | .ok blockno => do
      match ← fix blockno with
      | .error e => pure (.error e)
      | .ok block => do
        let bytes ← load block
        let i ← inode newDir
        if !isDotDot bytes then fault .assertion
        else do
          store block (bytes.setU32 64 i.ino)
          markDirty block
          unfix block
          setInode oldDir .decNlinks
          setInode oldDir .setDirty
          pure (.ok ())
  else pure (.ok ())

/-- Leaving `rename` early releases the old inode and its block. -/
def renameFail (oldInode oldBlock : Nat) (e : Errno) : FsM (Except Errno Unit) := do
  release oldInode
  unfix oldBlock
  pure (.error e)

/-- What keeps `rename` from replacing the new inode. -/
def checkReplace (newInode : Nat) (oldIsDir newIsDir : Bool) : FsM (Except Errno Unit) :=
  if oldIsDir then
    if !newIsDir then pure (.error .enotdir) else checkDirIsEmpty newInode
  else if newIsDir then pure (.error .eisdir)
  else pure (.ok ())

def rename (oldDir oldInode : Nat) (oldName : List UInt8) (newDir : Nat) (newInode : Option Nat)
    (newName : List UInt8) : FsM (Except Errno Unit) := do
  if 60 < oldName.length ∨ 60 < newName.length then pure (.error .enametoolong)
  else do
    match ← findDirent oldDir oldName with
    | .error e => pure (.error e)
    | .ok none => pure (.error .enoent)
    | .ok (some (oldBlock, oldK)) => do
      let i ← inode oldInode
      let oldIsDir := Mode.isDir i.mode
      match ← findDirent newDir newName with
      | .error e => renameFail oldInode oldBlock e
      | .ok (some (newBlock, newK)) => do
        match newInode with
        | none => fault .assertion
        | some newInode => do
          let n ← inode newInode
          let newIsDir := Mode.isDir n.mode
          match ← checkReplace newInode oldIsDir newIsDir with
          | .error e => do
            release newInode
            unfix newBlock
            renameFail oldInode oldBlock e
          | .ok () => do
            let i ← inode oldInode
            let bytes ← load newBlock
            store newBlock (bytes.setU32 (64 * newK) i.ino)
            markDirty newBlock
            unfix newBlock
            if newIsDir then setInode newInode .decNlinks else pure ()
            setInode newInode .decNlinks
            setInode newInode .setDirty
            release newInode
            renameFinish oldDir oldInode newDir oldBlock oldK oldIsDir
      | .ok none => do
        match newInode with
        | some _ => fault .assertion
        | none => do
          match ← addLink newDir oldInode newName with
          | .error e => renameFail oldInode oldBlock e
          | .ok () => do
            if oldIsDir then setInode newDir .incNlinks else pure ()
            renameFinish oldDir oldInode newDir oldBlock oldK oldIsDir

/-- Fixes `n` bitmap blocks from `blockno` on: the error, if one fails, how many were
fixed, and their handles. -/
def fixMaps (blockno : Nat) : Nat → Nat → (Nat → Nat) → FsM (Option Errno × Nat × (Nat → Nat))
  | 0, i, map => pure (none, i, map)
  | n + 1, i, map => do
    match ← fix (blockno + i) with
    | .error e => pure (some e, i, map)
    | .ok block => fixMaps blockno n (i + 1) (Function.update map i block)

def unfixMaps (map : Nat → Nat) : Nat → Nat → FsM Unit
  | 0, _ => pure ()
  | n + 1, i => do
    unfix (map i)
    unfixMaps map n (i + 1)

def syncMaps (map : Nat → Nat) : Nat → Nat → FsM Unit
  | 0, _ => pure ()
  | n + 1, i => do
    FsM.sync (map i)
    syncMaps map n (i + 1)

/-- The blocks of both bitmaps are released, and then that of the superblock. -/
def umount : FsM Unit := do
  let s ← get
  unfixMaps s.imap s.super.imapBlocks 0
  unfixMaps s.zmap s.super.zmapBlocks 0
  unfix s.superBlock

def sync : FsM Unit := do
  let s ← get
  syncMaps s.imap s.super.imapBlocks 0
  syncMaps s.zmap s.super.zmapBlocks 0

def rootIno : Nat := 1

def minix3SuperMagic : Nat := 0x4d5a

/-- The superblock begins at byte 1024 of the disk, in this block if blocks have `2 ^ bits` bytes. -/
def superBlockNo (bits : Nat) : Nat := 1024 / 2 ^ bits

def superBytes (bits : Nat) (bytes : Bytes) : Bytes := fun i => bytes (1024 % 2 ^ bits + i)

/-- The block sizes that `set_blocksize` accepts. -/
def blocksizeBits (blocksize : Nat) : Option Nat :=
  if blocksize = 512 then some 9
  else if blocksize = 1024 then some 10
  else if blocksize = 2048 then some 11
  else if blocksize = 4096 then some 12
  else none

def readSuper (bytes : Bytes) : SuperBlock :=
  ⟨bytes.u32 0, bytes.u16 6, bytes.u16 8, bytes.u16 10, bytes.u32 20⟩

/-- Which allocations of a mount succeed: the file system object, the table of bitmap blocks, and
the root inode. -/
structure Allocations where
  filesystem : Bool
  map : Bool
  root : Bool
  deriving DecidableEq, Repr

def Allocations.all : Allocations := ⟨true, true, true⟩

/-- No inode of a new file system is in the cache, so one is allocated. -/
def igetRoot (memory : Bool) : FsM (Except Errno Nat) :=
  if memory then iget rootIno
  else do
    InodeCache.maybeEvictInodes
    pure (.error .enomem)

/-- `super` points to the memory of its block. With blocks of 512 bytes this is the first block of
the inode bitmap, of which the first bit is one of `ninodes`. -/
def rereadSuper (bits superBlock : Nat) : FsM Unit := do
  let bytes ← load superBlock
  modify fun s => { s with super := { s.super with ninodes := (superBytes bits bytes).u32 0 } }

/-- `mount` after both bitmaps were fixed. -/
def mountRoot (bits superBlock : Nat) (memory : Bool) (imap zmap : Nat → Nat) :
    FsM (Except Errno Unit) := do
  let bitmap ← load (imap 0)
  store (imap 0) (bitmap.setBit 0)
  let bitmap ← load (zmap 0)
  store (zmap 0) (bitmap.setBit 0)
  rereadSuper bits superBlock
  match ← igetRoot memory with
  | .error e => do
    umount
    pure (.error e)
  | .ok root => do
    let i ← inode root
    if Mode.isDir i.mode then do
      modify fun s => { s with rootInode := root }
      pure (.ok ())
    else do
      Inode.put root
      umount
      pure (.error .einval)

/-- `mount` for a superblock whose blocksize the device supports. -/
def mountMaps (bits superBlock : Nat) (memory : Allocations) (super : SuperBlock) :
    FsM (Except Errno Unit) := do
  modify fun s => { s with
    super := super
    superBlock := superBlock
    blocksizeBits := bits
    numInodeReferences := 0 }
  if super.imapBlocks = 0 ∨ super.zmapBlocks = 0 then do
    unfix superBlock
    pure (.error .einval)
  else if !memory.map then do
    unfix superBlock
    pure (.error .enomem)
  else do
    let (failed, n, imap) ← fixMaps 2 super.imapBlocks 0 fun _ => 0
    match failed with
    | some e => do
      unfixMaps imap n 0
      unfix superBlock
      pure (.error e)
    | none => do
      let (failed, n, zmap) ← fixMaps (2 + super.imapBlocks) super.zmapBlocks 0 fun _ => 0
      modify fun s => { s with imap := imap, zmap := zmap }
      match failed with
      | some e => do
        unfixMaps imap super.imapBlocks 0
        unfixMaps zmap n 0
        unfix superBlock
        pure (.error e)
      | none => mountRoot bits superBlock memory.root imap zmap

/-- The blocks of the device are numbered in the size that its superblock states, `2 ^ bits` bytes,
if that size is supported. -/
def mount (bits : Nat) (memory : Allocations) : FsM (Except Errno Unit) := do
  match ← fix (superBlockNo bits) with
  | .error e => pure (.error e)
  | .ok superBlock => do
    let bytes ← load superBlock
    let bytes := superBytes bits bytes
    if bytes.u16 24 ≠ minix3SuperMagic ∨ blocksizeBits (bytes.u16 28) ≠ some bits then do
      unfix superBlock
      pure (.error .einval)
    else mountMaps bits superBlock memory (readSuper bytes)

end MPStuBS.Minix
