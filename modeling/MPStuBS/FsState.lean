import MPStuBS.ByteMemory
import MPStuBS.ProgramLogic

/-! The state of the file system: `fs/inode.h`, `fs/file.h`, the superblock and inode of
`fs/minix/minix.h`, and the static members of the inode cache and the VFS. Inode objects
are named by the order of their allocation. -/
namespace MPStuBS

/-- The errors of `fs/errno.h` that the file system uses. -/
inductive Errno where
  | eperm | enoent | eio | ebadf | eagain | enomem | efault | ebusy | eexist | exdev | enodev
  | enotdir | eisdir | einval | emfile | enospc | enametoolong | enosys | enotempty | eloop | enobufs
  deriving DecidableEq, Repr

/-- What a call never returns from: undefined behaviour, a failed assertion, a loop. -/
inductive FsFault where
  | nullPointer | deletedInode | outOfBounds | assertion | endless
  deriving DecidableEq, Repr

namespace Mode

def ifmt : Nat := 0o170000
def iflnk : Nat := 0o120000
def ifreg : Nat := 0o100000
def ifdir : Nat := 0o040000

def isLnk (mode : Nat) : Bool := mode &&& ifmt == iflnk
def isReg (mode : Nat) : Bool := mode &&& ifmt == ifreg
def isDir (mode : Nat) : Bool := mode &&& ifmt == ifdir

end Mode

/-- The fields of `Minix_Super_Block` that are read after the mount. -/
structure SuperBlock where
  ninodes : Nat
  imapBlocks : Nat
  zmapBlocks : Nat
  firstdatazone : Nat
  nzones : Nat
  deriving DecidableEq, Repr

/-- `Inode` and `MinixInode`. -/
structure Inode where
  ino : Nat
  mode : Nat
  nlinks : Nat
  uid : Nat
  gid : Nat
  size : Int
  atime : Nat
  mtime : Nat
  ctime : Nat
  refcount : Nat
  dirty : Bool
  new : Bool
  data : Nat → Nat
  deleted : Bool

/-- The constructor, which does a `get`. -/
def Inode.fresh : Inode where
  ino := 0
  mode := 0
  nlinks := 0
  uid := 0
  gid := 0
  size := 0
  atime := 0
  mtime := 0
  ctime := 0
  refcount := 1
  dirty := false
  new := true
  data := fun _ => 0
  deleted := false

structure File where
  fd : Nat
  accmode : Nat
  inode : Nat
  pos : Int

/-- `FD_Table`: a bitmap of 64-bit words and the buckets of files. -/
structure FdTable where
  bitmap : Nat → Nat
  table : Nat → List File

/-- What a later step may depend on having happened; no function reads it. -/
inductive FsEvent where
  | loaded (ino : Nat) (marked : Bool)
  | lost (inode : Nat)
  | released (inode : Nat)
  deriving DecidableEq, Repr

structure Fs where
  mounted : Bool
  super : SuperBlock
  superBlock : Nat
  blocksizeBits : Nat
  imap : Nat → Nat
  zmap : Nat → Nat
  rootInode : Nat
  numInodeReferences : Nat
  icache : List Nat
  numInodes : Nat
  inodes : Nat → Inode
  allocated : Nat
  cwd : Option Nat
  fdTable : FdTable
  log : List FsEvent

namespace Fs

def blocksize (s : Fs) : Nat := 2 ^ s.blocksizeBits

/-- `bits_per_zone` of the bitmaps. -/
def bitsPerBlock (s : Fs) : Nat := 8 * s.blocksize

/-- The block numbers in an indirect block. -/
def indirCount (s : Fs) : Nat := 2 ^ (s.blocksizeBits - 2)

def inodesPerBlock (s : Fs) : Nat := s.blocksize / 64

def note (s : Fs) (event : FsEvent) : Fs := { s with log := s.log ++ [event] }

def setInode (s : Fs) (inode : Nat) (f : Inode → Inode) : Fs :=
  { s with inodes := Function.update s.inodes inode (f (s.inodes inode)) }

end Fs

abbrev FsM := Prog Fs Errno FsFault

namespace FsM

def get : FsM Fs := Prog.get .pure

def set (s : Fs) : FsM Unit := Prog.set s (.pure ())

def modify (f : Fs → Fs) : FsM Unit := do
  let s ← get
  set (f s)

def fault {α : Type} (f : FsFault) : FsM α := Prog.fault f

def fix (number : Nat) : FsM (Except Errno Nat) := Prog.fix number .pure

def load (block : Nat) : FsM Bytes :=
  Prog.load block fun
    | none => .fault .nullPointer
    | some bytes => .pure bytes

def store (block : Nat) (bytes : Bytes) : FsM Unit := Prog.command block (.store bytes) (.pure ())

def markDirty (block : Nat) : FsM Unit := Prog.command block .markDirty (.pure ())

def unfix (block : Nat) : FsM Unit := Prog.command block .unfix (.pure ())

def sync (block : Nat) : FsM Unit := Prog.command block .sync (.pure ())

def forget (block : Nat) : FsM Unit := Prog.command block .clearDirty (.command block .unfix (.pure ()))

/-- Reading an inode object that was deleted is undefined. -/
def inode (inode : Nat) : FsM Inode := do
  let s ← get
  if (s.inodes inode).deleted then fault .deletedInode else pure (s.inodes inode)

def setInode (inode : Nat) (f : Inode → Inode) : FsM Unit := do
  let s ← get
  if (s.inodes inode).deleted then fault .deletedInode else set (s.setInode inode f)

def note (event : FsEvent) : FsM Unit := modify fun s => s.note event

end FsM

/-- Conversion of a signed value to `unsigned long`. -/
def u64 (x : Int) : Nat := (x % 18446744073709551616).toNat

namespace Inode

open FsM

def setDirty (i : Inode) : Inode := { i with dirty := true }

/-- `nlinks++` and `nlinks--` of an `unsigned int`. -/
def incNlinks (i : Inode) : Inode := { i with nlinks := (i.nlinks + 1) % 4294967296 }

def decNlinks (i : Inode) : Inode := { i with nlinks := (i.nlinks + 4294967295) % 4294967296 }

def get (inode : Nat) : FsM Unit := do
  modify fun s => { s with numInodeReferences := s.numInodeReferences + 1 }
  setInode inode fun i => { i with refcount := i.refcount + 1 }

def put (inode : Nat) : FsM Unit := do
  let i ← FsM.inode inode
  if i.refcount ≠ 0 then do
    modify fun s => { s with numInodeReferences := s.numInodeReferences - 1 }
    setInode inode fun i => { i with refcount := i.refcount - 1 }
  else pure ()

end Inode

/-- `Minix::allocate_inode`, for which there is memory: without it, the callers answer `ENOMEM`. -/
def allocateInode : FsM Nat := do
  let s ← FsM.get
  FsM.set { s with
    inodes := Function.update s.inodes s.allocated .fresh
    allocated := s.allocated + 1
    numInodeReferences := s.numInodeReferences + 1 }
  pure s.allocated

end MPStuBS
