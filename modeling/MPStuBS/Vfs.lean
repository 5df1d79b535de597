import MPStuBS.PathWalk

/-! The calls of the virtual file system: `fs/vfs.cc`. Pathnames and buffers are valid
memory, so that copying from and to the user never fails. -/
namespace MPStuBS

namespace VFS

open FsM

/-- `struct stat`. -/
structure Stat where
  ino : Nat
  mode : Nat
  nlink : Nat
  uid : Nat
  gid : Nat
  size : Int
  blksize : Nat
  blocks : Int
  atime : Nat
  mtime : Nat
  ctime : Nat
  deriving DecidableEq, Repr

/-- What a call returns when it does not fail. -/
inductive Value where
  | done
  | number (n : Int)
  | bytes (bytes : List UInt8)
  | stat (statbuf : Stat)
  | dirents (size : Nat) (records : List Dirent)
  deriving DecidableEq, Repr

def mount (bits : Nat) (memory : Minix.Allocations) : FsM (Except Errno Unit) := do
  let s ← get
  if s.mounted then pure (.error .enosys)
  else if !memory.filesystem then pure (.error .enomem)
  else do
    match ← Minix.mount bits memory with
    | .error e => pure (.error e)
    | .ok () => do
      modify fun s => { s with mounted := true }
      pure (.ok ())

def syncFs : FsM Unit := do
  InodeCache.syncFsInodes
  Minix.sync

def umount : FsM (Except Errno Unit) := do
  let s ← get
  if !s.mounted then pure (.error .einval)
  else if 2 < s.numInodeReferences then pure (.error .ebusy)
  else do
    match s.cwd with
    | none => do
      if s.numInodeReferences ≠ 2 then syncFs else pure ()
      fault .nullPointer
    | some cwd => do
      syncFs
      Inode.put cwd
      modify fun s => { s with cwd := none }
      Inode.put s.rootInode
      InodeCache.removeFsInodes
      Minix.umount
      modify fun s => { s with mounted := false }
      pure (.ok ())

def sync : FsM Unit := do
  let s ← get
  if s.mounted then syncFs else pure ()

namespace Flags

def accmode : Nat := 3
def rdonly : Nat := 0
def wronly : Nat := 1
def rdwr : Nat := 2
def creat : Nat := 0o100
def excl : Nat := 0o200

end Flags

/-- The end of `open`: the file for the inode is put into the table. There is memory for the file: without it,
the inode is put back and the answer is `ENOMEM`. -/
def openFile (inode accmode : Nat) : FsM (Except Errno Nat) := do
  let s ← get
  match s.fdTable.insertFile ⟨0, accmode, inode, 0⟩ with
  | none => do
    Inode.put inode
    pure (.error .emfile)
  | some (fd, t) => do
    modify fun s => { s with fdTable := t }
    pure (.ok fd)

/-- What `open` checks of an inode that exists. -/
def checkOpen (inode flags accmode : Nat) (mustBeDir : Bool) : FsM (Option Errno) := do
  let i ← FsM.inode inode
  if flags &&& Flags.excl ≠ 0 then pure (some .eexist)
  else if mustBeDir && !Mode.isDir i.mode then pure (some .enoent)
  else if Mode.isDir i.mode ∧ (accmode = Flags.wronly ∨ accmode = Flags.rdwr) then pure (some .eisdir)
  else pure none

def «open» (pathname : PathName) (flags : Nat) : FsM (Except Errno Nat) := do
  let s ← get
  let accmode := flags &&& Flags.accmode
  if !s.mounted then pure (.error .enodev)
  else if flags &&& (Flags.accmode ||| Flags.creat ||| Flags.excl) ≠ flags then pure (.error .einval)
  else if flags &&& Flags.excl ≠ 0 ∧ flags &&& Flags.creat = 0 then pure (.error .einval)
  else do
    match ← pathwalkStep12 pathname with
    | .error e => pure (.error e)
    | .ok path => do
      let filename := path.pathname
      let parentDir := path.curDir
      let mustBeDir := hasSlash filename
      if mustBeDir ∧ flags &&& Flags.creat ≠ 0 then do
        Inode.put parentDir
        pure (.error .einval)
      else do
        Inode.get parentDir
        match ← pathwalkStep3 (resolveSymlink maxDepth) path true with
        | .ok inode => do
          Inode.put parentDir
          match ← checkOpen inode flags accmode mustBeDir with
          | some e => do
            Inode.put inode
            pure (.error e)
          | none => openFile inode accmode
        | .error e => do
          if e ≠ .enoent then do
            Inode.put parentDir
            pure (.error e)
          else if flags &&& Flags.creat = 0 then do
            Inode.put parentDir
            pure (.error .enoent)
          else do
            let created ← Minix.create parentDir filename (0o777 ||| Mode.ifreg)
            Inode.put parentDir
            match created with
            | .error e => pure (.error e)
            | .ok inode => openFile inode accmode

/-- A negative descriptor that is no multiple of the table size points before the table. -/
def close (fd : Int) : FsM (Except Errno Unit) := do
  let s ← get
  if fd < 0 then
    if fd.tmod FdTable.tableSize ≠ 0 then fault .outOfBounds else pure (.error .ebadf)
  else do
    match s.fdTable.removeFile fd.toNat with
    | none => pure (.error .ebadf)
    | some (file, t) => do
      modify fun s => { s with fdTable := t }
      Inode.put file.inode
      pure (.ok ())

/-- `SSIZE_MAX`. -/
def ssizeMax : Nat := 9223372036854775807

def read (fd : Int) (count : Nat) : FsM (Except Errno (List UInt8)) := do
  if count = 0 then pure (.ok [])
  else do
    match ← getFile fd with
    | none => pure (.error .ebadf)
    | some file => do
      if file.accmode &&& Flags.wronly ≠ 0 then pure (.error .ebadf)
      else do
        let i ← inode file.inode
        if !Mode.isReg i.mode then pure (.error .eisdir)
        else do
          match ← Filesystem.read file.inode (min count ssizeMax) file.pos with
          | .error e => pure (.error e)
          | .ok bytes => do
            setPos file (file.pos + bytes.length)
            pure (.ok bytes)

/-- `write` through an open file that may be written. -/
def writeFile (file : File) (buf : List UInt8) (originalSize : Int) : FsM (Except Errno Nat) := do
  match ← Filesystem.write file.inode buf file.pos with
  | .error e => do
    Minix.truncate file.inode originalSize
    pure (.error e)
  | .ok n => do
    let pos := file.pos + n
    setPos file pos
    let i ← inode file.inode
    if i.size < pos then do
      setInode file.inode fun i => { i with size := pos }
      setInode file.inode .setDirty
    else pure ()
    pure (.ok n)

/-- The access mode is compared with `O_RDONLY`, which has no bits. -/
def write (fd : Int) (buf : List UInt8) : FsM (Except Errno Nat) := do
  if buf = [] then pure (.ok 0)
  else do
    match ← getFile fd with
    | none => pure (.error .ebadf)
    | some file => do
      if file.accmode &&& Flags.rdonly ≠ 0 then pure (.error .ebadf)
      else do
        let i ← inode file.inode
        let buf := buf.take ssizeMax
        if !Mode.isReg i.mode then pure (.error .eisdir)
        else if i.size < file.pos then do
          match ← Filesystem.punchHole file.inode i.size file.pos with
          | .error e => do
            Minix.truncate file.inode i.size
            pure (.error e)
          | .ok () => writeFile file buf i.size
        else writeFile file buf i.size

inductive Whence where
  | set
  | cur
  | «end»
  | other
  deriving DecidableEq, Repr

def lseek (fd : Int) (offset : Int) (whence : Whence) : FsM (Except Errno Int) := do
  match ← getFile fd with
  | none => pure (.error .ebadf)
  | some file => do
    let i ← inode file.inode
    match whence with
    | .set => do
      setPos file offset
      pure (.ok offset)
    | .cur => do
      setPos file (offset + file.pos)
      pure (.ok (offset + file.pos))
    | .end => do
      setPos file (offset + i.size)
      pure (.ok (offset + i.size))
    | .other => pure (.error .einval)

def statInode (inode : Nat) : FsM Stat := do
  let s ← get
  let i ← FsM.inode inode
  pure ⟨i.ino, i.mode, i.nlinks, i.uid, i.gid, i.size, s.blocksize, (i.size + 511) / 512,
    i.atime, i.mtime, i.ctime⟩

/-- `stat` and `lstat`. -/
def statPath (pathname : PathName) (followFinalSymlink : Bool) : FsM (Except Errno Stat) := do
  match ← pathwalkStep123 pathname followFinalSymlink with
  | .error e => pure (.error e)
  | .ok inode => do
    let statbuf ← statInode inode
    Inode.put inode
    pure (.ok statbuf)

def stat (pathname : PathName) : FsM (Except Errno Stat) := statPath pathname true

def lstat (pathname : PathName) : FsM (Except Errno Stat) := statPath pathname false

def fstat (fd : Int) : FsM (Except Errno Stat) := do
  match ← getFile fd with
  | none => pure (.error .ebadf)
  | some file => do
    let statbuf ← statInode file.inode
    pure (.ok statbuf)

def getdents (fd : Int) (count : Int) : FsM (Except Errno (Nat × List Dirent)) := do
  if count < sizeofDirent + 2 then pure (.error .einval)
  else do
    match ← getFile fd with
    | none => pure (.error .ebadf)
    | some file => do
      let i ← inode file.inode
      if !Mode.isDir i.mode then pure (.error .enotdir)
      else if i.size ≤ file.pos then pure (.ok (0, []))
      else do
        match ← Minix.iterateDir file.inode ⟨file.pos, none, 0, count.toNat, []⟩ with
        | .error e => pure (.error e)
        | .ok ctx =>
          match ctx.error with
          | some e => pure (.error e)
          | none => do
            setPos file ctx.pos
            pure (.ok (ctx.bufUsed, ctx.records))

def mkdir (pathname : PathName) : FsM (Except Errno Unit) := do
  let s ← get
  if !s.mounted then pure (.error .enodev)
  else do
    match ← pathwalkStep12 pathname with
    | .error e => pure (.error e)
    | .ok path => do
      let result ← Minix.mkdir path.curDir (component path.pathname) (0o777 ||| Mode.ifdir)
      Inode.put path.curDir
      pure result

def chdirInode (inode : Nat) : FsM (Except Errno Unit) := do
  let i ← FsM.inode inode
  if !Mode.isDir i.mode then pure (.error .enotdir)
  else do
    Inode.get inode
    let s ← get
    match s.cwd with
    | some cwd => Inode.put cwd
    | none => pure ()
    modify fun s => { s with cwd := some inode }
    pure (.ok ())

def chdir (path : PathName) : FsM (Except Errno Unit) := do
  match ← pathwalkStep123 path true with
  | .error e => pure (.error e)
  | .ok inode => do
    let result ← chdirInode inode
    Inode.put inode
    pure result

def fchdir (fd : Int) : FsM (Except Errno Unit) := do
  match ← getFile fd with
  | none => pure (.error .ebadf)
  | some file => chdirInode file.inode

def truncateInode (inode : Nat) (length : Int) : FsM (Except Errno Unit) := do
  let i ← FsM.inode inode
  if Mode.isDir i.mode then pure (.error .eisdir)
  else if length = i.size then pure (.ok ())
  else if i.size < length then Filesystem.punchHole inode i.size length
  else do
    Minix.truncate inode length
    pure (.ok ())

def truncate (path : PathName) (length : Int) : FsM (Except Errno Unit) := do
  match ← pathwalkStep123 path true with
  | .error e => pure (.error e)
  | .ok inode => do
    let result ← truncateInode inode length
    Inode.put inode
    pure result

def ftruncate (fd : Int) (length : Int) : FsM (Except Errno Unit) := do
  match ← getFile fd with
  | none => pure (.error .ebadf)
  | some file =>
    if file.accmode &&& Flags.rdonly ≠ 0 then pure (.error .ebadf)
    else truncateInode file.inode length

/-- The whole string is copied, whatever the size of the buffer. -/
def readlink (pathname : PathName) (bufsiz : Nat) : FsM (Except Errno (List UInt8)) := do
  if bufsiz = 0 then pure (.error .einval)
  else do
    match ← pathwalkStep123 pathname false with
    | .error e => pure (.error e)
    | .ok inode => do
      let i ← FsM.inode inode
      if !Mode.isLnk i.mode then do
        Inode.put inode
        pure (.error .einval)
      else do
        let link ← Filesystem.getLink inode
        Inode.put inode
        match link with
        | .error e => pure (.error e)
        | .ok link => pure (.ok (link.takeWhile (· != 0)))

def link (oldpath newpath : PathName) : FsM (Except Errno Unit) := do
  match ← pathwalkStep123 oldpath false with
  | .error e => pure (.error e)
  | .ok inode => do
    let i ← FsM.inode inode
    if Mode.isDir i.mode then do
      Inode.put inode
      pure (.error .eperm)
    else do
      match ← pathwalkStep12 newpath with
      | .error e => do
        Inode.put inode
        pure (.error e)
      | .ok path => do
        if hasSlash path.pathname then do
          Inode.put path.curDir
          Inode.put inode
          pure (.error .einval)
        else do
          let result ← Minix.link path.curDir path.pathname inode
          Inode.put path.curDir
          Inode.put inode
          pure result

def symlink (target linkpath : PathName) : FsM (Except Errno Unit) := do
  match ← pathwalkStep12 linkpath with
  | .error e => pure (.error e)
  | .ok path => do
    if hasSlash path.pathname then do
      Inode.put path.curDir
      pure (.error .einval)
    else do
      let result ← Minix.symlink path.curDir path.pathname target
      Inode.put path.curDir
      pure result

/-- What `unlink` and `rmdir` share: the lookup, the check of the type, the removal. -/
def remove (dir : Nat) (name : PathName) (isDir : Bool)
    (action : Nat → FsM (Except Errno Unit)) : FsM (Except Errno Unit) := do
  match ← Minix.lookup dir name with
  | .error e => do
    Inode.put dir
    pure (.error e)
  | .ok none => do
    Inode.put dir
    pure (.error .enoent)
  | .ok (some inode) => do
    let i ← FsM.inode inode
    if Mode.isDir i.mode ≠ isDir then do
      Inode.put dir
      Inode.put inode
      pure (.error .eisdir)
    else do
      let result ← action inode
      Inode.put dir
      Inode.put inode
      pure result

def unlink (pathname : PathName) : FsM (Except Errno Unit) := do
  match ← pathwalkStep12 pathname with
  | .error e => pure (.error e)
  | .ok path => do
    if hasSlash path.pathname then do
      Inode.put path.curDir
      pure (.error .eisdir)
    else remove path.curDir path.pathname false fun inode => Minix.unlink path.curDir path.pathname inode

def rmdir (pathname : PathName) : FsM (Except Errno Unit) := do
  match ← pathwalkStep12 pathname with
  | .error e => pure (.error e)
  | .ok path => do
    let name := component path.pathname
    remove path.curDir name true fun inode => Minix.rmdir path.curDir name inode

/-- What `rename` checks of an inode that would be replaced. -/
def checkRename (oldIsDir newIsDir newMustBeDir : Bool) : Option Errno :=
  if newMustBeDir && !newIsDir || !newIsDir && oldIsDir then some .enotdir
  else if newIsDir && !oldIsDir then some .eisdir
  else none

/-- The check of the inode that would be replaced, if there is one. -/
def refuses (newInode : Option Nat) (oldIsDir newMustBeDir : Bool) : FsM (Option Errno) :=
  match newInode with
  | none => pure none
  | some newInode => do
    let n ← inode newInode
    pure (checkRename oldIsDir (Mode.isDir n.mode) newMustBeDir)

def putNew (newInode : Option Nat) : FsM Unit :=
  match newInode with
  | none => pure ()
  | some newInode => Inode.put newInode

/-- Nothing is renamed if both names are those of one entry. -/
def renameDistinct (oldDir oldInode : Nat) (oldName : PathName) (newDir : Nat)
    (newInode : Option Nat) (newName : PathName) : FsM (Except Errno Unit) :=
  if oldDir ≠ newDir ∨ oldName ≠ newName then
    Minix.rename oldDir oldInode oldName newDir newInode newName
  else pure (.ok ())

/-- The end of `rename`. -/
def leave (oldDir newDir : Nat) (result : Except Errno Unit) : FsM (Except Errno Unit) := do
  Inode.put oldDir
  Inode.put newDir
  pure result

/-- `rename` between two directories, which are released at its end. -/
def renameIn (oldPath newPath : Path) : FsM (Except Errno Unit) := do
  let oldDir := oldPath.curDir
  let newDir := newPath.curDir
  let oldName := component oldPath.pathname
  let newName := component newPath.pathname
  match ← Minix.lookup oldDir oldName with
  | .error e => leave oldDir newDir (.error e)
  | .ok none => leave oldDir newDir (.error .enoent)
  | .ok (some oldInode) => do
    let i ← inode oldInode
    let oldIsDir := Mode.isDir i.mode
    if hasSlash oldPath.pathname && !oldIsDir then do
      Inode.put oldInode
      leave oldDir newDir (.error .enoent)
    else do
      match ← Minix.lookup newDir newName with
      | .error e => do
        Inode.put oldInode
        leave oldDir newDir (.error e)
      | .ok newInode => do
        match ← refuses newInode oldIsDir (hasSlash newPath.pathname) with
        | some e => do
          Inode.put oldInode
          putNew newInode
          leave oldDir newDir (.error e)
        | none => do
          let result ← renameDistinct oldDir oldInode oldName newDir newInode newName
          Inode.put oldInode
          putNew newInode
          leave oldDir newDir result

def rename (oldpath newpath : PathName) : FsM (Except Errno Unit) := do
  match ← pathwalkStep12 oldpath with
  | .error e => pure (.error e)
  | .ok oldPath => do
    match ← pathwalkStep12 newpath with
    | .error e => do
      Inode.put oldPath.curDir
      pure (.error e)
    | .ok newPath => renameIn oldPath newPath

/-- The calls of the interface, with their arguments. -/
inductive Op where
  | mount (bits : Nat) (memory : Minix.Allocations)
  | umount
  | sync
  | «open» (pathname : PathName) (flags : Nat)
  | close (fd : Int)
  | read (fd : Int) (count : Nat)
  | write (fd : Int) (buf : List UInt8)
  | lseek (fd : Int) (offset : Int) (whence : Whence)
  | stat (pathname : PathName)
  | lstat (pathname : PathName)
  | fstat (fd : Int)
  | getdents (fd : Int) (count : Int)
  | mkdir (pathname : PathName)
  | chdir (path : PathName)
  | fchdir (fd : Int)
  | truncate (path : PathName) (length : Int)
  | ftruncate (fd : Int) (length : Int)
  | readlink (pathname : PathName) (bufsiz : Nat)
  | link (oldpath newpath : PathName)
  | symlink (target linkpath : PathName)
  | unlink (pathname : PathName)
  | rmdir (pathname : PathName)
  | rename (oldpath newpath : PathName)

abbrev Result := Except Errno Value

def returning {α : Type} (f : α → Value) (p : FsM (Except Errno α)) : FsM Result := do
  let result ← p
  pure (result.map f)

def Op.call : Op → FsM Result
  | .mount bits memory => returning (fun _ => .done) (VFS.mount bits memory)
  | .umount => returning (fun _ => .done) VFS.umount
  | .sync => do
    VFS.sync
    pure (.ok .done)
  | .open pathname flags => returning (fun fd : Nat => .number fd) (VFS.open pathname flags)
  | .close fd => returning (fun _ => .done) (VFS.close fd)
  | .read fd count => returning .bytes (VFS.read fd count)
  | .write fd buf => returning (fun n : Nat => .number n) (VFS.write fd buf)
  | .lseek fd offset whence => returning .number (VFS.lseek fd offset whence)
  | .stat pathname => returning .stat (VFS.stat pathname)
  | .lstat pathname => returning .stat (VFS.lstat pathname)
  | .fstat fd => returning .stat (VFS.fstat fd)
  | .getdents fd count => returning (fun r => .dirents r.1 r.2) (VFS.getdents fd count)
  | .mkdir pathname => returning (fun _ => .done) (VFS.mkdir pathname)
  | .chdir path => returning (fun _ => .done) (VFS.chdir path)
  | .fchdir fd => returning (fun _ => .done) (VFS.fchdir fd)
  | .truncate path length => returning (fun _ => .done) (VFS.truncate path length)
  | .ftruncate fd length => returning (fun _ => .done) (VFS.ftruncate fd length)
  | .readlink pathname bufsiz => returning .bytes (VFS.readlink pathname bufsiz)
  | .link oldpath newpath => returning (fun _ => .done) (VFS.link oldpath newpath)
  | .symlink target linkpath => returning (fun _ => .done) (VFS.symlink target linkpath)
  | .unlink pathname => returning (fun _ => .done) (VFS.unlink pathname)
  | .rmdir pathname => returning (fun _ => .done) (VFS.rmdir pathname)
  | .rename oldpath newpath => returning (fun _ => .done) (VFS.rename oldpath newpath)

/-- The calls one after the other, and what each returns. -/
def calls : List Op → FsM (List Result)
  | [] => pure []
  | op :: rest => do
    let result ← op.call
    let results ← calls rest
    pure (result :: results)

end VFS

/-- The static members before the first mount. -/
def Fs.initial : Fs where
  mounted := false
  super := ⟨0, 0, 0, 0, 0⟩
  superBlock := 0
  blocksizeBits := 0
  imap := fun _ => 0
  zmap := fun _ => 0
  rootInode := 0
  numInodeReferences := 0
  icache := []
  numInodes := 0
  inodes := fun _ => .fresh
  allocated := 0
  cwd := none
  fdTable := .empty
  log := []

def World.initial (contents : Nat → Bytes) : World Fs := ⟨.initial, .new contents⟩

end MPStuBS
