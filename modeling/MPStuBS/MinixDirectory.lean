import MPStuBS.InodeCache

/-! Directories: `fs/minix/dir.cc` and `fs/dir_context.cc`. A directory is an array of
64-byte entries: an inode number, zero if the slot is free, and a name of up to 60 bytes. -/
namespace MPStuBS

/-- Whether `strncmp` of the whole name with the memory gives zero. -/
def strncmpEq (bytes : Bytes) : List UInt8 → Nat → Bool
  | [], _ => true
  | c :: name, i =>
    if c ≠ bytes i then false else if c = 0 then true else strncmpEq bytes name (i + 1)

namespace Minix

open FsM

def direntInode (bytes : Bytes) (k : Nat) : Nat := bytes.u32 (64 * k)

def namecompare (name : List UInt8) (bytes : Bytes) (k : Nat) : Bool :=
  if name.length < 60 ∧ bytes (64 * k + 4 + name.length) ≠ 0 then false
  else strncmpEq bytes name (64 * k + 4)

def writeDirent (bytes : Bytes) (k ino : Nat) (name : List UInt8) : Bytes :=
  ((bytes.setU32 (64 * k) ino).splice (64 * k + 4) name.length fun i => name.getD i 0).fill
    (64 * k + 4 + name.length) (60 - name.length) 0

def dirNumBlocks (s : Fs) (dir : Inode) : Nat := (u64 dir.size + s.blocksize - 1) / s.blocksize

def dirBlockLastByte (dir lblock : Nat) : FsM Nat := do
  let s ← get
  let i ← inode dir
  let lastByte := if lblock = u64 i.size / s.blocksize then u64 i.size % s.blocksize else s.blocksize
  if lastByte % 64 ≠ 0 then fault .assertion else pure lastByte

/-- The first live entry with the name among `n` entries from `k` on. -/
def findName (bytes : Bytes) (name : List UInt8) : Nat → Nat → Option Nat
  | 0, _ => none
  | n + 1, k =>
    if direntInode bytes k ≠ 0 ∧ namecompare name bytes k then some k
    else findName bytes name n (k + 1)

/-- The fixed block of the entry and its index there. -/
def findDirentLoop (dir : Nat) (name : List UInt8) :
    Nat → Nat → FsM (Except Errno (Option (Nat × Nat)))
  | 0, _ => pure (.ok none)
  | n + 1, lblock => do
    match ← getBlock dir lblock false with
    | .error e => pure (.error e)
    | .ok blockno => do
      match ← fix blockno with
      | .error e => pure (.error e)
      | .ok block => do
        let lastByte ← dirBlockLastByte dir lblock
        let bytes ← load block
        match findName bytes name (lastByte / 64) 0 with
        | some k => pure (.ok (some (block, k)))
        | none => do
          unfix block
          findDirentLoop dir name n (lblock + 1)

def findDirent (dir : Nat) (name : List UInt8) : FsM (Except Errno (Option (Nat × Nat))) := do
  if 60 < name.length then pure (.ok none)
  else do
    let s ← get
    let i ← inode dir
    findDirentLoop dir name (dirNumBlocks s i) 0

def lookup (dir : Nat) (name : List UInt8) : FsM (Except Errno (Option Nat)) := do
  match ← findDirent dir name with
  | .error e => pure (.error e)
  | .ok none => pure (.ok none)
  | .ok (some (block, k)) => do
    let bytes ← load block
    unfix block
    match ← iget (direntInode bytes k) with
    | .error e => pure (.error e)
    | .ok inode => pure (.ok (some inode))

/-- Where `add_link` stops in a block. -/
inductive Slot where
  | taken
  | free (k : Nat)
  | append (k : Nat)
  | full
  deriving DecidableEq, Repr

def findSlot (bytes : Bytes) (name : List UInt8) (dirEnd : Nat) : Nat → Nat → Slot
  | 0, _ => .full
  | n + 1, k =>
    if k = dirEnd then .append k
    else if direntInode bytes k = 0 then .free k
    else if namecompare name bytes k then .taken
    else findSlot bytes name dirEnd n (k + 1)

def putLink (dir ino : Nat) (name : List UInt8) (block k : Nat) : FsM (Except Errno Unit) := do
  let bytes ← load block
  store block (writeDirent bytes k ino name)
  markDirty block
  unfix block
  setInode dir .setDirty
  pure (.ok ())

def addLinkLoop (dir ino : Nat) (name : List UInt8) : Nat → Nat → FsM (Except Errno Unit)
  | 0, _ => fault .endless
  | fuel + 1, lblock => do
    let s ← get
    match ← getBlock dir lblock true with
    | .error e => pure (.error e)
    | .ok blockno => do
      match ← fix blockno with
      | .error e => pure (.error e)
      | .ok block => do
        let lastByte ← dirBlockLastByte dir lblock
        let bytes ← load block
        match findSlot bytes name (lastByte / 64) (s.blocksize / 64) 0 with
        | .append k => do
          store block (bytes.setU32 (64 * k) 0)
          setInode dir fun i => { i with size := i.size + 64 }
          putLink dir ino name block k
        | .free k => putLink dir ino name block k
        | .taken => do
          unfix block
          pure (.error .eexist)
        | .full => do
          unfix block
          addLinkLoop dir ino name fuel (lblock + 1)

def addLink (dir inode : Nat) (name : List UInt8) : FsM (Except Errno Unit) := do
  if 60 < name.length then pure (.error .enametoolong)
  else do
    let s ← get
    let d ← FsM.inode dir
    let i ← FsM.inode inode
    addLinkLoop dir i.ino name (u64 d.size / s.blocksize + 2) 0

def dotName : List UInt8 := [46]

def dotDotName : List UInt8 := [46, 46]

/-- The entries `.` and `..` of a new directory. -/
def makeEmptyDir (inode parentDir : Nat) : FsM (Except Errno Unit) := do
  match ← getBlock inode 0 true with
  | .error e => pure (.error e)
  | .ok blockno => do
    match ← fix blockno with
    | .error e => pure (.error e)
    | .ok block => do
      let i ← FsM.inode inode
      let parent ← FsM.inode parentDir
      let bytes ← load block
      store block (writeDirent (writeDirent bytes 0 i.ino dotName) 1 parent.ino dotDotName)
      setInode inode .incNlinks
      setInode inode fun i => { i with size := 128 }
      setInode inode .setDirty
      setInode parentDir .incNlinks
      setInode parentDir .setDirty
      markDirty block
      unfix block
      pure (.ok ())

/-- The error path of `mkdir`, `create` and `symlink`. -/
def abandon (inode : Nat) : FsM Unit := do
  setInode inode fun i => { i with nlinks := 0 }
  setInode inode .setDirty
  Inode.put inode

def mkdir (parentDir : Nat) (name : List UInt8) (mode : Nat) : FsM (Except Errno Unit) := do
  if 60 < name.length then pure (.error .enametoolong)
  else do
    match ← newInode mode with
    | .error e => pure (.error e)
    | .ok inode => do
      setInode inode fun i => { i with nlinks := 0 }
      match ← makeEmptyDir inode parentDir with
      | .error e => do
        abandon inode
        pure (.error e)
      | .ok () => do
        match ← addLink parentDir inode name with
        | .error e => do
          abandon inode
          pure (.error e)
        | .ok () => do
          setInode inode .incNlinks
          setInode inode .setDirty
          Inode.put inode
          pure (.ok ())

def deleteEntry (dir : Nat) (name : List UInt8) : FsM (Except Errno Unit) := do
  match ← findDirent dir name with
  | .error e => pure (.error e)
  | .ok none => pure (.error .enoent)
  | .ok (some (block, k)) => do
    let bytes ← load block
    store block (bytes.setU32 (64 * k) 0)
    markDirty block
    unfix block
    pure (.ok ())

/-- A live entry that is not taken for `.` or `..`. -/
def notEmpty (bytes : Bytes) (ino k : Nat) : Bool :=
  if direntInode bytes k = 0 then false
  else if bytes (64 * k + 4) ≠ 46 then true
  else if bytes (64 * k + 5) = 0 then direntInode bytes k ≠ ino
  else bytes (64 * k + 5) ≠ 46

def checkEmptyLoop (dir : Nat) : Nat → Nat → FsM (Except Errno Unit)
  | 0, _ => pure (.ok ())
  | n + 1, lblock => do
    match ← getBlock dir lblock false with
    | .error e => pure (.error e)
    | .ok blockno => do
      match ← fix blockno with
      | .error e => pure (.error e)
      | .ok block => do
        let lastByte ← dirBlockLastByte dir lblock
        let bytes ← load block
        let i ← inode dir
        unfix block
        if (List.range (lastByte / 64)).any (notEmpty bytes i.ino) then pure (.error .enotempty)
        else checkEmptyLoop dir n (lblock + 1)

def checkDirIsEmpty (dir : Nat) : FsM (Except Errno Unit) := do
  let s ← get
  let i ← inode dir
  checkEmptyLoop dir (dirNumBlocks s i) 0

def rmdir (parentDir : Nat) (name : List UInt8) (dir : Nat) : FsM (Except Errno Unit) := do
  match ← checkDirIsEmpty dir with
  | .error e => pure (.error e)
  | .ok () => do
    match ← deleteEntry parentDir name with
    | .error e => pure (.error e)
    | .ok () => do
      setInode parentDir .decNlinks
      setInode parentDir .setDirty
      setInode dir fun i => { i with nlinks := 0 }
      setInode dir .setDirty
      pure (.ok ())

end Minix

/-- A record of `getdents`. -/
structure Dirent where
  ino : Nat
  reclen : Nat
  type : Nat
  name : List UInt8
  deriving DecidableEq, Repr

/-- `Readdir_Context`; the buffer is the list of its records. -/
structure ReaddirContext where
  pos : Int
  error : Option Errno
  bufUsed : Nat
  bufSize : Nat
  records : List Dirent

/-- `sizeof(Dirent)`. -/
def sizeofDirent : Nat := 24

def ReaddirContext.dirEmit (ctx : ReaddirContext) (name : List UInt8) (ino type : Nat) :
    Bool × ReaddirContext :=
  if ctx.error ≠ none then (false, ctx)
  else
    let reclen := sizeofDirent + name.length + 1
    if ctx.bufSize ≤ ctx.bufUsed + reclen then
      (false, if ctx.bufUsed = 0 then { ctx with error := some .einval } else ctx)
    else
      (true, { ctx with
        bufUsed := ctx.bufUsed + reclen
        records := ctx.records ++ [⟨ino, reclen, type, name⟩] })

namespace Minix

open FsM

/-- The length of a name: what is left without the null bytes at its end. -/
def namelen (bytes : Bytes) (k : Nat) : Nat → Nat
  | 0 => 0
  | n + 1 => if bytes (64 * k + 4 + n) = 0 then namelen bytes k n else n + 1

/-- The entries of a fixed block; false if the context asked to stop. -/
def iterateBlock (block : Nat) : Nat → Nat → ReaddirContext → FsM (Bool × ReaddirContext)
  | 0, _, ctx => pure (true, ctx)
  | n + 1, k, ctx => do
    let bytes ← load block
    if direntInode bytes k = 0 then iterateBlock block n (k + 1) { ctx with pos := ctx.pos + 64 }
    else do
      let type ← do
        match ← iget (direntInode bytes k) with
        | .error _ => pure 0
        | .ok inode => do
          let i ← FsM.inode inode
          Inode.put inode
          pure (i.mode >>> 12 &&& 15)
      let bytes ← load block
      let name := Filesystem.take bytes (64 * k + 4) (namelen bytes k 60)
      let (go, ctx) := ctx.dirEmit name (direntInode bytes k) type
      if go then iterateBlock block n (k + 1) { ctx with pos := ctx.pos + 64 } else pure (false, ctx)

def iterateLoop (dir : Nat) : Nat → Nat → Nat → ReaddirContext → FsM (Except Errno ReaddirContext)
  | 0, _, _, ctx => pure (.ok ctx)
  | n + 1, lblock, offset, ctx => do
    match ← getBlock dir lblock false with
    | .error e => pure (.error e)
    | .ok blockno => do
      match ← fix blockno with
      | .error e => pure (.error e)
      | .ok block => do
        let lastByte ← dirBlockLastByte dir lblock
        let (go, ctx) ← iterateBlock block (lastByte / 64 - offset / 64) (offset / 64) ctx
        unfix block
        if go then iterateLoop dir n (lblock + 1) 0 ctx else pure (.ok ctx)

def iterateDir (dir : Nat) (ctx : ReaddirContext) : FsM (Except Errno ReaddirContext) := do
  let s ← get
  let i ← inode dir
  let ctx := { ctx with pos := ctx.pos - (u64 ctx.pos % 64 : Nat) }
  let lblock := u64 (ctx.pos / s.blocksize)
  iterateLoop dir (dirNumBlocks s i - lblock) lblock (u64 (ctx.pos % s.blocksize)) ctx

end Minix
end MPStuBS
