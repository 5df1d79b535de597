import MPStuBS.MinixBitmap

/-! The block tree of an inode: `fs/minix/itree.cc`. A chain of indirect entries is kept
as a list that starts with its last entry. -/
namespace MPStuBS.Minix

open FsM

/-- The index path of a logical block as it is computed, with `unsigned long`; `count` entries fit
into an indirect block. -/
def blockToPath (count block : Nat) : List Nat :=
  if block < 7 then [block]
  else if block - 7 < count then [7, block - 7]
  else if block - 7 - count < count * count then
    [8, (block - 7 - count) / count, (block - 7 - count) % count]
  else
    let block := block - 7 - count - count * count
    [9, block / count / count, block / count % count, block % count]

/-- Conversion to `int`. A negative one lies as far before a block as this number behind it. -/
def toInt (n : Nat) : Nat := u64 (Int.bmod n 4294967296)

/-- The path as `block_to_path` stores it, in an array of `int`. -/
def offsets (count block : Nat) : List Nat := (blockToPath count block).map toInt

/-- The memory that a block pointer points into. -/
inductive Area where
  | inode
  | block (handle : Nat)
  deriving DecidableEq, Repr

/-- A pointer to an entry and the value that was read there. -/
structure Indirect where
  area : Area
  offset : Nat
  key : Nat
  deriving DecidableEq, Repr

/-- `*p`. -/
def readEntry (ptr : Nat) (area : Area) (offset : Nat) : FsM Nat :=
  match area with
  | .inode => do
    let i ← inode ptr
    if offset < 16 then pure (i.data offset) else fault .outOfBounds
  | .block handle => do
    let s ← get
    let bytes ← load handle
    if offset < s.indirCount then pure (bytes.u32 (4 * offset)) else fault .outOfBounds

def writeEntry (ptr : Nat) (area : Area) (offset value : Nat) : FsM Unit :=
  match area with
  | .inode =>
    if offset < 16 then
      setInode ptr fun i => { i with data := Function.update i.data offset (value % 4294967296) }
    else fault .outOfBounds
  | .block handle => do
    let s ← get
    let bytes ← load handle
    if offset < s.indirCount then store handle (bytes.setU32 (4 * offset) value)
    else fault .outOfBounds

def Indirect.unfix (p : Indirect) : FsM Unit :=
  match p.area with
  | .inode => pure ()
  | .block handle => FsM.unfix handle

def Indirect.forget (p : Indirect) : FsM Unit :=
  match p.area with
  | .inode => pure ()
  | .block handle => FsM.forget handle

def Indirect.markDirty (p : Indirect) : FsM Unit :=
  match p.area with
  | .inode => pure ()
  | .block handle => FsM.markDirty handle

def unfixAll : List Indirect → FsM Unit
  | [] => pure ()
  | p :: rest => do
    p.unfix
    unfixAll rest

def forgetAll : List Indirect → FsM Unit
  | [] => pure ()
  | p :: rest => do
    p.forget
    forgetAll rest

def verifyChain (ptr : Nat) : List Indirect → FsM Bool
  | [] => pure true
  | p :: rest => do
    let value ← readEntry ptr p.area p.offset
    if value = p.key then verifyChain ptr rest else pure false

/-- The chain that was followed. It is complete, or its last entry is zero and these
offsets remain, or the block its last entry names could not be read. -/
inductive Branch where
  | found (chain : List Indirect)
  | missing (chain : List Indirect) (rest : List Nat)
  | failed (chain : List Indirect) (rest : List Nat) (error : Errno)

def Branch.chain : Branch → List Indirect
  | .found chain | .missing chain _ | .failed chain _ _ => chain

def followBranch (ptr : Nat) (p : Indirect) (chain : List Indirect) : List Nat → FsM Branch
  | [] => pure (if p.key = 0 then .missing (p :: chain) [] else .found (p :: chain))
  | offset :: rest =>
    if p.key = 0 then pure (.missing (p :: chain) (offset :: rest))
    else do
      match ← fix p.key with
      | .error e => pure (.failed (p :: chain) (offset :: rest) e)
      | .ok handle =>
        if ← verifyChain ptr (p :: chain) then do
          let key ← readEntry ptr (.block handle) offset
          followBranch ptr ⟨.block handle, offset, key⟩ (p :: chain) rest
        else do
          FsM.unfix handle
          pure (.failed (p :: chain) (offset :: rest) .eagain)

def getBranch (ptr : Nat) : List Nat → FsM Branch
  | [] => pure (.found [])
  | offset :: rest => do
    let key ← readEntry ptr .inode offset
    followBranch ptr ⟨.inode, offset, key⟩ [] rest

/-- The new indirect blocks below `parent`, and whether no allocation failed. A block
that cannot be fixed is not checked for. -/
def allocRest (ptr : Nat) (parent : Nat) : List Nat → FsM (List Indirect × Bool)
  | [] => pure ([], true)
  | offset :: rest => do
    let nr ← newBlock
    if nr = 0 then pure ([], false)
    else do
      let s ← get
      match ← fix parent with
      | .error _ => fault .nullPointer
      | .ok handle => do
        let bytes ← load handle
        store handle (bytes.fill 0 s.blocksize 0)
        FsM.markDirty handle
        writeEntry ptr (.block handle) offset nr
        let (more, complete) ← allocRest ptr nr rest
        pure (⟨.block handle, offset, nr⟩ :: more, complete)

def freeKeys : List Indirect → FsM Unit
  | [] => pure ()
  | p :: rest => do
    freeBlock p.key
    freeKeys rest

/-- The branch that starts at the place of `p`, first entry first. -/
def allocBranch (ptr : Nat) (p : Indirect) (rest : List Nat) : FsM (Except Errno (List Indirect)) := do
  let parent ← newBlock
  if parent = 0 then pure (.error .enospc)
  else do
    let (more, complete) ← allocRest ptr parent rest
    if complete then pure (.ok ({ p with key := parent } :: more))
    else do
      forgetAll more
      freeKeys ({ p with key := parent } :: more)
      pure (.error .enospc)

/-- Hangs the new branch into the chain, unless the place is taken or has moved. -/
def spliceBranch (ptr : Nat) (chain : List Indirect) (p : Indirect) (more : List Indirect) :
    FsM Bool := do
  let valid ← verifyChain ptr chain
  let value ← readEntry ptr p.area p.offset
  if valid ∧ value = 0 then do
    writeEntry ptr p.area p.offset p.key
    p.markDirty
    setInode ptr .setDirty
    pure true
  else do
    forgetAll more
    pure false

/-- The key of the last entry after the chain has been unfixed. -/
def finish (chain : List Indirect) : FsM (Except Errno Nat) := do
  unfixAll chain
  match chain with
  | [] => pure (.error .eio)
  | p :: _ => pure (.ok p.key)

def allocate (ptr : Nat) (chain : List Indirect) (rest : List Nat)
    (again : FsM (Except Errno Nat)) : FsM (Except Errno Nat) :=
  match chain with
  | [] => pure (.error .eio)
  | p :: above => do
    match ← allocBranch ptr p rest with
    | .error e => do
      unfixAll chain
      pure (.error e)
    | .ok [] => fault .outOfBounds
    | .ok (p :: more) =>
      if ← spliceBranch ptr above p more then finish (more.reverse ++ p :: above)
      else do
        unfixAll chain
        again

/-- The loop of `get_block`. Only an error other than `EIO` makes it reread, and each time
it has taken at least one more zone. -/
def getBlockLoop (ptr : Nat) (path : List Nat) (create : Bool) : Nat → FsM (Except Errno Nat)
  | 0 => fault .endless
  | fuel + 1 => do
    match ← getBranch ptr path with
    | .found chain => finish chain
    | .missing chain rest =>
      if create then allocate ptr chain rest (getBlockLoop ptr path create fuel)
      else do
        unfixAll chain
        pure (.ok 0)
    | .failed chain rest e =>
      if create = false ∨ e = .eio then do
        unfixAll chain
        pure (.error e)
      else if e = .eagain then do
        unfixAll chain
        getBlockLoop ptr path create fuel
      else allocate ptr chain rest (getBlockLoop ptr path create fuel)

def getBlock (ptr logicalBlock : Nat) (create : Bool) : FsM (Except Errno Nat) := do
  let s ← get
  getBlockLoop ptr (offsets s.indirCount logicalBlock) create
    (s.super.zmapBlocks * s.bitsPerBlock + 2)

/-- Whether the entries before the offset are all zero. -/
def allZeroes (ptr : Nat) (area : Area) : Nat → FsM Bool
  | 0 => pure true
  | n + 1 => do
    let value ← readEntry ptr area n
    if value = 0 then allZeroes ptr area n else pure false

/-- Leaves the blocks of the chain in which nothing comes before the path. -/
def rise (ptr : Nat) (left : List Indirect) : List Indirect → FsM (List Indirect × List Indirect)
  | p :: q :: chain => do
    if ← allZeroes ptr p.area p.offset then rise ptr (left ++ [p]) (q :: chain)
    else pure (left, p :: q :: chain)
  | chain => pure (left, chain)

/-- The offsets without the zeros at their end; the first one stays. -/
def dropZeroes : List Nat → List Nat
  | [] => []
  | offset :: rest => offset :: (rest.reverse.dropWhile (· == 0)).reverse

/-- The shared part of the path, and the entry that was cut off, if it is not zero. -/
def findShared (ptr : Nat) (path : List Nat) : FsM (List Indirect × Nat) := do
  let cut := dropZeroes path
  let branch ← getBranch ptr cut
  match branch.chain with
  | [] => pure ([], 0)
  | last :: above => do
    let value ← readEntry ptr last.area last.offset
    if last.key = 0 ∧ value ≠ 0 then pure (last :: above, 0)
    else do
      match ← rise ptr [] (last :: above) with
      | (_, []) => pure ([], 0)
      | (left, p :: shared) =>
        if left = [] ∧ (p :: shared).length = cut.length ∧ shared ≠ [] then
          pure ({ p with offset := p.offset - 1 } :: shared, 0)
        else do
          let top ← readEntry ptr p.area p.offset
          writeEntry ptr p.area p.offset 0
          unfixAll left
          pure (p :: shared, top)

/-- Applies the action to the entries of a range that are not zero, after clearing them. -/
def clearEntries (ptr : Nat) (area : Area) (action : Nat → FsM Unit) : Nat → Nat → FsM Unit
  | 0, _ => pure ()
  | n + 1, offset => do
    let nr ← readEntry ptr area offset
    if nr = 0 then clearEntries ptr area action n (offset + 1)
    else do
      writeEntry ptr area offset 0
      action nr
      clearEntries ptr area action n (offset + 1)

/-- What `free_branches` does for one entry: everything below it is freed, unless its
block cannot be fixed. -/
def freeBranch (ptr : Nat) : Nat → Nat → FsM Unit
  | 0, nr => freeBlock nr
  | depth + 1, nr => do
    let s ← get
    match ← fix nr with
    | .error _ => pure ()
    | .ok handle => do
      clearEntries ptr (.block handle) (freeBranch ptr depth) s.indirCount 0
      FsM.forget handle
      freeBlock nr
      setInode ptr .setDirty

def freeBranches (ptr : Nat) (area : Area) (start stop depth : Nat) : FsM Unit :=
  clearEntries ptr area (freeBranch ptr depth) (stop - start) start

/-- Clears the ends of the indirect blocks on the shared branch; the path has `n` entries. -/
def clearEnds (ptr n : Nat) : List Indirect → FsM Unit
  | p :: q :: chain => do
    let s ← get
    freeBranches ptr p.area (p.offset + 1) s.indirCount (n - (q :: chain).length - 1)
    p.markDirty
    p.unfix
    clearEnds ptr n (q :: chain)
  | _ => pure ()

/-- Frees the whole subtrees from the given one on. -/
def clearWhole (ptr : Nat) : Nat → Nat → FsM Unit
  | 0, _ => pure ()
  | n + 1, whole => do
    let nr ← readEntry ptr .inode (7 + whole)
    if nr ≠ 0 then do
      writeEntry ptr .inode (7 + whole) 0
      setInode ptr .setDirty
      freeBranch ptr (whole + 1) nr
      clearWhole ptr n (whole + 1)
    else clearWhole ptr n (whole + 1)

def truncate (ptr : Nat) (length : Int) : FsM Unit := do
  setInode ptr fun i => { i with size := length }
  setInode ptr .setDirty
  let s ← get
  let iblock := u64 ((length + s.blocksize - 1) / s.blocksize)
  match offsets s.indirCount iblock with
  | [] => pure ()
  | [offset] => do
    freeBranches ptr .inode offset 7 0
    clearWhole ptr 3 0
    setInode ptr .setDirty
  | offset :: rest => do
    let path := offset :: rest
    let (shared, nr) ← findShared ptr path
    if nr ≠ 0 then do
      match shared with
      | p :: _ :: _ => p.markDirty
      | _ => setInode ptr .setDirty
      freeBranch ptr (path.length - shared.length) nr
    else pure ()
    clearEnds ptr path.length shared
    clearWhole ptr (3 - (offset + 1 - 7)) (offset + 1 - 7)
    setInode ptr .setDirty

end MPStuBS.Minix
