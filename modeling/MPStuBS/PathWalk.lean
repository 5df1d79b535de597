import MPStuBS.Descriptors

/-! Path resolution: the `pathwalk` steps of `fs/vfs.cc`. A path is a C string without
its null byte. -/
namespace MPStuBS.VFS

open FsM

abbrev PathName := List UInt8

/-- `struct path`. -/
structure Path where
  curDir : Nat
  pathname : PathName

def slash : UInt8 := 47

def skipSlashes (s : PathName) : PathName := s.dropWhile (· == slash)

def hasSlash (s : PathName) : Bool := s.contains slash

/-- What comes before the first slash. -/
def component (s : PathName) : PathName := s.takeWhile (· != slash)

def pathwalkStep1 (pathname : PathName) (cwd : Option Nat) : FsM (Except Errno Path) := do
  let s ← get
  if !s.mounted then pure (.error .enodev)
  else
    match pathname with
    | [] => pure (.error .enoent)
    | c :: rest => do
      let path : Path :=
        if c = slash then ⟨s.rootInode, skipSlashes (c :: rest)⟩
        else ⟨cwd.getD s.rootInode, c :: rest⟩
      Inode.get path.curDir
      pure (.ok path)

/-- The inode, or where it leads if it is a symbolic link that is to be followed. `resolve`
stands for `resolve_symlink` at the depth of the walk. -/
def follow (resolve : Nat → Nat → FsM (Except Errno Nat)) (inode curDir : Nat) (isLnk : Bool) :
    FsM (Except Errno Nat) :=
  if isLnk then do
    let target ← resolve inode curDir
    Inode.put inode
    pure target
  else pure (.ok inode)

def pathwalkStep2 (resolve : Nat → Nat → FsM (Except Errno Nat)) :
    Nat → Path → FsM (Except Errno Path)
  | 0, _ => fault .endless
  | fuel + 1, path => do
    let name := component path.pathname
    let next := skipSlashes (path.pathname.drop name.length)
    if !hasSlash path.pathname then pure (.ok path)
    else if next = [] then pure (.ok path)
    else if name = Minix.dotName then pathwalkStep2 resolve fuel { path with pathname := next }
    else do
      let s ← get
      if name = Minix.dotDotName ∧ path.curDir = s.rootInode then
        pathwalkStep2 resolve fuel { path with pathname := next }
      else do
        match ← Minix.lookup path.curDir name with
        | .error e => do
          Inode.put path.curDir
          pure (.error e)
        | .ok none => do
          Inode.put path.curDir
          pure (.error .enoent)
        | .ok (some inode) => do
          let i ← FsM.inode inode
          let target ← follow resolve inode path.curDir (Mode.isLnk i.mode)
          Inode.put path.curDir
          match target with
          | .error e => pure (.error e)
          | .ok inode => do
            let i ← FsM.inode inode
            if Mode.isDir i.mode then pathwalkStep2 resolve fuel ⟨inode, next⟩
            else do
              Inode.put inode
              pure (.error .enotdir)

def pathwalkStep3 (resolve : Nat → Nat → FsM (Except Errno Nat)) (path : Path)
    (followSymlink : Bool) : FsM (Except Errno Nat) := do
  let mustBeDir := hasSlash path.pathname
  let name := component path.pathname
  if name = [] ∨ name = Minix.dotName then pure (.ok path.curDir)
  else do
    match ← Minix.lookup path.curDir name with
    | .error _ => do
      Inode.put path.curDir
      pure (.error .enoent)
    | .ok none => do
      Inode.put path.curDir
      pure (.error .enoent)
    | .ok (some inode) => do
      let i ← FsM.inode inode
      let target ← follow resolve inode path.curDir (followSymlink && Mode.isLnk i.mode)
      Inode.put path.curDir
      match target with
      | .error e => pure (.error e)
      | .ok inode => do
        let i ← FsM.inode inode
        if mustBeDir && !Mode.isDir i.mode then do
          Inode.put inode
          pure (.error .enoent)
        else pure (.ok inode)

def pathwalkStep12With (resolve : Nat → Nat → FsM (Except Errno Nat)) (pathname : PathName)
    (cwd : Option Nat) : FsM (Except Errno Path) := do
  match ← pathwalkStep1 pathname cwd with
  | .error e => pure (.error e)
  | .ok path => pathwalkStep2 resolve (path.pathname.length + 1) path

def pathwalkStep123With (resolve : Nat → Nat → FsM (Except Errno Nat)) (pathname : PathName)
    (cwd : Option Nat) (followFinalSymlink : Bool) : FsM (Except Errno Nat) := do
  match ← pathwalkStep12With resolve pathname cwd with
  | .error e => pure (.error e)
  | .ok path => pathwalkStep3 resolve path followFinalSymlink

def maxDepth : Nat := 6

/-- `depth` counts the symbolic links that may still be followed. -/
def resolveSymlink : Nat → Nat → Nat → FsM (Except Errno Nat)
  | 0, _, _ => pure (.error .eloop)
  | depth + 1, symlink, curDir => do
    match ← Filesystem.getLink symlink with
    | .error e => pure (.error e)
    | .ok link =>
      pathwalkStep123With (resolveSymlink depth) (link.takeWhile (· != 0)) (some curDir) true

def pathwalkStep12 (pathname : PathName) : FsM (Except Errno Path) := do
  let s ← get
  pathwalkStep12With (resolveSymlink maxDepth) pathname s.cwd

def pathwalkStep123 (pathname : PathName) (followFinalSymlink : Bool) : FsM (Except Errno Nat) := do
  let s ← get
  pathwalkStep123With (resolveSymlink maxDepth) pathname s.cwd followFinalSymlink

end MPStuBS.VFS
