import MPStuBS.DirectoryStreams

/-! `getcwd` of `fs/tool/fs_image.cc`, which climbs from the working directory to the root and
puts the names on the way together from the end on. -/
namespace MPStuBS.FileSystemImage

open FsM VFS

def dotDotSlash : PathName := [46, 46, 47]

/-- Characters are stored in `down` while there is room for three more. -/
def push (bufsiz : Nat) : List UInt8 → List UInt8 → Option (List UInt8)
  | [], down => some down
  | c :: rest, down => if bufsiz - 3 < down.length then none else push bufsiz rest (down ++ [c])

/-- Reads the directory. The name of an entry for the current directory is stored backwards, its null
byte first. `fuel` bounds the entries that are read; none stands for the early return. -/
def scan (bufsiz current : Nat) : Nat → Dir → Nat → List UInt8 → FsM (Option (Dir × Nat × List UInt8))
  | 0, _, _, _ => fault .endless
  | fuel + 1, dh, nextInode, down => do
    let (de, dh) ← readdir dh
    match de with
    | none => pure (some (dh, nextInode, down))
    | some de =>
      if de.name = Minix.dotName then scan bufsiz current fuel dh de.ino down
      else if de.name = Minix.dotDotName then scan bufsiz current fuel dh nextInode down
      else if de.ino = current then
        match push bufsiz (0 :: de.name.reverse) down with
        | none => pure none
        | some down => scan bufsiz current fuel dh nextInode (down ++ [slash])
      else scan bufsiz current fuel dh nextInode down

/-- The loop over the levels of the tree; `memory` says of each whether `opendir` finds memory. An error
ends the loop before the root is reached, so that nothing is stored then. If a directory cannot be opened
the loop ends without an error. -/
def climb (bufsiz root : Nat) (memory : Nat → Bool) (entries : Nat) :
    Nat → Nat → Nat → PathName → List UInt8 → FsM (Except Errno (Nat × List UInt8))
  | 0, _, _, _, _ => fault .endless
  | fuel + 1, level, current, up, down =>
    if current = root then pure (.ok (current, down))
    else if bufsiz - 5 < up.length then pure (.error .enobufs)
    else do
      match ← opendir (up ++ dotDotSlash) (memory level) with
      | none => pure (.ok (current, down))
      | some dh => do
        match ← scan bufsiz current entries dh root down with
        | none => pure (.error .enobufs)
        | some (dh, nextInode, down) => do
          match ← closedir dh with
          | .error e => pure (.error e)
          | .ok () => climb bufsiz root memory entries fuel (level + 1) nextInode (up ++ dotDotSlash) down

/-- What is stored in the buffer on success, from its start on. -/
def getcwd (bufsiz : Nat) (memory : Nat → Bool) (fuel : Nat) : FsM (Except Errno (List UInt8)) :=
  if bufsiz < 10 then pure (.error .enobufs)
  else do
    match ← lstat Minix.dotName with
    | .error e => pure (.error e)
    | .ok here => do
      match ← lstat [slash] with
      | .error e => pure (.error e)
      | .ok top => do
        match ← climb bufsiz top.ino memory fuel fuel 0 here.ino [] [0, slash] with
        | .error e => pure (.error e)
        | .ok (current, down) => pure (.ok (if current = top.ino then down.reverse else []))

end MPStuBS.FileSystemImage
