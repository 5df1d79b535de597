import MPStuBS.DirentRecords
import MPStuBS.Vfs

/-! Directory streams: `opendir`, `readdir` and `closedir` of `fs/vfs.cc`. -/
namespace MPStuBS.VFS

open FsM

/-- `DIR`. The buffer has 4096 bytes. -/
structure Dir where
  fd : Int
  offset : Nat
  size : Nat
  buf : Bytes

/-- The record at the offset, which goes on by the length of the record. -/
def Dir.next (dirp : Dir) : Option Dirent × Dir :=
  let e := dirp.buf.dirent dirp.offset
  (some e, { dirp with offset := dirp.offset + e.reclen })

/-- What a call of `getdents` that fails has stored in the buffer is never read. -/
def readdir (dirp : Dir) : FsM (Option Dirent × Dir) := do
  if dirp.size ≤ dirp.offset then do
    match ← getdents dirp.fd 4096 with
    | .error _ => pure (none, dirp)
    | .ok (len, records) =>
      if len = 0 then pure (none, dirp)
      else pure ({ dirp with offset := 0, size := len, buf := Dirent.storeAll records 0 dirp.buf } : Dir).next
  else pure dirp.next

def closedir (dirp : Dir) : FsM (Except Errno Unit) := close dirp.fd

/-- `memory` says whether `calloc` finds room for the stream. On an error of `open` there is no
descriptor that `lseek` could act on. -/
def opendir (name : PathName) (memory : Bool) : FsM (Option Dir) := do
  match ← stat name with
  | .error _ => pure none
  | .ok statbuf =>
    if !Mode.isDir statbuf.mode then pure none
    else do
      match ← VFS.open name Flags.rdonly with
      | .error _ => pure none
      | .ok fd => do
        let _ ← lseek fd 0 .set
        if memory then pure (some ⟨fd, 0, 0, fun _ => 0⟩)
        else do
          let _ ← close fd
          pure none

/-- The results of so many calls of `readdir` one after the other. -/
def readdirs : Nat → Dir → FsM (List (Option Dirent) × Dir)
  | 0, dirp => pure ([], dirp)
  | n + 1, dirp => do
    let (e, dirp) ← readdir dirp
    let (es, dirp) ← readdirs n dirp
    pure (e :: es, dirp)

end MPStuBS.VFS
