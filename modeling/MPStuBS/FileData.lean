import MPStuBS.MinixTree

/-! Reading, writing and zeroing the bytes of an inode block by block:
`fs/filesystem.cc`. -/
namespace MPStuBS.Filesystem

open FsM Minix

/-- `count` bytes of memory from `start` on. -/
def take (bytes : Bytes) (start : Nat) : Nat → List UInt8
  | 0 => []
  | count + 1 => bytes start :: take bytes (start + 1) count

def readLoop (ptr count : Nat) (pos : Int) : Nat → Nat → Nat → List UInt8 →
    FsM (Except Errno (List UInt8))
  | 0, _, _, _ => fault .endless
  | fuel + 1, logicalBlock, offset, done => do
    let s ← get
    let i ← inode ptr
    if count ≤ done.length ∨ u64 i.size ≤ u64 (pos + done.length) then pure (.ok done)
    else do
      match ← getBlock ptr logicalBlock false with
      | .error e => pure (.error e)
      | .ok blockno => do
        match ← fix blockno with
        | .error e => pure (.error e)
        | .ok block => do
          let bytesLeft := u64 (i.size - pos - done.length)
          let n := min (s.blocksize - offset) (min bytesLeft (count - done.length))
          let bytes ← load block
          unfix block
          readLoop ptr count pos fuel (logicalBlock + 1) 0 (done ++ take bytes offset n)

def read (ptr count : Nat) (pos : Int) : FsM (Except Errno (List UInt8)) := do
  let s ← get
  readLoop ptr count pos (count + 1) (u64 (pos / s.blocksize)) (u64 (pos % s.blocksize)) []

def writeLoop (ptr : Nat) (buf : List UInt8) : Nat → Nat → Nat → Nat → FsM (Except Errno Nat)
  | 0, _, _, _ => fault .endless
  | fuel + 1, logicalBlock, offset, written => do
    let s ← get
    if buf.length ≤ written then pure (.ok written)
    else do
      match ← getBlock ptr logicalBlock true with
      | .error e => pure (.error e)
      | .ok blockno => do
        match ← fix blockno with
        | .error e => pure (.error e)
        | .ok block => do
          let n := min (s.blocksize - offset) (buf.length - written)
          let bytes ← load block
          store block (bytes.splice offset n fun i => buf.getD (written + i) 0)
          markDirty block
          unfix block
          writeLoop ptr buf fuel (logicalBlock + 1) 0 (written + n)

def write (ptr : Nat) (buf : List UInt8) (pos : Int) : FsM (Except Errno Nat) := do
  let s ← get
  writeLoop ptr buf (buf.length + 1) (u64 (pos / s.blocksize)) (u64 (pos % s.blocksize)) 0

def punchLoop (ptr : Nat) (stop : Int) : Nat → Nat → Nat → Int → FsM (Except Errno Unit)
  | 0, _, _, _ => fault .endless
  | fuel + 1, logicalBlock, offset, start => do
    let s ← get
    if stop ≤ start then pure (.ok ())
    else do
      match ← getBlock ptr logicalBlock true with
      | .error e => pure (.error e)
      | .ok blockno => do
        match ← fix blockno with
        | .error e => pure (.error e)
        | .ok block => do
          let n := min (s.blocksize - offset) (stop - start).toNat
          let bytes ← load block
          store block (bytes.fill offset n 0)
          markDirty block
          unfix block
          punchLoop ptr stop fuel (logicalBlock + 1) 0 (start + n)

def punchHole (ptr : Nat) (start stop : Int) : FsM (Except Errno Unit) := do
  let s ← get
  punchLoop ptr stop ((stop - start).toNat + 1) (u64 (start / s.blocksize))
    (u64 (start % s.blocksize)) start

def maxSymlinkLen : Nat := 4095

def getLinkLoop (ptr : Nat) (size : Nat) : Nat → List UInt8 → FsM (Except Errno (List UInt8))
  | 0, _ => fault .endless
  | fuel + 1, done => do
    match ← read ptr (size - done.length) done.length with
    | .error e => pure (.error e)
    | .ok bytes =>
      if size ≤ (done ++ bytes).length then pure (.ok (done ++ bytes))
      else getLinkLoop ptr size fuel (done ++ bytes)

/-- The contents of the buffer before the null byte that `get_link` appends. The buffer
is as long as the size says, and there is memory for it: without it, the answer is `ENOMEM`. -/
def getLink (ptr : Nat) : FsM (Except Errno (List UInt8)) := do
  let i ← inode ptr
  if i.size = 0 then pure (.ok [])
  else if (maxSymlinkLen : Int) < i.size then pure (.error .enametoolong)
  else getLinkLoop ptr (u64 i.size) (u64 i.size + 1) []

end MPStuBS.Filesystem
