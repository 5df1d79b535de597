import MPStuBS.MinixNames

/-! The table of open files: `fs/file_descriptor_table.cc`. Its bitmap has 1024 bits in
64-bit words, of which only 32 each can be told apart. -/
namespace MPStuBS

namespace FdTable

def maxFiles : Nat := 1024

def tableSize : Nat := 8

def empty : FdTable := ⟨fun _ => 0, fun _ => []⟩

/-- `1 << i`, an `int` that is converted to `unsigned long`. -/
def bitmask (i : Nat) : Nat :=
  if i % 32 = 31 then 18446744071562067968 else 2 ^ (i % 32)

/-- The first bit of a word whose mask meets no set bit. -/
def firstFree (word : Nat) : Nat → Nat → Option Nat
  | 0, _ => none
  | n + 1, i => if word &&& bitmask i = 0 then some i else firstFree word n (i + 1)

/-- The first free bit among `k` words from word `n` on. -/
def findFree (bitmap : Nat → Nat) : Nat → Nat → Option (Nat × Nat)
  | 0, _ => none
  | k + 1, n =>
    match firstFree (bitmap n) 64 0 with
    | some i => some (n, i)
    | none => findFree bitmap k (n + 1)

/-- The table with the file in it, and its descriptor. -/
def insertFile (t : FdTable) (file : File) : Option (Nat × FdTable) :=
  match findFree t.bitmap (maxFiles / 64) 0 with
  | none => none
  | some (n, i) =>
    let fd := 64 * n + i
    let bucket := fd % tableSize
    some (fd,
      ⟨Function.update t.bitmap n (t.bitmap n ||| bitmask i),
        Function.update t.table bucket ({ file with fd := fd } :: t.table bucket)⟩)

def getFile (t : FdTable) (fd : Int) : Option File :=
  if fd < 0 then none
  else (t.table (fd.toNat % tableSize)).find? fun file => file.fd == fd.toNat

def removeFile (t : FdTable) (fd : Nat) : Option (File × FdTable) :=
  match t.getFile fd with
  | none => none
  | some file =>
    let word := file.fd / 64
    let bucket := fd % tableSize
    some (file,
      ⟨Function.update t.bitmap word (t.bitmap word &&& (18446744073709551615 - bitmask file.fd)),
        Function.update t.table bucket ((t.table bucket).eraseP fun file => file.fd == fd)⟩)

def setPos (t : FdTable) (fd : Nat) (pos : Int) : FdTable :=
  let bucket := fd % tableSize
  { t with
    table := Function.update t.table bucket
      ((t.table bucket).map fun file => if file.fd = fd then { file with pos := pos } else file) }

end FdTable

namespace FsM

def getFile (fd : Int) : FsM (Option File) := do
  let s ← get
  pure (s.fdTable.getFile fd)

def setPos (file : File) (pos : Int) : FsM Unit :=
  modify fun s => { s with fdTable := s.fdTable.setPos file.fd pos }

end FsM
end MPStuBS
