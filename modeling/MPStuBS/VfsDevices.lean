import MPStuBS.CarefulRuns
import MPStuBS.Vfs

/-! The file system on a `Harddisk`, which hands out copies, and on a `Ramdisk`, which
lends its memory. -/
namespace MPStuBS

/-- Both runs return the same, and the disks hold the same where no held block has changes
that still have to be written. -/
inductive SameOutcome {α : Type} :
    Except FsFault (α × World Fs) → Except FsFault (α × World Fs) → Prop where
  | returned {a : α} {s : Fs} {d d' : Device}
      (contents : ∀ n, d.Settled n → d.contents n = d'.contents n) :
      SameOutcome (.ok (a, ⟨s, d⟩)) (.ok (a, ⟨s, d'⟩))
  | faulted {f : FsFault} : SameOutcome (.error f) (.error f)

theorem SameOutcome.result {α : Type} {r r' : Except FsFault (α × World Fs)}
    (same : SameOutcome r r') : r.map Prod.fst = r'.map Prod.fst := by
  cases same <;> rfl

theorem Prog.Alike.sameOutcome {α : Type} {r r' : Except FsFault (α × World Fs)}
    (alike : Prog.Alike r r') : SameOutcome r r' := by
  cases alike with
  | returned agree => exact .returned agree.settled
  | faulted => exact .faulted

namespace VFS

/-- The calls on an image, which is on one kind of device. -/
def session (disk : Disk Errno) (image : Nat → Bytes) (ops : List Op) :
    Except FsFault (List Result × World Fs) :=
  (calls ops).run disk (.initial image)

end VFS

/-! A small image in blocks of 1024 bytes: block 1 is the superblock, block 2 the bitmap of 16
inodes, block 3 that of the 14 zones from block 6 on, and block 4 the inode table. -/
namespace SmallImage

def super : SuperBlock := ⟨16, 1, 1, 6, 20⟩

def zeroes : Bytes := fun _ => 0

/-- The superblock on the disk. -/
def superBlock (super : SuperBlock) : Bytes :=
  ((((((zeroes.setU32 0 super.ninodes).setU16 6 super.imapBlocks).setU16 8 super.zmapBlocks).setU16
    10 super.firstdatazone).setU32 20 super.nzones).setU16 24 Minix.minix3SuperMagic).setU16 28 1024

/-- The first inodes or zones up to the given bits are taken. -/
def imap (first : UInt8) : Bytes := fun i =>
  if i = 0 then first else if i = 1 then 0 else if i = 2 then 254 else 255

def zmap (first : UInt8) : Bytes := fun i =>
  if i = 0 then first else if i = 1 then 128 else 255

/-- An inode with one zone. -/
def record (ino mode nlinks size zone : Nat) (bytes : Bytes) : Bytes :=
  let raw := 64 * (ino - 1)
  (((bytes.setU16 raw mode).setU16 (raw + 2) nlinks).setU32 (raw + 8) size).setU32 (raw + 24) zone

def image (imap zmap inodes root : Bytes) : Nat → Bytes := fun n =>
  if n = 1 then superBlock super else if n = 2 then imap else if n = 3 then zmap else if n = 4 then inodes else if n = 6 then root
  else zeroes

def dirMode : Nat := 0o040777

def fileMode : Nat := 0o100777

/-- The entries of a root directory. -/
def rootEntries : Bytes :=
  Minix.writeDirent (Minix.writeDirent zeroes 0 1 Minix.dotName) 1 1 Minix.dotDotName

def nameF : List UInt8 := [102]

def nameG : List UInt8 := [103]

/-- The root directory holds one empty file `f`. -/
def withFile : Nat → Bytes :=
  image (imap 7) (zmap 3) (record 2 fileMode 1 0 0 (record 1 dirMode 2 192 6 zeroes))
    (Minix.writeDirent rootEntries 2 2 nameF)

end SmallImage

namespace VFS

open SmallImage

def neverFails : Nat → Nat → Option Errno := fun _ _ => none

def workOnFiles : List Op := [.mount 10 .all, .mkdir nameG, .unlink nameF, .chdir nameG,
  .open nameF (Flags.rdwr ||| Flags.creat), .write 0 [1, 2, 3], .close 0, .sync, .umount]

/-- The old entry is cleared in its own copy of the block, without the new entry. -/
def renameInRoot : List Op := [.mount 10 .all, .rename nameF nameG, .stat nameG]

end VFS
end MPStuBS
