import MPStuBS.InodeRecords
import MPStuBS.DirectoryReading
import MPStuBS.PathRoutes

/-! A tree of files as the inodes and the blocks of a mounted file system show it. -/
namespace MPStuBS.VFS

open Prog FsM Device Minix Filesystem FileTree

/-- A file without holes all of whose blocks are safe. -/
structure OnDisk (s : Fs) (view : Nat → Bytes) (safe : Nat → Prop) (i : Inode) : Prop where
  size : 0 ≤ i.size
  fits : i.size ≤ (addressable s.indirCount * s.blocksize : Nat)
  mapped : ∀ p < i.size.toNat, zoneAt view s i p ≠ 0
  zones : ∀ z ∈ zones s.indirCount view i.data, safe z

/-- A directory whose entries are given by the function, besides `.` and `..`. -/
structure ShowsDir (s : Fs) (view : Nat → Bytes) (safe : Nat → Prop) (i : Inode) (parent : Nat)
    (entries : PathName → Option Nat) : Prop extends OnDisk s view safe i where
  mode : Mode.isDir i.mode = true
  whole : i.size.toNat % 64 = 0
  up : ∀ ino, Minix.Lists view s i dotDotName ino ↔ ino = parent
  down : ∀ name, name ≠ dotName → name ≠ dotDotName → ∀ ino,
    Minix.Lists view s i name ino ↔ entries name = some ino

structure ShowsLink (s : Fs) (view : Nat → Bytes) (safe : Nat → Prop) (i : Inode)
    (target : Route PathName) : Prop extends OnDisk s view safe i where
  mode : Mode.isLnk i.mode = true
  small : i.size ≤ maxSymlinkLen
  target : routeOf ((bytesOf view s i).takeWhile (· != 0)) = target

/-- The inode and its blocks are those of a node. -/
def Depicts (s : Fs) (view : Nat → Bytes) (safe : Nat → Prop) (i : Inode) : Node Nat PathName → Prop
  | .dir parent entries => ShowsDir s view safe i parent entries
  | .link target => ShowsLink s view safe i target
  | .file => Mode.isDir i.mode = false ∧ Mode.isLnk i.mode = false

/-- The slots of a directory in their order, each with its name and its inode. A free one has no inode. -/
def slotsOf (view : Nat → Bytes) (s : Fs) (i : Inode) : List (PathName × Nat) :=
  (List.range (i.size.toNat / 64)).map fun k =>
    (nameAt (slotBlock view s i k) (slotPlace s k), direntInode (slotBlock view s i k) (slotPlace s k))

theorem lists_iff_mem {s : Fs} {view : Nat → Bytes} {i : Inode} {name : PathName} {ino : Nat} :
    Minix.Lists view s i name ino ↔ ino ≠ 0 ∧ (name, ino) ∈ slotsOf view s i := by
  unfold Minix.Lists slotsOf
  simp only [List.mem_map, List.mem_range, Prod.mk.injEq]
  exact and_congr_right fun _ => exists_congr fun k => and_congr_right fun _ => And.comm

section Changes

variable {s s' : Fs} {view view' : Nat → Bytes} {safe safe' : Nat → Prop} {i i' : Inode}

/-- The safe blocks are the same, and the inode says the same about its file. -/
structure SameBlocks (s s' : Fs) (view view' : Nat → Bytes) (safe safe' : Nat → Prop) (i i' : Inode) :
    Prop where
  blocksizeBits : s'.blocksizeBits = s.blocksizeBits
  view : ∀ n, safe n → view' n = view n
  safe : ∀ n, safe n → safe' n
  file : i.SameFile i'

theorem SameBlocks.gather (same : SameBlocks s s' view view' safe safe' i i') (onDisk : OnDisk s view safe i)
    (leaf : Nat → Multiset Nat) :
    gather s'.indirCount view' leaf i'.data = gather s.indirCount view leaf i.data := by
  have count : s'.indirCount = s.indirCount := by
    unfold Fs.indirCount
    rw [same.blocksizeBits]
  rw [count, ← @gather_congr _ _ _ i.data leaf fun n member =>
    same.view n (onDisk.zones n (Multiset.mem_of_le arrays_le_zones member))]
  exact Finset.sum_congr rfl fun o inRange => by rw [same.file.data o (Finset.mem_range.mp inRange)]

theorem SameBlocks.indirCount (same : SameBlocks s s' view view' safe safe' i i') :
    s'.indirCount = s.indirCount := by
  unfold Fs.indirCount
  rw [same.blocksizeBits]

theorem SameBlocks.blocksize (same : SameBlocks s s' view view' safe safe' i i') :
    s'.blocksize = s.blocksize := by
  unfold Fs.blocksize
  rw [same.blocksizeBits]

theorem OnDisk.isPath (onDisk : OnDisk s view safe i) {p : Nat} (inside : p < i.size.toNat) :
    IsPath s.indirCount (blockToPath s.indirCount (p / s.blocksize)) := by
  have fits := onDisk.fits
  have bound : p / s.blocksize < addressable s.indirCount := by
    refine Nat.div_lt_of_lt_mul ?_
    rw [Nat.mul_comm]
    omega
  exact (blockToPath_isPath (m := s.indirCount) (Nat.two_pow_pos _) bound).1

/-- The block of every position is one of the zones of the file. -/
theorem OnDisk.safe_zoneAt (onDisk : OnDisk s view safe i) {p : Nat} (inside : p < i.size.toNat) :
    safe (zoneAt view s i p) :=
  onDisk.zones _ (zoneOf_mem (onDisk.isPath inside) (onDisk.mapped p inside))

theorem SameBlocks.zoneAt (same : SameBlocks s s' view view' safe safe' i i') (onDisk : OnDisk s view safe i)
    {p : Nat} (inside : p < i.size.toNat) : zoneAt view' s' i' p = zoneAt view s i p := by
  obtain ⟨o, rest, path, first⟩ := blockToPath_head s.indirCount (p / s.blocksize)
  unfold Filesystem.zoneAt
  rw [same.indirCount, same.blocksize]
  calc zoneOf view' i'.data (blockToPath s.indirCount (p / s.blocksize))
      = zoneOf view' i.data (blockToPath s.indirCount (p / s.blocksize)) := by
        rw [path, zoneOf, zoneOf, same.file.data o first]
    _ = zoneOf view i.data (blockToPath s.indirCount (p / s.blocksize)) :=
        zoneOf_congr_arrays (onDisk.isPath inside) fun n member =>
          same.view n (onDisk.zones n (Multiset.mem_of_le arrays_le_zones member))

theorem SameBlocks.onDisk (same : SameBlocks s s' view view' safe safe' i i')
    (onDisk : OnDisk s view safe i) : OnDisk s' view' safe' i' where
  size := same.file.size ▸ onDisk.size
  fits := by
    rw [same.file.size, same.indirCount, same.blocksize]
    exact onDisk.fits
  mapped p inside := by
    rw [same.file.size] at inside
    rw [same.zoneAt onDisk inside]
    exact onDisk.mapped p inside
  zones z member := by
    rw [Minix.zones, same.gather onDisk] at member
    exact same.safe z (onDisk.zones z member)

theorem SameBlocks.block (same : SameBlocks s s' view view' safe safe' i i') (onDisk : OnDisk s view safe i)
    {p : Nat} (inside : p < i.size.toNat) :
    view' (Filesystem.zoneAt view' s' i' p) = view (Filesystem.zoneAt view s i p) := by
  rw [same.zoneAt onDisk inside, same.view _ (onDisk.safe_zoneAt inside)]

theorem SameBlocks.lists (same : SameBlocks s s' view view' safe safe' i i') (onDisk : OnDisk s view safe i)
    (name : PathName) (ino : Nat) : Minix.Lists view' s' i' name ino ↔ Minix.Lists view s i name ino := by
  unfold Minix.Lists slotBlock slotPlace
  rw [same.file.size, same.blocksize]
  refine and_congr_right fun _ => exists_congr fun k => and_congr_right fun bound => ?_
  rw [same.block onDisk (by omega)]

theorem SameBlocks.bytesOf (same : SameBlocks s s' view view' safe safe' i i')
    (onDisk : OnDisk s view safe i) : bytesOf view' s' i' = bytesOf view s i := by
  unfold Minix.bytesOf
  rw [same.file.size, same.blocksize]
  refine List.map_congr_left fun k inRange => ?_
  rw [same.block onDisk (List.mem_range.mp inRange)]

theorem SameBlocks.slotsOf (same : SameBlocks s s' view view' safe safe' i i') (onDisk : OnDisk s view safe i) :
    slotsOf view' s' i' = slotsOf view s i := by
  unfold VFS.slotsOf slotBlock slotPlace
  rw [same.file.size, same.blocksize]
  refine List.map_congr_left fun k inRange => ?_
  rw [same.block onDisk (by have := List.mem_range.mp inRange; omega)]

/-- What an inode shows is told by what it says of its file and by its blocks. -/
theorem SameBlocks.depicts (same : SameBlocks s s' view view' safe safe' i i') {node : Node Nat PathName}
    (depicts : Depicts s view safe i node) : Depicts s' view' safe' i' node := by
  cases node with
  | dir parent entries =>
    have shows : ShowsDir s view safe i parent entries := depicts
    refine ⟨same.onDisk shows.toOnDisk, same.file.mode ▸ shows.mode, same.file.size ▸ shows.whole,
      fun ino => ?_, fun name noDot noDotDot ino => ?_⟩
    · rw [same.lists shows.toOnDisk]
      exact shows.up ino
    · rw [same.lists shows.toOnDisk]
      exact shows.down name noDot noDotDot ino
  | link target =>
    have shows : ShowsLink s view safe i target := depicts
    refine ⟨same.onDisk shows.toOnDisk, same.file.mode ▸ shows.mode, same.file.size ▸ shows.small, ?_⟩
    rw [same.bytesOf shows.toOnDisk]
    exact shows.target
  | file =>
    unfold Depicts at depicts ⊢
    rw [same.file.mode]
    exact depicts

end Changes

end MPStuBS.VFS
