import MPStuBS.TreeReading
import MPStuBS.VfsDevices

/-! What `Filesystem::read` returns. An unmapped block is read as block 0 of the device. -/
namespace MPStuBS.Filesystem

open Prog FsM Minix

theorem u64_natCast {n : Nat} (bound : n < 18446744073709551616) : u64 (n : Int) = n := by
  simp only [u64]
  omega

theorem take_eq_map (bytes : Bytes) (count : Nat) :
    ∀ start, take bytes start count = (List.range count).map fun k => bytes (start + k) := by
  induction count with
  | zero =>
    intro start
    rfl
  | succ n ih =>
    intro start
    rw [take, ih, List.range_succ_eq_map, List.map_cons, List.map_map]
    refine congrArg₂ _ rfl (List.map_congr_left fun k _ => ?_)
    simp only [Function.comp_apply, Nat.succ_eq_add_one]
    congr 1
    omega

@[simp] theorem length_take (bytes : Bytes) (start count : Nat) :
    (take bytes start count).length = count := by
  simp [take_eq_map]

theorem range_append_map (f : Nat → UInt8) (m n : Nat) :
    (List.range m).map f ++ (List.range n).map (fun k => f (m + k)) = (List.range (m + n)).map f := by
  rw [List.range_add, List.map_append, List.map_map]
  rfl

theorem split_add (a k b : Nat) : a + k = b * (a / b) + (a % b + k) := by
  rw [← Nat.add_assoc, Nat.div_add_mod]

theorem add_div_of_mod_add_lt {a k b : Nat} (inBlock : a % b + k < b) : (a + k) / b = a / b := by
  rw [split_add a k b, Nat.mul_add_div (by omega), Nat.div_eq_of_lt inBlock, Nat.add_zero]

theorem add_mod_of_mod_add_lt {a k b : Nat} (inBlock : a % b + k < b) : (a + k) % b = a % b + k := by
  rw [split_add a k b, Nat.mul_add_mod, Nat.mod_eq_of_lt inBlock]

theorem next_block {a n b : Nat} (positive : 0 < b) (whole : a % b + n = b) :
    a / b + 1 = (a + n) / b ∧ 0 = (a + n) % b := by
  rw [split_add a n b, whole, Nat.mul_add_div positive, Nat.mul_add_mod, Nat.div_self positive,
    Nat.mod_self]
  exact ⟨rfl, rfl⟩

/-- An inode that is in memory, with a size that its block tree can address. -/
structure ValidInode (s : Fs) (i : Inode) : Prop where
  live : i.deleted = false
  blocksize : 9 ≤ s.blocksizeBits ∧ s.blocksizeBits ≤ 12
  size : 0 ≤ i.size
  fits : i.size ≤ (addressable s.indirCount * s.blocksize : Nat)

/-- The zone of the block that a position is in. -/
def zoneAt (contents : Nat → Bytes) (s : Fs) (i : Inode) (p : Nat) : Nat :=
  zoneOf contents i.data (blockToPath s.indirCount (p / s.blocksize))

/-- A byte of the file; unmapped blocks are zero. -/
def byteAt (contents : Nat → Bytes) (s : Fs) (i : Inode) (p : Nat) : UInt8 :=
  if zoneAt contents s i p = 0 then 0 else contents (zoneAt contents s i p) (p % s.blocksize)

/-- How many bytes there are to be read. -/
def available (i : Inode) (count pos : Nat) : Nat := min count (i.size.toNat - pos)

/-- The blocks of the file, with its indirect blocks. -/
def BelongsTo (contents : Nat → Bytes) (s : Fs) (i : Inode) (n : Nat) : Prop :=
  ∃ p, n ∈ trailOf contents i.data (blockToPath s.indirCount (p / s.blocksize))

variable {disk : Disk Errno} {allowed : FsFault → Prop} {ptr : Nat} {w : World Fs}

theorem ValidInode.entries {s : Fs} {i : Inode} (_ : ValidInode s i) : 0 < s.indirCount :=
  Nat.two_pow_pos _

theorem ValidInode.small {s : Fs} {i : Inode} (valid : ValidInode s i) : s.indirCount ≤ 2147483648 :=
  show 2 ^ (s.blocksizeBits - 2) ≤ 2 ^ 31 from
    Nat.pow_le_pow_right Nat.two_pos (by have := valid.blocksize.2; omega)

theorem ValidInode.positive {s : Fs} {i : Inode} (_ : ValidInode s i) : 0 < s.blocksize :=
  Nat.two_pow_pos _

theorem ValidInode.bounds {s : Fs} {i : Inode} (valid : ValidInode s i) :
    i.size < 9223372036854775808 := by
  have fits := valid.fits
  obtain ⟨low, high⟩ := valid.blocksize
  have cases : s.blocksizeBits = 9 ∨ s.blocksizeBits = 10 ∨ s.blocksizeBits = 11 ∨
      s.blocksizeBits = 12 := by omega
  unfold Fs.indirCount Fs.blocksize addressable at fits
  rcases cases with h | h | h | h <;> rw [h] at fits <;> norm_num at fits <;> omega

theorem ValidInode.block_lt {s : Fs} {i : Inode} (valid : ValidInode s i) {p : Nat}
    (inside : p < i.size.toNat) : p / s.blocksize < addressable s.indirCount := by
  have fits := valid.fits
  refine Nat.div_lt_of_lt_mul ?_
  rw [Nat.mul_comm]
  omega

/-- Either the result or the error of a call of `fix` that failed. -/
def Reads (disk : Disk Errno) (bytes : List UInt8) : Except Errno (List UInt8) → Prop
  | .ok result => result = bytes
  | .error e => ∃ clock number, disk.fails clock number = some e

/-- The sizes that `read` computes in unsigned numbers, before the end of the file. -/
theorem u64_size {size : Int} (nonneg : 0 ≤ size) (bound : size < 9223372036854775808) : u64 size = size.toNat := by
  conv_lhs => rw [← Int.toNat_of_nonneg nonneg]
  exact u64_natCast (by omega)

theorem u64_left {size : Int} {pos n : Nat} (nonneg : 0 ≤ size) (bound : size < 9223372036854775808)
    (inside : pos + n < size.toNat) : u64 (size - pos - n) = size.toNat - pos - n := by
  rw [show size - pos - n = ((size.toNat - pos - n : Nat) : Int) by omega]
  exact u64_natCast (by omega)

/-- What is taken out of a block are the bytes of the file from there on, up to the end of the block. -/
theorem take_zone {contents : Nat → Bytes} {s : Fs} {i : Inode} {pos m n : Nat}
    (inBlock : (pos + m) % s.blocksize + n ≤ s.blocksize) :
    take (contents (zoneAt contents s i (pos + m))) ((pos + m) % s.blocksize) n = (List.range n).map fun k =>
      contents (zoneAt contents s i (pos + (m + k))) ((pos + (m + k)) % s.blocksize) := by
  rw [take_eq_map]
  refine List.map_congr_left fun k inRange => ?_
  have less : (pos + m) % s.blocksize + k < s.blocksize := by
    have below := List.mem_range.mp inRange
    omega
  rw [← Nat.add_assoc, add_mod_of_mod_add_lt less]
  simp only [zoneAt, add_div_of_mod_add_lt less]

/-- The loop copies byte for byte from the blocks that `get_block` returns. -/
theorem readLoop_reads {count pos : Nat} (bound : pos < 9223372036854775808) (fuel : Nat) :
    ∀ {done : List UInt8} {block offset : Nat} {w : World Fs},
      ValidInode w.state (w.state.inodes ptr) →
      done = (List.range done.length).map (fun k =>
        w.device.contents (zoneAt w.device.contents w.state (w.state.inodes ptr) (pos + k))
          ((pos + k) % w.state.blocksize)) →
      done.length ≤ available (w.state.inodes ptr) count pos → count < done.length + fuel →
      (done.length < available (w.state.inodes ptr) count pos →
        block = (pos + done.length) / w.state.blocksize ∧
          offset = (pos + done.length) % w.state.blocksize) →
      Meets disk allowed (readLoop ptr count pos fuel block offset done)
        (fun r w' => w'.state = w.state ∧ w.device.Extends w'.device ∧
          Reads disk ((List.range (available (w.state.inodes ptr) count pos)).map fun k =>
            w.device.contents (zoneAt w.device.contents w.state (w.state.inodes ptr) (pos + k))
              ((pos + k) % w.state.blocksize)) r) w := by
  induction fuel with
  | zero =>
    intro done block offset w valid _ short fuel _
    have := Nat.min_le_left count ((w.state.inodes ptr).size.toNat - pos)
    unfold available at short
    omega
  | succ fuel ih =>
    intro done block offset w valid copied short enough place
    have positive := valid.positive
    have small := valid.bounds
    have nonneg := valid.size
    have sizeEq := u64_size nonneg (by omega)
    have short' : done.length ≤ (w.state.inodes ptr).size.toNat - pos ∧ done.length ≤ count := by
      unfold available at short
      omega
    have posEq : u64 ((pos : Int) + (done.length : Int)) = pos + done.length := by
      rw [← Int.natCast_add]
      exact u64_natCast (by omega)
    simp only [readLoop, meets_bind, meets_get, meets_inode valid.live, sizeEq, posEq]
    split
    · rename_i ended
      refine meets_pure.mpr ⟨rfl, .refl _, ?_⟩
      have full : available (w.state.inodes ptr) count pos = done.length := by
        unfold available
        omega
      rw [full]
      exact copied
    rename_i more
    have inside : pos + done.length < (w.state.inodes ptr).size.toNat := by omega
    obtain ⟨rfl, rfl⟩ := place (by unfold available; omega)
    simp only [meets_bind]
    refine (getBlock_finds valid.live valid.entries valid.small (valid.block_lt inside)).mono ?_
    rintro r w₁ ⟨state₁, device₁, finds⟩
    cases r with
    | error e => exact ⟨state₁, device₁, finds⟩
    | ok blockno =>
      simp only [meets_bind]
      refine meets_fix (fun _ => ?_) (fun e failure => ?_)
      · set n := min (w.state.blocksize - (pos + done.length) % w.state.blocksize)
          (min (u64 ((w.state.inodes ptr).size - pos - done.length)) (count - done.length)) with nDef
        have leftEq := u64_left nonneg (by omega) inside
        have some : 0 < n ∧ n ≤ available (w.state.inodes ptr) count pos - done.length := by
          have := Nat.mod_lt (pos + done.length) positive
          unfold available
          omega
        have loaded : (w₁.device.hold blockno).tick.load disk w₁.device.next
            = Option.some (w.device.contents blockno) := by
          rw [Device.load_hold, device₁.contents]
        simp only [meets_bind]
        rw [meets_load loaded, meets_bind, meets_unfix]
        set w₂ : World Fs := ⟨w₁.state, (w₁.device.hold blockno).tick.exec disk w₁.device.next .unfix⟩
        have device₂ : w.device.Extends w₂.device :=
          (device₁.trans (Device.extends_hold _ _)).unfix device₁.next
            (congrArg Block.dirty (Device.blocks_hold _ _))
        have state₂ : w₂.state = w.state := state₁
        have zone : blockno = zoneAt w.device.contents w.state (w.state.inodes ptr)
            (pos + done.length) := finds
        have next := @ih (done ++ take (w.device.contents blockno)
          ((pos + done.length) % w.state.blocksize) n)
          ((pos + done.length) / w.state.blocksize + 1) 0 w₂
        rw [state₂, device₂.contents, List.length_append, length_take] at next
        refine (next valid ?_ (by omega) (by omega) ?_).mono ?_
        · rw [zone, take_zone (by omega)]
          exact (congrArg (· ++ _) copied).trans (range_append_map _ _ _)
        · intro moreLeft
          have whole : (pos + done.length) % w.state.blocksize + n = w.state.blocksize := by
            unfold available at moreLeft
            omega
          rw [← Nat.add_assoc]
          exact next_block positive whole
        · rintro r w' ⟨state, device, reads⟩
          exact ⟨state, device₂.trans device, reads⟩
      · exact ⟨state₁, device₁.tick, _, _, failure⟩

/-- Read returns the bytes of the blocks that `get_block` finds, block 0 for a hole. -/
theorem read_reads {count pos : Nat} (valid : ValidInode w.state (w.state.inodes ptr))
    (bound : pos < 9223372036854775808) :
    Meets disk allowed (read ptr count pos)
      (fun r w' => w'.state = w.state ∧ w.device.Extends w'.device ∧
        Reads disk ((List.range (available (w.state.inodes ptr) count pos)).map fun k =>
          w.device.contents (zoneAt w.device.contents w.state (w.state.inodes ptr) (pos + k))
            ((pos + k) % w.state.blocksize)) r) w := by
  have blockEq : u64 ((pos : Int) / (w.state.blocksize : Int)) = pos / w.state.blocksize := by
    rw [← Int.natCast_ediv]
    exact u64_natCast (Nat.lt_of_le_of_lt (Nat.div_le_self _ _) (by omega))
  have offsetEq : u64 ((pos : Int) % (w.state.blocksize : Int)) = pos % w.state.blocksize := by
    rw [← Int.natCast_emod]
    exact u64_natCast (Nat.lt_of_le_of_lt (Nat.mod_le _ _) (by omega))
  simp only [read, meets_bind, meets_get, blockEq, offsetEq]
  exact readLoop_reads bound (count + 1) valid rfl (Nat.zero_le _) (by simp) fun _ => ⟨rfl, rfl⟩

/-- The world with other contents on its device. -/
def onDisk (w : World Fs) (contents : Nat → Bytes) : World Fs :=
  ⟨w.state, { w.device with contents := contents }⟩

theorem zoneOf_congr {contents contents' : Nat → Bytes} {data : Nat → Nat} {path : List Nat}
    (same : ∀ n ∈ trailOf contents data path, contents' n = contents n) :
    zoneOf contents' data path = zoneOf contents data path := by
  cases path with
  | nil => rfl
  | cons offset rest => exact zoneVia_congr same

theorem zoneVia_mem_trail {contents : Nat → Bytes} {path : List Nat} :
    ∀ {key : Nat}, zoneVia contents key path ≠ 0 →
      zoneVia contents key path ∈ trailVia contents key path := by
  induction path with
  | nil =>
    intro key nonzero
    simp_all [zoneVia, trailVia]
  | cons offset rest ih =>
    intro key nonzero
    simp only [zoneVia, trailVia] at nonzero ⊢
    split
    · simp_all
    · rename_i keyNonzero
      rw [if_neg keyNonzero] at nonzero
      exact List.mem_cons_of_mem _ (ih nonzero)

theorem belongsTo_zoneAt {contents : Nat → Bytes} {s : Fs} {i : Inode} {p : Nat}
    (mapped : zoneAt contents s i p ≠ 0) : BelongsTo contents s i (zoneAt contents s i p) := by
  refine ⟨p, ?_⟩
  unfold zoneAt zoneOf at mapped ⊢
  unfold trailOf
  cases path : blockToPath s.indirCount (p / s.blocksize) with
  | nil => simp [path] at mapped
  | cons offset rest =>
    simp only [path] at mapped ⊢
    exact zoneVia_mem_trail mapped

theorem not_belongsTo_zero {contents : Nat → Bytes} {s : Fs} {i : Inode} :
    ¬ BelongsTo contents s i 0 := by
  rintro ⟨p, member⟩
  unfold trailOf at member
  split at member
  · simp at member
  · exact zero_notMem_trailVia member

/-- On every device that agrees on the blocks of the file, `read` returns its bytes with
zeroes in the holes, unless a block could not be fixed. -/
def ReadsHolesAsZeroes (w : World Fs) (ptr count pos : Nat) : Prop :=
  ∀ (disk : Disk Errno) (contents : Nat → Bytes),
    (∀ n, BelongsTo w.device.contents w.state (w.state.inodes ptr) n →
      contents n = w.device.contents n) →
    Returns disk (read ptr count pos)
      (fun r _ => Reads disk ((List.range (available (w.state.inodes ptr) count pos)).map fun k =>
        byteAt w.device.contents w.state (w.state.inodes ptr) (pos + k)) r) (onDisk w contents)

theorem read_zeroes_iff_mapped (w : World Fs) (ptr count pos : Nat)
    (valid : ValidInode w.state (w.state.inodes ptr)) (bound : pos < 9223372036854775808) :
    ReadsHolesAsZeroes w ptr count pos ↔
      ∀ k < available (w.state.inodes ptr) count pos,
        zoneAt w.device.contents w.state (w.state.inodes ptr) (pos + k) ≠ 0 := by
  constructor
  · intro zeroes k less hole
    set contents := Function.update w.device.contents 0 fun _ => 1 with contentsDef
    have same : ∀ n, BelongsTo w.device.contents w.state (w.state.inodes ptr) n →
        contents n = w.device.contents n := by
      intro n belongs
      refine Function.update_of_ne ?_ _ _
      rintro rfl
      exact not_belongsTo_zero belongs
    let disk : Disk Errno := ⟨false, fun _ _ => none⟩
    have holeToo : zoneAt contents w.state (w.state.inodes ptr) (pos + k) = 0 :=
      (zoneOf_congr fun n onTrail => same n ⟨pos + k, onTrail⟩).trans hole
    obtain ⟨r, after, ran, expected⟩ := (zeroes disk contents same).run
    have reads : Returns disk (read ptr count pos) _ (onDisk w contents) := read_reads valid bound
    obtain ⟨_, _, actual⟩ := reads.of_run ran
    cases r with
    | error e =>
      obtain ⟨_, _, failure⟩ := expected
      cases failure
    | ok bytes =>
      have actual : bytes = (List.range (available (w.state.inodes ptr) count pos)).map fun k =>
          contents (zoneAt contents w.state (w.state.inodes ptr) (pos + k))
            ((pos + k) % w.state.blocksize) := actual
      have equal := congrArg (fun l => l[k]?) (expected.symm.trans actual)
      simp only [List.getElem?_map, List.getElem?_range less, Option.map_some,
        Option.some.injEq] at equal
      rw [byteAt, if_pos hole] at equal
      have one : contents (zoneAt contents w.state (w.state.inodes ptr) (pos + k))
          ((pos + k) % w.state.blocksize) = 1 := by
        rw [holeToo]
        simp [contentsDef]
      exact absurd (equal.trans one) (by decide)
  · intro mapped disk contents same
    refine (read_reads (w := onDisk w contents) valid bound).mono fun r _ ⟨_, _, reads⟩ => ?_
    have bytes : ((List.range (available (w.state.inodes ptr) count pos)).map fun k =>
        contents (zoneAt contents w.state (w.state.inodes ptr) (pos + k))
          ((pos + k) % w.state.blocksize))
        = (List.range (available (w.state.inodes ptr) count pos)).map fun k =>
          byteAt w.device.contents w.state (w.state.inodes ptr) (pos + k) := by
      refine List.map_congr_left fun k inRange => ?_
      have nonzero := mapped k (List.mem_range.mp inRange)
      have zone : zoneAt contents w.state (w.state.inodes ptr) (pos + k)
          = zoneAt w.device.contents w.state (w.state.inodes ptr) (pos + k) :=
        zoneOf_congr fun n onTrail => same n ⟨pos + k, onTrail⟩
      rw [byteAt, if_neg nonzero, zone, same _ (belongsTo_zoneAt nonzero)]
    rw [← bytes]
    exact reads

/-- A file `f` of one byte without a zone is open; the inode objects are the root's, then its. -/
def sparse : World Fs :=
  let image := SmallImage.image (SmallImage.imap 7) (SmallImage.zmap 3)
    (SmallImage.record 2 SmallImage.fileMode 1 1 0
      (SmallImage.record 1 SmallImage.dirMode 2 192 6 SmallImage.zeroes))
    (Minix.writeDirent SmallImage.rootEntries 2 2 SmallImage.nameF)
  match VFS.session ⟨false, VFS.neverFails⟩ image
    [.mount 10 .all, .open SmallImage.nameF 0] with
  | .ok (_, w) => w
  | .error _ => .initial image

theorem sparse_root_read : ReadsHolesAsZeroes sparse 0 192 0 := by
  refine (read_zeroes_iff_mapped sparse 0 192 0 ⟨?_, ?_, ?_, ?_⟩ (by decide)).mpr ?_
  all_goals decide +kernel

/-- The byte in the hole comes from block 0, whatever that holds. -/
theorem sparse_file_read : ¬ ReadsHolesAsZeroes sparse 1 1 0 := by
  intro zeroes
  have none : ∀ o < 10, (sparse.state.inodes 1).data o = 0 := by decide +kernel
  have same : ∀ n, BelongsTo sparse.device.contents sparse.state (sparse.state.inodes 1) n →
      (1 : Bytes) = sparse.device.contents n := by
    rintro n ⟨p, onTrail⟩
    obtain ⟨offset, rest, path, bound⟩ :=
      blockToPath_head sparse.state.indirCount (p / sparse.state.blocksize)
    rw [path, trailOf, none offset bound] at onTrail
    cases rest <;> simp [trailVia] at onTrail
  obtain ⟨r, after, ran, expected⟩ := (zeroes ⟨false, VFS.neverFails⟩ (fun _ => 1) same).run
  have result : ((read 1 1 (0 : Nat)).run ⟨false, VFS.neverFails⟩ (onDisk sparse fun _ => 1)).map
      Prod.fst = .ok (.ok [1]) := by
    decide +kernel
  rw [ran] at result
  obtain rfl : r = .ok [1] := Except.ok.inj result
  exact absurd expected (show ¬ ([1] : List UInt8) = _ by decide +kernel)

end MPStuBS.Filesystem
