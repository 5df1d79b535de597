import MPStuBS.PeekingSteps
import MPStuBS.FileReading
import MPStuBS.ZoneAllocation
import MPStuBS.PathTermination

/-! What `find_dirent` finds among the entries of a directory, and what `get_link` reads. -/
namespace MPStuBS.Minix

open Prog FsM Filesystem

/-- The name of an entry: up to 60 bytes before a null byte. -/
def nameAt (bytes : Bytes) (k : Nat) : List UInt8 := (take bytes (64 * k + 4) 60).takeWhile (· != 0)

/-- The block of the file that has a slot. -/
def slotBlock (contents : Nat → Bytes) (s : Fs) (i : Inode) (k : Nat) : Bytes :=
  contents (zoneAt contents s i (64 * k))

/-- The place of a slot in its block. -/
def slotPlace (s : Fs) (k : Nat) : Nat := 64 * k % s.blocksize / 64

/-- Some live entry of the directory has this name and inode number. -/
def Lists (contents : Nat → Bytes) (s : Fs) (i : Inode) (name : List UInt8) (ino : Nat) : Prop :=
  ino ≠ 0 ∧ ∃ k < i.size.toNat / 64, direntInode (slotBlock contents s i k) (slotPlace s k) = ino ∧
    nameAt (slotBlock contents s i k) (slotPlace s k) = name

section Names

variable {bytes : Bytes} {name : List UInt8}

theorem strncmpEq_takeWhile (name : List UInt8) : ∀ {start count : Nat}, 0 ∉ name → name.length ≤ count →
    ((name.length < count → bytes (start + name.length) = 0) ∧ strncmpEq bytes name start = true ↔
      (take bytes start count).takeWhile (· != 0) = name) := by
  induction name with
  | nil =>
    intro start count _ _
    cases count with
    | zero => simp [take, strncmpEq]
    | succ count =>
      by_cases zero : bytes start = 0 <;> simp [take, strncmpEq, zero]
  | cons c name ih =>
    intro start count noNull short
    obtain _ | count := count
    · simp at short
    simp only [List.mem_cons, not_or] at noNull
    simp only [List.length_cons, Nat.add_le_add_iff_right] at short
    have rest := @ih (start + 1) count noNull.2 short
    rw [take, strncmpEq]
    by_cases same : c = bytes start
    · have nonzero : bytes start ≠ 0 := fun zero => noNull.1 (same.trans zero).symm
      rw [List.takeWhile_cons_of_pos (by simpa using nonzero), if_neg (not_not.mpr same),
        if_neg (Ne.symm noNull.1), same, List.cons.injEq, eq_self, true_and, ← rest, List.length_cons,
        Nat.add_lt_add_iff_right, show start + (name.length + 1) = start + 1 + name.length by omega]
    · rw [if_pos same]
      simp only [Bool.false_eq_true, and_false, false_iff]
      intro eq
      by_cases zero : bytes start = 0
      · simp [zero] at eq
      · rw [List.takeWhile_cons_of_pos (by simpa using zero)] at eq
        exact same (List.cons.inj eq).1.symm

/-- `minix_namecompare` compares with the name of the entry. -/
theorem namecompare_iff (noNull : 0 ∉ name) (short : name.length ≤ 60) (k : Nat) :
    namecompare name bytes k = true ↔ nameAt bytes k = name := by
  rw [nameAt, ← strncmpEq_takeWhile name noNull short]
  unfold namecompare
  split
  · rename_i longer
    simp only [Bool.false_eq_true, false_iff, not_and]
    exact fun ends => absurd (ends longer.1) longer.2
  · rename_i fits
    simp only [not_and, not_not] at fits
    exact ⟨fun same => ⟨fits, same⟩, fun both => both.2⟩

theorem length_nameAt (bytes : Bytes) (k : Nat) : (nameAt bytes k).length ≤ 60 := by
  have shorter := (List.takeWhile_sublist (· != (0 : UInt8)) (l := take bytes (64 * k + 4) 60)).length_le
  rwa [length_take] at shorter

theorem findName_spec (n : Nat) : ∀ k, match findName bytes name n k with
    | some j => k ≤ j ∧ j < k + n ∧ direntInode bytes j ≠ 0 ∧ namecompare name bytes j = true
    | none => ∀ j, k ≤ j → j < k + n → direntInode bytes j ≠ 0 → namecompare name bytes j = false := by
  induction n with
  | zero =>
    intro k j low high
    omega
  | succ n ih =>
    intro k
    rw [findName]
    split
    · rename_i found
      split at found
      · rename_i here
        obtain rfl := Option.some.inj found
        exact ⟨Nat.le_refl _, by omega, here⟩
      · have later := ih (k + 1)
        rw [found] at later
        exact ⟨by omega, by omega, later.2.2⟩
    · rename_i found
      split at found
      · cases found
      · rename_i other
        have later := ih (k + 1)
        rw [found] at later
        intro j low high live
        rcases Nat.eq_or_lt_of_le low with rfl | above
        · simpa [live] using other
        · exact later j above (by omega) live

end Names

section Slots

/-- The slots that a block of a directory with `slots` slots has. -/
def slotsIn (slots per lblock : Nat) : Nat := if lblock = slots / per then slots % per else per

variable {slots per lblock : Nat}

theorem lblock_mul_lt (positive : 0 < per)
    (inside : lblock < (64 * slots + 64 * per - 1) / (64 * per)) : lblock * per < slots := by
  have le := (Nat.le_div_iff_mul_le (by omega)).mp (Nat.succ_le_of_lt inside)
  rw [Nat.succ_mul, Nat.mul_left_comm] at le
  omega

theorem slotsIn_le (positive : 0 < per) : slotsIn slots per lblock ≤ per := by
  unfold slotsIn
  split
  · exact Nat.le_of_lt (Nat.mod_lt _ positive)
  · exact Nat.le_refl _

theorem next_le (positive : 0 < per) (started : lblock * per < slots) (other : lblock ≠ slots / per) :
    (lblock + 1) * per ≤ slots := by
  have le : lblock ≤ slots / per := (Nat.le_div_iff_mul_le positive).mpr (Nat.le_of_lt started)
  exact (Nat.le_div_iff_mul_le positive).mp (Nat.lt_of_le_of_ne le other)

theorem slot_lt {j : Nat} (positive : 0 < per) (started : lblock * per < slots)
    (inside : j < slotsIn slots per lblock) : lblock * per + j < slots := by
  unfold slotsIn at inside
  split at inside
  · rename_i last
    have whole := Nat.div_add_mod' slots per
    rw [last]
    omega
  · rename_i other
    have next := next_le positive started other
    rw [Nat.succ_mul] at next
    omega

theorem lt_slots {k : Nat} (bound : k < slots) (early : k < (lblock + 1) * per) :
    k < lblock * per + slotsIn slots per lblock := by
  unfold slotsIn
  split
  · rename_i last
    have whole := Nat.div_add_mod' slots per
    rw [last]
    omega
  · rwa [Nat.succ_mul] at early

variable {contents : Nat → Bytes} {s : Fs} {i : Inode}

theorem slots_per_block (valid : ValidInode s i) : s.blocksize = 64 * (s.blocksize / 64) ∧
    0 < s.blocksize / 64 := by
  obtain ⟨k, eq⟩ := Nat.exists_eq_add_of_le valid.blocksize.1
  have positive : 0 < 2 ^ k := Nat.two_pow_pos k
  have whole : s.blocksize = 64 * (8 * 2 ^ k) := by
    unfold Fs.blocksize
    rw [eq, Nat.pow_add]
    omega
  omega

/-- The slots of a logical block. -/
theorem slot_place (valid : ValidInode s i) {j : Nat} (inside : j < s.blocksize / 64) (lblock : Nat) :
    64 * (lblock * (s.blocksize / 64) + j) / s.blocksize = lblock ∧
      slotPlace s (lblock * (s.blocksize / 64) + j) = j := by
  obtain ⟨whole, positive⟩ := slots_per_block valid
  set per := s.blocksize / 64 with perDef
  unfold slotPlace
  rw [whole, Nat.mul_div_mul_left _ _ (by omega), Nat.mul_mod_mul_left, Nat.mul_div_cancel_left _ (by omega),
    Nat.mul_comm lblock per, Nat.mul_add_div positive, Nat.mul_add_mod, Nat.div_eq_of_lt inside,
    Nat.mod_eq_of_lt inside]
  exact ⟨Nat.add_zero _, rfl⟩

end Slots

section Finding

variable {disk : Disk Errno} {allowed : FsFault → Prop} {dir : Nat} {name : List UInt8} {w : World Fs}

/-- A directory in memory, and a name to look for in it. -/
structure Searches (w : World Fs) (dir : Nat) (name : List UInt8) : Prop where
  valid : ValidInode w.state (w.state.inodes dir)
  whole : (w.state.inodes dir).size.toNat % 64 = 0
  noNull : 0 ∉ name
  short : name.length ≤ 60

/-- What `find_dirent` returns: the fixed block of an entry with the name, if there is one. -/
def Found (disk : Disk Errno) (w : World Fs) (dir : Nat) (name : List UInt8) (w' : World Fs) :
    Except Errno (Option (Nat × Nat)) → Prop
  | .error _ => False
  | .ok none => w.device.Extends w'.device ∧
      ∀ ino, ¬ Lists w.device.contents w.state (w.state.inodes dir) name ino
  | .ok (some (block, k)) => w.device.Extends w'.device ∧ w.device.next ≤ block ∧
      (w'.device.blocks block).dirty = false ∧ ∃ bytes, w'.device.load disk block = some bytes ∧
        Lists w.device.contents w.state (w.state.inodes dir) name (direntInode bytes k)

theorem dirBlockLastByte_slots {lblock : Nat} (valid : ValidInode w.state (w.state.inodes dir))
    (whole : (w.state.inodes dir).size.toNat % 64 = 0) {post : Nat → World Fs → Prop} :
    Meets disk allowed (dirBlockLastByte dir lblock) post w ↔
      post (64 * slotsIn ((w.state.inodes dir).size.toNat / 64) (w.state.blocksize / 64) lblock) w := by
  obtain ⟨perWhole, positive⟩ := slots_per_block valid
  have size : u64 (w.state.inodes dir).size = (w.state.inodes dir).size.toNat := by
    have bounds := valid.bounds
    have nonneg := valid.size
    unfold u64
    omega
  set slots := (w.state.inodes dir).size.toNat / 64 with slotsDef
  set per := w.state.blocksize / 64 with perDef
  have sizeEq : (w.state.inodes dir).size.toNat = 64 * slots := by omega
  have last : (if lblock = 64 * slots / (64 * per) then 64 * slots % (64 * per) else 64 * per) =
      64 * slotsIn slots per lblock := by
    unfold slotsIn
    rw [Nat.mul_div_mul_left _ _ (by omega), Nat.mul_mod_mul_left]
    split <;> rfl
  simp only [dirBlockLastByte, meets_bind, meets_get, meets_inode valid.live, size, sizeEq, perWhole, last]
  rw [if_neg (by omega), meets_pure]

/-- How far the blocks of a directory reach. -/
theorem dirNumBlocks_slots (valid : ValidInode w.state (w.state.inodes dir))
    (whole : (w.state.inodes dir).size.toNat % 64 = 0) : dirNumBlocks w.state (w.state.inodes dir) =
      (64 * ((w.state.inodes dir).size.toNat / 64) + 64 * (w.state.blocksize / 64) - 1) /
        (64 * (w.state.blocksize / 64)) := by
  obtain ⟨perWhole, _⟩ := slots_per_block valid
  have bounds := valid.bounds
  have nonneg := valid.size
  have size : u64 (w.state.inodes dir).size = (w.state.inodes dir).size.toNat := by
    unfold u64
    omega
  unfold dirNumBlocks
  rw [size, ← perWhole, show (w.state.inodes dir).size.toNat = 64 * ((w.state.inodes dir).size.toNat / 64) by omega,
    Nat.mul_div_cancel_left _ (by omega)]

/-- All slots are before the end of the last block. -/
theorem slot_before_end (valid : ValidInode w.state (w.state.inodes dir))
    (whole : (w.state.inodes dir).size.toNat % 64 = 0) {k lblock : Nat}
    (bound : k < (w.state.inodes dir).size.toNat / 64)
    (done : dirNumBlocks w.state (w.state.inodes dir) ≤ lblock) : k < lblock * (w.state.blocksize / 64) := by
  obtain ⟨_, positive⟩ := slots_per_block valid
  rw [dirNumBlocks_slots valid whole] at done
  set slots := (w.state.inodes dir).size.toNat / 64 with slotsDef
  set per := w.state.blocksize / 64 with perDef
  by_contra late
  have more : lblock < (64 * slots + 64 * per - 1) / (64 * per) := by
    refine (Nat.le_div_iff_mul_le (by omega)).mpr ?_
    rw [Nat.succ_mul, Nat.mul_left_comm]
    omega
  omega

/-- A block of a directory is read. -/
structure ReadsSlots (disk : Disk Errno) (w : World Fs) (dir lblock block : Nat) (bytes : Bytes) (d : Device) :
    Prop where
  device : w.device.Extends d
  late : w.device.next ≤ block
  clean : (d.blocks block).dirty = false
  load : d.load disk block = some bytes
  started : lblock * (w.state.blocksize / 64) < (w.state.inodes dir).size.toNat / 64
  slots : ∀ j < slotsIn ((w.state.inodes dir).size.toNat / 64) (w.state.blocksize / 64) lblock,
    slotPlace w.state (lblock * (w.state.blocksize / 64) + j) = j ∧
      slotBlock w.device.contents w.state (w.state.inodes dir) (lblock * (w.state.blocksize / 64) + j) = bytes

theorem meets_dirBlock {α : Type} {lblock : Nat} {rest : Nat → Nat → FsM (Except Errno α)}
    {post : Except Errno α → World Fs → Prop} {d₁ : Device} (valid : ValidInode w.state (w.state.inodes dir))
    (whole : (w.state.inodes dir).size.toNat % 64 = 0) (device : w.device.Extends d₁)
    (inside : lblock < dirNumBlocks w.state (w.state.inodes dir))
    (failed : ∀ e d, (∃ clock number, disk.fails clock number = some e) → w.device.Extends d →
      post (.error e) ⟨w.state, d⟩)
    (read : ∀ block bytes d, ReadsSlots disk w dir lblock block bytes d → Meets disk allowed (rest block
      (64 * slotsIn ((w.state.inodes dir).size.toNat / 64) (w.state.blocksize / 64) lblock)) post ⟨w.state, d⟩) :
    Meets disk allowed (do
      match ← getBlock dir lblock false with
      | .error e => Pure.pure (.error e)
      | .ok blockno => do
        match ← fix blockno with
        | .error e => Pure.pure (.error e)
        | .ok block => do
          let lastByte ← dirBlockLastByte dir lblock
          rest block lastByte) post ⟨w.state, d₁⟩ := by
  obtain ⟨perWhole, positive⟩ := slots_per_block valid
  have started : lblock * (w.state.blocksize / 64) < (w.state.inodes dir).size.toNat / 64 := by
    rw [dirNumBlocks_slots valid whole] at inside
    exact lblock_mul_lt positive inside
  have addressed : lblock < addressable w.state.indirCount := by
    have start : 64 * (lblock * (w.state.blocksize / 64)) < (w.state.inodes dir).size.toNat := by omega
    have block := valid.block_lt start
    rwa [Nat.mul_left_comm, ← perWhole, Nat.mul_div_cancel _ valid.positive] at block
  simp only [meets_bind]
  refine (getBlock_finds (w := ⟨w.state, d₁⟩) valid.live valid.entries valid.small addressed).mono ?_
  rintro r ⟨s₂, d₂⟩ ⟨state₂, device₂, finds⟩
  obtain rfl : s₂ = w.state := state₂
  have device₂ : w.device.Extends d₂ := device.trans device₂
  cases r with
  | error e => exact meets_pure.mpr (failed e d₂ finds device₂)
  | ok blockno =>
    obtain rfl : blockno = zoneOf d₁.contents (w.state.inodes dir).data
      (blockToPath w.state.indirCount lblock) := finds
    rw [device.contents]
    set zone := zoneOf w.device.contents (w.state.inodes dir).data
      (blockToPath w.state.indirCount lblock) with zoneDef
    simp only [meets_bind]
    refine meets_fix (fun _ => ?_) fun e failure => meets_pure.mpr (failed e _ ⟨_, _, failure⟩ device₂.tick)
    have device₃ := device₂.trans (Device.extends_hold d₂ zone)
    have loaded : (d₂.hold zone).tick.load disk d₂.next = some (w.device.contents zone) := by
      rw [Device.load_hold, device₂.contents]
    rw [meets_bind, dirBlockLastByte_slots (w := ⟨w.state, (d₂.hold zone).tick⟩) valid whole]
    refine read d₂.next _ _ ⟨device₃, device₂.next, congrArg Block.dirty (Device.blocks_hold _ _), loaded, started,
      fun j less => ?_⟩
    obtain ⟨block, place⟩ := slot_place valid (Nat.lt_of_lt_of_le less (slotsIn_le positive)) lblock
    refine ⟨place, ?_⟩
    unfold slotBlock zoneAt
    rw [block]

theorem findDirentLoop_finds (reliable : Reliable disk) (searches : Searches w dir name) (n : Nat) :
    ∀ {lblock : Nat} {v : World Fs}, v.state = w.state → w.device.Extends v.device →
      lblock + n = dirNumBlocks w.state (w.state.inodes dir) →
      (∀ k < (w.state.inodes dir).size.toNat / 64, k < lblock * (w.state.blocksize / 64) →
        direntInode (slotBlock w.device.contents w.state (w.state.inodes dir) k) (slotPlace w.state k) ≠ 0 →
        nameAt (slotBlock w.device.contents w.state (w.state.inodes dir) k) (slotPlace w.state k) ≠ name) →
      Meets disk allowed (findDirentLoop dir name n lblock)
        (fun r w' => w'.state = w.state ∧ Found disk w dir name w' r) v := by
  have valid := searches.valid
  induction n with
  | zero =>
    intro lblock w₁ state device done unseen
    refine meets_pure.mpr ⟨state, device, ?_⟩
    rintro ino ⟨nonzero, k, bound, live, named⟩
    exact unseen k bound (slot_before_end valid searches.whole bound (by omega)) (by rwa [live]) named
  | succ n ih =>
    rintro lblock ⟨s₁, d₁⟩ state device rest unseen
    obtain rfl : s₁ = w.state := state
    unfold findDirentLoop
    refine meets_dirBlock valid searches.whole device (by omega) (fun e d failure _ => ?_)
      fun block bytes d reads => ?_
    · obtain ⟨clock, number, failure⟩ := failure
      rw [reliable] at failure
      cases failure
    obtain ⟨_, positive⟩ := slots_per_block valid
    rw [meets_bind, meets_load reads.load, Nat.mul_div_cancel_left _ (by omega)]
    have spec := @findName_spec bytes name
      (slotsIn ((w.state.inodes dir).size.toNat / 64) (w.state.blocksize / 64) lblock) 0
    cases found : findName bytes name
      (slotsIn ((w.state.inodes dir).size.toNat / 64) (w.state.blocksize / 64) lblock) 0 with
    | some k =>
      rw [found] at spec
      obtain ⟨-, less, live, same⟩ := spec
      rw [Nat.zero_add] at less
      obtain ⟨place, here⟩ := reads.slots k less
      refine meets_pure.mpr ⟨rfl, reads.device, reads.late, reads.clean, _, reads.load, live,
        lblock * (w.state.blocksize / 64) + k, slot_lt positive reads.started less, ?_, ?_⟩
      · rw [place, here]
      · rw [place, here]
        exact (namecompare_iff searches.noNull searches.short k).mp same
    | none =>
      rw [found] at spec
      change Meets disk allowed (do
        unfix block
        findDirentLoop dir name n (lblock + 1)) _ _
      rw [meets_bind, meets_unfix]
      refine ih (v := ⟨w.state, _⟩) rfl (reads.device.unfix reads.late reads.clean) (by omega) ?_
      intro k bound early
      rcases Nat.lt_or_ge k (lblock * (w.state.blocksize / 64)) with before | here
      · exact unseen k bound before
      obtain ⟨j, rfl⟩ := Nat.exists_eq_add_of_le here
      have less := Nat.lt_of_add_lt_add_left (lt_slots bound early)
      obtain ⟨place, here⟩ := reads.slots j less
      rw [place, here]
      intro live same
      have other := spec j (Nat.zero_le _) (by omega) live
      rw [(namecompare_iff searches.noNull searches.short j).mpr same] at other
      cases other

/-- `find_dirent` finds an entry with the name if and only if there is one. -/
theorem findDirent_finds (reliable : Reliable disk) (valid : ValidInode w.state (w.state.inodes dir))
    (whole : (w.state.inodes dir).size.toNat % 64 = 0) (noNull : 0 ∉ name) :
    Meets disk allowed (findDirent dir name)
      (fun r w' => w'.state = w.state ∧ Found disk w dir name w' r) w := by
  unfold findDirent
  split
  · rename_i long
    refine meets_pure.mpr ⟨rfl, .refl _, ?_⟩
    rintro ino ⟨_, k, _, _, rfl⟩
    exact Nat.not_le.mpr long (length_nameAt _ _)
  · rename_i short
    rw [meets_bind, meets_get, meets_bind, meets_inode valid.live]
    exact findDirentLoop_finds reliable ⟨valid, whole, noNull, Nat.not_lt.mp short⟩ _ rfl (.refl _)
      (Nat.zero_add _) fun k _ early => by simp at early

end Finding

/-- The bytes of a file in its mapped blocks. -/
def bytesOf (contents : Nat → Bytes) (s : Fs) (i : Inode) : List UInt8 :=
  (List.range i.size.toNat).map fun k => contents (zoneAt contents s i k) (k % s.blocksize)

/-- `get_link` reads the whole file, as one call of `read` returns all of it. -/
theorem getLink_reads {disk : Disk Errno} {allowed : FsFault → Prop} {ptr : Nat} {w : World Fs}
    (reliable : Reliable disk) (valid : ValidInode w.state (w.state.inodes ptr))
    (small : (w.state.inodes ptr).size ≤ maxSymlinkLen) :
    Meets disk allowed (getLink ptr) (fun r w' => w'.state = w.state ∧ w.device.Extends w'.device ∧
      r = .ok (bytesOf w.device.contents w.state (w.state.inodes ptr))) w := by
  have nonneg := valid.size
  have bounds := valid.bounds
  have size : u64 (w.state.inodes ptr).size = (w.state.inodes ptr).size.toNat := by
    unfold u64
    omega
  unfold getLink
  rw [meets_bind, meets_inode valid.live]
  split
  · rename_i empty
    refine meets_pure.mpr ⟨rfl, .refl _, ?_⟩
    simp [bytesOf, empty]
  rw [if_neg (Int.not_lt.mpr small), size]
  unfold getLinkLoop
  have all : available (w.state.inodes ptr) ((w.state.inodes ptr).size.toNat - ([] : List UInt8).length) 0 =
      (w.state.inodes ptr).size.toNat := by simp [available]
  have reads : Meets disk allowed
      (read ptr ((w.state.inodes ptr).size.toNat - ([] : List UInt8).length) 0) _ w :=
    read_reads valid (by omega : 0 < 9223372036854775808)
  rw [all] at reads
  refine meets_bind.mpr (reads.mono ?_)
  rintro (e | bytes) w' ⟨state, device, result⟩
  · obtain ⟨clock, number, failure⟩ := result
    rw [reliable] at failure
    cases failure
  · obtain rfl : bytes = bytesOf w.device.contents w.state (w.state.inodes ptr) := by
      simpa [bytesOf, Reads] using result
    dsimp only
    rw [if_pos (by simp [bytesOf])]
    exact meets_pure.mpr ⟨state, device, rfl⟩

end MPStuBS.Minix
