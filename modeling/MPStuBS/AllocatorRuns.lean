import MPStuBS.BlockBitmaps
import MPStuBS.InodeLoading
import MPStuBS.DestroyRuns
import MPStuBS.MountedVolume
import MPStuBS.ProgramParts

/-! Taking and freeing zones and inodes, in any order, from the bitmaps of a mounted file system. -/
namespace MPStuBS

open Prog FsM Device

namespace Minix

open BlockBitmap

variable {disk : Disk Errno} {allowed : FsFault → Prop} {w : World Fs} {kept pinned : List Nat}
  {view : Nat → Bytes}

/-- A search through the inode bitmap changes nothing. -/
def FoundInode (w : World Fs) (view : Nat → Bytes) (first : Nat) : Option (Nat × Nat) → Prop
  | none => Full view 2 w.state.bitsPerBlock first (w.state.super.imapBlocks * w.state.bitsPerBlock)
  | some (i, j) => i < w.state.super.imapBlocks ∧ j < w.state.bitsPerBlock ∧
      FirstClear view 2 w.state.bitsPerBlock first (w.state.super.imapBlocks * w.state.bitsPerBlock)
        (j + i * w.state.bitsPerBlock)

theorem findFreeInode_searches (words : w.state.bitsPerBlock % 16 = 0) (n : Nat) :
    ∀ i, n + i = w.state.super.imapBlocks → Stored disk w kept pinned view →
      Meets disk allowed (findFreeInode n i)
        (fun r w' => w' = w ∧ FoundInode w view (i * w.state.bitsPerBlock) r) w := by
  induction n with
  | zero =>
    intro i count _
    rw [Nat.zero_add] at count
    refine ⟨rfl, ?_⟩
    unfold FoundInode
    rw [count]
    exact .nil _ _ _ _
  | succ n ih =>
    intro i count stored
    have bound : i < w.state.super.imapBlocks := by omega
    have block : (i + 1) * w.state.bitsPerBlock ≤ w.state.super.imapBlocks * w.state.bitsPerBlock :=
      Nat.mul_le_mul_right _ (by omega)
    simp only [findFreeInode, meets_bind, meets_get]
    rw [meets_load (stored.load_imap bound)]
    split
    · rename_i room
      exact ⟨rfl, bound, room, firstClear_block words room block⟩
    · rename_i full
      have low := full_of_findFirst words full
      refine (ih (i + 1) (by omega) stored).mono ?_
      rintro r w' ⟨rfl, found⟩
      refine ⟨rfl, ?_⟩
      cases r with
      | none => exact low.append found
      | some at_ => exact ⟨found.1, found.2.1, found.2.2.extend low (Nat.mul_le_mul_right _ (Nat.le_succ i))⟩

end Minix

namespace InodeCache

variable {disk : Disk Errno} {allowed : FsFault → Prop} {w : World Fs}

/-- Looking for a number in a cache of live objects changes nothing. -/
theorem contains_looks (ino : Nat) (cache : List Nat) (live : ∀ o ∈ cache, (w.state.inodes o).deleted = false) :
    Meets disk allowed (contains ino cache) (fun _ w' => w' = w) w := by
  induction cache with
  | nil => exact meets_pure.mpr rfl
  | cons cur rest ih =>
    rw [contains, meets_bind, meets_inode (live cur (.head _))]
    split
    · exact meets_pure.mpr rfl
    · exact ih fun o member => live o (.tail _ member)

/-- The cache grows at most by the object that is inserted. -/
theorem insertInode_inserts (new : Nat) (here : (w.state.inodes new).deleted = false)
    (live : ∀ o ∈ w.state.icache, (w.state.inodes o).deleted = false) :
    Meets disk allowed (insertInode new) (fun _ w' => w'.device = w.device ∧ ∃ cache n,
      w'.state = { w.state with icache := cache, numInodes := n } ∧ ∀ o ∈ cache, o = new ∨ o ∈ w.state.icache) w := by
  unfold insertInode
  rw [meets_bind, meets_get, meets_bind, meets_inode here]
  refine meets_bind.mpr ((contains_looks _ _ live).mono ?_)
  rintro found w' rfl
  split
  · exact meets_pure.mpr ⟨rfl, _, _, rfl, fun o member => .inr member⟩
  · refine meets_modify.mpr ⟨rfl, _, _, rfl, fun o member => ?_⟩
    rw [List.mem_append, List.mem_singleton] at member
    exact member.symm

end InodeCache

namespace Minix

open BlockBitmap

variable {disk : Disk Errno} {allowed : FsFault → Prop} {w : World Fs} {view : Nat → Bytes}

/-- The volume is as before but for its blocks, and the cached objects are live. -/
structure Carries (disk : Disk Errno) (w : World Fs) (view' : Nat → Bytes) (w' : World Fs) : Prop where
  volume : w.state.SameVolume w'.state
  stored : Stored disk w' [] [] view'
  cached : ∀ o ∈ w'.state.icache, (w'.state.inodes o).deleted = false

/-- The object of an inode that was just allocated. -/
structure IsNew (s : Fs) (o k : Nat) : Prop where
  number : (s.inodes o).ino = k
  live : (s.inodes o).deleted = false

/-- The end of `new_inode`. -/
theorem insertNew {o : Nat} (k mode : Nat) (live : ∀ o' ∈ o :: w.state.icache, (w.state.inodes o').deleted = false) :
    Meets disk allowed (do
      setInode o fun i => { i with ino := k, mode := mode, data := fun _ => 0 }
      setInode o .setDirty
      setInode o fun i => { i with new := false }
      InodeCache.insertInode o
      Pure.pure (Except.ok o))
      (fun (r : Except Errno Nat) w' => r = .ok o ∧ w'.device = w.device ∧ IsNew w'.state o k ∧
        (∀ o' ∈ w'.state.icache, (w'.state.inodes o').deleted = false) ∧ ∃ inodes cache n,
          w'.state = { w.state with inodes := inodes, icache := cache, numInodes := n }) w := by
  have here := live o (.head _)
  rw [meets_bind, meets_setInode here, meets_bind, meets_setInode (by simpa [Fs.setInode] using here),
    meets_bind, meets_setInode (by simpa [Fs.setInode, Inode.setDirty] using here), setInode_setInode,
    setInode_setInode]
  set s := w.state.setInode o _ with sDef
  have new : (s.inodes o).ino = k ∧ (s.inodes o).deleted = false := by
    simp [sDef, Fs.setInode, Inode.setDirty, here]
  have kept : ∀ o' ∈ o :: w.state.icache, (s.inodes o').deleted = false := by
    intro o' member
    by_cases same : o' = o
    · rw [same, new.2]
    · rw [show s.inodes o' = w.state.inodes o' from Function.update_of_ne same _ _]
      exact live o' member
  refine meets_bind.mpr ((InodeCache.insertInode_inserts (w := ⟨s, w.device⟩) o new.2
    fun o' member => kept o' (.tail _ member)).mono ?_)
  rintro _ ⟨s', d'⟩ ⟨device, cache, n, state, members⟩
  obtain rfl : s' = _ := state
  refine meets_pure.mpr ⟨rfl, device, ⟨new.1, new.2⟩, fun o' member => ?_, _, cache, n, rfl⟩
  exact kept o' (List.mem_cons.mpr (members o' member))

/-- `new_inode` on bitmaps in which only inodes have clear bits. -/
theorem newInode_searches (mode : Nat) (words : w.state.bitsPerBlock % 16 = 0) (stored : Stored disk w [] [] view)
    (padded : ∀ k < w.state.super.imapBlocks * w.state.bitsPerBlock,
      bitAt view 2 w.state.bitsPerBlock k = false → w.state.geometry.HasInode k)
    (cached : ∀ o ∈ w.state.icache, (w.state.inodes o).deleted = false) :
    Meets disk allowed (newInode mode) (fun r w' =>
      (Full view 2 w.state.bitsPerBlock 0 (w.state.super.imapBlocks * w.state.bitsPerBlock) ∧
        (∃ e, r = .error e) ∧ w' = w) ∨
      ∃ k o, FirstClear view 2 w.state.bitsPerBlock 0 (w.state.super.imapBlocks * w.state.bitsPerBlock) k ∧
        r = .ok o ∧ IsNew w'.state o k ∧ Carries disk w (setBitAt view 2 w.state.bitsPerBlock k) w') w := by
  have searched : Meets disk allowed _ _ _ :=
    findFreeInode_searches words w.state.super.imapBlocks 0 rfl stored
  rw [Nat.zero_mul] at searched
  unfold newInode
  rw [meets_bind, meets_get]
  refine meets_bind.mpr (searched.mono ?_)
  rintro r w' ⟨rfl, found⟩
  cases r with
  | none => exact meets_pure.mpr (.inl ⟨found, ⟨_, rfl⟩, rfl⟩)
  | some place =>
    obtain ⟨i, j⟩ := place
    obtain ⟨bound, room, found⟩ := found
    have clear := found.clear
    rw [bitAt_add room] at clear
    obtain ⟨positive, small⟩ := padded _ found.inside found.clear
    have small : j + i * w'.state.bitsPerBlock ≤ w'.state.super.ninodes := small
    have works := works_store_imap stored bound ((view (2 + i)).setBit j)
    rw [← setBitAt_add room] at works
    rw [meets_bind, meets_load (stored.load_imap bound), if_neg (by simp [clear]), meets_bind, meets_store]
    dsimp only
    rw [if_neg (not_or.mpr ⟨positive, Nat.not_lt.mpr small⟩)]
    rw [meets_bind, allocateInode, meets_bind, meets_get, meets_bind, meets_set, meets_pure, meets_bind,
      meets_markDirty]
    set s : Fs := { w'.state with
      inodes := Function.update w'.state.inodes w'.state.allocated .fresh
      allocated := w'.state.allocated + 1
      numInodeReferences := w'.state.numInodeReferences + 1 } with sDef
    have fresh : s.inodes w'.state.allocated = .fresh := Function.update_self _ _ _
    have live : ∀ o ∈ w'.state.allocated :: s.icache, (s.inodes o).deleted = false := by
      intro o member
      by_cases here : o = w'.state.allocated
      · rw [here, fresh]
        rfl
      · rw [show s.inodes o = w'.state.inodes o from Function.update_of_ne here _ _]
        exact cached o ((List.mem_cons.mp member).resolve_left here)
    have inserted : Meets disk allowed _ _ _ := insertNew (j + i * w'.state.bitsPerBlock) mode
      (w := ⟨s, (w'.device.exec disk (w'.state.imap i) (.store ((view (2 + i)).setBit j))).exec disk
        (w'.state.imap i) .markDirty⟩) live
    refine inserted.mono ?_
    rintro r ⟨s', d'⟩ ⟨rfl, device, new, cached', inodes, cache, n, state⟩
    obtain rfl : d' = _ := device
    obtain rfl : s' = _ := state
    refine .inr ⟨_, _, found, rfl, new, ⟨rfl, rfl, rfl, rfl, rfl, rfl, rfl⟩, ?_, cached'⟩
    exact works.stored.follow rfl rfl rfl (.refl _) works.stored.holds

/-- `clear_disk_inode` leaves the bitmaps, whether the device fails or not. -/
theorem clearDiskInode_keeps (ino : Nat) (stored : Stored disk w [] [] view) :
    Meets disk allowed (clearDiskInode ino) (fun _ w' => ∃ view', Works disk w w' [] [] view' ∧
      ∀ n < w.state.geometry.inodeStart, view' n = view n) w := by
  have unchanged : ∀ {w'}, Works disk w w' [] [] view → ∃ view', Works disk w w' [] [] view' ∧
      ∀ n < w.state.geometry.inodeStart, view' n = view n := fun works => ⟨view, works, fun _ _ => rfl⟩
  simp only [clearDiskInode, rawInode, meets_bind, meets_get]
  split
  · exact meets_pure.mpr (unchanged (.refl stored))
  simp only [meets_bind]
  refine meets_fix (fun _ => ?_) fun e _ => meets_pure.mpr (unchanged (works_tick stored))
  have table := w.state.geometry.inodeStart_le ino
  have works := works_fix stored table (by simp)
  have rewritten : Meets disk allowed _ _ _ := record_rewritten works fun bytes =>
    (bytes.setU16 (w.state.geometry.inodeSlot ino + 2) 0).setU16 (w.state.geometry.inodeSlot ino) 0
  have number : (w.device.hold (w.state.geometry.inodeBlock ino)).tick.number w.device.next =
      w.state.geometry.inodeBlock ino := number_hold _
  rw [number] at rewritten
  refine meets_pure.mpr (rewritten.mono fun _ w' works => ⟨_, works, fun n early => ?_⟩)
  exact Function.update_of_ne (by omega) _ _

/-- `free_inode` clears the bit of the inode. -/
theorem freeInode_clears {ptr : Nat} (stored : Stored disk w [] [] view)
    (live : (w.state.inodes ptr).deleted = false) (has : w.state.geometry.HasInode (w.state.inodes ptr).ino)
    (bit : (w.state.inodes ptr).ino < w.state.super.imapBlocks * w.state.bitsPerBlock) :
    Meets disk allowed (freeInode ptr) (fun _ w' => ∃ view', Works disk w w' [] []
      (clearBitAt view' 2 w.state.bitsPerBlock (w.state.inodes ptr).ino) ∧
      ∀ n < w.state.geometry.inodeStart, view' n = view n) w := by
  set ino := (w.state.inodes ptr).ino with inoDef
  have block := div_lt_blocks bit
  unfold freeInode
  rw [meets_bind, meets_get, meets_bind, meets_inode live, ← inoDef, if_neg fun outside =>
    outside.elim (fun low => has.1 (Nat.lt_one_iff.mp low)) fun late => absurd has.2 (Nat.not_le.mpr late)]
  dsimp only
  rw [if_neg (Nat.not_le.mpr block)]
  refine meets_bind.mpr ((clearDiskInode_keeps ino stored).mono ?_)
  rintro _ ⟨s₁, d₁⟩ ⟨view', works, same⟩
  obtain rfl : s₁ = w.state := works.state
  rw [meets_bind, meets_load (works.stored.load_imap block), meets_bind, meets_store, meets_markDirty]
  exact ⟨view', works.trans (works_store_imap works.stored block _), same⟩

end Minix

/-- The two bitmaps. -/
inductive Bitmap where
  | zones
  | inodes
  deriving DecidableEq, Repr

namespace Bitmap

/-- The handles of the blocks of a bitmap. -/
def handle (s : Fs) : Bitmap → Nat → Nat
  | zones => s.zmap
  | inodes => s.imap

def blocks (s : Fs) : Bitmap → Nat
  | zones => s.super.zmapBlocks
  | inodes => s.super.imapBlocks

/-- The zone or inode that a bit stands for. -/
def number (s : Fs) : Bitmap → Nat → Nat
  | zones, k => k + s.super.firstdatazone - 1
  | inodes, k => k

def IsValid (s : Fs) : Bitmap → Nat → Prop
  | zones, n => s.super.firstdatazone ≤ n ∧ n < s.super.nzones
  | inodes, n => 1 ≤ n ∧ n ≤ s.super.ninodes

/-- A bit as it is in memory. -/
def bit (disk : Disk Errno) (w : World Fs) (b : Bitmap) (k : Nat) : Bool :=
  (w.device.load disk (b.handle w.state (k / w.state.bitsPerBlock))).any (·.bit (k % w.state.bitsPerBlock))

/-- All bits of the bitmap. -/
def size (s : Fs) (b : Bitmap) : Nat := b.blocks s * s.bitsPerBlock

/-- The numbers whose bits are set. -/
def used (disk : Disk Errno) (w : World Fs) (b : Bitmap) : Set Nat :=
  {n | ∃ k < b.size w.state, b.bit disk w k = true ∧ b.number w.state k = n}

/-- The valid zones or inodes, which are those that have a bit. -/
def valid (s : Fs) (b : Bitmap) : Set Nat := {n | b.IsValid s n ∧ ∃ k < b.size s, b.number s k = n}

end Bitmap

/-- One call of the allocator, where `newInode` has the mode and `freeInode` the inode object. -/
inductive AllocatorOp where
  | newBlock
  | freeBlock (z : Nat)
  | newInode (mode : Nat)
  | freeInode (ptr : Nat)
  deriving DecidableEq, Repr

namespace AllocatorOp

/-- The call, and what it took, refused or gave back. -/
def call : AllocatorOp → FsM (Bitmap × NumberPool.Event)
  | newBlock => do
    let z ← Minix.newBlock
    Pure.pure (.zones, if z = 0 then .refused else .took z)
  | freeBlock z => do
    Minix.freeBlock z
    Pure.pure (.zones, .gave z)
  | newInode mode => do
    match ← Minix.newInode mode with
    | .error _ => Pure.pure (.inodes, .refused)
    | .ok ptr => do
      let i ← FsM.inode ptr
      Pure.pure (.inodes, .took i.ino)
  | freeInode ptr => do
    let i ← FsM.inode ptr
    Minix.freeInode ptr
    Pure.pure (.inodes, .gave i.ino)

/-- What is freed is allocated. -/
def Allowed (disk : Disk Errno) (w : World Fs) : AllocatorOp → Prop
  | newBlock => True
  | freeBlock z => z ∈ Bitmap.zones.valid w.state ∩ Bitmap.zones.used disk w
  | newInode _ => True
  | freeInode ptr => (w.state.inodes ptr).deleted = false ∧
      (w.state.inodes ptr).ino ∈ Bitmap.inodes.valid w.state ∩ Bitmap.inodes.used disk w

/-- One call after the other. -/
inductive Runs (disk : Disk Errno) : World Fs → List (Bitmap × NumberPool.Event) → World Fs → Prop
  | nil (w : World Fs) : Runs disk w [] w
  | cons {w w₁ w' : World Fs} {op : AllocatorOp} {event : Bitmap × NumberPool.Event}
      {events : List (Bitmap × NumberPool.Event)} (allowed : op.Allowed disk w)
      (ran : op.call.run disk w = .ok (event, w₁)) (rest : Runs disk w₁ events w') :
      Runs disk w (event :: events) w'

end AllocatorOp

/-- The bitmaps are held, all bits that stand for no valid zone or inode are set, and the cached
inode objects are live. -/
structure AllocatorReady (disk : Disk Errno) (w : World Fs) : Prop where
  stored : ∃ view, Stored disk w [] [] view
  blocksize : 9 ≤ w.state.blocksizeBits
  padded : ∀ (b : Bitmap), ∀ k < b.size w.state, b.bit disk w k = false → b.IsValid w.state (b.number w.state k)
  cached : ∀ o ∈ w.state.icache, (w.state.inodes o).deleted = false

namespace Bitmap

open BlockBitmap Minix

variable {disk : Disk Errno} {w w' : World Fs} {view view' : Nat → Bytes} {s : Fs} {b b' : Bitmap} {k k' : Nat}

/-- The block in which a bitmap begins. -/
def start (s : Fs) : Bitmap → Nat
  | zones => 2 + s.super.imapBlocks
  | inodes => 2

theorem bit_eq (stored : Stored disk w [] [] view) (inside : k < b.size w.state) :
    b.bit disk w k = bitAt view (b.start w.state) w.state.bitsPerBlock k := by
  have block := div_lt_blocks inside
  cases b with
  | zones => simp only [bit, handle, start, stored.load_zmap block, Option.any_some, bitAt]
  | inodes => simp only [bit, handle, start, stored.load_imap block, Option.any_some, bitAt]

theorem mem_used (stored : Stored disk w [] [] view) {n : Nat} : n ∈ b.used disk w ↔
    ∃ k < b.size w.state, bitAt view (b.start w.state) w.state.bitsPerBlock k = true ∧ b.number w.state k = n := by
  constructor
  · rintro ⟨k, inside, set, rfl⟩
    exact ⟨k, inside, bit_eq stored inside ▸ set, rfl⟩
  · rintro ⟨k, inside, set, rfl⟩
    exact ⟨k, inside, (bit_eq stored inside).trans set, rfl⟩

theorem number_injective (first : 0 < s.super.firstdatazone) (same : b.number s k = b.number s k') : k = k' := by
  cases b with
  | zones =>
    simp only [number] at same
    omega
  | inodes => exact same

/-- The bitmaps do not overlap. -/
theorem start_apart (other : b' ≠ b) (inside : k < b.size s) {n : Nat} (low : b'.start s ≤ n)
    (high : n < b'.start s + b'.blocks s) : n ≠ b.start s + k / s.bitsPerBlock := by
  have block := div_lt_blocks inside
  generalize k / s.bitsPerBlock = place at block ⊢
  cases b with
  | zones =>
    cases b' with
    | zones => exact absurd rfl other
    | inodes =>
      simp only [start, blocks] at low high ⊢
      omega
  | inodes =>
    cases b' with
    | zones =>
      simp only [start, blocks] at low high block ⊢
      omega
    | inodes => exact absurd rfl other

/-- The bitmaps end before the inode table. -/
theorem start_blocks_le (s : Fs) (b : Bitmap) : b.start s + b.blocks s ≤ s.geometry.inodeStart := by
  cases b with
  | zones => exact Nat.le_refl _
  | inodes => exact Nat.le_add_right _ _

section Volume

variable (volume : w.state.SameVolume w'.state)
include volume

theorem size_volume : b.size w'.state = b.size w.state := by
  cases b <;> simp [size, blocks, Fs.bitsPerBlock, Fs.blocksize, volume.super, volume.blocksizeBits]

theorem number_volume : b.number w'.state k = b.number w.state k := by
  cases b <;> simp [number, volume.super]

theorem start_volume : b.start w'.state = b.start w.state := by
  cases b <;> simp [start, volume.super]

theorem isValid_volume : b.IsValid w'.state k ↔ b.IsValid w.state k := by
  cases b <;> simp [IsValid, volume.super]

theorem bitsPerBlock_volume : w'.state.bitsPerBlock = w.state.bitsPerBlock := by
  simp [Fs.bitsPerBlock, Fs.blocksize, volume.blocksizeBits]

theorem valid_volume : b.valid w'.state = b.valid w.state := by
  ext n
  simp only [valid, isValid_volume volume, size_volume volume, number_volume volume]

/-- What is in use after the blocks have changed. -/
theorem mem_used_after (stored : Stored disk w' [] [] view') {n : Nat} : n ∈ b.used disk w' ↔
    ∃ k < b.size w.state, bitAt view' (b.start w.state) w.state.bitsPerBlock k = true ∧
      b.number w.state k = n := by
  rw [mem_used stored]
  simp only [size_volume volume, start_volume volume, number_volume volume, bitsPerBlock_volume volume]

end Volume

section Changes

variable (volume : w.state.SameVolume w'.state)
include volume

/-- A number is taken from one bitmap, and the other one is as before. -/
theorem used_setBitAt (stored : Stored disk w [] [] view) (inside : k < b.size w.state)
    (stored' : Stored disk w' [] [] (setBitAt view (b.start w.state) w.state.bitsPerBlock k)) :
    b.used disk w' = insert (b.number w.state k) (b.used disk w) ∧
      ∀ other ≠ b, other.used disk w' = other.used disk w := by
  constructor
  · ext n
    simp only [mem_used_after volume stored', Set.mem_insert_iff, mem_used stored, bitAt_setBitAt, Bool.or_eq_true,
      decide_eq_true_eq]
    constructor
    · rintro ⟨k', inside', rfl | set, rfl⟩
      · exact .inl rfl
      · exact .inr ⟨k', inside', set, rfl⟩
    · rintro (rfl | ⟨k', inside', set, rfl⟩)
      · exact ⟨k, inside, .inl rfl, rfl⟩
      · exact ⟨k', inside', .inr set, rfl⟩
  · intro other apart
    ext n
    simp only [mem_used_after volume stored', mem_used stored]
    refine exists_congr fun k' => and_congr_right fun inside' => ?_
    rw [bitAt_congr inside' fun n low high => setBitAt_of_ne (start_apart apart inside low high)]

theorem used_clearBitAt (first : 0 < w.state.super.firstdatazone) (stored : Stored disk w [] [] view)
    (inside : k < b.size w.state) (same : ∀ n < w.state.geometry.inodeStart, view' n = view n)
    (stored' : Stored disk w' [] [] (clearBitAt view' (b.start w.state) w.state.bitsPerBlock k)) :
    b.used disk w' = b.used disk w \ {b.number w.state k} ∧
      ∀ other ≠ b, other.used disk w' = other.used disk w := by
  have bits : ∀ (c : Bitmap), ∀ k' < c.size w.state,
      bitAt view' (c.start w.state) w.state.bitsPerBlock k' = bitAt view (c.start w.state) w.state.bitsPerBlock k' :=
    fun c k' inside' => bitAt_congr inside' fun n _ high =>
      same n (Nat.lt_of_lt_of_le high (start_blocks_le w.state c))
  constructor
  · ext n
    simp only [mem_used_after volume stored', Set.mem_sdiff, Set.mem_singleton_iff, mem_used stored,
      bitAt_clearBitAt, Bool.and_eq_true, Bool.not_eq_true', decide_eq_false_iff_not]
    constructor
    · rintro ⟨k', inside', ⟨other, set⟩, rfl⟩
      exact ⟨⟨k', inside', bits b k' inside' ▸ set, rfl⟩, fun here => other (number_injective first here)⟩
    · rintro ⟨⟨k', inside', set, rfl⟩, other⟩
      refine ⟨k', inside', ⟨?_, (bits b k' inside').trans set⟩, rfl⟩
      rintro rfl
      exact other rfl
  · intro other apart
    ext n
    simp only [mem_used_after volume stored', mem_used stored]
    refine exists_congr fun k' => and_congr_right fun inside' => ?_
    rw [bitAt_congr inside' fun n low high => clearBitAt_of_ne (start_apart apart inside low high),
      bits other k' inside']

end Changes

end Bitmap

namespace AllocatorReady

open BlockBitmap Minix Bitmap

variable {disk : Disk Errno} {w w' : World Fs} {view view' : Nat → Bytes} {b : Bitmap} {k : Nat}

/-- Only valid zones and inodes have clear bits. -/
def Padded (s : Fs) (view : Nat → Bytes) : Prop := ∀ (b : Bitmap), ∀ k < b.size s,
  bitAt view (b.start s) s.bitsPerBlock k = false → b.IsValid s (b.number s k)

theorem sees (ready : AllocatorReady disk w) : ∃ view, Stored disk w [] [] view ∧ Padded w.state view := by
  obtain ⟨view, stored⟩ := ready.stored
  exact ⟨view, stored, fun b k inside clear => ready.padded b k inside ((bit_eq stored inside).trans clear)⟩

theorem bits (ready : AllocatorReady disk w) : w.state.bitsPerBlock % 16 = 0 := by
  obtain ⟨n, eq⟩ := Nat.exists_eq_add_of_le ready.blocksize
  unfold Fs.bitsPerBlock Fs.blocksize
  rw [eq, Nat.pow_add]
  omega

theorem after (ready : AllocatorReady disk w) (carries : Carries disk w view' w') (padded : Padded w.state view') :
    AllocatorReady disk w' where
  stored := ⟨view', carries.stored⟩
  blocksize := by
    rw [carries.volume.blocksizeBits]
    exact ready.blocksize
  padded b k inside clear := by
    rw [bit_eq carries.stored inside, start_volume carries.volume, bitsPerBlock_volume carries.volume] at clear
    rw [size_volume carries.volume] at inside
    rw [number_volume carries.volume, isValid_volume carries.volume]
    exact padded b k inside clear
  cached := carries.cached

theorem padded_setBitAt (padded : Padded w.state view) (inside : k < b.size w.state) :
    Padded w.state (setBitAt view (b.start w.state) w.state.bitsPerBlock k) := by
  intro other k' inside' clear
  refine padded other k' inside' ?_
  by_cases apart : other = b
  · subst apart
    rw [bitAt_setBitAt, Bool.or_eq_false_iff] at clear
    exact clear.2
  · rwa [bitAt_congr inside' fun n low high => setBitAt_of_ne (start_apart apart inside low high)] at clear

theorem padded_clearBitAt (padded : Padded w.state view) (inside : k < b.size w.state)
    (valid : b.IsValid w.state (b.number w.state k)) :
    Padded w.state (clearBitAt view (b.start w.state) w.state.bitsPerBlock k) := by
  intro other k' inside' clear
  by_cases apart : other = b
  · subst apart
    rw [bitAt_clearBitAt, Bool.and_eq_false_iff] at clear
    rcases clear with here | clear
    · simp only [Bool.not_eq_false', decide_eq_true_eq] at here
      rwa [here]
    · exact padded other k' inside' clear
  · refine padded other k' inside' ?_
    rwa [bitAt_congr inside' fun n low high => clearBitAt_of_ne (start_apart apart inside low high)] at clear

theorem padded_congr (padded : Padded w.state view)
    (same : ∀ n < w.state.geometry.inodeStart, view' n = view n) : Padded w.state view' := by
  intro b k inside clear
  refine padded b k inside ?_
  rwa [bitAt_congr inside fun n _ high => same n (Nat.lt_of_lt_of_le high (start_blocks_le w.state b))] at clear

/-- No number is refused that is free. -/
theorem refused (stored : Stored disk w [] [] view)
    (full : Full view (b.start w.state) w.state.bitsPerBlock 0 (b.size w.state)) :
    NumberPool.Step (Bitmap.valid w.state) (Bitmap.used disk w) (b, .refused) (Bitmap.used disk w) := by
  refine ⟨⟨?_, rfl⟩, fun _ _ => rfl⟩
  rintro n ⟨_, k, inside, rfl⟩
  exact (mem_used stored).mpr ⟨k, inside, full k (Nat.zero_le k) inside, rfl⟩

theorem took (first : 0 < w.state.super.firstdatazone) (stored : Stored disk w [] [] view)
    (padded : Padded w.state view) (volume : w.state.SameVolume w'.state) {j : Nat}
    (found : FirstClear view (b.start w.state) w.state.bitsPerBlock j (b.size w.state) k)
    (stored' : Stored disk w' [] [] (setBitAt view (b.start w.state) w.state.bitsPerBlock k)) :
    NumberPool.Step (Bitmap.valid w.state) (Bitmap.used disk w) (b, .took (b.number w.state k))
      (Bitmap.used disk w') := by
  obtain ⟨inserted, others⟩ := used_setBitAt volume stored found.inside stored'
  refine ⟨⟨⟨padded b k found.inside found.clear, k, found.inside, rfl⟩, ?_, inserted⟩, others⟩
  rw [mem_used stored]
  rintro ⟨k', _, set, same⟩
  rw [number_injective first same, found.clear] at set
  cases set

theorem gave (first : 0 < w.state.super.firstdatazone) (stored : Stored disk w [] [] view)
    (inside : k < b.size w.state) (inUse : b.number w.state k ∈ b.used disk w)
    (same : ∀ n < w.state.geometry.inodeStart, view' n = view n) (volume : w.state.SameVolume w'.state)
    (stored' : Stored disk w' [] [] (clearBitAt view' (b.start w.state) w.state.bitsPerBlock k)) :
    NumberPool.Step (Bitmap.valid w.state) (Bitmap.used disk w) (b, .gave (b.number w.state k))
      (Bitmap.used disk w') :=
  have cleared := used_clearBitAt volume first stored inside same stored'
  ⟨⟨inUse, cleared.1⟩, cleared.2⟩

theorem carries_of_works (ready : AllocatorReady disk w) (works : Works disk w w' [] [] view') :
    Carries disk w view' w' := by
  obtain ⟨s', d'⟩ := w'
  obtain rfl : s' = w.state := works.state
  exact ⟨refl_of Fs.SameVolume _, works.stored, ready.cached⟩

/-- A step of the allocator. -/
def Steps (disk : Disk Errno) (w : World Fs) (event : Bitmap × NumberPool.Event) (w' : World Fs) : Prop :=
  NumberPool.Step (Bitmap.valid w.state) (Bitmap.used disk w) event (Bitmap.used disk w') ∧
    w.state.SameVolume w'.state ∧ AllocatorReady disk w'

theorem newBlock_steps (ready : AllocatorReady disk w) (first : 0 < w.state.super.firstdatazone) :
    Returns disk AllocatorOp.newBlock.call (Steps disk w) w := by
  obtain ⟨view, stored, padded⟩ := ready.sees
  refine meets_bind.mpr ((newBlock_searches ready.bits stored).mono ?_)
  rintro z w' (⟨full, rfl, rfl⟩ | ⟨k, found, rfl, works⟩)
  · rw [if_pos rfl]
    exact meets_pure.mpr ⟨refused (b := .zones) stored full, refl_of Fs.SameVolume _, ready⟩
  · have valid : Bitmap.zones.IsValid w.state (k + w.state.super.firstdatazone - 1) :=
      padded .zones k found.inside found.clear
    have number : w.state.geometry.zoneOfBit k = Bitmap.zones.number w.state k :=
      if_neg (not_or.mpr ⟨Nat.not_lt.mpr valid.1, Nat.not_le.mpr valid.2⟩)
    have nonzero : Bitmap.zones.number w.state k ≠ 0 := Nat.ne_of_gt (Nat.lt_of_lt_of_le first valid.1)
    have carries := ready.carries_of_works works
    rw [number, if_neg nonzero]
    exact meets_pure.mpr ⟨took first stored padded carries.volume (b := .zones) found carries.stored,
      carries.volume, ready.after carries (padded_setBitAt (b := .zones) padded found.inside)⟩

theorem freeBlock_steps (ready : AllocatorReady disk w) (first : 0 < w.state.super.firstdatazone) {z : Nat}
    (allowed : (AllocatorOp.freeBlock z).Allowed disk w) :
    Returns disk (AllocatorOp.freeBlock z).call (Steps disk w) w := by
  obtain ⟨view, stored, padded⟩ := ready.sees
  obtain ⟨⟨valid, k, inside, rfl⟩, inUse⟩ := allowed
  have place : Bitmap.zones.number w.state k - w.state.super.firstdatazone + 1 = k := by
    have late := valid.1
    simp only [Bitmap.number] at late ⊢
    omega
  have cleared : Returns disk _ _ _ := freeBlock_clears stored valid.1 valid.2 (by rw [place]; exact inside)
  rw [place] at cleared
  refine meets_bind.mpr (cleared.mono fun _ w' works => ?_)
  have carries := ready.carries_of_works works
  exact meets_pure.mpr ⟨gave first stored (b := .zones) inside inUse (fun _ _ => rfl) carries.volume carries.stored,
    carries.volume, ready.after carries (padded_clearBitAt (b := .zones) padded inside valid)⟩

theorem newInode_steps (ready : AllocatorReady disk w) (first : 0 < w.state.super.firstdatazone) (mode : Nat) :
    Returns disk (AllocatorOp.newInode mode).call (Steps disk w) w := by
  obtain ⟨view, stored, padded⟩ := ready.sees
  have room : ∀ k < w.state.super.imapBlocks * w.state.bitsPerBlock,
      bitAt view 2 w.state.bitsPerBlock k = false → w.state.geometry.HasInode k := fun k inside clear =>
    have valid := padded .inodes k inside clear
    ⟨Nat.ne_of_gt valid.1, valid.2⟩
  refine meets_bind.mpr ((newInode_searches mode ready.bits stored room ready.cached).mono ?_)
  rintro r w' (⟨full, ⟨e, rfl⟩, rfl⟩ | ⟨k, o, found, rfl, new, carries⟩)
  · exact meets_pure.mpr ⟨refused (b := .inodes) stored full, refl_of Fs.SameVolume _, ready⟩
  · dsimp only
    rw [meets_bind, meets_inode new.live, new.number]
    exact meets_pure.mpr ⟨took first stored padded carries.volume (b := .inodes) found carries.stored,
      carries.volume, ready.after carries (padded_setBitAt (b := .inodes) padded found.inside)⟩

theorem freeInode_steps (ready : AllocatorReady disk w) (first : 0 < w.state.super.firstdatazone) {ptr : Nat}
    (allowed : (AllocatorOp.freeInode ptr).Allowed disk w) :
    Returns disk (AllocatorOp.freeInode ptr).call (Steps disk w) w := by
  obtain ⟨view, stored, padded⟩ := ready.sees
  obtain ⟨live, ⟨valid, k, inside, same⟩, inUse⟩ := allowed
  obtain rfl : k = (w.state.inodes ptr).ino := same
  refine meets_bind.mpr ?_
  rw [meets_inode live]
  refine meets_bind.mpr ((freeInode_clears stored live ⟨Nat.ne_of_gt valid.1, valid.2⟩ inside).mono ?_)
  rintro _ w' ⟨view', works, kept⟩
  have carries := ready.carries_of_works works
  exact meets_pure.mpr ⟨gave first stored (b := .inodes) inside inUse kept carries.volume carries.stored,
    carries.volume, ready.after carries (padded_clearBitAt (b := .inodes) (padded_congr padded kept) inside valid)⟩

theorem steps (ready : AllocatorReady disk w) (first : 0 < w.state.super.firstdatazone) {op : AllocatorOp}
    (allowed : op.Allowed disk w) : Returns disk op.call (Steps disk w) w := by
  cases op with
  | newBlock => exact ready.newBlock_steps first
  | freeBlock z => exact ready.freeBlock_steps first allowed
  | newInode mode => exact ready.newInode_steps first mode
  | freeInode ptr => exact ready.freeInode_steps first allowed

end AllocatorReady

namespace AllocatorOp

variable {disk : Disk Errno} {w w' : World Fs} {events : List (Bitmap × NumberPool.Event)}

theorem runs_ready (ready : AllocatorReady disk w) (first : 0 < w.state.super.firstdatazone)
    (runs : Runs disk w events w') :
    NumberPool.Runs (Bitmap.valid w.state) (Bitmap.used disk w) events (Bitmap.used disk w') ∧
      w.state.SameVolume w'.state ∧ AllocatorReady disk w' := by
  induction runs with
  | nil w => exact ⟨.nil _, refl_of Fs.SameVolume _, ready⟩
  | cons allowed ran rest ih =>
    obtain ⟨step, volume, ready₁⟩ := Meets.of_run (ready.steps first allowed) ran
    rename_i w₀ w₁ _ _ _ _
    have valid : Bitmap.valid w₁.state = Bitmap.valid w₀.state := funext fun b => Bitmap.valid_volume volume
    obtain ⟨pool, volume', ready'⟩ := ih ready₁ (by rwa [volume.super])
    exact ⟨.cons step (valid ▸ pool), trans_of Fs.SameVolume volume volume', ready'⟩

/-- The bitmaps are two pools of numbers, from which a call takes a free valid number or, only if
there is none, refuses, and into which it gives the number that it frees; no call faults. -/
theorem runs_pools (ready : AllocatorReady disk w) (first : 0 < w.state.super.firstdatazone)
    (runs : Runs disk w events w') :
    NumberPool.Runs (Bitmap.valid w.state) (Bitmap.used disk w) events (Bitmap.used disk w') ∧
      ∀ op : AllocatorOp, op.Allowed disk w' → ∃ event w'', op.call.run disk w' = .ok (event, w'') := by
  obtain ⟨pools, volume, ready'⟩ := runs_ready ready first runs
  refine ⟨pools, fun op allowed => ?_⟩
  obtain ⟨event, w'', ran, _⟩ := (ready'.steps (by rwa [volume.super]) allowed).run
  exact ⟨event, w'', ran⟩

section Images

open SmallImage BlockBitmap

/-- The images have no clear bits after the first ones. -/
theorem bit_late {b : Bytes} {n : Nat} (ones : ∀ i, n ≤ i → b i = 255) {k : Nat} (late : 8 * n + 8 ≤ k) :
    b.bit k = true := by
  have word : b.u16 (2 * (k / 16)) = 65535 := by
    unfold Bytes.u16
    rw [ones _ (by omega), ones _ (by omega)]
    rfl
  have low : k % 16 < 16 := Nat.mod_lt _ (by decide)
  rw [Bytes.bit, word, show (65535 : Nat) = 2 ^ 16 - 1 from rfl, Nat.testBit_two_pow_sub_one, decide_eq_true low]

/-- A bitmap in which the bits that are clear are among the first ones. -/
theorem valid_of_clear {b : Bytes} {P : Nat → Prop} (ones : ∀ i, 3 ≤ i → b i = 255)
    (early : ∀ k < 32, (b.setBit 0).bit k = false → P k) (k : Nat) (clear : (b.setBit 0).bit k = false) : P k := by
  by_cases low : k < 32
  · exact early k low clear
  · rw [Bytes.bit_setBit, bit_late ones (by omega), Bool.or_true] at clear
    cases clear

/-- A small image whose zones begin at this one. -/
def imageFrom (firstdatazone : Nat) (zmap inodes root : Bytes) : Nat → Bytes :=
  Function.update (image (SmallImage.imap 7) zmap inodes root) 1 (superBlock ⟨16, 1, 1, firstdatazone, 20⟩)

/-- A small image after it has been mounted. -/
theorem ready_small {first : UInt8} {firstdatazone : Nat} {inodes root : Bytes}
    (read : Minix.readSuper (Minix.superBytes 10 (superBlock ⟨16, 1, 1, firstdatazone, 20⟩)) =
      ⟨16, 1, 1, firstdatazone, 20⟩)
    (clear : ∀ k < 32, ((zmap first).setBit 0).bit k = false →
      firstdatazone ≤ k + firstdatazone - 1 ∧ k + firstdatazone - 1 < 20)
    {w : World Fs} (mounted : (Minix.mount 10 .all).run ⟨true, VFS.neverFails⟩
      (.initial (imageFrom firstdatazone (zmap first) inodes root)) = .ok (.ok (), w)) :
    AllocatorReady ⟨true, VFS.neverFails⟩ w ∧ w.state.super = ⟨16, 1, 1, firstdatazone, 20⟩ := by
  have is := Meets.of_run (Minix.mount_mounts 10 .all (fun _ _ => rfl) rfl (Device.holds_new _ _) (Nat.le_refl 10)
    read (Nat.succ_ne_zero 15)) mounted rfl
  have per : w.state.bitsPerBlock = 8192 := by
    rw [Fs.bitsPerBlock, Fs.blocksize, is.blocksizeBits]
    rfl
  refine ⟨⟨⟨_, is.stored⟩, by rw [is.blocksizeBits]; decide, fun b k inside unset => ?_, ?_⟩, is.super⟩
  · rw [Bitmap.bit_eq is.stored inside, per] at unset
    have inside : k < b.blocks w.state * w.state.bitsPerBlock := inside
    rw [per] at inside
    cases b with
    | zones =>
      simp only [Bitmap.blocks, Bitmap.start, is.super, Nat.one_mul] at inside unset
      rw [bitAt, Nat.div_eq_of_lt inside, Nat.mod_eq_of_lt inside] at unset
      simp only [Bitmap.IsValid, Bitmap.number, is.super]
      refine valid_of_clear (fun i late => ?_) clear k unset
      simp [zmap, show i ≠ 0 by omega, show i ≠ 1 by omega]
    | inodes =>
      simp only [Bitmap.blocks, Bitmap.start, is.super, Nat.one_mul] at inside unset
      rw [bitAt, Nat.div_eq_of_lt inside, Nat.mod_eq_of_lt inside] at unset
      simp only [Bitmap.IsValid, Bitmap.number, is.super]
      refine valid_of_clear (b := SmallImage.imap 7) (P := fun k => 1 ≤ k ∧ k ≤ 16) (fun i late => ?_)
        (by decide) k unset
      simp [SmallImage.imap, show i ≠ 0 by omega, show i ≠ 1 by omega, show i ≠ 2 by omega]
  · intro o member
    rw [is.icache, List.mem_singleton] at member
    rw [member, is.root]
    rfl

/-- A zone that is freed has its bit set. -/
def allowedBy (disk : Disk Errno) (w : World Fs) : AllocatorOp → Bool
  | newBlock => true
  | freeBlock z => decide (w.state.super.firstdatazone ≤ z ∧ z < w.state.super.nzones ∧
      z + 1 - w.state.super.firstdatazone < Bitmap.zones.size w.state) &&
      Bitmap.zones.bit disk w (z + 1 - w.state.super.firstdatazone)
  | newInode _ => true
  | freeInode _ => false

theorem allowed_of_allowedBy {disk : Disk Errno} {w : World Fs} {op : AllocatorOp}
    (checked : op.allowedBy disk w = true) : op.Allowed disk w := by
  cases op with
  | newBlock => trivial
  | newInode mode => trivial
  | freeInode ptr => cases checked
  | freeBlock z =>
    obtain ⟨range, set⟩ := Bool.and_eq_true_iff.mp checked
    obtain ⟨low, high, inside⟩ := of_decide_eq_true range
    have number : Bitmap.zones.number w.state (z + 1 - w.state.super.firstdatazone) = z := by
      simp only [Bitmap.number]
      omega
    exact ⟨⟨⟨low, high⟩, _, inside, number⟩, ⟨_, inside, set, number⟩⟩

/-- The calls have these outcomes. -/
def plays (disk : Disk Errno) : List (AllocatorOp × (Bitmap × NumberPool.Event)) → World Fs → Bool
  | [], _ => true
  | (op, event) :: rest, w => op.allowedBy disk w && (op.call.run disk w).toOption.any fun r =>
      r.1 == event && plays disk rest r.2

theorem runs_of_plays {disk : Disk Errno} {ops : List (AllocatorOp × (Bitmap × NumberPool.Event))} :
    ∀ {w : World Fs}, plays disk ops w = true → ∃ w', Runs disk w (ops.map Prod.snd) w' := by
  induction ops with
  | nil => exact fun _ => ⟨_, .nil _⟩
  | cons first rest ih =>
    obtain ⟨op, event⟩ := first
    intro w checked
    obtain ⟨allowed, ran⟩ := Bool.and_eq_true_iff.mp checked
    obtain ⟨r, w₁, called, more⟩ := ran_of_any _ _ _ (fun r w₁ => r == event && plays disk rest w₁) ran
    obtain ⟨same, later⟩ := Bool.and_eq_true_iff.mp more
    obtain rfl := eq_of_beq same
    obtain ⟨w', runs⟩ := ih later
    exact ⟨w', .cons (allowed_of_allowedBy allowed) called runs⟩

/-- A mount after which the check holds. -/
theorem mounts_checked (contents : Nat → Bytes) (check : World Fs → Bool)
    (checked : ((Minix.mount 10 .all).run ⟨true, VFS.neverFails⟩ (.initial contents)).toOption.any (fun r =>
      r.1.toOption.isSome && check r.2) = true) :
    ∃ w, (Minix.mount 10 .all).run ⟨true, VFS.neverFails⟩ (.initial contents) = .ok (.ok (), w) ∧ check w = true := by
  obtain ⟨r, w, mounted, checked⟩ := ran_of_any _ _ _ (fun (r : Except Errno Unit) w => r.toOption.isSome &&
    check w) checked
  obtain ⟨returned, checked⟩ := Bool.and_eq_true_iff.mp checked
  cases r with
  | error e => cases returned
  | ok _ => exact ⟨w, mounted, checked⟩

/-- A mount and a call that both return. -/
theorem mount_and_call {α : Type} (contents : Nat → Bytes) (p : FsM α) (check : α → World Fs → World Fs → Bool)
    (checked : ((Minix.mount 10 .all).run ⟨true, VFS.neverFails⟩ (.initial contents)).toOption.any (fun r =>
      r.1.toOption.isSome && (p.run ⟨true, VFS.neverFails⟩ r.2).toOption.any (fun r' => check r'.1 r.2 r'.2)) = true) :
    ∃ w a w', (Minix.mount 10 .all).run ⟨true, VFS.neverFails⟩ (.initial contents) = .ok (.ok (), w) ∧
      p.run ⟨true, VFS.neverFails⟩ w = .ok (a, w') ∧ check a w w' = true := by
  obtain ⟨w, mounted, checked⟩ := mounts_checked contents (fun w =>
    (p.run ⟨true, VFS.neverFails⟩ w).toOption.any fun r' => check r'.1 w r'.2) checked
  obtain ⟨a, w', called, agreed⟩ := ran_of_any _ _ _ (check · w ·) checked
  exact ⟨w, a, w', mounted, called, agreed⟩

theorem runs_pools_small : ∃ w w', NumberPool.Runs (Bitmap.valid w.state) (Bitmap.used ⟨true, VFS.neverFails⟩ w)
    [(.zones, .took 7), (.inodes, .took 3), (.zones, .took 8), (.zones, .gave 7), (.zones, .took 7)]
    (Bitmap.used ⟨true, VFS.neverFails⟩ w') ∧ ∀ op : AllocatorOp, op.Allowed ⟨true, VFS.neverFails⟩ w' →
      ∃ event w'', op.call.run ⟨true, VFS.neverFails⟩ w' = .ok (event, w'') := by
  obtain ⟨w, mounted, checked⟩ := mounts_checked (imageFrom 6 (zmap 3) (record 1 dirMode 2 128 6 zeroes) rootEntries)
    (plays ⟨true, VFS.neverFails⟩ [(newBlock, .zones, .took 7), (newInode fileMode, .inodes, .took 3),
      (newBlock, .zones, .took 8), (freeBlock 7, .zones, .gave 7), (newBlock, .zones, .took 7)]) (by decide +kernel)
  obtain ⟨w', runs⟩ := runs_of_plays checked
  obtain ⟨ready, isSuper⟩ := ready_small (by decide +kernel) (by decide) mounted
  exact ⟨w, w', runs_pools ready (by rw [isSuper]; decide) runs⟩

/-- Zone 0, which nothing keeps from being a data zone, is taken but not returned. -/
theorem zone_zero_refused : ∃ w w', AllocatorReady ⟨true, VFS.neverFails⟩ w ∧
    w.state.super = ⟨16, 1, 1, 0, 20⟩ ∧
    newBlock.call.run ⟨true, VFS.neverFails⟩ w = .ok ((.zones, .refused), w') ∧
    Bitmap.zones.bit ⟨true, VFS.neverFails⟩ w 0 = true ∧ Bitmap.zones.bit ⟨true, VFS.neverFails⟩ w 1 = false ∧
    Bitmap.zones.bit ⟨true, VFS.neverFails⟩ w' 1 = true := by
  obtain ⟨w, event, w', mounted, called, checked⟩ := mount_and_call
    (imageFrom 0 (zmap 1) (record 1 dirMode 2 128 6 zeroes) rootEntries) newBlock.call
    (fun event w w' => event == (.zones, .refused) && Bitmap.zones.bit ⟨true, VFS.neverFails⟩ w 0 &&
      !Bitmap.zones.bit ⟨true, VFS.neverFails⟩ w 1 && Bitmap.zones.bit ⟨true, VFS.neverFails⟩ w' 1) (by decide +kernel)
  simp only [Bool.and_eq_true, Bool.not_eq_true', beq_iff_eq] at checked
  obtain ⟨⟨⟨rfl, first⟩, clear⟩, set⟩ := checked
  obtain ⟨ready, isSuper⟩ := ready_small (by decide +kernel) (by decide) mounted
  exact ⟨w, w', ready, isSuper, called, first, clear, set⟩

end Images

end AllocatorOp

end MPStuBS
