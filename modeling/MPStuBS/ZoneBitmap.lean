import MPStuBS.BlockBitmaps
import MPStuBS.BlockViews
import MPStuBS.FirstFit
import MPStuBS.HeapTree
import MPStuBS.FsLogic
import MPStuBS.MinixBitmap

/-! The zone bitmap of a mounted file system, and what taking and freeing zones does to it. -/
namespace MPStuBS

open Prog FsM Device BlockBitmap FirstFit

/-- The sizes of a mounted file system. -/
structure Geometry where
  super : SuperBlock
  blocksizeBits : Nat

def Fs.geometry (s : Fs) : Geometry := ⟨s.super, s.blocksizeBits⟩

/-- The handles that a mount keeps. -/
def Fs.mapHandles (s : Fs) : List Nat :=
  (List.range s.super.imapBlocks).map s.imap ++ (List.range s.super.zmapBlocks).map s.zmap

namespace Geometry

def blocksize (g : Geometry) : Nat := 2 ^ g.blocksizeBits

def bitsPerBlock (g : Geometry) : Nat := 8 * g.blocksize

def indirCount (g : Geometry) : Nat := 2 ^ (g.blocksizeBits - 2)

/-- The first block of the inode table. -/
def inodeStart (g : Geometry) : Nat := 2 + g.super.imapBlocks + g.super.zmapBlocks

/-- A block of the zone bitmap. -/
def IsZmap (g : Geometry) (n : Nat) : Prop := 2 + g.super.imapBlocks ≤ n ∧ n < g.inodeStart

/-- A zone that the bitmap has a bit for. -/
structure IsZone (g : Geometry) (z : Nat) : Prop where
  first : g.super.firstdatazone ≤ z
  last : z < g.super.nzones
  bit : (z - g.super.firstdatazone + 1) / g.bitsPerBlock < g.super.zmapBlocks

/-- The bit of a zone. -/
def marked (g : Geometry) (view : Nat → Bytes) (z : Nat) : Bool :=
  (view (2 + g.super.imapBlocks + (z - g.super.firstdatazone + 1) / g.bitsPerBlock)).bit
    ((z - g.super.firstdatazone + 1) % g.bitsPerBlock)

/-- What `new_block` returns for a bit it has set. -/
def zoneOfBit (g : Geometry) (k : Nat) : Nat :=
  if k + g.super.firstdatazone - 1 < g.super.firstdatazone ∨ g.super.nzones ≤ k + g.super.firstdatazone - 1 then 0
  else k + g.super.firstdatazone - 1

/-- The bit of a zone. -/
def bitOf (g : Geometry) (z : Nat) : Nat := z - g.super.firstdatazone + 1

def bitCount (g : Geometry) : Nat := g.super.zmapBlocks * g.bitsPerBlock

/-- The bits of the zone bitmap that are set. -/
def usedBits (g : Geometry) (view : Nat → Bytes) : Set Nat :=
  BlockBitmap.used view (2 + g.super.imapBlocks) g.bitsPerBlock g.bitCount

/-- The bits that stand for zones. -/
def validBits (g : Geometry) : Set Nat := {k | g.zoneOfBit k ≠ 0}

/-- So many zones are found before a bit that stands for none. -/
def Serves (g : Geometry) (view : Nat → Bytes) (n : Nat) : Prop :=
  FirstFit.Serves g.validBits g.bitCount (g.usedBits view) n

/-- The layout of a disk: bitmaps, inode table, zones. -/
structure Layout (g : Geometry) : Prop where
  blocksize : 9 ≤ g.blocksizeBits ∧ g.blocksizeBits ≤ 12
  table : g.inodeStart ≤ g.super.firstdatazone
  last : g.super.nzones ≤ 4294967296

theorem Layout.first {g : Geometry} (layout : g.Layout) : 2 ≤ g.super.firstdatazone := by
  have table := layout.table
  unfold inodeStart at table
  omega

theorem Layout.bits {g : Geometry} (layout : g.Layout) : 0 < g.bitsPerBlock ∧ g.bitsPerBlock % 16 = 0 := by
  obtain ⟨k, eq⟩ := Nat.exists_eq_add_of_le layout.blocksize.1
  have positive : 0 < 2 ^ k := Nat.two_pow_pos k
  unfold Geometry.bitsPerBlock Geometry.blocksize
  rw [eq, Nat.pow_add]
  omega

/-- An indirect block is full of entries. -/
theorem Layout.entries {g : Geometry} (layout : g.Layout) :
    4 * g.indirCount = g.blocksize ∧ 0 < g.indirCount := by
  obtain ⟨k, eq⟩ := Nat.exists_eq_add_of_le layout.blocksize.1
  have positive : 0 < 2 ^ k := Nat.two_pow_pos k
  unfold indirCount Geometry.blocksize
  rw [eq, Nat.add_comm 9 k, Nat.add_sub_assoc (by omega), Nat.pow_add, Nat.pow_add]
  omega

theorem Layout.small {g : Geometry} (layout : g.Layout) : g.indirCount < 2147483648 :=
  show 2 ^ (g.blocksizeBits - 2) < 2 ^ 31 from
    Nat.pow_lt_pow_right Nat.one_lt_two (by have := layout.blocksize.2; omega)

@[simp] theorem super_geometry (s : Fs) : s.geometry.super = s.super := rfl

@[simp] theorem bitsPerBlock_geometry (s : Fs) : s.geometry.bitsPerBlock = s.bitsPerBlock := rfl

@[simp] theorem indirCount_geometry (s : Fs) : s.geometry.indirCount = s.indirCount := rfl

theorem IsZone.ne_zero {g : Geometry} {z : Nat} (layout : g.Layout) (zone : g.IsZone z) : z ≠ 0 := by
  have two := layout.first
  have first := zone.first
  omega

theorem IsZone.offMap {g : Geometry} {z : Nat} (layout : g.Layout) (zone : g.IsZone z) : ¬ g.IsZmap z :=
  fun inMap => absurd zone.first (Nat.not_le.mpr (Nat.lt_of_lt_of_le inMap.2 layout.table))

/-- Some zones have been taken that were free. -/
structure Takes (g : Geometry) (view view' : Nat → Bytes) (taken : Multiset Nat) : Prop where
  zones : ∀ z ∈ taken, g.IsZone z ∧ g.marked view z = false
  nodup : taken.Nodup
  marks : ∀ z, g.IsZone z → (g.marked view' z = true ↔ z ∈ taken ∨ g.marked view z = true)

/-- Some zones have been freed. -/
structure Frees (g : Geometry) (view view' : Nat → Bytes) (freed : Multiset Nat) : Prop where
  marks : ∀ z, g.IsZone z → (g.marked view' z = true ↔ g.marked view z = true ∧ z ∉ freed)

/-- Only these blocks and the zone bitmap may have changed. -/
structure Touches (g : Geometry) (view view' : Nat → Bytes) (touched : Multiset Nat) : Prop where
  rest : ∀ n, ¬ g.IsZmap n → n ∉ touched → view' n = view n

/-- A block that allocation leaves as it is. -/
structure Firm (g : Geometry) (view : Nat → Bytes) (n : Nat) : Prop where
  offMap : ¬ g.IsZmap n
  used : g.IsZone n → g.marked view n = true

/-- Allocation may have happened: no zone is freed, and what is in use is as it was. -/
structure Spares (g : Geometry) (view view' : Nat → Bytes) : Prop where
  marks : ∀ z, g.IsZone z → g.marked view z = true → g.marked view' z = true
  rest : ∀ n, g.Firm view n → view' n = view n

variable {g : Geometry} {view view' view'' : Nat → Bytes}
  {taken taken' freed freed' touched touched' : Multiset Nat}

/-- What was free is told by the marks alone. -/
theorem Takes.congr (takes : g.Takes view view' taken)
    (same : ∀ z, g.IsZone z → g.marked view z = g.marked view'' z) : g.Takes view'' view' taken :=
  ⟨fun z member => ⟨(takes.zones z member).1, same z (takes.zones z member).1 ▸ (takes.zones z member).2⟩,
    takes.nodup, fun z zone => same z zone ▸ takes.marks z zone⟩

theorem Takes.notMem (takes : g.Takes view view' taken) {z : Nat} (marked : g.marked view z = true) : z ∉ taken := by
  intro member
  rw [(takes.zones z member).2] at marked
  cases marked

theorem Takes.spares (takes : g.Takes view view' taken) (touches : g.Touches view view' taken) :
    g.Spares view view' := by
  refine ⟨fun z zone marked => (takes.marks z zone).mpr (.inr marked), fun n firm => ?_⟩
  refine touches.rest n firm.offMap fun member => ?_
  obtain ⟨zone, free⟩ := takes.zones n member
  rw [firm.used zone] at free
  cases free

theorem Touches.refl (g : Geometry) (view : Nat → Bytes) (touched : Multiset Nat) :
    g.Touches view view touched :=
  ⟨fun _ _ _ => rfl⟩

theorem Touches.mono (touches : g.Touches view view' touched) (more : ∀ n ∈ touched, n ∈ touched') :
    g.Touches view view' touched' :=
  ⟨fun n offMap absent => touches.rest n offMap fun member => absent (more n member)⟩

theorem Touches.trans (fst : g.Touches view view' touched) (snd : g.Touches view' view'' touched') :
    g.Touches view view'' (touched + touched') := by
  refine ⟨fun n offMap absent => ?_⟩
  rw [Multiset.mem_add, not_or] at absent
  rw [snd.rest n offMap absent.2, fst.rest n offMap absent.1]

theorem Takes.refl (g : Geometry) (view : Nat → Bytes) : g.Takes view view 0 :=
  ⟨by simp, Multiset.nodup_zero, by simp⟩

theorem Takes.trans (fst : g.Takes view view' taken) (snd : g.Takes view' view'' taken') :
    g.Takes view view'' (taken + taken') := by
  have apart : ∀ z ∈ taken', z ∉ taken ∧ g.marked view z = false := by
    intro z member
    obtain ⟨zone, free⟩ := snd.zones z member
    have before := not_or.mp (fun before => Bool.false_ne_true (free.symm.trans ((fst.marks z zone).mpr before)))
    exact ⟨before.1, by simpa using before.2⟩
  refine ⟨fun z member => ?_, ?_, fun z zone => ?_⟩
  · rcases Multiset.mem_add.mp member with old | new
    · exact fst.zones z old
    · exact ⟨(snd.zones z new).1, (apart z new).2⟩
  · refine Multiset.nodup_add.mpr ⟨fst.nodup, snd.nodup, ?_⟩
    exact Multiset.disjoint_right.mpr fun {z} member => (apart z member).1
  · rw [snd.marks z zone, fst.marks z zone, Multiset.mem_add]
    tauto

theorem Frees.refl (g : Geometry) (view : Nat → Bytes) : g.Frees view view 0 := ⟨by simp⟩

theorem Frees.trans (fst : g.Frees view view' freed) (snd : g.Frees view' view'' freed') :
    g.Frees view view'' (freed + freed') := by
  refine ⟨fun z zone => ?_⟩
  rw [snd.marks z zone, fst.marks z zone, Multiset.mem_add]
  tauto

/-- The place of the bit of a zone. -/
theorem IsZone.place {y i j : Nat} (layout : g.Layout) (zone : g.IsZone y) (room : j < g.bitsPerBlock) :
    ((y - g.super.firstdatazone + 1) / g.bitsPerBlock = i ∧
      (y - g.super.firstdatazone + 1) % g.bitsPerBlock = j) ↔
      y = j + i * g.bitsPerBlock + g.super.firstdatazone - 1 := by
  have first := zone.first
  have two := layout.first
  constructor
  · rintro ⟨rfl, rfl⟩
    have whole := Nat.mod_add_div' (y - g.super.firstdatazone + 1) g.bitsPerBlock
    omega
  · intro place
    have bit : y - g.super.firstdatazone + 1 = j + i * g.bitsPerBlock := by omega
    rw [bit, Nat.add_mul_div_right _ _ layout.bits.1, Nat.add_mul_mod_self_right, Nat.div_eq_of_lt room,
      Nat.mod_eq_of_lt room, Nat.zero_add]
    exact ⟨rfl, rfl⟩

/-- The marks after a block of the bitmap has changed. -/
theorem marked_update (i y : Nat) (bytes : Bytes) :
    g.marked (Function.update view (2 + g.super.imapBlocks + i) bytes) y =
      if (y - g.super.firstdatazone + 1) / g.bitsPerBlock = i then
        bytes.bit ((y - g.super.firstdatazone + 1) % g.bitsPerBlock)
      else g.marked view y := by
  unfold marked
  split
  · rename_i same
    rw [same, Function.update_self]
  · rename_i apart
    rw [Function.update_of_ne (by omega)]

/-- The marks depend on the bitmap alone. -/
theorem marked_congr {z : Nat} (zone : g.IsZone z) (same : ∀ n, g.IsZmap n → view' n = view n) :
    g.marked view' z = g.marked view z := by
  have bit := zone.bit
  have inMap : g.IsZmap (2 + g.super.imapBlocks + (z - g.super.firstdatazone + 1) / g.bitsPerBlock) :=
    ⟨Nat.le_add_right _ _, by unfold inodeStart; omega⟩
  unfold marked
  rw [same _ inMap]

theorem marked_update_of_offMap {n z : Nat} (bytes : Bytes) (zone : g.IsZone z) (offMap : ¬ g.IsZmap n) :
    g.marked (Function.update view n bytes) z = g.marked view z :=
  marked_congr zone fun n' inMap => Function.update_of_ne (by rintro rfl; exact offMap inMap) _ _

theorem frees_update {n : Nat} (bytes : Bytes) (offMap : ¬ g.IsZmap n) :
    g.Frees view (Function.update view n bytes) 0 :=
  ⟨fun z zone => by
    rw [marked_update_of_offMap bytes zone offMap]
    simp⟩

theorem touches_update (n : Nat) (bytes : Bytes) : g.Touches view (Function.update view n bytes) {n} :=
  ⟨fun _ _ absent => Function.update_of_ne (by simpa using absent) _ _⟩

theorem marked_eq_bit {i y : Nat} (block : (y - g.super.firstdatazone + 1) / g.bitsPerBlock = i) :
    g.marked view y = (view (2 + g.super.imapBlocks + i)).bit
      ((y - g.super.firstdatazone + 1) % g.bitsPerBlock) := by
  unfold marked
  rw [block]

/-- Setting a bit marks the zone at its place, if there is one. -/
theorem marked_setBit {i j y : Nat} (layout : g.Layout) (zone : g.IsZone y) (room : j < g.bitsPerBlock) :
    g.marked (Function.update view (2 + g.super.imapBlocks + i)
      ((view (2 + g.super.imapBlocks + i)).setBit j)) y = true ↔
      y = j + i * g.bitsPerBlock + g.super.firstdatazone - 1 ∨ g.marked view y = true := by
  rw [marked_update, ← zone.place layout room]
  split
  · rename_i block
    rw [Bytes.bit_setBit, marked_eq_bit block]
    simp [block]
  · rename_i other
    simp [other]

theorem marked_clearBit {i j y : Nat} (layout : g.Layout) (zone : g.IsZone y)
    (room : j < g.bitsPerBlock) :
    g.marked (Function.update view (2 + g.super.imapBlocks + i)
      ((view (2 + g.super.imapBlocks + i)).clearBit j)) y = true ↔
      g.marked view y = true ∧ y ≠ j + i * g.bitsPerBlock + g.super.firstdatazone - 1 := by
  rw [marked_update, Ne, ← zone.place layout room]
  split
  · rename_i block
    rw [Bytes.bit_clearBit, marked_eq_bit block]
    simp [block, and_comm]
  · rename_i other
    simp [other]

/-- Clearing the bit of a zone frees it. -/
theorem frees_clearBit {z : Nat} (layout : g.Layout) (zone : g.IsZone z) :
    g.Frees view (Function.update view
      (2 + g.super.imapBlocks + (z - g.super.firstdatazone + 1) / g.bitsPerBlock)
      ((view (2 + g.super.imapBlocks + (z - g.super.firstdatazone + 1) / g.bitsPerBlock)).clearBit
        ((z - g.super.firstdatazone + 1) % g.bitsPerBlock))) {z} := by
  refine ⟨fun y other => ?_⟩
  have room := Nat.mod_lt (z - g.super.firstdatazone + 1) layout.bits.1
  have here := (zone.place layout room).mp ⟨rfl, rfl⟩
  rw [marked_clearBit layout other room, ← here, Multiset.mem_singleton]

theorem update_zmap {i : Nat} (bound : i < g.super.zmapBlocks) (bytes : Bytes) {n : Nat}
    (offMap : ¬ g.IsZmap n) : Function.update view (2 + g.super.imapBlocks + i) bytes n = view n := by
  refine Function.update_of_ne ?_ _ _
  rintro rfl
  refine offMap ⟨by omega, ?_⟩
  unfold inodeStart
  omega

theorem touches_zmap {i : Nat} (bound : i < g.super.zmapBlocks) (bytes : Bytes) :
    g.Touches view (Function.update view (2 + g.super.imapBlocks + i) bytes) 0 :=
  ⟨fun _ offMap _ => update_zmap bound bytes offMap⟩

/-- The zone of a bit that has been set. -/
theorem takes_setBitAt {k : Nat} (layout : g.Layout)
    (found : FirstClear view (2 + g.super.imapBlocks) g.bitsPerBlock 0 g.bitCount k) :
    g.Takes view (setBitAt view (2 + g.super.imapBlocks) g.bitsPerBlock k)
      (if g.zoneOfBit k = 0 then 0 else {g.zoneOfBit k}) := by
  have two := layout.first
  have room := Nat.mod_lt k layout.bits.1
  have place : k % g.bitsPerBlock + k / g.bitsPerBlock * g.bitsPerBlock = k := Nat.mod_add_div' k _
  have marks : ∀ y, g.IsZone y → (g.marked (setBitAt view (2 + g.super.imapBlocks) g.bitsPerBlock k) y = true ↔
      y = k + g.super.firstdatazone - 1 ∨ g.marked view y = true) := by
    intro y zone
    have set : g.marked (Function.update view (2 + g.super.imapBlocks + k / g.bitsPerBlock) _) y = true ↔ _ :=
      marked_setBit layout zone room
    rwa [place] at set
  by_cases outside : k + g.super.firstdatazone - 1 < g.super.firstdatazone ∨
      g.super.nzones ≤ k + g.super.firstdatazone - 1
  · rw [zoneOfBit, if_pos outside, if_pos rfl]
    refine ⟨by simp, Multiset.nodup_zero, fun y zone => ?_⟩
    have other : y ≠ k + g.super.firstdatazone - 1 := by
      rintro rfl
      exact outside.elim (Nat.not_lt.mpr zone.first) (Nat.not_le.mpr zone.last)
    rw [marks y zone]
    simp [other]
  · have nonzero : k + g.super.firstdatazone - 1 ≠ 0 := by omega
    rw [zoneOfBit, if_neg outside, if_neg nonzero]
    rw [not_or, Nat.not_lt, Nat.not_le] at outside
    have bit : k + g.super.firstdatazone - 1 - g.super.firstdatazone + 1 = k := by omega
    have zone : g.IsZone (k + g.super.firstdatazone - 1) := ⟨outside.1, outside.2, by
      rw [bit]
      exact div_lt_blocks found.inside⟩
    refine ⟨fun y member => ?_, Multiset.nodup_singleton _, fun y other => ?_⟩
    · obtain rfl := Multiset.mem_singleton.mp member
      refine ⟨zone, ?_⟩
      unfold marked
      rw [bit]
      exact found.clear
    · rw [Multiset.mem_singleton, marks y other]

/-- The first clear bit has been set for a zone, or all are set. -/
def DrawsZone (g : Geometry) (view view' : Nat → Bytes) (z : Nat) : Prop :=
  ((∀ k < g.bitCount, k ∈ g.usedBits view) ∧ z = 0 ∧ g.usedBits view' = g.usedBits view) ∨
    ∃ k, IsFirst g.bitCount (g.usedBits view) k ∧ z = g.zoneOfBit k ∧ g.usedBits view' = insert k (g.usedBits view)

theorem drawsZone_setBitAt {k : Nat} (found : FirstClear view (2 + g.super.imapBlocks) g.bitsPerBlock 0 g.bitCount k) :
    g.DrawsZone view (setBitAt view (2 + g.super.imapBlocks) g.bitsPerBlock k) (g.zoneOfBit k) := by
  refine .inr ⟨k, ⟨found.inside, fun set => ?_, fun j before => ?_⟩, rfl, used_setBitAt found.inside⟩
  · exact Bool.false_ne_true (found.clear.symm.trans set.2)
  · exact ⟨before.trans found.inside, found.before j (Nat.zero_le j) before⟩

/-- The zone stands for its bit. -/
theorem bitOf_zoneOfBit {k : Nat} (nonzero : g.zoneOfBit k ≠ 0) : g.bitOf (g.zoneOfBit k) = k := by
  unfold zoneOfBit at nonzero ⊢
  split at nonzero
  · exact absurd rfl nonzero
  · rename_i inside
    rw [if_neg inside, bitOf]
    omega

theorem DrawsZone.none {n : Nat} (draws : g.DrawsZone view view' 0) :
    Draws g.validBits g.bitCount (g.usedBits view) (n + 1) [] (g.usedBits view') false := by
  obtain ⟨all, -, same⟩ | ⟨k, first, zero, set⟩ := draws
  · rw [same]
    exact .full all
  · rw [set]
    exact .invalid first fun valid => valid zero.symm

theorem DrawsZone.next {n z : Nat} {ks : List Nat} {used : Set Nat} {whole : Bool} (draws : g.DrawsZone view view' z)
    (nonzero : z ≠ 0) (rest : Draws g.validBits g.bitCount (g.usedBits view') n ks used whole) :
    Draws g.validBits g.bitCount (g.usedBits view) (n + 1) (g.bitOf z :: ks) used whole := by
  obtain ⟨-, zero, -⟩ | ⟨k, first, rfl, set⟩ := draws
  · exact absurd zero nonzero
  · rw [set] at rest
    rw [bitOf_zoneOfBit nonzero]
    exact .next first nonzero rest

theorem usedBits_congr (same : ∀ n, g.IsZmap n → view' n = view n) : g.usedBits view' = g.usedBits view :=
  used_congr fun n low high => same n ⟨low, high⟩

end Geometry

/-- A mounted file system in which the blocks of some handles are held besides the bitmaps. -/
structure Stored (disk : Disk Errno) (w : World Fs) (kept pinned : List Nat) (view : Nat → Bytes) :
    Prop where
  holds : w.device.Holds disk kept (pinned ++ w.state.mapHandles) view
  imap : ∀ i < w.state.super.imapBlocks, w.device.number (w.state.imap i) = 2 + i
  zmap : ∀ i < w.state.super.zmapBlocks,
    w.device.number (w.state.zmap i) = 2 + w.state.super.imapBlocks + i

namespace Stored

variable {disk : Disk Errno} {w : World Fs} {kept pinned : List Nat} {view : Nat → Bytes}

theorem zmap_mem {i : Nat} (bound : i < w.state.super.zmapBlocks) :
    w.state.zmap i ∈ w.state.mapHandles := by
  simp only [Fs.mapHandles, List.mem_append, List.mem_map, List.mem_range]
  exact .inr ⟨i, bound, rfl⟩

theorem imap_mem {i : Nat} (bound : i < w.state.super.imapBlocks) :
    w.state.imap i ∈ w.state.mapHandles := by
  simp only [Fs.mapHandles, List.mem_append, List.mem_map, List.mem_range]
  exact .inl ⟨i, bound, rfl⟩

/-- The bitmaps are before the inode table. -/
theorem number_mapHandles (stored : Stored disk w kept pinned view) {n : Nat}
    (member : n ∈ w.state.mapHandles.map w.device.number) : 2 ≤ n ∧ n < w.state.geometry.inodeStart := by
  simp only [Fs.mapHandles, List.map_append, List.map_map, List.mem_append, List.mem_map,
    List.mem_range, Function.comp_apply] at member
  simp only [Geometry.inodeStart, Geometry.super_geometry]
  rcases member with ⟨i, bound, rfl⟩ | ⟨i, bound, rfl⟩
  · rw [stored.imap i bound]
    omega
  · rw [stored.zmap i bound]
    omega

/-- A step of the device that leaves the numbers of the bitmaps. -/
theorem follow {w' : World Fs} {kept' pinned' : List Nat} {view' : Nat → Bytes}
    (stored : Stored disk w kept pinned view) (super : w'.state.super = w.state.super)
    (imap : w'.state.imap = w.state.imap) (zmap : w'.state.zmap = w.state.zmap)
    (follows : w.device.Follows w'.device)
    (holds : w'.device.Holds disk kept' (pinned' ++ w.state.mapHandles) view') :
    Stored disk w' kept' pinned' view' := by
  have early : ∀ b ∈ w.state.mapHandles, b < w.device.next := fun b member =>
    stored.holds.shows.early (by simp [member])
  have handles : w'.state.mapHandles = w.state.mapHandles := by
    unfold Fs.mapHandles
    rw [super, imap, zmap]
  refine ⟨handles ▸ holds, fun i bound => ?_, fun i bound => ?_⟩
  · rw [super] at bound
    rw [imap, follows.number _ (early _ (imap_mem bound)), stored.imap i bound]
  · rw [super] at bound ⊢
    rw [zmap, follows.number _ (early _ (zmap_mem bound)), stored.zmap i bound]

theorem load_zmap (stored : Stored disk w kept pinned view) {i : Nat}
    (bound : i < w.state.super.zmapBlocks) :
    w.device.load disk (w.state.zmap i) = some (view (2 + w.state.super.imapBlocks + i)) := by
  rw [stored.holds.shows.shown _ (by simp [zmap_mem bound]), stored.zmap i bound]

theorem load_imap (stored : Stored disk w kept pinned view) {i : Nat}
    (bound : i < w.state.super.imapBlocks) :
    w.device.load disk (w.state.imap i) = some (view (2 + i)) := by
  rw [stored.holds.shows.shown _ (by simp [imap_mem bound]), stored.imap i bound]

theorem pin {h : Nat} (stored : Stored disk w (h :: kept) pinned view) :
    Stored disk w kept (h :: pinned) view :=
  ⟨stored.holds.pin, stored.imap, stored.zmap⟩

theorem perm {kept' pinned' : List Nat} (stored : Stored disk w kept pinned view)
    (same : kept.Perm kept') (same' : pinned.Perm pinned') : Stored disk w kept' pinned' view :=
  ⟨stored.holds.perm same (same'.append_right _), stored.imap, stored.zmap⟩

theorem load {h : Nat} (stored : Stored disk w kept pinned view) (member : h ∈ kept ++ pinned) :
    w.device.load disk h = some (view (w.device.number h)) :=
  stored.holds.shows.shown h (by
    rw [← List.append_assoc]
    exact List.mem_append_left _ member)

theorem early (stored : Stored disk w kept pinned view) {b : Nat} (member : b ∈ kept ++ pinned) :
    b < w.device.next :=
  stored.holds.shows.early (by
    rw [← List.append_assoc]
    exact List.mem_append_left _ member)

end Stored

namespace Minix

variable {disk : Disk Errno} {allowed : FsFault → Prop} {w : World Fs} {kept pinned : List Nat}
  {view : Nat → Bytes}

/-- What a program does that leaves the state as it is and ends with these blocks. -/
structure Works (disk : Disk Errno) (w w' : World Fs) (kept pinned : List Nat)
    (view' : Nat → Bytes) : Prop where
  state : w'.state = w.state
  follows : w.device.Follows w'.device
  stored : Stored disk w' kept pinned view'

theorem Works.refl (stored : Stored disk w kept pinned view) : Works disk w w kept pinned view :=
  ⟨rfl, .refl _, stored⟩

theorem Works.trans {w' w'' : World Fs} {kept' pinned' kept'' pinned'' : List Nat}
    {view' view'' : Nat → Bytes} (fst : Works disk w w' kept' pinned' view')
    (snd : Works disk w' w'' kept'' pinned'' view'') : Works disk w w'' kept'' pinned'' view'' :=
  ⟨snd.state.trans fst.state, fst.follows.trans snd.follows, snd.stored⟩

theorem Works.perm {w' : World Fs} {kept' pinned' kept'' pinned'' : List Nat} {view' : Nat → Bytes}
    (works : Works disk w w' kept' pinned' view') (same : kept'.Perm kept'')
    (same' : pinned'.Perm pinned'') : Works disk w w' kept'' pinned'' view' :=
  ⟨works.state, works.follows, works.stored.perm same same'⟩

/-- What was held stands for the same blocks. -/
theorem Works.numbers {w' : World Fs} {kept' pinned' : List Nat} {view' : Nat → Bytes}
    (stored : Stored disk w kept pinned view) (works : Works disk w w' kept' pinned' view') :
    (kept ++ pinned).map w'.device.number = (kept ++ pinned).map w.device.number :=
  List.map_congr_left fun b member => works.follows.number b (stored.early member)

section Commands

variable {h : Nat}

theorem works_device {d : Device} {kept' pinned' : List Nat} {view' : Nat → Bytes}
    (stored : Stored disk w kept pinned view) (follows : w.device.Follows d)
    (holds : d.Holds disk kept' (pinned' ++ w.state.mapHandles) view') :
    Works disk w ⟨w.state, d⟩ kept' pinned' view' :=
  ⟨rfl, follows, stored.follow rfl rfl rfl follows holds⟩

theorem works_tick (stored : Stored disk w kept pinned view) :
    Works disk w ⟨w.state, w.device.tick⟩ kept pinned view :=
  works_device stored follows_tick stored.holds.tick

/-- Fixing a block that is not held yet. -/
theorem works_fix (stored : Stored disk w kept pinned view) {n : Nat} (table : w.state.geometry.inodeStart ≤ n)
    (absent : n ∉ (kept ++ pinned).map w.device.number) :
    Works disk w ⟨w.state, (w.device.hold n).tick⟩ (w.device.next :: kept) pinned view := by
  refine works_device stored (follows_hold n) (stored.holds.own fun member => ?_)
  rw [← List.append_assoc, List.map_append, List.mem_append] at member
  rcases member with held | map
  · exact absent held
  · exact Nat.not_lt.mpr table (stored.number_mapHandles map).2

theorem works_unfix (stored : Stored disk w (h :: kept) pinned view) :
    Works disk w ⟨w.state, w.device.exec disk h .unfix⟩ kept pinned view :=
  works_device stored (follows_exec .unfix) stored.holds.unfix

theorem works_store (stored : Stored disk w kept pinned view) (member : h ∈ pinned) (bytes : Bytes) :
    Works disk w ⟨w.state, w.device.exec disk h (.store bytes)⟩ kept pinned
      (Function.update view (w.device.number h) bytes) :=
  works_device stored (follows_exec (.store bytes)) (stored.holds.store (by simp [member]) bytes)

theorem works_markDirty (stored : Stored disk w kept (h :: pinned) view) :
    Works disk w ⟨w.state, w.device.exec disk h .markDirty⟩ (h :: kept) pinned view :=
  works_device stored (follows_exec .markDirty) stored.holds.unpin

theorem works_forget (stored : Stored disk w kept (h :: pinned) view) : ∃ bytes,
    Works disk w ⟨w.state, (w.device.exec disk h .clearDirty).exec disk h .unfix⟩ kept pinned
      (Function.update view (w.device.number h) bytes) := by
  obtain ⟨bytes, holds⟩ := stored.holds.forget
  have follows : w.device.Follows ((w.device.exec disk h .clearDirty).exec disk h .unfix) :=
    (follows_exec .clearDirty).trans (follows_exec .unfix)
  exact ⟨bytes, works_device stored follows holds⟩

end Commands

/-- Storing a block of the zone bitmap. -/
theorem works_store_zmap (stored : Stored disk w kept pinned view) {i : Nat}
    (bound : i < w.state.super.zmapBlocks) (bytes : Bytes) :
    Works disk w ⟨w.state, (w.device.exec disk (w.state.zmap i) (.store bytes)).exec disk
      (w.state.zmap i) .markDirty⟩ kept pinned
      (Function.update view (2 + w.state.super.imapBlocks + i) bytes) := by
  have member : w.state.zmap i ∈ pinned ++ w.state.mapHandles := by simp [Stored.zmap_mem bound]
  have follows : w.device.Follows ((w.device.exec disk (w.state.zmap i) (.store bytes)).exec disk
      (w.state.zmap i) .markDirty) := (follows_exec _).trans (follows_exec _)
  refine ⟨rfl, follows, stored.follow rfl rfl rfl follows ?_⟩
  rw [← stored.zmap i bound]
  exact (stored.holds.store member bytes).markDirty member

/-- The zone that was taken, none if it is zero. -/
def takenBy (z : Nat) : Multiset Nat := if z = 0 then 0 else {z}

/-- What `new_block` does: the first clear bit is set, also if it stands for no zone. -/
def Searched (disk : Disk Errno) (w : World Fs) (kept pinned : List Nat) (view : Nat → Bytes) (first : Nat)
    (z : Nat) (w' : World Fs) : Prop :=
  (Full view (2 + w.state.super.imapBlocks) w.state.bitsPerBlock first
      (w.state.super.zmapBlocks * w.state.bitsPerBlock) ∧ z = 0 ∧ w' = w) ∨
  ∃ k, FirstClear view (2 + w.state.super.imapBlocks) w.state.bitsPerBlock first
      (w.state.super.zmapBlocks * w.state.bitsPerBlock) k ∧ z = w.state.geometry.zoneOfBit k ∧
    Works disk w w' kept pinned (setBitAt view (2 + w.state.super.imapBlocks) w.state.bitsPerBlock k)

theorem newBlockFrom_searches (words : w.state.bitsPerBlock % 16 = 0) (n : Nat) :
    ∀ i, n + i = w.state.super.zmapBlocks → Stored disk w kept pinned view →
      Meets disk allowed (newBlockFrom n i)
        (Searched disk w kept pinned view (i * w.state.bitsPerBlock)) w := by
  induction n with
  | zero =>
    intro i count _
    rw [Nat.zero_add] at count
    refine .inl ⟨?_, rfl, rfl⟩
    rw [count]
    exact .nil _ _ _ _
  | succ n ih =>
    intro i count stored
    have bound : i < w.state.super.zmapBlocks := by omega
    have block : (i + 1) * w.state.bitsPerBlock ≤ w.state.super.zmapBlocks * w.state.bitsPerBlock :=
      Nat.mul_le_mul_right _ (by omega)
    simp only [newBlockFrom, meets_bind, meets_get]
    rw [meets_load (stored.load_zmap bound)]
    split
    · rename_i room
      simp only [meets_bind, meets_store, meets_markDirty]
      have works := works_store_zmap stored bound ((view (2 + w.state.super.imapBlocks + i)).setBit
        ((view (2 + w.state.super.imapBlocks + i)).findFirstZeroBit w.state.bitsPerBlock))
      rw [← setBitAt_add room] at works
      have found : Searched disk w kept pinned view (i * w.state.bitsPerBlock) _ _ :=
        .inr ⟨_, firstClear_block words room block, rfl, works⟩
      unfold Geometry.zoneOfBit at found
      split
      · rename_i outside
        rwa [if_pos (by exact outside)] at found
      · rename_i inside
        rwa [if_neg (by exact inside)] at found
    · rename_i none
      have low := full_of_findFirst words none
      refine (ih (i + 1) (by omega) stored).mono ?_
      rintro z w' (⟨full, empty⟩ | ⟨k, found, taken⟩)
      · exact .inl ⟨low.append full, empty⟩
      · exact .inr ⟨k, found.extend low (Nat.mul_le_mul_right _ (Nat.le_succ i)), taken⟩

theorem newBlock_searches (words : w.state.bitsPerBlock % 16 = 0) (stored : Stored disk w kept pinned view) :
    Meets disk allowed newBlock (Searched disk w kept pinned view 0) w := by
  have searched : Meets disk allowed _ _ _ := newBlockFrom_searches words w.state.super.zmapBlocks 0 rfl stored
  rwa [Nat.zero_mul] at searched

/-- `free_block` clears the bit of the zone. -/
theorem freeBlock_clears (stored : Stored disk w kept pinned view) {z : Nat}
    (first : w.state.super.firstdatazone ≤ z) (last : z < w.state.super.nzones)
    (bit : z - w.state.super.firstdatazone + 1 < w.state.super.zmapBlocks * w.state.bitsPerBlock) :
    Meets disk allowed (freeBlock z) (fun _ w' => Works disk w w' kept pinned
      (clearBitAt view (2 + w.state.super.imapBlocks) w.state.bitsPerBlock
        (z - w.state.super.firstdatazone + 1))) w := by
  have block := div_lt_blocks bit
  simp only [freeBlock, meets_bind, meets_get,
    if_neg (not_or.mpr ⟨Nat.not_lt.mpr first, Nat.not_le.mpr last⟩), if_neg (Nat.not_le.mpr block)]
  rw [meets_load (stored.load_zmap block)]
  simp only [meets_bind, meets_store, meets_markDirty]
  exact works_store_zmap stored block _

/-- `new_block` takes a free zone, or none. -/
theorem newBlock_takes (layout : w.state.geometry.Layout) (stored : Stored disk w kept pinned view) :
    Meets disk allowed newBlock (fun z w' => ∃ view', Works disk w w' kept pinned view' ∧
      w.state.geometry.Takes view view' (takenBy z) ∧ w.state.geometry.Touches view view' 0 ∧
      w.state.geometry.DrawsZone view view' z) w := by
  refine (newBlock_searches layout.bits.2 stored).mono ?_
  rintro z w' (⟨full, rfl, rfl⟩ | ⟨k, found, rfl, works⟩)
  · refine ⟨view, .refl stored, .refl _ _, .refl _ _ _, .inl ⟨fun k inside => ?_, rfl, rfl⟩⟩
    exact ⟨inside, full k (Nat.zero_le k) inside⟩
  · exact ⟨_, works, Geometry.takes_setBitAt layout found, Geometry.touches_zmap (div_lt_blocks found.inside) _,
      Geometry.drawsZone_setBitAt found⟩

/-- `free_block` frees a zone. -/
theorem freeBlock_frees (layout : w.state.geometry.Layout) (stored : Stored disk w kept pinned view) {z : Nat}
    (zone : w.state.geometry.IsZone z) : Meets disk allowed (freeBlock z) (fun _ w' => ∃ view',
      Works disk w w' kept pinned view' ∧ w.state.geometry.Frees view view' {z} ∧
      w.state.geometry.Touches view view' 0 ∧
      w.state.geometry.usedBits view' = w.state.geometry.usedBits view \ {w.state.geometry.bitOf z}) w := by
  have bit : z - w.state.super.firstdatazone + 1 < w.state.super.zmapBlocks * w.state.bitsPerBlock :=
    (Nat.div_lt_iff_lt_mul layout.bits.1).mp zone.bit
  refine (freeBlock_clears stored zone.first zone.last bit).mono fun _ w' works => ?_
  exact ⟨_, works, Geometry.frees_clearBit layout zone, Geometry.touches_zmap zone.bit _, used_clearBitAt⟩

end Minix

end MPStuBS
