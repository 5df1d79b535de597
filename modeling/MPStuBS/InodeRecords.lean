import MPStuBS.Truncation
import MPStuBS.InodeCache

/-! The records of the inode table and what writing, freeing and destroying an inode does to
the blocks, on a device that never fails. -/
namespace MPStuBS

open Prog FsM Device

namespace Inode

/-- What a record has room for. -/
structure Fits (i : Inode) : Prop where
  mode : i.mode < 65536
  nlinks : i.nlinks < 65536
  size : 0 ≤ i.size ∧ i.size < 4294967296
  data : ∀ n < 10, i.data n < 4294967296

/-- Inodes that agree in what decides about the contents of the file. -/
structure SameFile (i j : Inode) : Prop where
  mode : j.mode = i.mode
  nlinks : j.nlinks = i.nlinks
  size : j.size = i.size
  data : ∀ n < 10, j.data n = i.data n

end Inode

namespace Geometry

def inodesPerBlock (g : Geometry) : Nat := g.blocksize / 64

def HasInode (g : Geometry) (ino : Nat) : Prop := ino ≠ 0 ∧ ino ≤ g.super.ninodes

instance (g : Geometry) (ino : Nat) : Decidable (g.HasInode ino) := by
  unfold HasInode
  infer_instance

/-- The block of the inode table that has the record. -/
def inodeBlock (g : Geometry) (ino : Nat) : Nat := g.inodeStart + (ino - 1) / g.inodesPerBlock

/-- Where the record starts in its block. -/
def inodeSlot (g : Geometry) (ino : Nat) : Nat := 64 * ((ino - 1) % g.inodesPerBlock)

/-- What is read from a record. -/
def record (g : Geometry) (view : Nat → Bytes) (ino : Nat) (i : Inode) : Inode :=
  Minix.readInode (view (g.inodeBlock ino)) (g.inodeSlot ino) ino i

def storeRecord (g : Geometry) (view : Nat → Bytes) (i : Inode) : Nat → Bytes :=
  Function.update view (g.inodeBlock i.ino)
    (Minix.writeZones (g.inodeSlot i.ino) i.data 10
      (Minix.writeFields (view (g.inodeBlock i.ino)) (g.inodeSlot i.ino) i))

def clearRecord (g : Geometry) (view : Nat → Bytes) (ino : Nat) : Nat → Bytes :=
  Function.update view (g.inodeBlock ino)
    (((view (g.inodeBlock ino)).setU16 (g.inodeSlot ino + 2) 0).setU16 (g.inodeSlot ino) 0)

def clearInodeBit (g : Geometry) (view : Nat → Bytes) (ino : Nat) : Nat → Bytes :=
  Function.update view (2 + ino / g.bitsPerBlock)
    ((view (2 + ino / g.bitsPerBlock)).clearBit (ino % g.bitsPerBlock))

/-- What is left of an inode that has been freed. -/
def releaseInode (g : Geometry) (view : Nat → Bytes) (ino : Nat) : Nat → Bytes :=
  if g.HasInode ino ∧ ino / g.bitsPerBlock < g.super.imapBlocks then
    g.clearInodeBit (g.clearRecord view ino) ino
  else view

/-- The layout of a disk whose inode table ends before the zones. -/
structure Formed (g : Geometry) : Prop where
  layout : g.Layout
  small : g.blocksizeBits ≤ 12
  room : ∀ ino, g.HasInode ino → g.inodeBlock ino < g.super.firstdatazone

/-- Only the bitmaps, the record of an inode and these blocks may have changed. -/
structure Tidies (g : Geometry) (view view' : Nat → Bytes) (ino : Nat) (touched : Multiset Nat) : Prop where
  rest : ∀ n, g.inodeStart ≤ n → n ≠ g.inodeBlock ino → n ∉ touched → view' n = view n
  table : g.inodeBlock ino ∉ touched → ∀ j, j < g.inodeSlot ino ∨ g.inodeSlot ino + 64 ≤ j →
    view' (g.inodeBlock ino) j = view (g.inodeBlock ino) j

variable {g : Geometry} {view view' view'' : Nat → Bytes} {ino : Nat} {touched touched' : Multiset Nat}

@[simp] theorem inodesPerBlock_geometry (s : Fs) : s.geometry.inodesPerBlock = s.inodesPerBlock := rfl

theorem Layout.inodes (layout : g.Layout) : 0 < g.inodesPerBlock := by
  obtain ⟨k, eq⟩ := Nat.exists_eq_add_of_le layout.blocksize.1
  have positive : 0 < 2 ^ k := Nat.two_pow_pos k
  unfold inodesPerBlock Geometry.blocksize
  rw [eq, Nat.pow_add]
  omega

theorem inodeStart_le (g : Geometry) (ino : Nat) : g.inodeStart ≤ g.inodeBlock ino := Nat.le_add_right _ _

theorem Tidies.refl (g : Geometry) (view : Nat → Bytes) (ino : Nat) (touched : Multiset Nat) :
    g.Tidies view view ino touched :=
  ⟨fun _ _ _ _ => rfl, fun _ _ _ => rfl⟩

theorem Tidies.trans (fst : g.Tidies view view' ino touched) (snd : g.Tidies view' view'' ino touched) :
    g.Tidies view view'' ino touched :=
  ⟨fun n late other absent => (snd.rest n late other absent).trans (fst.rest n late other absent),
    fun absent j outside => (snd.table absent j outside).trans (fst.table absent j outside)⟩

/-- A record is changed. -/
theorem tidies_update {bytes : Bytes} (same : ∀ j, j < g.inodeSlot ino ∨ g.inodeSlot ino + 64 ≤ j →
    bytes j = view (g.inodeBlock ino) j) :
    g.Tidies view (Function.update view (g.inodeBlock ino) bytes) ino touched :=
  ⟨fun _ _ other _ => Function.update_of_ne other _ _, fun _ j outside => by
    rw [Function.update_self]
    exact same j outside⟩

/-- A bitmap is changed. -/
theorem tidies_map {n : Nat} (inMap : n < g.inodeStart) (bytes : Bytes) :
    g.Tidies view (Function.update view n bytes) ino touched :=
  ⟨fun n' late _ _ => Function.update_of_ne (by omega) _ _, fun _ j _ => by
    rw [Function.update_of_ne (by have := g.inodeStart_le ino; omega)]⟩

theorem tidies_touched (same : ∀ n, g.inodeStart ≤ n → n ∉ touched → view' n = view n) :
    g.Tidies view view' ino touched :=
  ⟨fun n late _ absent => same n late absent, fun absent j _ => by
    rw [same _ (g.inodeStart_le ino) absent]⟩

theorem tidies_clearRecord : g.Tidies view (g.clearRecord view ino) ino touched := by
  refine tidies_update fun j outside => ?_
  rw [Bytes.setU16_of_outside (by omega), Bytes.setU16_of_outside (by omega)]

theorem tidies_releaseInode : g.Tidies view (g.releaseInode view ino) ino touched := by
  unfold releaseInode
  split
  · rename_i inside
    refine tidies_clearRecord.trans (tidies_map ?_ _)
    unfold inodeStart
    omega
  · exact .refl _ _ _ _

/-- What is done to inodes leaves the zone bitmap. -/
theorem releaseInode_zmap {n : Nat} (inMap : g.IsZmap n) : g.releaseInode view ino n = view n := by
  have start := g.inodeStart_le ino
  have low := inMap.1
  have high := inMap.2
  unfold releaseInode
  split
  · rename_i inside
    unfold clearInodeBit clearRecord
    rw [Function.update_of_ne (by omega), Function.update_of_ne (by omega)]
  · rfl

theorem storeRecord_zmap {n : Nat} (i : Inode) (inMap : g.IsZmap n) : g.storeRecord view i n = view n := by
  have start := g.inodeStart_le i.ino
  have high := inMap.2
  unfold storeRecord
  rw [Function.update_of_ne (by omega)]

theorem writeFields_of_outside {bytes : Bytes} {raw j : Nat} {i : Inode} (outside : j < raw ∨ raw + 24 ≤ j) :
    Minix.writeFields bytes raw i j = bytes j := by
  unfold Minix.writeFields
  rw [Bytes.setU32_of_outside (by omega), Bytes.setU32_of_outside (by omega),
    Bytes.setU32_of_outside (by omega), Bytes.setU32_of_outside (by omega),
    Bytes.setU16_of_outside (by omega), Bytes.setU16_of_outside (by omega),
    Bytes.setU16_of_outside (by omega), Bytes.setU16_of_outside (by omega)]

theorem writeZones_of_outside {bytes : Bytes} {raw j : Nat} {data : Nat → Nat} (n : Nat)
    (outside : j < raw + 24 ∨ raw + 24 + 4 * n ≤ j) : Minix.writeZones raw data n bytes j = bytes j := by
  induction n with
  | zero => rfl
  | succ n ih =>
    rw [Minix.writeZones, Bytes.setU32_of_outside (by omega), ih (by omega)]

theorem tidies_storeRecord (i : Inode) : g.Tidies view (g.storeRecord view i) i.ino touched := by
  refine tidies_update fun j outside => ?_
  rw [writeZones_of_outside 10 (by omega), writeFields_of_outside (by omega)]

section Fields

variable {bytes bytes' : Bytes} {raw : Nat} {i : Inode}

theorem u16_setU32_of_apart {i j value : Nat} (apart : j + 2 ≤ i ∨ i + 4 ≤ j) :
    (bytes.setU32 i value).u16 j = bytes.u16 j :=
  Bytes.u16_congr fun k _ _ => Bytes.setU32_of_outside (by omega)

theorem writeFields_mode : (Minix.writeFields bytes raw i).u16 raw = i.mode % 65536 := by
  unfold Minix.writeFields
  rw [u16_setU32_of_apart (by omega), u16_setU32_of_apart (by omega), u16_setU32_of_apart (by omega),
    u16_setU32_of_apart (by omega), Bytes.u16_setU16_of_apart (by omega),
    Bytes.u16_setU16_of_apart (by omega), Bytes.u16_setU16_of_apart (by omega), Bytes.u16_setU16]

theorem writeFields_nlinks : (Minix.writeFields bytes raw i).u16 (raw + 2) = i.nlinks % 65536 := by
  unfold Minix.writeFields
  rw [u16_setU32_of_apart (by omega), u16_setU32_of_apart (by omega), u16_setU32_of_apart (by omega),
    u16_setU32_of_apart (by omega), Bytes.u16_setU16_of_apart (by omega),
    Bytes.u16_setU16_of_apart (by omega), Bytes.u16_setU16]

theorem writeFields_size : (Minix.writeFields bytes raw i).u32 (raw + 8) = u64 i.size % 4294967296 := by
  unfold Minix.writeFields
  rw [Bytes.u32_setU32_of_apart (by omega), Bytes.u32_setU32_of_apart (by omega),
    Bytes.u32_setU32_of_apart (by omega), Bytes.u32_setU32]

theorem writeZones_u32 {data : Nat → Nat} (n : Nat) {k : Nat} (bound : k < n) :
    (Minix.writeZones raw data n bytes).u32 (raw + 24 + 4 * k) = data k % 4294967296 := by
  induction n with
  | zero => omega
  | succ n ih =>
    rw [Minix.writeZones]
    by_cases here : k = n
    · rw [here, Bytes.u32_setU32]
    · rw [Bytes.u32_setU32_of_apart (by omega), ih (by omega)]

theorem readInode_congr {ino : Nat} (same : ∀ j, raw ≤ j → j < raw + 64 → bytes' j = bytes j) :
    Minix.readInode bytes' raw ino i = Minix.readInode bytes raw ino i := by
  have u16 : ∀ k, k + 2 ≤ 64 → bytes'.u16 (raw + k) = bytes.u16 (raw + k) := fun k _ =>
    Bytes.u16_congr fun j _ _ => same j (by omega) (by omega)
  have u32 : ∀ k, k + 4 ≤ 64 → bytes'.u32 (raw + k) = bytes.u32 (raw + k) := fun k _ =>
    Bytes.u32_congr fun j _ _ => same j (by omega) (by omega)
  unfold Minix.readInode
  congr 1
  · exact u16 0 (by omega)
  · exact u16 2 (by omega)
  · exact u16 4 (by omega)
  · rw [u16 6 (by omega)]
  · rw [u32 8 (by omega)]
  · exact u32 12 (by omega)
  · exact u32 16 (by omega)
  · exact u32 20 (by omega)
  · funext n
    split
    · have := u32 (24 + 4 * n) (by omega)
      rwa [← Nat.add_assoc] at this
    · rfl

end Fields

section Records

variable {i : Inode} {ino' : Nat}

/-- What is stored is read again. -/
theorem record_storeRecord (fits : i.Fits) (j : Inode) :
    i.SameFile (g.record (g.storeRecord view i) i.ino j) := by
  set raw := g.inodeSlot i.ino with rawDef
  set bytes := Minix.writeFields (view (g.inodeBlock i.ino)) raw i with bytesDef
  have stored : g.storeRecord view i (g.inodeBlock i.ino) = Minix.writeZones raw i.data 10 bytes :=
    Function.update_self _ _ _
  have u16 : ∀ k, k + 2 ≤ 24 → (Minix.writeZones raw i.data 10 bytes).u16 (raw + k) = bytes.u16 (raw + k) :=
    fun k _ => Bytes.u16_congr fun j _ _ => writeZones_of_outside 10 (by omega)
  have u32 : (Minix.writeZones raw i.data 10 bytes).u32 (raw + 8) = bytes.u32 (raw + 8) :=
    Bytes.u32_congr fun j _ _ => writeZones_of_outside 10 (by omega)
  have size : u64 i.size % 4294967296 = i.size.toNat := by
    have := fits.size
    unfold u64
    omega
  unfold record Minix.readInode
  rw [stored]
  refine ⟨?_, ?_, ?_, fun n bound => ?_⟩
  · have mode := u16 0 (by omega)
    rw [Nat.add_zero] at mode
    change (Minix.writeZones raw i.data 10 bytes).u16 raw = i.mode
    rw [mode, writeFields_mode, Nat.mod_eq_of_lt fits.mode]
  · change (Minix.writeZones raw i.data 10 bytes).u16 (raw + 2) = i.nlinks
    rw [u16 2 (by omega), writeFields_nlinks, Nat.mod_eq_of_lt fits.nlinks]
  · change (((Minix.writeZones raw i.data 10 bytes).u32 (raw + 8) : Nat) : Int) = i.size
    rw [u32, writeFields_size, size, Int.toNat_of_nonneg fits.size.1]
  · change (if n < 10 then (Minix.writeZones raw i.data 10 bytes).u32 (raw + 24 + 4 * n) else _) = i.data n
    rw [if_pos bound, writeZones_u32 10 bound, Nat.mod_eq_of_lt (fits.data n bound)]

/-- The records of other inodes are as before. -/
theorem Tidies.record (formed : g.Formed) (tidies : g.Tidies view view' ino touched)
    (zones : ∀ n ∈ touched, g.super.firstdatazone ≤ n) (hasInode : g.HasInode ino) (has' : g.HasInode ino')
    (other : ino' ≠ ino) (j : Inode) : g.record view' ino' j = g.record view ino' j := by
  have absent : ∀ {k}, g.HasInode k → g.inodeBlock k ∉ touched := fun has member =>
    absurd (zones _ member) (Nat.not_le.mpr (formed.room _ has))
  unfold Geometry.record
  by_cases block : g.inodeBlock ino' = g.inodeBlock ino
  · have slots : g.inodeSlot ino' ≠ g.inodeSlot ino := by
      have per := formed.layout.inodes
      have fst := hasInode.1
      have snd := has'.1
      have quotient : (ino' - 1) / g.inodesPerBlock = (ino - 1) / g.inodesPerBlock :=
        Nat.add_left_cancel block
      intro same
      have remainder : (ino' - 1) % g.inodesPerBlock = (ino - 1) % g.inodesPerBlock :=
        Nat.eq_of_mul_eq_mul_left (by omega) same
      have whole := Nat.div_add_mod (ino' - 1) g.inodesPerBlock
      rw [quotient, remainder, Nat.div_add_mod] at whole
      omega
    have multiples : g.inodeSlot ino' + 64 ≤ g.inodeSlot ino ∨ g.inodeSlot ino + 64 ≤ g.inodeSlot ino' := by
      unfold inodeSlot at slots ⊢
      omega
    rw [block]
    exact readInode_congr fun k low high => tidies.table (absent hasInode) k (by omega)
  · rw [tidies.rest _ (g.inodeStart_le ino') block (absent has')]

end Records

end Geometry

namespace Minix

variable {disk : Disk Errno} {allowed : FsFault → Prop} {ptr ino : Nat} {w : World Fs} {view : Nat → Bytes}
  {g : Geometry}

/-- The record of an inode is fixed, used and released. -/
theorem rawInode_fixes {α : Type} {f : Except Errno (Nat × Nat) → FsM α} {post : α → World Fs → Prop}
    (reliable : Reliable disk) (geometry : w.state.geometry = g) (stored : Stored disk w [] [] view)
    (failed : ¬ g.HasInode ino → Meets disk allowed (f (.error .einval)) post w)
    (found : g.HasInode ino → ∀ w₁, Works disk w w₁ [w.device.next] [] view →
      w₁.device.number w.device.next = g.inodeBlock ino →
      Meets disk allowed (f (.ok (w.device.next, g.inodeSlot ino))) post w₁) :
    Meets disk allowed (rawInode ino >>= f) post w := by
  subst geometry
  simp only [rawInode, meets_bind, meets_get]
  split
  · rename_i outside
    refine failed fun has => ?_
    rcases outside with zero | late
    · exact has.1 zero
    · exact absurd has.2 (Nat.not_le.mpr late)
  · rename_i inside
    rw [not_or, Nat.not_lt] at inside
    simp only [meets_bind]
    refine meets_fix (fun _ => ?_) fun e failure => ?_
    · exact found inside _ (works_fix stored (w.state.geometry.inodeStart_le ino) (by simp)) (number_hold _)
    · rw [reliable] at failure
      cases failure

/-- A fixed block is changed and released. -/
theorem record_rewritten {h : Nat} {w₁ : World Fs} (works : Works disk w w₁ [h] [] view) (f : Bytes → Bytes) :
    Meets disk allowed (do
      let bytes ← load h
      store h (f bytes)
      FsM.markDirty h
      FsM.unfix h)
      (fun _ w' => Works disk w w' [] []
        (Function.update view (w₁.device.number h) (f (view (w₁.device.number h))))) w₁ := by
  rw [meets_bind, meets_load (works.stored.load (by simp)), meets_bind, meets_store, meets_bind,
    meets_markDirty, meets_unfix]
  have stored := works_store works.stored.pin (List.mem_singleton_self h) (f (view (w₁.device.number h)))
  have marked := works_markDirty stored.stored
  exact ((works.trans stored).trans marked).trans (works_unfix marked.stored)

theorem writeInode_stores (reliable : Reliable disk) (geometry : w.state.geometry = g)
    (stored : Stored disk w [] [] view) (live : (w.state.inodes ptr).deleted = false) :
    Meets disk allowed (writeInode ptr) (fun r w' => if g.HasInode (w.state.inodes ptr).ino then
      r = .ok () ∧ Works disk w w' [] [] (g.storeRecord view (w.state.inodes ptr))
      else r = .error .einval ∧ w' = w) w := by
  unfold writeInode
  rw [meets_bind, meets_inode live]
  refine rawInode_fixes reliable geometry stored (fun outside => ?_) fun inside w₁ works number => ?_
  · refine meets_pure.mpr ?_
    rw [if_neg outside]
    exact ⟨rfl, rfl⟩
  · simp only [if_pos inside]
    have rewritten : Meets disk allowed _ _ _ := record_rewritten works fun bytes =>
      writeZones (g.inodeSlot (w.state.inodes ptr).ino) (w.state.inodes ptr).data 10
        (writeFields bytes (g.inodeSlot (w.state.inodes ptr).ino) (w.state.inodes ptr))
    rw [number] at rewritten
    simp only [meets_bind] at rewritten ⊢
    exact rewritten.mono fun _ w' works => ⟨rfl, works⟩

theorem clearDiskInode_clears (reliable : Reliable disk) (geometry : w.state.geometry = g)
    (stored : Stored disk w [] [] view) (has : g.HasInode ino) : Meets disk allowed (clearDiskInode ino)
      (fun _ w' => Works disk w w' [] [] (g.clearRecord view ino)) w := by
  unfold clearDiskInode
  refine rawInode_fixes reliable geometry stored (fun outside => absurd has outside) fun _ w₁ works number => ?_
  have rewritten : Meets disk allowed _ _ _ := record_rewritten works fun bytes =>
    (bytes.setU16 (g.inodeSlot ino + 2) 0).setU16 (g.inodeSlot ino) 0
  rwa [number] at rewritten

theorem works_store_imap {i : Nat} (stored : Stored disk w [] [] view) (bound : i < w.state.super.imapBlocks)
    (bytes : Bytes) : Works disk w ⟨w.state, (w.device.exec disk (w.state.imap i) (.store bytes)).exec disk
      (w.state.imap i) .markDirty⟩ [] [] (Function.update view (2 + i) bytes) := by
  have member : w.state.imap i ∈ [] ++ w.state.mapHandles := by simp [Stored.imap_mem bound]
  have follows : w.device.Follows ((w.device.exec disk (w.state.imap i) (.store bytes)).exec disk
      (w.state.imap i) .markDirty) := (follows_exec _).trans (follows_exec _)
  refine ⟨rfl, follows, stored.follow rfl rfl rfl follows ?_⟩
  rw [← stored.imap i bound]
  exact (stored.holds.store member bytes).markDirty member

theorem freeInode_releases (reliable : Reliable disk) (geometry : w.state.geometry = g)
    (stored : Stored disk w [] [] view) (live : (w.state.inodes ptr).deleted = false) :
    Meets disk allowed (freeInode ptr)
      (fun _ w' => Works disk w w' [] [] (g.releaseInode view (w.state.inodes ptr).ino)) w := by
  subst geometry
  set ino := (w.state.inodes ptr).ino with inoDef
  unfold freeInode Geometry.releaseInode
  rw [meets_bind, meets_get, meets_bind, meets_inode live, ← inoDef]
  split
  · rename_i outside
    rw [if_neg fun inside => outside.elim (fun low => inside.1.1 (by omega))
      fun late => absurd inside.1.2 (Nat.not_le.mpr late)]
    exact meets_pure.mpr (.refl stored)
  rename_i inside
  rw [not_or, Nat.not_lt, Nat.not_lt] at inside
  have has : w.state.geometry.HasInode ino := ⟨by omega, inside.2⟩
  dsimp only
  split
  · rename_i outside
    rw [if_neg fun inside => absurd inside.2 (Nat.not_lt.mpr outside)]
    exact meets_pure.mpr (.refl stored)
  rename_i room
  rw [if_pos ⟨has, Nat.not_le.mp room⟩]
  refine meets_bind.mpr ((clearDiskInode_clears reliable rfl stored has).mono ?_)
  rintro _ ⟨s₁, d₁⟩ works
  obtain rfl : s₁ = w.state := works.state
  have bound : ino / w.state.bitsPerBlock < w.state.super.imapBlocks := Nat.not_le.mp room
  rw [meets_bind, meets_load (works.stored.load_imap bound), meets_bind, meets_store, meets_markDirty]
  exact works.trans (works_store_imap works.stored bound _)

end Minix

namespace Inode

open Minix

/-- What destroying an inode object does to the blocks. -/
structure Leaves (g : Geometry) (i : Inode) (view view' : Nat → Bytes) : Prop where
  dead : i.nlinks = 0 → ∃ view₁, g.Frees view view₁ (zones g.indirCount view i.data) ∧
    (∀ n, ¬ g.IsZmap n → n ∉ arrays g.indirCount view i.data → view₁ n = view n) ∧
    view' = g.releaseInode view₁ i.ino
  linked : i.nlinks ≠ 0 →
    view' = if i.new = false ∧ i.dirty = true ∧ g.HasInode i.ino then g.storeRecord view i else view

/-- The inode object is deleted and nothing else in memory is changed. -/
structure Destroys (disk : Disk Errno) (g : Geometry) (ptr : Nat) (view : Nat → Bytes) (w w' : World Fs) :
    Prop where
  state : ∃ i, w'.state = w.state.setInode ptr (fun _ => i) ∧ i.deleted = true ∧
    i.refcount = (w.state.inodes ptr).refcount ∧ i.ino = (w.state.inodes ptr).ino
  blocks : ∃ view', Stored disk w' [] [] view' ∧ (w.state.inodes ptr).Leaves g view view'

variable {disk : Disk Errno} {allowed : FsFault → Prop} {ptr : Nat} {w w' : World Fs} {view view' : Nat → Bytes}
  {g : Geometry} {i : Inode}

theorem Leaves.tidies (leaves : i.Leaves g view view') :
    g.Tidies view view' i.ino (if i.nlinks = 0 then arrays g.indirCount view i.data else 0) := by
  split
  · rename_i unlinked
    obtain ⟨view₁, _, same, rfl⟩ := leaves.dead unlinked
    exact Geometry.Tidies.trans (Geometry.tidies_touched fun n late absent =>
      same n (fun inMap => Nat.not_lt.mpr late inMap.2) absent) Geometry.tidies_releaseInode
  · rename_i linked
    rw [leaves.linked linked]
    split
    · exact Geometry.tidies_storeRecord i
    · exact .refl _ _ _ _

/-- Only the zones of a dead inode are freed. -/
theorem Leaves.marked (leaves : i.Leaves g view view') {z : Nat} (zone : g.IsZone z)
    (other : i.nlinks = 0 → z ∉ zones g.indirCount view i.data) (marked : g.marked view z = true) :
    g.marked view' z = true := by
  by_cases unlinked : i.nlinks = 0
  · obtain ⟨view₁, frees, _, rfl⟩ := leaves.dead unlinked
    rw [Geometry.marked_congr zone fun n inMap => Geometry.releaseInode_zmap inMap]
    exact (frees.marks z zone).mpr ⟨marked, other unlinked⟩
  · rw [leaves.linked unlinked]
    split
    · rwa [Geometry.marked_congr zone fun n inMap => Geometry.storeRecord_zmap i inMap]
    · exact marked

/-- Writing back an inode that may be dirty. -/
theorem writeToDisk_stores (reliable : Reliable disk) (geometry : w.state.geometry = g)
    (stored : Stored disk w [] [] view) (live : (w.state.inodes ptr).deleted = false) :
    Meets disk allowed (writeToDisk ptr) (fun _ w' =>
      (∃ dirty, w'.state = w.state.setInode ptr fun i => { i with dirty := dirty }) ∧
      Stored disk w' [] [] (if (w.state.inodes ptr).dirty = true ∧ g.HasInode (w.state.inodes ptr).ino then
        g.storeRecord view (w.state.inodes ptr) else view)) w := by
  have same : w.state.setInode ptr (fun i => { i with dirty := (w.state.inodes ptr).dirty }) = w.state :=
    setInode_self rfl
  unfold writeToDisk
  rw [meets_bind, meets_inode live]
  split
  swap
  · rename_i clean
    refine meets_pure.mpr ⟨⟨_, same.symm⟩, ?_⟩
    rw [if_neg fun both => clean both.1]
    exact stored
  rename_i dirty
  refine meets_bind.mpr ((writeInode_stores reliable geometry stored live).mono fun r w₁ written => ?_)
  split at written
  · rename_i has
    obtain ⟨rfl, works⟩ := written
    have state := works.state
    rw [meets_bind, meets_setInode (state ▸ live), state]
    refine meets_pure.mpr ⟨⟨false, rfl⟩, ?_⟩
    rw [if_pos ⟨dirty, has⟩]
    exact works.stored.follow (by rw [state]; rfl) (by rw [state]; rfl) (by rw [state]; rfl) (.refl _)
      works.stored.holds
  · rename_i outside
    obtain ⟨rfl, rfl⟩ := written
    refine meets_pure.mpr ⟨⟨_, same.symm⟩, ?_⟩
    rw [if_neg fun both => outside both.2]
    exact stored

/-- The last step of the destructor. -/
theorem deletes_meets {f : Inode → Inode}
    (kept : ∀ i : Inode, (f i).refcount = i.refcount ∧ (f i).ino = i.ino)
    (state : w'.state = w.state.setInode ptr f) (live : (w'.state.inodes ptr).deleted = false)
    (stored : Stored disk w' [] [] view') (leaves : (w.state.inodes ptr).Leaves g view view') :
    Meets disk allowed (setInode ptr fun i => { i with deleted := true })
      (fun _ w'' => Destroys disk g ptr view w w'') w' := by
  rw [meets_setInode live]
  refine ⟨⟨{ f (w.state.inodes ptr) with deleted := true }, ?_, rfl, kept _⟩, view', ?_, leaves⟩
  · simp [state, Fs.setInode]
  · exact stored.follow rfl rfl rfl (.refl _) stored.holds

theorem destroy_destroys (reliable : Reliable disk) (formed : g.Formed) (geometry : w.state.geometry = g)
    (stored : Stored disk w [] [] view) (live : (w.state.inodes ptr).deleted = false)
    (tree : (w.state.inodes ptr).nlinks = 0 → Tree g view (w.state.inodes ptr).data) :
    Meets disk allowed (destroy ptr) (fun _ w' => Destroys disk g ptr view w w') w := by
  unfold destroy
  rw [meets_bind, meets_inode live]
  split
  · rename_i unlinked
    have prunable : Prunable disk g ptr [] [] [] view w :=
      ⟨geometry, live, stored, tree unlinked, fun _ _ held => by cases held⟩
    refine meets_bind.mpr ((truncate_frees reliable formed.layout prunable).mono ?_)
    rintro _ ⟨s₁, d₁⟩ ⟨view₁, data₁, emptied⟩
    obtain ⟨dirty, state⟩ := emptied.state
    have resized := state
    obtain rfl := state
    refine meets_bind.mpr ((freeInode_releases reliable (by exact geometry) emptied.stored
      (by simpa using live)).mono ?_)
    rintro _ ⟨s₂, d₂⟩ works
    obtain rfl := works.state
    refine deletes_meets (fun i => ?_) resized (by simpa using live) works.stored
      ⟨fun _ => ⟨view₁, emptied.frees, emptied.rest, by simp⟩, fun linked => absurd unlinked linked⟩
    exact ⟨rfl, rfl⟩
  rename_i linked
  split
  · rename_i changed
    simp only [Bool.and_eq_true, Bool.not_eq_true'] at changed
    refine meets_bind.mpr ((writeToDisk_stores reliable geometry stored live).mono ?_)
    rintro _ w₁ ⟨⟨dirty, state⟩, stored₁⟩
    refine deletes_meets (fun i => ?_) state (by simpa [state] using live) stored₁
      ⟨fun unlinked => absurd unlinked linked, fun _ => ?_⟩
    · exact ⟨rfl, rfl⟩
    · simp [changed.1]
  · rename_i unchanged
    simp only [Bool.and_eq_true, Bool.not_eq_true'] at unchanged
    refine deletes_meets (f := id) (fun _ => ⟨rfl, rfl⟩) (setInode_self rfl).symm live stored
      ⟨fun unlinked => absurd unlinked linked, fun _ => ?_⟩
    rw [if_neg fun both => unchanged ⟨both.1, both.2.1⟩]

end Inode

end MPStuBS
