import MPStuBS.InodeRecords
import MPStuBS.VfsDevices

/-! What `iget` does to an inode that is in the cache or has to be read, and what is left of the
record of an inode that is loaded and written back as it is: the group is kept in one byte. -/
namespace MPStuBS

open Prog FsM Device

namespace Bytes

variable {b : Bytes}

theorem setU16_self (i : Nat) : b.setU16 i (b.u16 i) = b := by
  have fst := (b i).toNat_lt
  have snd := (b (i + 1)).toNat_lt
  funext j
  simp only [setU16]
  split
  · rename_i inside
    obtain ⟨low, high⟩ := within_iff.mp inside
    obtain rfl | rfl : j = i ∨ j = i + 1 := by omega
    all_goals
      apply UInt8.toNat_inj.mp
      simp only [u16, UInt8.toNat_ofNat', Nat.shiftRight_eq_div_pow, Nat.sub_self, Nat.add_sub_cancel_left]
      omega
  · rfl

theorem setU32_self (i : Nat) : b.setU32 i (b.u32 i) = b := by
  have fst := (b i).toNat_lt
  have snd := (b (i + 1)).toNat_lt
  have thd := (b (i + 2)).toNat_lt
  have fth := (b (i + 3)).toNat_lt
  funext j
  simp only [setU32]
  split
  · rename_i inside
    obtain ⟨low, high⟩ := within_iff.mp inside
    obtain rfl | rfl | rfl | rfl : j = i ∨ j = i + 1 ∨ j = i + 2 ∨ j = i + 3 := by omega
    all_goals
      apply UInt8.toNat_inj.mp
      simp only [u32, UInt8.toNat_ofNat', Nat.shiftRight_eq_div_pow, Nat.sub_self, Nat.add_sub_cancel_left]
      omega
  · rfl

end Bytes

namespace Minix

variable {disk : Disk Errno} {allowed : FsFault → Prop} {w : World Fs} {bytes : Bytes} {raw ino : Nat}
  {i : Inode}

theorem writeZones_self {data : Nat → Nat} (n : Nat) (same : ∀ k < n, data k = bytes.u32 (raw + 24 + 4 * k)) :
    writeZones raw data n bytes = bytes := by
  induction n with
  | zero => rfl
  | succ n ih =>
    rw [writeZones, ih fun k less => same k (Nat.lt_succ_of_lt less), same n (Nat.lt_succ_self n),
      Bytes.setU32_self]

/-- All fields but the group are stored as they were read. -/
theorem writeFields_readInode (bytes : Bytes) (raw ino : Nat) (i : Inode) :
    writeFields bytes raw (readInode bytes raw ino i) = bytes.setU16 (raw + 6) (bytes.u16 (raw + 6) % 256) := by
  have size : u64 ((bytes.u32 (raw + 8) : Nat) : Int) = bytes.u32 (raw + 8) := by
    have small := bytes.u32_lt (raw + 8)
    unfold u64
    omega
  set grouped := bytes.setU16 (raw + 6) (bytes.u16 (raw + 6) % 256) with groupedDef
  have kept : ∀ k, raw + 8 ≤ k → bytes.u32 k = grouped.u32 k := fun k late =>
    Bytes.u32_congr fun j _ _ => (Bytes.setU16_of_outside (by omega)).symm
  unfold writeFields
  simp only [readInode, Bytes.setU16_self, size]
  rw [← groupedDef, kept (raw + 8) (by omega), Bytes.setU32_self, kept (raw + 12) (by omega),
    Bytes.setU32_self, kept (raw + 16) (by omega), Bytes.setU32_self, kept (raw + 20) (by omega),
    Bytes.setU32_self]

/-- A record is stored as it was read exactly if its group fits into a byte. -/
theorem stored_as_read_iff : writeZones raw (readInode bytes raw ino i).data 10
    (writeFields bytes raw (readInode bytes raw ino i)) = bytes ↔ bytes.u16 (raw + 6) < 256 := by
  set grouped := bytes.setU16 (raw + 6) (bytes.u16 (raw + 6) % 256) with groupedDef
  have zones : writeZones raw (readInode bytes raw ino i).data 10 grouped = grouped := by
    refine writeZones_self 10 fun k less => ?_
    simp only [readInode, if_pos less]
    exact Bytes.u32_congr fun j _ _ => (Bytes.setU16_of_outside (by omega)).symm
  rw [writeFields_readInode, ← groupedDef, zones]
  constructor
  · intro same
    have group := congrArg (Bytes.u16 · (raw + 6)) same
    simp only [groupedDef, Bytes.u16_setU16] at group
    omega
  · intro small
    rw [groupedDef, Nat.mod_eq_of_lt small, Bytes.setU16_self]

/-- Loading an inode and storing it without a modification. -/
def reload (ino : Nat) : FsM (Except Errno Unit) := do
  match ← iget ino with
  | .error e => Pure.pure (.error e)
  | .ok inode => writeInode inode

/-- Whether the bit of an inode is set makes no difference. -/
theorem meets_inodeMarked {post : Bool → World Fs → Prop} (any : ∀ marked, post marked w) :
    Meets disk allowed (inodeMarked ino) post w := by
  unfold inodeMarked
  rw [meets_bind, meets_get]
  unfold Meets
  simp only [run]
  cases w.device.load disk (w.state.imap (ino / w.state.bitsPerBlock)) with
  | none => exact any _
  | some bitmap => exact any _

theorem meets_note {event : FsEvent} {post : Unit → World Fs → Prop} :
    Meets disk allowed (note event) post w ↔ post () ⟨w.state.note event, w.device⟩ := Iff.rfl

/-- The device after a block has been fixed, changed and released. -/
theorem contents_rewrite (d : Device) (number : Nat) (bytes : Bytes) :
    ((((d.hold number).tick.exec disk d.next (.store bytes)).exec disk d.next .markDirty).exec disk
      d.next .unfix).contents = Function.update d.contents number bytes := by
  cases copies : disk.copies <;> simp [exec, Device.sync, copies, Device.hold, tick, setContents, setBlock]

/-- A block of the inode table is fixed and given to the rest. -/
theorem rawInode_found {α : Type} {f : Except Errno (Nat × Nat) → FsM α} {post : α → World Fs → Prop}
    (reliable : Reliable disk) (has : w.state.geometry.HasInode ino)
    (found : Meets disk allowed (f (.ok (w.device.next, w.state.geometry.inodeSlot ino))) post
      ⟨w.state, (w.device.hold (w.state.geometry.inodeBlock ino)).tick⟩) :
    Meets disk allowed (rawInode ino >>= f) post w := by
  simp only [rawInode, meets_bind, meets_get]
  rw [if_neg fun outside => outside.elim has.1 fun late => absurd has.2 (Nat.not_le.mpr late)]
  simp only [meets_bind]
  refine meets_fix (fun _ => found) fun e failure => ?_
  rw [reliable] at failure
  cases failure

/-- The rest of `iget` for an object that is new. -/
theorem meets_loadNew {o : Nat} {post : Except Errno Nat → World Fs → Prop} (reliable : Reliable disk)
    (has : w.state.geometry.HasInode ino) (fresh : w.state.inodes o = .fresh)
    (loaded : ∀ marked, post (.ok o) ⟨(w.state.setInode o fun _ => { readInode
      (w.device.contents (w.state.geometry.inodeBlock ino)) (w.state.geometry.inodeSlot ino) ino .fresh
      with new := false }).note (.loaded ino marked),
      (w.device.hold (w.state.geometry.inodeBlock ino)).tick.exec disk w.device.next .unfix⟩) :
    Meets disk allowed (do
      match ← rawInode ino with
      | .error e => do
        Inode.destroy o
        note (.lost o)
        Pure.pure (.error e)
      | .ok (block, raw) => do
        let bytes ← load block
        setInode o (readInode bytes raw ino)
        unfix block
        setInode o fun i => { i with new := false }
        note (.loaded ino (← inodeMarked ino))
        Pure.pure (.ok o)) post w := by
  have live : (w.state.inodes o).deleted = false := by
    rw [fresh]
    rfl
  refine rawInode_found reliable has ?_
  simp only [meets_bind]
  rw [meets_load (Device.load_hold _ _), meets_bind, meets_setInode (by exact live), meets_bind, meets_unfix,
    meets_bind, meets_setInode (by simpa [readInode] using live), meets_bind]
  refine meets_inodeMarked fun marked => ?_
  rw [meets_bind, meets_note, meets_pure, setInode_setInode]
  have same := loaded marked
  simp only [Fs.setInode, fresh] at same ⊢
  exact same

end Minix

/-- A new object at the end of the cache. -/
def Fs.insertFresh (s : Fs) : Fs :=
  { s with
    inodes := Function.update s.inodes s.allocated .fresh
    allocated := s.allocated + 1
    numInodeReferences := s.numInodeReferences + 1
    icache := s.icache ++ [s.allocated]
    numInodes := s.numInodes + 1 }

namespace InodeCache

variable {disk : Disk Errno} {allowed : FsFault → Prop} {w : World Fs} {ino : Nat}

theorem find_meets (cache : List Nat) (live : ∀ o ∈ cache, (w.state.inodes o).deleted = false) :
    Meets disk allowed (find ino cache) (fun r w' => w' = w ∧ match r with
      | some o => o ∈ cache ∧ (w.state.inodes o).ino = ino
      | none => ∀ o ∈ cache, (w.state.inodes o).ino ≠ ino) w := by
  induction cache with
  | nil => exact ⟨rfl, by simp⟩
  | cons cur rest ih =>
    rw [find, meets_bind, meets_inode (live cur (.head _))]
    split
    · rename_i here
      exact ⟨rfl, .head _, here⟩
    · rename_i other
      refine (ih fun o member => live o (.tail _ member)).mono ?_
      rintro (_ | o) w' ⟨rfl, found⟩
      · refine ⟨rfl, fun o member => ?_⟩
        rcases List.mem_cons.mp member with rfl | later
        · exact other
        · exact found o later
      · exact ⟨rfl, .tail _ found.1, found.2⟩

theorem contains_meets (cache : List Nat) (absent : ∀ o ∈ cache, (w.state.inodes o).deleted = false ∧
    (w.state.inodes o).ino ≠ ino) :
    Meets disk allowed (contains ino cache) (fun r w' => r = false ∧ w' = w) w := by
  induction cache with
  | nil => exact ⟨rfl, rfl⟩
  | cons cur rest ih =>
    obtain ⟨live, other⟩ := absent cur (.head _)
    rw [contains, meets_bind, meets_inode live, if_neg other]
    exact ih fun o member => absent o (.tail _ member)

/-- What `get_inode` does if no inode of the cache has the number. -/
theorem meets_insertFresh {post : Nat → World Fs → Prop} (cached : ∀ o ∈ w.state.icache,
    o < w.state.allocated ∧ (w.state.inodes o).deleted = false ∧ (w.state.inodes o).ino ≠ 0)
    (inserted : post w.state.allocated ⟨w.state.insertFresh, w.device⟩) :
    Meets disk allowed (do
      let new ← allocateInode
      insertInode new
      Pure.pure new) post w := by
  set s : Fs := { w.state with
    inodes := Function.update w.state.inodes w.state.allocated .fresh
    allocated := w.state.allocated + 1
    numInodeReferences := w.state.numInodeReferences + 1 } with sDef
  have new : s.inodes w.state.allocated = .fresh := Function.update_self _ _ _
  have absent : ∀ o ∈ s.icache, (s.inodes o).deleted = false ∧ (s.inodes o).ino ≠ (s.inodes w.state.allocated).ino := by
    intro o member
    obtain ⟨early, live, numbered⟩ := cached o member
    have same : s.inodes o = w.state.inodes o := Function.update_of_ne (Nat.ne_of_lt early) _ _
    rw [same, new]
    exact ⟨live, numbered⟩
  simp only [allocateInode, insertInode, meets_bind, meets_get, meets_set, meets_pure]
  change Meets disk allowed (inode w.state.allocated) _ ⟨s, w.device⟩
  rw [meets_inode (by rw [new]; rfl), meets_bind]
  refine (contains_meets (w := ⟨s, w.device⟩) s.icache absent).mono ?_
  rintro _ _ ⟨rfl, rfl⟩
  exact inserted

end InodeCache

namespace Minix

variable {disk : Disk Errno} {allowed : FsFault → Prop} {w : World Fs} {ino : Nat}

/-- The object of an inode that has been loaded. -/
def loadedInode (contents : Nat → Bytes) (g : Geometry) (ino : Nat) : Inode :=
  { g.record contents ino .fresh with new := false }

/-- No inode of the cache has the number, and none is given up for the new one. -/
structure Misses (w : World Fs) (ino : Nat) : Prop where
  calm : w.state.icache = [] ∨ w.state.numInodes ≤ InodeCache.softLimit
  cached : ∀ o ∈ w.state.icache, o < w.state.allocated ∧ (w.state.inodes o).deleted = false ∧ (w.state.inodes o).ino ≠ 0
  other : ∀ o ∈ w.state.icache, (w.state.inodes o).ino ≠ ino

theorem misses_empty (empty : w.state.icache = []) : Misses w ino :=
  ⟨.inl empty, by simp [empty], by simp [empty]⟩

theorem evictLoop_calm (calm : w.state.icache = [] ∨ w.state.numInodes ≤ InodeCache.softLimit) {post : Unit → World Fs → Prop}
    (rest : post () w) : Meets disk allowed (InodeCache.evictLoop w.state.icache) post w := by
  cases cache : w.state.icache with
  | nil => exact rest
  | cons o cache =>
    rw [InodeCache.evictLoop, meets_bind, meets_get, if_pos (calm.resolve_left (by simp [cache]))]
    exact rest

theorem iget_misses {post : Except Errno Nat → World Fs → Prop} (reliable : Reliable disk)
    (has : w.state.geometry.HasInode ino) (misses : Misses w ino)
    (loaded : ∀ marked, post (.ok w.state.allocated) ⟨(w.state.insertFresh.setInode w.state.allocated
      fun _ => loadedInode w.device.contents w.state.geometry ino).note (.loaded ino marked),
      (w.device.hold (w.state.geometry.inodeBlock ino)).tick.exec disk w.device.next .unfix⟩) :
    Meets disk allowed (iget ino) post w := by
  have new : w.state.insertFresh.inodes w.state.allocated = .fresh := Function.update_self _ _ _
  unfold iget
  rw [meets_bind, InodeCache.getInode, meets_bind, InodeCache.maybeEvictInodes, meets_bind, meets_get]
  refine evictLoop_calm misses.calm ?_
  rw [meets_bind, meets_get, meets_bind]
  refine (InodeCache.find_meets _ fun o member => (misses.cached o member).2.1).mono ?_
  rintro (_ | o) w₁ ⟨same, found⟩ <;> obtain rfl := same.symm
  · refine InodeCache.meets_insertFresh misses.cached ?_
    rw [meets_bind, meets_inode (by rw [new]; rfl), new]
    exact meets_loadNew (w := ⟨w.state.insertFresh, w.device⟩) reliable (by exact has) new loaded
  · exact absurd found.2 (misses.other o found.1)

/-- An inode that is loaded into the empty cache and stored without a change leaves all blocks as
they are exactly if its group fits into a byte. -/
theorem reload_keeps_iff (disk : Disk Errno) (reliable : Reliable disk) (w : World Fs) (ino : Nat)
    (has : w.state.geometry.HasInode ino) (empty : w.state.icache = []) :
    ∃ w', (reload ino).run disk w = .ok (.ok (), w') ∧ (w'.device.contents = w.device.contents ↔
      (w.device.contents (w.state.geometry.inodeBlock ino)).u16 (w.state.geometry.inodeSlot ino + 6) < 256) := by
  set g := w.state.geometry with gDef
  set bytes := w.device.contents (g.inodeBlock ino) with bytesDef
  set i := loadedInode w.device.contents g ino with iDef
  have stored : writeZones (g.inodeSlot ino) i.data 10 (writeFields bytes (g.inodeSlot ino) i) = bytes ↔
      bytes.u16 (g.inodeSlot ino + 6) < 256 :=
    @stored_as_read_iff bytes (g.inodeSlot ino) ino .fresh
  suffices returns : Returns disk (reload ino) (fun r w' => r = .ok () ∧ w'.device.contents =
      Function.update w.device.contents (g.inodeBlock ino)
        (writeZones (g.inodeSlot ino) i.data 10 (writeFields bytes (g.inodeSlot ino) i))) w by
    obtain ⟨_, w', ran, rfl, contents⟩ := returns.run
    refine ⟨w', ran, ?_⟩
    rw [contents, ← stored, bytesDef, Function.update_eq_self_iff]
  unfold reload
  refine meets_bind.mpr (iget_misses reliable has (misses_empty empty) fun marked => ?_)
  set s := (w.state.insertFresh.setInode w.state.allocated fun _ => i).note (.loaded ino marked) with sDef
  have object : s.inodes w.state.allocated = i := Function.update_self _ _ _
  set d := (w.device.hold (g.inodeBlock ino)).tick.exec disk w.device.next .unfix with dDef
  have same : d.contents = w.device.contents :=
    ((Device.extends_hold w.device (g.inodeBlock ino)).unfix (Nat.le_refl _)
      (congrArg Block.dirty (Device.blocks_hold _ _))).contents
  change Meets disk _ (writeInode w.state.allocated) _ ⟨s, d⟩
  unfold writeInode
  rw [meets_bind, meets_inode (by rw [object]; rfl), object]
  refine rawInode_found (w := ⟨s, d⟩) reliable (by exact has) ?_
  simp only [meets_bind]
  rw [meets_load (Device.load_hold _ _), meets_bind, meets_store, meets_bind, meets_markDirty, meets_bind,
    meets_unfix, meets_pure]
  refine ⟨rfl, ?_⟩
  simp only [contents_rewrite, same]
  rfl

/-- A mounted device on which one inode has the given group. -/
def grouped (gid : Nat) : World Fs :=
  ⟨{ Fs.initial with super := SmallImage.super, blocksizeBits := 10 },
    .new (SmallImage.image (SmallImage.imap 3) (SmallImage.zmap 3)
      ((SmallImage.record 1 SmallImage.dirMode 2 128 6 SmallImage.zeroes).setU16 6 gid) SmallImage.rootEntries)⟩

theorem reload_group_kept : ∃ w', (reload 1).run ⟨true, VFS.neverFails⟩ (grouped 255) = .ok (.ok (), w') ∧
    (w'.device.contents = (grouped 255).device.contents ↔
      ((grouped 255).device.contents ((grouped 255).state.geometry.inodeBlock 1)).u16
        ((grouped 255).state.geometry.inodeSlot 1 + 6) < 256) :=
  reload_keeps_iff ⟨true, VFS.neverFails⟩ (fun _ _ => rfl) (grouped 255) 1 (by decide) rfl

theorem reload_group_cut : ∃ w', (reload 1).run ⟨true, VFS.neverFails⟩ (grouped 256) = .ok (.ok (), w') ∧
    w'.device.contents ≠ (grouped 256).device.contents := by
  have reached : ((reload 1).run ⟨true, VFS.neverFails⟩ (grouped 256)).toOption.any
      (fun r => r.1.toOption.isSome && r.2.device.contents 4 7 != (grouped 256).device.contents 4 7) = true := by
    decide +kernel
  cases ran : (reload 1).run ⟨true, VFS.neverFails⟩ (grouped 256) with
  | error f =>
    rw [ran] at reached
    cases reached
  | ok r =>
    obtain ⟨result, w'⟩ := r
    simp only [ran, Except.toOption, Option.any_some, Bool.and_eq_true, bne_iff_ne] at reached
    obtain ⟨returned, other⟩ := reached
    cases result with
    | error e => cases returned
    | ok _ => exact ⟨w', rfl, fun same => other (by rw [same])⟩

end Minix

end MPStuBS
