import MPStuBS.CacheIntegrity
import MPStuBS.HandleSteps
import MPStuBS.FsLogic

/-! While the bitmaps are held in memory, destroying an inode object and writing it back always
return, whatever is on the device and whichever blocks cannot be fixed. -/
namespace MPStuBS

open Prog FsM

namespace Device

variable {ε : Type} {disk : Disk ε} {d : Device} {b : Nat}

/-- The block has been fixed and not been released. -/
def Fixed (d : Device) (b : Nat) : Prop := b < d.next ∧ (d.blocks b).present = true

theorem Fixed.load (disk : Disk ε) (fixed : d.Fixed b) : ∃ bytes, d.load disk b = some bytes := by
  unfold Device.load
  rw [if_pos fixed.2]
  exact ⟨_, rfl⟩

theorem Fixed.tick (fixed : d.Fixed b) : d.tick.Fixed b := fixed

theorem Fixed.hold (fixed : d.Fixed b) (number : Nat) : (d.hold number).tick.Fixed b := by
  have grown := extends_hold d number
  refine ⟨Nat.lt_of_lt_of_le fixed.1 grown.next, ?_⟩
  rw [grown.blocks b fixed.1]
  exact fixed.2

theorem fixed_hold (d : Device) (number : Nat) : (d.hold number).tick.Fixed d.next := by
  refine ⟨Nat.lt_succ_self _, ?_⟩
  rw [blocks_hold]

theorem Fixed.exec (fixed : d.Fixed b) {b' : Nat} {c : Command} (other : c = .unfix → b ≠ b') :
    (d.exec disk b' c).Fixed b := by
  refine ⟨by rw [next_exec]; exact fixed.1, ?_⟩
  by_cases here : b = b'
  · subst here
    cases c with
    | unfix => exact absurd rfl (other rfl)
    | store bytes =>
      simp only [Device.exec]
      split
      · simpa using fixed.2
      · exact fixed.2
    | markDirty => simpa [Device.exec] using fixed.2
    | clearDirty => simpa [Device.exec] using fixed.2
    | sync =>
      simp only [Device.exec, Device.sync]
      split
      · simpa using fixed.2
      · exact fixed.2
  · rw [blocks_exec_of_ne c here]
    exact fixed.2

end Device

/-- What is fixed while a file system is mounted. -/
structure Fs.SameVolume (s s' : Fs) : Prop where
  mounted : s'.mounted = s.mounted
  super : s'.super = s.super
  blocksizeBits : s'.blocksizeBits = s.blocksizeBits
  imap : s'.imap = s.imap
  zmap : s'.zmap = s.zmap
  rootInode : s'.rootInode = s.rootInode
  superBlock : s'.superBlock = s.superBlock

instance : IsPreorder Fs Fs.SameVolume where
  refl _ := ⟨rfl, rfl, rfl, rfl, rfl, rfl, rfl⟩
  trans _ _ _ fst snd := ⟨snd.mounted.trans fst.mounted, snd.super.trans fst.super,
    snd.blocksizeBits.trans fst.blocksizeBits, snd.imap.trans fst.imap, snd.zmap.trans fst.zmap,
    snd.rootInode.trans fst.rootInode, snd.superBlock.trans fst.superBlock⟩

/-- The bitmaps of the state are held in memory. -/
structure Device.HoldsMaps (d : Device) (s : Fs) : Prop where
  imap : ∀ i < s.super.imapBlocks, d.Fixed (s.imap i)
  zmap : ∀ i < s.super.zmapBlocks, d.Fixed (s.zmap i)

/-- The bitmaps of the volume and, apart from them, these blocks are held, and the inode object is
not deleted. -/
structure Fine (base : Fs) (ptr : Nat) (hs : List Nat) (w : World Fs) : Prop where
  volume : base.SameVolume w.state
  maps : w.device.HoldsMaps base
  live : (w.state.inodes ptr).deleted = false
  nodup : hs.Nodup
  held : ∀ b ∈ hs, w.device.Fixed b
  imap : ∀ b ∈ hs, ∀ i < base.super.imapBlocks, base.imap i ≠ b
  zmap : ∀ b ∈ hs, ∀ i < base.super.zmapBlocks, base.zmap i ≠ b

namespace Fine

variable {disk : Disk Errno} {base : Fs} {ptr b : Nat} {hs : List Nat} {w : World Fs}

theorem indirCount (fine : Fine base ptr hs w) : w.state.indirCount = base.indirCount := by
  unfold Fs.indirCount
  rw [fine.volume.blocksizeBits]

theorem tick (fine : Fine base ptr hs w) : Fine base ptr hs ⟨w.state, w.device.tick⟩ :=
  ⟨fine.volume, ⟨fine.maps.imap, fine.maps.zmap⟩, fine.live, fine.nodup, fine.held, fine.imap, fine.zmap⟩

theorem hold (fine : Fine base ptr hs w) (number : Nat) :
    Fine base ptr (w.device.next :: hs) ⟨w.state, (w.device.hold number).tick⟩ := by
  have all : ∀ {P : Nat → Prop}, P w.device.next → (∀ b ∈ hs, P b) → ∀ b ∈ w.device.next :: hs, P b := by
    intro P new old b member
    rcases List.mem_cons.mp member with rfl | before
    · exact new
    · exact old b before
  refine ⟨fine.volume, ⟨fun i less => (fine.maps.imap i less).hold number, fun i less =>
    (fine.maps.zmap i less).hold number⟩, fine.live, List.nodup_cons.mpr ⟨fun member => ?_, fine.nodup⟩,
    all (Device.fixed_hold w.device number) fun b member => (fine.held b member).hold number,
    all (fun i less => Nat.ne_of_lt (fine.maps.imap i less).1) fine.imap,
    all (fun i less => Nat.ne_of_lt (fine.maps.zmap i less).1) fine.zmap⟩
  exact Nat.lt_irrefl _ (fine.held _ member).1

theorem exec (fine : Fine base ptr hs w) (b : Nat) {c : Command} (kept : c ≠ .unfix) :
    Fine base ptr hs ⟨w.state, w.device.exec disk b c⟩ :=
  ⟨fine.volume, ⟨fun i less => (fine.maps.imap i less).exec fun unfix => absurd unfix kept, fun i less =>
    (fine.maps.zmap i less).exec fun unfix => absurd unfix kept⟩, fine.live, fine.nodup,
    fun b member => (fine.held b member).exec fun unfix => absurd unfix kept, fine.imap, fine.zmap⟩

/-- The last block is released. -/
theorem unfix (fine : Fine base ptr (b :: hs) w) :
    Fine base ptr hs ⟨w.state, w.device.exec disk b .unfix⟩ := by
  obtain ⟨outside, nodup⟩ := List.nodup_cons.mp fine.nodup
  refine ⟨fine.volume, ⟨fun i less => (fine.maps.imap i less).exec fun _ => fine.imap b (.head _) i less,
    fun i less => (fine.maps.zmap i less).exec fun _ => fine.zmap b (.head _) i less⟩, fine.live,
    nodup, fun b' member => (fine.held b' (.tail _ member)).exec fun _ eq => ?_,
    fun b' member => fine.imap b' (.tail _ member), fun b' member => fine.zmap b' (.tail _ member)⟩
  exact outside (eq ▸ member)

theorem setInode (fine : Fine base ptr hs w) (o : Nat) {f : Inode → Inode}
    (kept : ∀ i : Inode, (f i).deleted = i.deleted) :
    Fine base ptr hs ⟨w.state.setInode o f, w.device⟩ := by
  refine ⟨⟨fine.volume.mounted, fine.volume.super, fine.volume.blocksizeBits, fine.volume.imap,
    fine.volume.zmap, fine.volume.rootInode, fine.volume.superBlock⟩, fine.maps, ?_, fine.nodup, fine.held, fine.imap, fine.zmap⟩
  by_cases here : ptr = o
  · subst here
    simpa [Fs.setInode, kept] using fine.live
  · simpa [Fs.setInode, Function.update_of_ne here] using fine.live

end Fine

/-- From every state that is fine the program returns to one that is fine again. -/
def KeepsFine (disk : Disk Errno) (base : Fs) (ptr : Nat) (hs : List Nat) {α : Type} (p : FsM α) : Prop :=
  ∀ w, Fine base ptr hs w → Returns disk p (fun _ w' => Fine base ptr hs w') w

namespace KeepsFine

variable {disk : Disk Errno} {base : Fs} {ptr : Nat} {hs : List Nat} {α β : Type}

theorem pure {a : α} : KeepsFine disk base ptr hs (Pure.pure a) := fun _ fine => fine

theorem bind {p : FsM α} {f : α → FsM β} (fst : KeepsFine disk base ptr hs p)
    (snd : ∀ a, KeepsFine disk base ptr hs (f a)) : KeepsFine disk base ptr hs (p >>= f) := fun w fine =>
  meets_bind.mpr ((fst w fine).mono fun a w' fine => snd a w' fine)

theorem ite {c : Prop} [Decidable c] {p q : FsM α} (fst : KeepsFine disk base ptr hs p)
    (snd : KeepsFine disk base ptr hs q) : KeepsFine disk base ptr hs (if c then p else q) := by
  split
  · exact fst
  · exact snd

/-- What follows may use the present state. -/
theorem get {f : Fs → FsM α} (next : ∀ w, Fine base ptr hs w →
    Returns disk (f w.state) (fun _ w' => Fine base ptr hs w') w) :
    KeepsFine disk base ptr hs (FsM.get >>= f) := next

theorem inode : KeepsFine disk base ptr hs (FsM.inode ptr) := by
  intro w fine
  exact (meets_inode fine.live).mpr fine

theorem setInode {f : Inode → Inode} (kept : ∀ i : Inode, (f i).deleted = i.deleted) :
    KeepsFine disk base ptr hs (FsM.setInode ptr f) := by
  intro w fine
  exact (meets_setInode fine.live).mpr (fine.setInode ptr kept)

theorem setDirty : KeepsFine disk base ptr hs (FsM.setInode ptr .setDirty) := setInode fun _ => rfl

theorem store {b : Nat} {bytes : Bytes} : KeepsFine disk base ptr hs (FsM.store b bytes) := fun _ fine =>
  meets_store.mpr (fine.exec b (by simp))

theorem markDirty {b : Nat} : KeepsFine disk base ptr hs (FsM.markDirty b) := fun _ fine =>
  meets_markDirty.mpr (fine.exec b (by simp))

theorem load {b : Nat} (member : b ∈ hs) : KeepsFine disk base ptr hs (FsM.load b) := by
  intro w fine
  obtain ⟨bytes, loaded⟩ := (fine.held b member).load disk
  exact (meets_load loaded).mpr fine

/-- A block is fixed, used and released. -/
theorem fix {n : Nat} {f : Except Errno Nat → FsM α} (failed : ∀ e, KeepsFine disk base ptr hs (f (.error e)))
    (fixed : ∀ b w, Fine base ptr (b :: hs) w →
      Returns disk (f (.ok b)) (fun _ w' => Fine base ptr hs w') w) :
    KeepsFine disk base ptr hs (FsM.fix n >>= f) := by
  intro w fine
  refine meets_bind.mpr (meets_fix (fun _ => ?_) fun e _ => ?_)
  · exact fixed _ _ (fine.hold n)
  · exact failed e _ fine.tick

end KeepsFine

namespace Minix

variable {disk : Disk Errno} {base : Fs} {ptr : Nat} {hs : List Nat}

theorem fine_freeBlock (block : Nat) : KeepsFine disk base ptr hs (freeBlock block) := by
  refine KeepsFine.get fun w fine => ?_
  split
  · exact fine
  dsimp only
  split
  · exact fine
  rename_i inside
  have inside := Nat.not_le.mp inside
  rw [fine.volume.super] at inside
  obtain ⟨bytes, loaded⟩ := (fine.maps.zmap _ inside).load disk
  rw [fine.volume.zmap, fine.volume.super]
  refine meets_bind.mpr ((meets_load loaded).mpr ?_)
  exact KeepsFine.store.bind (fun _ => KeepsFine.markDirty) w fine

/-- The entry lies in the inode or in a block that is held. -/
def Area.Held (hs : List Nat) (count : Nat) (area : Area) (offset : Nat) : Prop :=
  match area with
  | .inode => offset < 16
  | .block b => b ∈ hs ∧ offset < count

theorem fine_readEntry {area : Area} {offset : Nat} (held : area.Held hs base.indirCount offset) :
    KeepsFine disk base ptr hs (readEntry ptr area offset) := by
  cases area with
  | inode =>
    refine KeepsFine.inode.bind fun i => ?_
    rw [if_pos (show offset < 16 from held)]
    exact .pure
  | block b =>
    refine KeepsFine.get fun w fine => KeepsFine.bind (KeepsFine.load held.1) (fun bytes => ?_) w fine
    rw [fine.indirCount, if_pos held.2]
    exact .pure

theorem fine_writeEntry {area : Area} {offset : Nat} (held : area.Held hs base.indirCount offset) (value : Nat) :
    KeepsFine disk base ptr hs (writeEntry ptr area offset value) := by
  cases area with
  | inode =>
    unfold writeEntry
    rw [if_pos (show offset < 16 from held)]
    exact KeepsFine.setInode fun _ => rfl
  | block b =>
    refine KeepsFine.get fun w fine => KeepsFine.bind (KeepsFine.load held.1) (fun bytes => ?_) w fine
    rw [fine.indirCount, if_pos held.2]
    exact KeepsFine.store

theorem fine_clearEntries {area : Area} {action : Nat → FsM Unit}
    (acts : ∀ nr, KeepsFine disk base ptr hs (action nr)) (n : Nat) : ∀ {offset},
    (∀ i, offset ≤ i → i < offset + n → area.Held hs base.indirCount i) →
    KeepsFine disk base ptr hs (clearEntries ptr area action n offset) := by
  induction n with
  | zero => exact fun _ => .pure
  | succ n ih =>
    intro offset held
    have rest : KeepsFine disk base ptr hs (clearEntries ptr area action n (offset + 1)) :=
      ih fun i late early => held i (by omega) (by omega)
    have here := held offset (by omega) (by omega)
    exact (fine_readEntry here).bind fun nr => .ite rest ((fine_writeEntry here 0).bind fun _ =>
      (acts nr).bind fun _ => rest)

theorem fine_freeBranch (depth : Nat) : ∀ {hs : List Nat} (nr : Nat),
    KeepsFine disk base ptr hs (freeBranch ptr depth nr) := by
  induction depth with
  | zero => exact fun nr => fine_freeBlock nr
  | succ depth ih =>
    intro hs nr
    refine KeepsFine.get fun w fine => KeepsFine.fix (fun e => ?_) (fun b w₁ fine₁ => ?_) w fine
    · exact .pure
    rw [fine.indirCount]
    refine meets_bind.mpr ((fine_clearEntries (fun nr => ih nr) base.indirCount (fun i _ less => ?_) w₁ fine₁).mono ?_)
    · exact ⟨.head _, by omega⟩
    rintro _ w₂ fine₂
    refine meets_bind.mpr (meets_forget.mpr ?_)
    have cleared : Fine base ptr (b :: hs) ⟨w₂.state, w₂.device.exec disk b .clearDirty⟩ :=
      fine₂.exec b (by simp)
    exact (fine_freeBlock nr).bind (fun _ => KeepsFine.setDirty) _ cleared.unfix

theorem fine_clearWhole (n : Nat) : ∀ {whole : Nat}, 7 + whole + n ≤ 16 →
    KeepsFine disk base ptr hs (clearWhole ptr n whole) := by
  induction n with
  | zero => exact fun _ => .pure
  | succ n ih =>
    intro whole bound
    have here : Area.Held hs base.indirCount .inode (7 + whole) := show 7 + whole < 16 by omega
    have rest : KeepsFine disk base ptr hs (clearWhole ptr n (whole + 1)) := ih (by omega)
    exact (fine_readEntry here).bind fun nr => .ite ((fine_writeEntry here 0).bind fun _ =>
      KeepsFine.setDirty.bind fun _ => (fine_freeBranch _ _).bind fun _ => rest) rest

/-- Freeing everything, as it is done to an inode without links. -/
theorem fine_truncate : KeepsFine disk base ptr hs (truncate ptr 0) := by
  refine KeepsFine.bind (KeepsFine.setInode ?_) fun _ => KeepsFine.setDirty.bind fun _ =>
    KeepsFine.get fun w fine => ?_
  · exact fun _ => rfl
  have first : u64 ((0 + (w.state.blocksize : Int) - 1) / w.state.blocksize) = 0 := by
    have positive : (0 : Int) < w.state.blocksize := by
      unfold Fs.blocksize
      positivity
    rw [Int.ediv_eq_zero_of_lt (by omega) (by omega)]
    rfl
  dsimp only
  rw [first]
  change Returns disk (do
    freeBranches ptr .inode 0 7 0
    clearWhole ptr 3 0
    setInode ptr .setDirty) _ w
  have direct : KeepsFine disk base ptr hs (freeBranches ptr .inode 0 7 0) := by
    refine fine_clearEntries (fun nr => fine_freeBranch 0 nr) 7 fun i _ less => ?_
    exact show i < 16 by omega
  exact direct.bind (fun _ => (fine_clearWhole 3 (by omega)).bind fun _ => KeepsFine.setDirty) w fine

/-- A record of the inode table is changed. -/
theorem fine_rawInode {ino : Nat} {α : Type} {f : Except Errno (Nat × Nat) → FsM α}
    (failed : ∀ e, KeepsFine disk base ptr hs (f (.error e)))
    (found : ∀ b raw w, Fine base ptr (b :: hs) w →
      Returns disk (f (.ok (b, raw))) (fun _ w' => Fine base ptr hs w') w) :
    KeepsFine disk base ptr hs (rawInode ino >>= f) := by
  intro w fine
  simp only [rawInode, meets_bind, meets_get]
  split
  · exact failed _ w fine
  · simp only [meets_bind]
    refine meets_fix (fun _ => ?_) fun e _ => ?_
    · exact found _ _ _ (fine.hold _)
    · exact failed e _ fine.tick

/-- What is done to a record of the inode table that was found. -/
theorem fine_record {b : Nat} (bytes : Bytes → Bytes) {w : World Fs} (fine : Fine base ptr (b :: hs) w) :
    Returns disk (do
      let old ← load b
      store b (bytes old)
      FsM.markDirty b
      FsM.unfix b) (fun _ w' => Fine base ptr hs w') w := by
  refine meets_bind.mpr ((KeepsFine.load (.head _) w fine).mono fun old w₁ fine => ?_)
  exact ((fine.exec b (by simp)).exec b (by simp)).unfix

theorem fine_clearDiskInode (ino : Nat) : KeepsFine disk base ptr hs (clearDiskInode ino) :=
  fine_rawInode (fun _ => .pure) fun _ raw _ fine =>
    fine_record (fun bytes => (bytes.setU16 (raw + 2) 0).setU16 raw 0) fine

theorem fine_freeInode : KeepsFine disk base ptr hs (freeInode ptr) := by
  refine KeepsFine.get fun w fine => KeepsFine.bind KeepsFine.inode (fun i => .ite .pure ?_) w fine
  dsimp only
  split
  · exact .pure
  rename_i inside
  have inside := Nat.not_le.mp inside
  rw [fine.volume.super] at inside
  refine (fine_clearDiskInode i.ino).bind fun _ w₁ fine₁ => ?_
  obtain ⟨bytes, loaded⟩ := (fine₁.maps.imap _ inside).load disk
  rw [fine.volume.imap]
  refine meets_bind.mpr ((meets_load loaded).mpr ?_)
  exact KeepsFine.store.bind (fun _ => KeepsFine.markDirty) w₁ fine₁

theorem fine_writeInode : KeepsFine disk base ptr hs (writeInode ptr) := by
  refine KeepsFine.inode.bind fun i => fine_rawInode (fun _ => .pure) fun b raw w fine => ?_
  have written := @fine_record disk base ptr hs b
    (fun bytes => writeZones raw i.data 10 (writeFields bytes raw i)) w fine
  simp only [meets_bind] at written ⊢
  exact written

end Minix

namespace Inode

variable {disk : Disk Errno} {base : Fs} {ptr : Nat} {hs : List Nat}

theorem fine_writeToDisk : KeepsFine disk base ptr hs (writeToDisk ptr) := by
  refine KeepsFine.inode.bind fun i => .ite (Minix.fine_writeInode.bind fun r => ?_) .pure
  cases r with
  | error e => exact .pure
  | ok _ =>
    refine KeepsFine.bind (KeepsFine.setInode ?_) fun _ => .pure
    exact fun _ => rfl

/-- Destroying an inode object returns, and the bitmaps are still held. -/
theorem destroy_returns {w : World Fs} (fine : Fine base ptr [] w) : Returns disk (destroy ptr)
    (fun _ w' => base.SameVolume w'.state ∧ w'.device.HoldsMaps base) w := by
  have deletes : ∀ w, Fine base ptr [] w → Returns disk (setInode ptr fun i => { i with deleted := true })
      (fun _ w' => base.SameVolume w'.state ∧ w'.device.HoldsMaps base) w := by
    intro w fine
    have volume := fine.volume
    exact (meets_setInode fine.live).mpr ⟨⟨volume.mounted, volume.super, volume.blocksizeBits, volume.imap,
      volume.zmap, volume.rootInode, volume.superBlock⟩, fine.maps⟩
  unfold destroy
  refine meets_bind.mpr ((KeepsFine.inode w fine).mono fun i w₁ fine₁ => ?_)
  split
  · refine meets_bind.mpr ((Minix.fine_truncate w₁ fine₁).mono fun _ w₂ fine₂ => ?_)
    exact meets_bind.mpr ((Minix.fine_freeInode w₂ fine₂).mono fun _ => deletes)
  · split
    · exact meets_bind.mpr ((fine_writeToDisk w₁ fine₁).mono fun _ => deletes)
    · exact deletes w₁ fine₁

end Inode

namespace InodeCache

variable {disk : Disk Errno} {base : Fs}

/-- The inodes that a loop has still to visit are told apart and live. -/
structure Visits (base : Fs) (rest : List Nat) (w : World Fs) : Prop where
  volume : base.SameVolume w.state
  maps : w.device.HoldsMaps base
  nodup : rest.Nodup
  live : ∀ o ∈ rest, (w.state.inodes o).deleted = false

theorem Visits.fine {cur : Nat} {rest : List Nat} {w : World Fs} (visits : Visits base (cur :: rest) w) :
    Fine base cur [] w :=
  ⟨visits.volume, visits.maps, visits.live cur (.head _), List.nodup_nil, by simp, by simp, by simp⟩

theorem Visits.skip {cur : Nat} {rest : List Nat} {w : World Fs} (visits : Visits base (cur :: rest) w) :
    Visits base rest w :=
  ⟨visits.volume, visits.maps, (List.nodup_cons.mp visits.nodup).2, fun o later =>
    visits.live o (.tail _ later)⟩

/-- After the current inode was destroyed or written back. -/
theorem Visits.next {cur : Nat} {rest : List Nat} {w w' : World Fs} (visits : Visits base (cur :: rest) w)
    (volume : base.SameVolume w'.state) (maps : w'.device.HoldsMaps base)
    (quiet : w.state.QuietBut cur w'.state) : Visits base rest w' := by
  obtain ⟨outside, nodup⟩ := List.nodup_cons.mp visits.nodup
  obtain ⟨inodes, same, kept⟩ := quiet
  refine ⟨volume, maps, nodup, fun o later => ?_⟩
  have other : o ≠ cur := fun eq => outside (eq ▸ later)
  rw [same]
  exact (kept o other).deleted.trans (visits.live o (.tail _ later))

theorem Visits.shrink {rest : List Nat} {w : World Fs} (visits : Visits base rest w) (icache : List Nat)
    (numInodes : Nat) :
    Visits base rest ⟨{ w.state with icache := icache, numInodes := numInodes }, w.device⟩ :=
  ⟨⟨visits.volume.mounted, visits.volume.super, visits.volume.blocksizeBits, visits.volume.imap,
    visits.volume.zmap, visits.volume.rootInode, visits.volume.superBlock⟩, visits.maps, visits.nodup, visits.live⟩

/-- An inode leaves the list and is destroyed before the program goes on. -/
theorem drop_returns {cur : Nat} {rest : List Nat} {w : World Fs} (visits : Visits base (cur :: rest) w)
    {α : Type} {p : FsM α} {post : α → World Fs → Prop} (next : ∀ w', Visits base rest w' →
      w'.state.icache = w.state.icache.erase cur → Returns disk p post w') :
    Returns disk (do
      remove cur
      Inode.destroy cur
      decrement
      p) post w := by
  have removed := visits.shrink (w.state.icache.erase cur) w.state.numInodes
  refine meets_bind.mpr (meets_modify.mpr (meets_bind.mpr ?_))
  refine ((Inode.destroy_returns removed.fine).and_after (quietBut_destroy cur _).after).mono ?_
  rintro _ w₁ ⟨⟨volume, maps⟩, quiet⟩
  have shrunk := (removed.next volume maps quiet).shrink w₁.state.icache (w₁.state.numInodes - 1)
  refine meets_bind.mpr (meets_modify.mpr ?_)
  exact next _ shrunk quiet.icache

theorem syncLoop_returns (cache : List Nat) : ∀ {w : World Fs}, Visits base cache w →
    Returns disk (syncLoop cache) (fun _ w' => base.SameVolume w'.state ∧ w'.device.HoldsMaps base) w := by
  induction cache with
  | nil => exact fun visits => ⟨visits.volume, visits.maps⟩
  | cons cur rest ih =>
    intro w visits
    have fine := visits.fine
    simp only [syncLoop, meets_bind]
    refine (meets_inode fine.live).mpr ?_
    split
    · exact drop_returns visits fun _ visits _ => ih visits
    · split
      · simp only [meets_bind]
        refine ((Inode.fine_writeToDisk w fine).and_after (Inode.quiet_writeToDisk cur w.state).after).mono ?_
        rintro _ w₁ ⟨fine₁, quiet⟩
        exact ih (visits.next fine₁.volume fine₁.maps (quiet.but cur))
      · exact ih visits.skip

theorem removeLoop_returns (cache : List Nat) : ∀ {w : World Fs}, Visits base cache w →
    w.state.icache = cache → Returns disk (removeLoop cache) (fun _ w' => base.SameVolume w'.state ∧
      w'.device.HoldsMaps base ∧ w'.state.icache = []) w := by
  induction cache with
  | nil => exact fun visits empty => ⟨visits.volume, visits.maps, empty⟩
  | cons cur rest ih =>
    intro w visits same
    have erased : w.state.icache.erase cur = rest := by rw [same, List.erase_cons_head]
    have removed := visits.shrink (w.state.icache.erase cur) w.state.numInodes
    refine meets_bind.mpr (meets_modify.mpr (meets_bind.mpr ((meets_inode removed.fine.live).mpr ?_)))
    split
    · simp only [meets_bind]
      refine ((Inode.destroy_returns removed.fine).and_after (quietBut_destroy cur _).after).mono ?_
      rintro _ w₁ ⟨⟨volume, maps⟩, quiet⟩
      have next := (removed.next volume maps quiet).shrink w₁.state.icache (w₁.state.numInodes - 1)
      refine meets_bind.mpr (meets_modify.mpr ?_)
      exact ih next (quiet.icache.trans erased)
    · have next := removed.skip.shrink (w.state.icache.erase cur) (w.state.numInodes - 1)
      refine meets_bind.mpr (meets_modify.mpr ?_)
      exact ih next erased

end InodeCache

end MPStuBS
