import MPStuBS.VolumeMounts
import MPStuBS.InodeLoading

/-! What a mount that succeeds leaves: the bitmaps are held, and the root inode is loaded. -/
namespace MPStuBS

open Prog FsM Device

/-- Nothing is held of a device that is new. -/
theorem Device.holds_new (disk : Disk Errno) (contents : Nat → Bytes) :
    (Device.new contents).Holds disk [] [] contents :=
  ⟨⟨fun _ _ => rfl, by simp, List.nodup_nil, by simp, fun _ _ => rfl, fun _ _ _ => rfl⟩, by simp⟩

namespace Minix

variable {disk : Disk Errno} {allowed : FsFault → Prop} {view : Nat → Bytes} {hs : List Nat}

/-- The blocks of a bitmap are held after those that are held already. -/
theorem fixMaps_holds (blockno n : Nat) : ∀ {w : World Fs} {i : Nat} {map : Nat → Nat},
    w.device.Holds disk [] (hs ++ mapHandles map 0 i) view → (∀ h ∈ hs, w.device.number h < blockno) →
    (∀ j < i, w.device.number (map j) = blockno + j) →
    Meets disk allowed (fixMaps blockno n i map) (fun r w' => r.1 = none → w'.state = w.state ∧
      w.device.Follows w'.device ∧ w'.device.Holds disk [] (hs ++ mapHandles r.2.2 0 (i + n)) view ∧
      ∀ j < i + n, w'.device.number (r.2.2 j) = blockno + j) w := by
  induction n with
  | zero => exact fun holds _ numbers _ => ⟨rfl, .refl _, holds, numbers⟩
  | succ n ih =>
    intro w i map holds low numbers
    simp only [fixMaps, meets_bind]
    refine meets_fix (fun _ => ?_) fun e _ => meets_pure.mpr (by simp)
    have early : ∀ b ∈ hs ++ mapHandles map 0 i, b < w.device.next := fun b member =>
      holds.shows.early (by simpa using member)
    have absent : blockno + i ∉ ([] ++ (hs ++ mapHandles map 0 i)).map w.device.number := by
      simp only [List.nil_append, List.map_append, List.mem_append, List.mem_map, mapHandles, List.mem_range'_1]
      rintro (⟨h, member, same⟩ | ⟨_, ⟨j, ⟨_, less⟩, rfl⟩, same⟩)
      · have := low h member
        omega
      · have := numbers j (by omega)
        omega
    have follows := follows_hold (d := w.device) (blockno + i)
    have held : (w.device.hold (blockno + i)).tick.Holds disk []
        (hs ++ mapHandles (Function.update map i w.device.next) 0 (i + 1)) view := by
      rw [mapHandles_update]
      refine (holds.own absent).pin.perm (.refl _) ?_
      rw [← List.append_assoc]
      exact List.perm_append_singleton _ _ |>.symm
    refine (ih (w := ⟨w.state, (w.device.hold (blockno + i)).tick⟩) held (fun h member => ?_) fun j less => ?_).mono ?_
    · exact (follows.number h (early h (by simp [member]))).symm ▸ low h member
    · by_cases here : j = i
      · rw [here, Function.update_self]
        exact number_hold _
      · have member : map j ∈ hs ++ mapHandles map 0 i := by
          simp only [mapHandles, List.mem_append, List.mem_map, List.mem_range'_1]
          exact .inr ⟨j, by omega, rfl⟩
        rw [Function.update_of_ne here]
        exact (follows.number _ (early _ member)).trans (numbers j (by omega))
    · rintro ⟨failed, k, map'⟩ w' result none
      obtain ⟨state, follows', holds', numbers'⟩ := result none
      have count : i + 1 + n = i + (n + 1) := by omega
      rw [count] at holds' numbers'
      exact ⟨state, follows.trans follows', holds', numbers'⟩

variable {w : World Fs} {ino : Nat}

/-- What is not held is on the device as in the view. -/
theorem contents_inodeBlock (stored : Stored disk w [] [] view) (ino : Nat) :
    w.device.contents (w.state.geometry.inodeBlock ino) = view (w.state.geometry.inodeBlock ino) :=
  stored.holds.shows.rest _ fun member => Nat.not_lt.mpr (w.state.geometry.inodeStart_le ino)
    (stored.number_mapHandles (by simpa using member)).2

/-- What an `iget` that loads the inode leaves. -/
theorem iget_loads (reliable : Reliable disk) (has : w.state.geometry.HasInode ino) (misses : Misses w ino)
    (stored : Stored disk w [] [] view) : Meets disk allowed (iget ino) (fun r w' => ∃ o, r = .ok o ∧
      Stored disk w' [] [] view ∧ w'.state.geometry = w.state.geometry ∧ w'.state.icache = w.state.icache ++ [o] ∧
      w'.state.inodes o = loadedInode view w.state.geometry ino) w := by
  refine iget_misses reliable has misses fun marked => ⟨_, rfl, ?_, rfl, rfl, ?_⟩
  · have fixed := works_fix stored (w.state.geometry.inodeStart_le ino) (by simp)
    have works := fixed.trans (works_unfix fixed.stored)
    exact works.stored.follow rfl rfl rfl (.refl _) works.stored.holds
  · simp only [Fs.setInode, Fs.note, Function.update_self, loadedInode, Geometry.record,
      contents_inodeBlock stored]

/-- The view of a volume after it was mounted: the bits that stand for nothing are set. -/
def mountedView (super : SuperBlock) (contents : Nat → Bytes) : Nat → Bytes :=
  Function.update (Function.update contents 2 ((contents 2).setBit 0)) (2 + super.imapBlocks)
    ((contents (2 + super.imapBlocks)).setBit 0)

/-- The root inode is in the cache alone. -/
structure Mounted (disk : Disk Errno) (super : SuperBlock) (bits : Nat) (view : Nat → Bytes) (w : World Fs) :
    Prop where
  stored : Stored disk w [] [] view
  super : w.state.super = super
  blocksizeBits : w.state.blocksizeBits = bits
  icache : w.state.icache = [w.state.rootInode]
  root : w.state.inodes w.state.rootInode = loadedInode view w.state.geometry rootIno

/-- With blocks of at least 1024 bytes the superblock is in no bitmap, and is read as it was. -/
theorem reread_same {bits superBlock : Nat} {imap zmap : Nat → Nat} {bitmap bitmap' bytes : Bytes}
    (holds : HoldsVolume bits superBlock imap zmap w) (apart : bits ≠ 9) (synced : Synced disk w)
    (loaded : w.device.load disk (imap 0) = some bitmap)
    (reread : ((w.device.exec disk (imap 0) (.store (bitmap.setBit 0))).exec disk (zmap 0)
      (.store (bitmap'.setBit 0))).load disk superBlock = some bytes) :
    { w.state.super with ninodes := (superBytes bits bytes).u32 0 } = w.state.super := by
  have marked := memory_marked bitmap' holds.large holds.imapBlocks holds.number holds.imap.1
    holds.zmap.1 holds.imap.2 holds.zmap.2 loaded
  rw [memory_of_load reread] at marked
  have same := marked.resolve_right fun nine => apart nine.1
  unfold Synced at synced
  rw [holds.handle, holds.blocksize, ← same] at synced
  rw [← synced]
  rfl

theorem mountRoot_mounts {bits superBlock : Nat} {memory : Bool} {imap zmap : Nat → Nat} (reliable : Reliable disk)
    (stored : Stored disk w [] [] view) (imaps : w.state.imap = imap) (zmaps : w.state.zmap = zmap)
    (some : w.state.super.imapBlocks ≠ 0 ∧ w.state.super.zmapBlocks ≠ 0)
    (has : w.state.geometry.HasInode rootIno) (holds : HoldsVolume bits superBlock imap zmap w) (apart : bits ≠ 9)
    (synced : Synced disk w) :
    After disk (mountRoot bits superBlock memory imap zmap) (fun r w' => r = .ok () →
      Mounted disk w.state.super w.state.blocksizeBits (mountedView w.state.super view) w') w := by
  subst imaps zmaps
  have empty := holds.icache
  have first := stored.imap 0 (Nat.pos_of_ne_zero some.1)
  have second := stored.zmap 0 (Nat.pos_of_ne_zero some.2)
  have member : w.state.imap 0 ∈ [] ++ w.state.mapHandles := Stored.imap_mem (Nat.pos_of_ne_zero some.1)
  have member' : w.state.zmap 0 ∈ [] ++ w.state.mapHandles := Stored.zmap_mem (Nat.pos_of_ne_zero some.2)
  have stored₁ : Stored disk ⟨w.state, w.device.exec disk (w.state.imap 0) (.store ((view 2).setBit 0))⟩ [] []
      (Function.update view 2 ((view 2).setBit 0)) := by
    have holds := stored.holds.store member ((view 2).setBit 0)
    rw [first] at holds
    exact (works_device stored (follows_exec _) holds).stored
  have other : Function.update view 2 ((view 2).setBit 0) (2 + w.state.super.imapBlocks) =
      view (2 + w.state.super.imapBlocks) := Function.update_of_ne (by omega) _ _
  have stored₂ := stored₁.holds.store member' ((view (2 + w.state.super.imapBlocks)).setBit 0)
  rw [number_exec, second] at stored₂
  have stored₂ := (works_device stored₁ (follows_exec _) stored₂).stored
  have loaded := stored₁.load_zmap (Nat.pos_of_ne_zero some.2)
  simp only [Nat.add_zero, other] at loaded
  unfold mountRoot
  refine meets_bind.mpr ?_
  rw [meets_load (stored.load_imap (Nat.pos_of_ne_zero some.1)), meets_bind, meets_store, meets_bind,
    meets_load loaded, meets_bind, meets_store]
  refine meets_bind.mpr (meets_bind.mpr (after_load fun bytes reread => meets_modify.mpr ?_))
  rw [reread_same holds apart synced (stored.load_imap (Nat.pos_of_ne_zero some.1)) reread]
  cases memory with
  | false =>
    exact meets_bind.mpr (meets_bind.mpr ((always_true InodeCache.maybeEvictInodes _).after.mono fun _ _ _ =>
      meets_bind.mpr ((always_true umount _).after.mono fun _ _ _ h => by cases h)))
  | true =>
  refine meets_bind.mpr ((iget_loads reliable (by exact has) (misses_empty (by exact empty)) stored₂).mono ?_)
  rintro _ w' ⟨o, rfl, stored', geometry, icache, root⟩
  have live : (w'.state.inodes o).deleted = false := by
    rw [root]
    rfl
  have icache : w'.state.icache = [o] := by
    rw [icache]
    exact congrArg (· ++ [o]) empty
  refine meets_bind.mpr ?_
  rw [meets_inode live]
  split
  · refine meets_bind.mpr (meets_modify.mpr (meets_pure.mpr fun _ => ?_))
    have super : w'.state.super = w.state.super := congrArg Geometry.super geometry
    have bits : w'.state.blocksizeBits = w.state.blocksizeBits := congrArg Geometry.blocksizeBits geometry
    refine ⟨stored'.follow rfl rfl rfl (.refl _) stored'.holds, super, bits, icache, ?_⟩
    simp only [root, Fs.geometry, super, bits]
    rfl
  · refine meets_bind.mpr ((always_true _ _).after.mono fun _ _ _ => ?_)
    exact meets_bind.mpr ((always_true _ _).after.mono fun _ _ _ h => by cases h)

/-- A mount on a device that never fails, on which no inode was cached. -/
theorem mountMaps_mounts {bits superBlock : Nat} {memory : Allocations} {super : SuperBlock}
    (reliable : Reliable disk) (empty : w.state.icache = []) (holds : w.device.Holds disk [] [] view)
    (large : 10 ≤ bits) (early : superBlock < w.device.next)
    (number : (w.device.blocks superBlock).number = superBlockNo bits)
    (read : readSuper (superBytes bits (w.device.memory disk superBlock)) = super) (has : super.ninodes ≠ 0) :
    After disk (mountMaps bits superBlock memory super) (fun r w' => r = .ok () →
      Mounted disk super bits (mountedView super view) w') w := by
  have failed : ∀ {p : FsM Unit} {e : Errno} {w' : World Fs}, After disk (do
      p
      Pure.pure (.error e)) (fun r w' => r = (.ok () : Except Errno Unit) →
        Mounted disk super bits (mountedView super view) w') w' := by
    intro p e w
    exact meets_bind.mpr ((always_true p w.state).after.mono fun _ _ _ => by simp)
  unfold mountMaps
  refine meets_bind.mpr (meets_modify.mpr ?_)
  split
  · exact failed
  rename_i some
  split
  · exact failed
  have holds : w.device.Holds disk [] ([] ++ mapHandles (fun _ => 0) 0 0) view := holds
  set start : Fs := { w.state with
    super := super, superBlock := superBlock, blocksizeBits := bits, numInodeReferences := 0 }
  refine meets_bind.mpr (((fixMaps_holds (w := ⟨start, w.device⟩) 2 super.imapBlocks holds (by simp)
    (by simp)).and fixMaps_first).mono ?_)
  rintro ⟨failure, n, imap⟩ w₁ ⟨fixed, _, same₁, imaps⟩
  cases failure with
  | some e => exact meets_bind.mpr ((always_true _ _).after.mono fun _ _ _ => failed)
  | none =>
    obtain ⟨state, _, holds₁, numbers⟩ := fixed rfl
    rw [Nat.zero_add] at holds₁ numbers
    have low : ∀ h ∈ mapHandles imap 0 super.imapBlocks, w₁.device.number h < 2 + super.imapBlocks := by
      intro h member
      simp only [mapHandles, List.mem_map, List.mem_range'_1] at member
      obtain ⟨j, ⟨_, less⟩, rfl⟩ := member
      rw [numbers j (by omega)]
      omega
    have holds₁ : w₁.device.Holds disk [] (mapHandles imap 0 super.imapBlocks ++ mapHandles (fun _ => 0) 0 0) view :=
      holds₁.perm (.refl _) (by simp [mapHandles])
    refine meets_bind.mpr (((fixMaps_holds (2 + super.imapBlocks) super.zmapBlocks holds₁ low (by simp)).and
      fixMaps_first).mono ?_)
    rintro ⟨failure, n', zmap⟩ w₂ ⟨fixed₂, _, same₂, zmaps⟩
    refine meets_bind.mpr (meets_modify.mpr ?_)
    cases failure with
    | some e =>
      exact meets_bind.mpr ((always_true _ _).after.mono fun _ _ _ => meets_bind.mpr
        ((always_true _ _).after.mono fun _ _ _ => failed))
    | none =>
      obtain ⟨state₂, follows, holds₂, numbers₂⟩ := fixed₂ rfl
      rw [Nat.zero_add] at holds₂ numbers₂
      have state : w₂.state = start := state₂.trans state
      have early₁ : ∀ j < super.imapBlocks, imap j < w₁.device.next := fun j less =>
        holds₁.shows.early (by
          simp only [mapHandles, List.nil_append, List.mem_append, List.mem_map, List.mem_range'_1]
          exact .inl ⟨j, ⟨Nat.zero_le j, by omega⟩, rfl⟩)
      have stored : Stored disk ⟨{ start with imap := imap, zmap := zmap }, w₂.device⟩ [] [] view := by
        refine ⟨?_, fun j less => (follows.number _ (early₁ j less)).trans (numbers j less), numbers₂⟩
        simpa [Fs.mapHandles, mapHandles, List.range_eq_range'] using holds₂
      have counts := not_or.mp some
      obtain ⟨holdsVolume, kept⟩ := @holdsVolume_of_fixed disk bits _ _ _ { start with imap := imap, zmap := zmap } _ _ _ rfl (by omega) rfl early counts.1 number empty same₁
        (imaps rfl (by omega)) same₂ (zmaps rfl (by omega))
      rw [state]
      refine mountRoot_mounts reliable stored rfl rfl counts ⟨by decide, Nat.pos_of_ne_zero has⟩ holdsVolume
        (by omega) ?_
      unfold Synced
      change readSuper (superBytes bits (w₂.device.memory disk superBlock)) = super
      rw [kept]
      exact read

/-- A mount on a device that never fails, before which nothing was held and no inode was cached. -/
theorem mount_mounts {super : SuperBlock} (bits : Nat) (memory : Allocations) (reliable : Reliable disk)
    (empty : w.state.icache = []) (holds : w.device.Holds disk [] [] view) (large : 10 ≤ bits)
    (read : readSuper (superBytes bits (view (superBlockNo bits))) = super) (has : super.ninodes ≠ 0) :
    After disk (mount bits memory) (fun r w' => r = .ok () →
      Mounted disk super bits (mountedView super view) w') w := by
  have shown : w.device.contents (superBlockNo bits) = view (superBlockNo bits) :=
    holds.shows.rest _ (by simp)
  unfold mount
  refine meets_bind.mpr (meets_fix (fun _ => ?_) fun e _ h => by cases h)
  refine meets_bind.mpr ((meets_load (Device.load_hold w.device (superBlockNo bits))).mpr ?_)
  dsimp only
  split
  · exact meets_bind.mpr ((always_true (FsM.unfix w.device.next) _).after.mono fun _ _ _ =>
      meets_pure.mpr fun h => by cases h)
  · rw [shown, read]
    refine mountMaps_mounts (w := ⟨w.state, (w.device.hold (superBlockNo bits)).tick⟩) reliable empty
      (holds.hold _) large (Device.fixed_hold w.device _).1
      (congrArg Block.number (Device.blocks_hold w.device (superBlockNo bits))) ?_ has
    rw [Device.memory_of_load (Device.load_hold w.device (superBlockNo bits)), shown]
    exact read

end Minix

theorem SmallImage.readSuper_small :
    Minix.readSuper (Minix.superBytes 10 (superBlock super)) = super := by
  decide +kernel

end MPStuBS
