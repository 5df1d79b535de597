import MPStuBS.Holders
import MPStuBS.HandleSteps
import MPStuBS.HeldMemory
import MPStuBS.MountFailure

/-! What a mount that succeeds leaves: the references that are counted, the blocks that are held, and
the superblock in memory. -/
namespace MPStuBS

open Prog FsM

/-- The superblock in memory is the one that was read. -/
def Synced (disk : Disk Errno) (w : World Fs) : Prop := Minix.readSuper (Minix.superBytes w.state.blocksizeBits
  (w.device.memory disk w.state.superBlock)) = w.state.super

/-- What was fixed before a program that releases only its own blocks is fixed after it. -/
theorem Spare.fixed {α : Type} {disk : Disk Errno} {p : FsM α} {w : World Fs}
    (spare : Spare (fun _ => True) w.device.next p) :
    After disk p (fun _ w' => ∀ b, w.device.Fixed b → w'.device.Fixed b) w := by
  refine (spare.after (maps_all _) (Nat.le_refl _)).mono ?_
  rintro _ w' ⟨_, -, spared⟩ b fixed
  exact ⟨Nat.lt_of_lt_of_le fixed.1 spared.next, (spared.present b fixed.1).trans fixed.2⟩

theorem Device.HoldsMaps.mono {d d' : Device} {s s' : Fs} (maps : d.HoldsMaps s)
    (volume : s.SameVolume s') (fixed : ∀ b, d.Fixed b → d'.Fixed b) : d'.HoldsMaps s' := by
  refine ⟨fun i less => ?_, fun i less => ?_⟩
  · rw [volume.super] at less
    rw [volume.imap]
    exact fixed _ (maps.imap i less)
  · rw [volume.super] at less
    rw [volume.zmap]
    exact fixed _ (maps.zmap i less)

namespace Minix

variable {disk : Disk Errno} {allowed : FsFault → Prop}

/-- A loop that gets through has fixed a block for each index. -/
theorem fixMaps_fixed (blockno n : Nat) : ∀ {w : World Fs} {i : Nat} {map : Nat → Nat},
    (∀ j < i, w.device.Fixed (map j)) →
    Meets disk allowed (fixMaps blockno n i map) (fun r w' =>
      (∀ b, w.device.Fixed b → w'.device.Fixed b) ∧
        (r.1 = none → ∀ j < i + n, w'.device.Fixed (r.2.2 j))) w := by
  induction n with
  | zero => exact fun held => ⟨fun _ => id, fun _ => held⟩
  | succ n ih =>
    intro w i map held
    simp only [fixMaps, meets_bind]
    refine meets_fix (fun _ => ?_) (fun e _ => ⟨fun b fixed => fixed.tick, by simp⟩)
    have grown : ∀ b, w.device.Fixed b → (w.device.hold (blockno + i)).tick.Fixed b := fun b fixed =>
      fixed.hold _
    refine (ih (w := ⟨w.state, (w.device.hold (blockno + i)).tick⟩) fun j less => ?_).mono ?_
    · by_cases here : j = i
      · subst here
        rw [Function.update_self]
        exact Device.fixed_hold _ _
      · rw [Function.update_of_ne here]
        exact grown _ (held j (by omega))
    · rintro r w' ⟨kept, all⟩
      refine ⟨fun b fixed => kept b (grown b fixed), fun none j less => all none j (by omega)⟩

theorem fixMaps_all (blockno n : Nat) {w : World Fs} :
    Meets disk allowed (fixMaps blockno n 0 fun _ => 0) (fun r w' =>
      (∀ b, w.device.Fixed b → w'.device.Fixed b) ∧
        (r.1 = none → ∀ j < n, w'.device.Fixed (r.2.2 j))) w := by
  refine (fixMaps_fixed blockno n (by simp)).mono ?_
  rintro r w' ⟨kept, all⟩
  exact ⟨kept, fun none j less => all none j (by omega)⟩

/-- Without a volume, these references are counted. -/
structure Bare (s₀ : Fs) (l : List Nat) (s : Fs) : Prop where
  counted : s.Counted l
  retired : s.Retired
  log : s₀.log <+: s.log
  mounted : s.mounted = s₀.mounted
  cwd : s.cwd = s₀.cwd
  files : s.fdTable.inodes = s₀.fdTable.inodes

/-- The fields that describe a volume may change. -/
theorem Bare.set {s₀ s : Fs} {l : List Nat} (bare : Bare s₀ l s) (super : SuperBlock) (superBlock bits : Nat)
    (imap zmap : Nat → Nat) : Bare s₀ l { s with
      super := super, superBlock := superBlock, blocksizeBits := bits, imap := imap, zmap := zmap } :=
  ⟨bare.counted.congr ⟨bare.counted.wf.icache, bare.counted.wf.cwd, bare.counted.wf.root,
    bare.counted.wf.files⟩ rfl rfl rfl, bare.retired, bare.log, bare.mounted, bare.cwd, bare.files⟩

theorem Bare.quiet {s₀ s s' : Fs} {l : List Nat} (bare : Bare s₀ l s) (quiet : s.Quiet s') :
    Bare s₀ l s' := by
  have steady := quiet.steady
  have framed := quiet.framed
  exact ⟨⟨steady.wf bare.counted.wf, steady.num.trans bare.counted.num, fun o =>
    (Fs.refs_congr steady.allocated (steady.refcount o)).trans (bare.counted.refs o)⟩,
    framed.retired bare.retired, bare.log.trans framed.log, framed.volume.mounted.trans bare.mounted,
    framed.cwd.trans bare.cwd, framed.files.trans bare.files⟩

theorem mountRoot_bare (bits superBlock : Nat) (memory : Bool) (imap zmap : Nat → Nat) {s₀ s : Fs}
    (bare : Bare s₀ [] s) : (mountRoot bits superBlock memory imap zmap).Always
      (fun r s' => r = .ok () → s₀.Clean s' → Bare s₀ [s'.rootInode] s') s := by
  have calm : ∀ {α β : Type} {p : FsM α} {f : α → FsM β} {post : β → Fs → Prop} {s : Fs}, Bare s₀ [] s →
      Quiet p → (∀ a s', Bare s₀ [] s' → (f a).Always post s') → (p >>= f).Always post s :=
    fun bare quiet rest => always_bind.mpr ((quiet _).mono fun a s' quiet => rest a s' (bare.quiet quiet))
  have failed : ∀ {e : Errno} {s' : Fs}, (.error e : Except Errno Unit) = .ok () → s₀.Clean s' →
      Bare s₀ [s'.rootInode] s' := by simp
  refine calm bare Quiet.load fun _ _ bare => calm bare Quiet.store fun _ _ bare =>
    calm bare Quiet.load fun _ _ bare => calm bare Quiet.store fun _ _ bare =>
      always_bind.mpr (calm bare Quiet.load fun bytes s' bare => ?_)
  have bare : Bare s₀ [] { s' with super := { s'.super with ninodes := (superBytes bits bytes).u32 0 } } :=
    bare.set _ s'.superBlock s'.blocksizeBits s'.imap s'.zmap
  change Always _ _ { s' with super := { s'.super with ninodes := (superBytes bits bytes).u32 0 } }
  generalize { s' with super := { s'.super with ninodes := (superBytes bits bytes).u32 0 } } = s₁ at bare
  cases memory with
  | false =>
    exact always_bind.mpr (always_bind.mpr ((always_true InodeCache.maybeEvictInodes s₁).mono fun _ s₂ _ =>
      always_bind.mpr ((always_true umount s₂).mono fun _ _ _ => failed)))
  | true =>
    refine (Traced.refl bare.counted.wf).run (.iget rootIno) (iget_owes (.refl bare.counted.wf) rootIno)
      fun r s₂ owing framed => ?_
    cases r with
    | error e => exact always_bind.mpr ((always_true umount s₂).mono fun _ _ _ => failed)
    | ok root =>
      have traced : Traced s₁ s₂ [root] := ⟨owing, framed⟩
      refine traced.bind Quiet.inode fun i s₃ traced => ?_
      split
      · intro _ clean
        have noneLost : ∀ o, .lost o ∉ s₁.since s₃ := fun o isLost =>
          (clean o).1 ((List.drop_sublist_drop_left _ bare.log.length_le).subset isLost)
        have counted := traced.owes.counted bare.counted noneLost
        have framed := traced.framed
        exact ⟨counted.congr ⟨counted.wf.icache, counted.wf.cwd, fun _ => traced.owes.allocated,
          counted.wf.files⟩ rfl rfl rfl, framed.retired bare.retired, bare.log.trans framed.log,
          framed.volume.mounted.trans bare.mounted, framed.cwd.trans bare.cwd,
          framed.files.trans bare.files⟩
      · exact traced.putThen fun s₄ _ => always_bind.mpr ((always_true umount s₄).mono fun _ _ _ => failed)

theorem mountMaps_bare (bits superBlock : Nat) (memory : Allocations) (super : SuperBlock) {s₀ s : Fs}
    (bare : Bare s₀ [] s) : (mountMaps bits superBlock memory super).Always
      (fun r s' => r = .ok () → s₀.Clean s' → Bare s₀ [s'.rootInode] s') s := by
  have failed : ∀ {p : FsM Unit} {e : Errno} {s : Fs},
      (p >>= fun _ => Pure.pure (Except.error e)).Always (fun r s' => r = (.ok () : Except Errno Unit) →
        s₀.Clean s' → Bare s₀ [s'.rootInode] s') s := by
    intro p e s
    exact always_bind.mpr ((always_true p s).mono fun _ _ _ => by simp)
  have anew : { s with
        super := super, superBlock := superBlock, blocksizeBits := bits, numInodeReferences := 0 } =
      { s with super := super, superBlock := superBlock, blocksizeBits := bits } := by
    rw [show s.numInodeReferences = 0 from bare.counted.num]
  unfold mountMaps
  refine always_bind.mpr ?_
  change Always _ _ { s with
    super := super, superBlock := superBlock, blocksizeBits := bits, numInodeReferences := 0 }
  rw [anew]
  have bare := bare.set super superBlock bits s.imap s.zmap
  split
  · exact failed
  split
  · exact failed
  refine always_bind.mpr ((quiet_fixMaps _ _ _ _ _).mono ?_)
  rintro ⟨failure, n, imap⟩ s₁ quiet
  have bare := bare.quiet quiet
  cases failure with
  | some e => exact always_bind.mpr ((always_true (unfixMaps imap n 0) s₁).mono fun _ _ _ => failed)
  | none =>
    refine always_bind.mpr ((quiet_fixMaps _ _ _ _ _).mono ?_)
    rintro ⟨failure, n, zmap⟩ s₂ quiet
    have bare := bare.quiet quiet
    refine always_bind.mpr ?_
    change Always _ _ { s₂ with imap := imap, zmap := zmap }
    have bare := bare.set s₂.super s₂.superBlock s₂.blocksizeBits imap zmap
    cases failure with
    | some e =>
      exact always_bind.mpr ((always_true _ _).mono fun _ s₃ _ => always_bind.mpr
        ((always_true _ s₃).mono fun _ _ _ => failed))
    | none => exact mountRoot_bare bits superBlock memory.root imap zmap bare

/-- After a mount the root is referenced. -/
theorem mount_bare (bits : Nat) (memory : Allocations) {s : Fs} (bare : Bare s [] s) :
    (mount bits memory).Always (fun r s' => r = .ok () → s.Clean s' → Bare s [s'.rootInode] s') s := by
  unfold mount
  refine always_bind.mpr (((Quiet.fix : Quiet (FsM.fix (superBlockNo bits))) s).mono fun r s₁ quiet => ?_)
  have bare := bare.quiet quiet
  cases r with
  | error e => exact fun h => by cases h
  | ok superBlock =>
    refine always_bind.mpr (((Quiet.load : Quiet (FsM.load superBlock)) s₁).mono fun bytes s₂ quiet => ?_)
    have bare := bare.quiet quiet
    dsimp only
    split
    · exact always_bind.mpr ((always_true (FsM.unfix superBlock) s₂).mono fun _ _ _ h => by cases h)
    · exact mountMaps_bare _ _ _ _ bare

/-- The bitmaps are held, and what was held in `d`. -/
def Holds (d : Device) (w : World Fs) : Prop :=
  w.device.HoldsMaps w.state ∧ ∀ b, d.Fixed b → w.device.Fixed b

/-- A program that changes no volume and releases only its own blocks, before the rest. -/
theorem Holds.bind {α β : Type} {d : Device} {w : World Fs} {p : FsM α} {f : α → FsM β}
    {post : β → World Fs → Prop} (holds : Holds d w) (framed : Framed p)
    (spare : Spare (fun _ => True) w.device.next p) (rest : ∀ a w', Holds d w' → After disk (f a) post w') :
    After disk (p >>= f) post w := by
  refine meets_bind.mpr ((spare.fixed.and (framed w.state).after).mono ?_)
  rintro a w' ⟨fixed, framed⟩
  exact rest a w' ⟨holds.1.mono framed.volume fixed, fun b held => fixed b (holds.2 b held)⟩

theorem mountRoot_holds (bits superBlock : Nat) (memory : Bool) (imap zmap : Nat → Nat) {d : Device}
    {w : World Fs} (holds : Holds d w) :
    After disk (mountRoot bits superBlock memory imap zmap) (fun r w' => r = .ok () → Holds d w') w := by
  have failed : ∀ {p : FsM Unit} {e : Errno} {w : World Fs}, After disk (do
      p
      Pure.pure (.error e)) (fun r w' => r = (.ok () : Except Errno Unit) → Holds d w') w := by
    intro p e w
    exact meets_bind.mpr ((always_true p w.state).after.mono fun _ _ _ => by simp)
  refine holds.bind (.calm Quiet.load) Spare.load fun _ _ holds =>
    holds.bind (.calm Quiet.store) (Spare.store (.inr trivial)) fun _ _ holds =>
      holds.bind (.calm Quiet.load) Spare.load fun _ _ holds =>
        holds.bind (.calm Quiet.store) (Spare.store (.inr trivial)) fun _ _ holds => meets_bind.mpr
          (holds.bind (.calm Quiet.load) Spare.load fun bytes w₀ holds => meets_modify.mpr ?_)
  have holds : Holds d ⟨{ w₀.state with
      super := { w₀.state.super with ninodes := (superBytes bits bytes).u32 0 } }, w₀.device⟩ :=
    ⟨⟨holds.1.imap, holds.1.zmap⟩, holds.2⟩
  cases memory with
  | false =>
    exact meets_bind.mpr (meets_bind.mpr ((always_true InodeCache.maybeEvictInodes _).after.mono
      fun _ _ _ => failed))
  | true =>
    refine holds.bind (.iget rootIno) (spare_iget rootIno) fun r w₁ holds => ?_
    cases r with
    | error e => exact failed
    | ok root =>
      refine holds.bind (.calm Quiet.inode) Spare.inode fun i w₂ holds => ?_
      split
      · exact fun _ => ⟨⟨holds.1.imap, holds.1.zmap⟩, holds.2⟩
      · exact meets_bind.mpr ((always_true (Inode.put root) w₂.state).after.mono fun _ _ _ => failed)

theorem mountMaps_holds (bits superBlock : Nat) (memory : Allocations) (super : SuperBlock) {d : Device}
    {w : World Fs} (held : ∀ b, d.Fixed b → w.device.Fixed b) :
    After disk (mountMaps bits superBlock memory super) (fun r w' => r = .ok () → Holds d w') w := by
  have failed : ∀ {p : FsM Unit} {e : Errno} {w' : World Fs}, After disk (do
      p
      Pure.pure (.error e)) (fun r w' => r = (.ok () : Except Errno Unit) → Holds d w') w' := by
    intro p e w
    exact meets_bind.mpr ((always_true p w.state).after.mono fun _ _ _ => by simp)
  unfold mountMaps
  refine meets_bind.mpr (meets_modify.mpr ?_)
  split
  · exact failed
  split
  · exact failed
  set start : Fs := { w.state with
    super := super, superBlock := superBlock, blocksizeBits := bits, numInodeReferences := 0 }
  refine meets_bind.mpr (((fixMaps_all 2 super.imapBlocks).and (quiet_fixMaps _ _ _ _ start).after).mono ?_)
  rintro ⟨failure, n, imap⟩ w₁ ⟨⟨kept, imaps⟩, quiet⟩
  cases failure with
  | some e => exact meets_bind.mpr ((always_true _ _).after.mono fun _ _ _ => failed)
  | none =>
    have imaps := imaps rfl
    refine meets_bind.mpr (((fixMaps_all (2 + super.imapBlocks) super.zmapBlocks).and
      (quiet_fixMaps _ _ _ _ _).after).mono ?_)
    rintro ⟨failure, n, zmap⟩ w₂ ⟨⟨kept₂, zmaps⟩, quiet₂⟩
    refine meets_bind.mpr (meets_modify.mpr ?_)
    cases failure with
    | some e =>
      exact meets_bind.mpr ((always_true _ _).after.mono fun _ _ _ => meets_bind.mpr
        ((always_true _ _).after.mono fun _ _ _ => failed))
    | none =>
      have zmaps := zmaps rfl
      have sameSuper : w₂.state.super = super :=
        quiet₂.framed.volume.super.trans quiet.framed.volume.super
      refine mountRoot_holds bits superBlock memory.root imap zmap
        (w := ⟨{ w₂.state with imap := imap, zmap := zmap }, w₂.device⟩)
        ⟨⟨fun i less => ?_, fun i less => ?_⟩, fun b before => kept₂ b (kept b (held b before))⟩
      · have less : i < w₂.state.super.imapBlocks := less
        rw [sameSuper] at less
        exact kept₂ _ (imaps i less)
      · have less : i < w₂.state.super.zmapBlocks := less
        rw [sameSuper] at less
        exact zmaps i less

/-- The first bit of the bitmap is not in the other fields, if the block is the superblock's. -/
theorem readSuper_marked {bits : Nat} {bytes bytes' : Bytes}
    (marked : bytes' = bytes ∨ bits = 9 ∧ bytes' = bytes.setBit 0) :
    readSuper (superBytes bits bytes') =
      { readSuper (superBytes bits bytes) with ninodes := (superBytes bits bytes').u32 0 } := by
  rcases marked with rfl | ⟨rfl, rfl⟩
  · rfl
  · have same : ∀ i, 2 ≤ i → superBytes 9 (bytes.setBit 0) i = superBytes 9 bytes i := by
      intro i late
      simp only [superBytes, Nat.reducePow, Nat.reduceMod, Nat.zero_add]
      exact Bytes.setU16_of_outside (.inr late)
    simp only [readSuper, SuperBlock.mk.injEq, true_and]
    exact ⟨Bytes.u16_congr fun j _ _ => same j (by omega), Bytes.u16_congr fun j _ _ => same j (by omega),
      Bytes.u16_congr fun j _ _ => same j (by omega), Bytes.u32_congr fun j _ _ => same j (by omega)⟩

end Minix

namespace Prog.Storeless

variable {α : Type} {b : Nat}

theorem fsPure {a : α} : (Pure.pure a : FsM α).Storeless := trivial

theorem fsGet : FsM.get.Storeless := fun _ => trivial

theorem fsModify {f : Fs → Fs} : (FsM.modify f).Storeless := fun _ => trivial

theorem fsFault {f : FsFault} : (FsM.fault f : FsM α).Storeless := trivial

theorem fsFix {number : Nat} : (FsM.fix number).Storeless := fun _ => trivial

theorem fsLoad : (FsM.load b).Storeless := by
  intro r
  cases r with
  | none => trivial
  | some bytes => trivial

theorem fsUnfix : (FsM.unfix b).Storeless := ⟨by simp, trivial⟩

theorem inode {ptr : Nat} : (FsM.inode ptr).Storeless := by
  refine fsGet.bind fun s => ?_
  split
  · exact fsFault
  · exact fsPure

theorem setInode {ptr : Nat} {f : Inode → Inode} : (FsM.setInode ptr f).Storeless := by
  refine fsGet.bind fun s => ?_
  split
  · exact fsFault
  · trivial

theorem contains (ino : Nat) (cache : List Nat) : (InodeCache.contains ino cache).Storeless := by
  induction cache with
  | nil => exact fsPure
  | cons cur rest ih =>
    refine inode.bind fun i => ?_
    split
    · exact fsPure
    · exact ih

theorem insertInode (new : Nat) : (InodeCache.insertInode new).Storeless := by
  refine fsGet.bind fun s => inode.bind fun i => (contains _ _).bind fun found => ?_
  split
  · exact fsPure
  · exact fsModify

theorem rawInode (ino : Nat) : (Minix.rawInode ino).Storeless := by
  refine fsGet.bind fun s => ?_
  split
  · exact fsPure
  · refine fsFix.bind fun r => ?_
    cases r with
    | error e => exact fsPure
    | ok block => exact fsPure

theorem inodeMarked (ino : Nat) : (Minix.inodeMarked ino).Storeless := by
  refine fsGet.bind fun s r => ?_
  cases r with
  | none => trivial
  | some bitmap => trivial

end Prog.Storeless

namespace Minix

variable {disk : Disk Errno} {held : Nat} {w : World Fs}

/-- What is read into an empty cache drives no inode out of it. -/
theorem iget_retains (ino : Nat) (empty : w.state.icache = []) (early : held < w.device.next) :
    After disk (iget ino) (fun r w' => ∀ o, r = .ok o → w.device.Retains disk held w'.device) w := by
  have allocates : (do
      let new ← allocateInode
      InodeCache.insertInode new
      Pure.pure new : FsM Nat).Storeless :=
    Storeless.bind (fun _ => trivial) fun _ => (Storeless.insertInode _).bind fun _ => Storeless.fsPure
  refine meets_bind.mpr (meets_bind.mpr (maybeEvictInodes_empty empty (meets_bind.mpr (meets_get.mpr ?_))))
  rw [empty]
  refine (after_avoids (do
    let new ← allocateInode
    InodeCache.insertInode new
    Pure.pure new) early (allocates.avoids w)).mono fun o w₁ kept => ?_
  refine Storeless.inode.andThen (Nat.lt_of_lt_of_le early kept.1) fun i w₂ kept₂ => ?_
  replace kept := kept.trans kept₂
  split
  · exact fun _ _ => kept
  refine (Storeless.rawInode ino).andThen (Nat.lt_of_lt_of_le early kept.1) fun r w₃ kept₃ => ?_
  replace kept := kept.trans kept₃
  cases r with
  | error e =>
    refine meets_bind.mpr ((always_true (Inode.destroy o) _).after.mono fun _ w₄ _ => ?_)
    exact meets_bind.mpr ((always_true (FsM.note (.lost o)) _).after.mono fun _ _ _ _ fails => by cases fails)
  | ok found =>
    obtain ⟨block, raw⟩ := found
    have rest : (do
        let bytes ← FsM.load block
        FsM.setInode o (readInode bytes raw ino)
        FsM.unfix block
        FsM.setInode o fun i => { i with new := false }
        FsM.note (.loaded ino (← inodeMarked ino))
        Pure.pure (.ok o) : FsM (Except Errno Nat)).Storeless :=
      Storeless.fsLoad.bind fun bytes => Storeless.setInode.bind fun _ => Storeless.fsUnfix.bind fun _ =>
        Storeless.setInode.bind fun _ => (Storeless.inodeMarked ino).bind fun marked =>
          Storeless.fsModify.bind fun _ => Storeless.fsPure
    refine (after_avoids _ (Nat.lt_of_lt_of_le early kept.1) (rest.avoids w₃)).mono fun _ w₄ kept₄ _ _ => ?_
    exact kept.trans kept₄

theorem superBlockNo_le {bits : Nat} (large : 9 ≤ bits) : superBlockNo bits ≤ 2 :=
  Nat.div_le_div_left (Nat.pow_le_pow_right (Nat.zero_lt_two) large) (by decide)

theorem bits_of_superBlockNo {bits : Nat} (large : 9 ≤ bits) (two : superBlockNo bits = 2) : bits = 9 := by
  by_contra other
  have small : superBlockNo bits ≤ 1024 / 2 ^ 10 :=
    Nat.div_le_div_left (Nat.pow_le_pow_right (Nat.zero_lt_two) (by omega)) (by decide)
  have small : superBlockNo bits ≤ 1 := small
  omega

/-- Only the first inode bitmap block can be the block of the superblock. -/
theorem memory_marked {bits imapBlocks first second superBlock : Nat} {bitmap : Bytes} (bitmap' : Bytes)
    {d : Device} (large : 9 ≤ bits) (some : imapBlocks ≠ 0) (number : (d.blocks superBlock).number = superBlockNo bits)
    (number₁ : (d.blocks first).number = 2) (number₂ : (d.blocks second).number = 2 + imapBlocks)
    (apart₁ : first ≠ superBlock) (apart₂ : second ≠ superBlock)
    (loaded : d.load disk first = .some bitmap) :
    ((d.exec disk first (.store (bitmap.setBit 0))).exec disk second (.store (bitmap'.setBit 0))).memory
        disk superBlock = d.memory disk superBlock ∨
      bits = 9 ∧ ((d.exec disk first (.store (bitmap.setBit 0))).exec disk second
        (.store (bitmap'.setBit 0))).memory disk superBlock = (d.memory disk superBlock).setBit 0 := by
  have numbers : ∀ b, ((d.exec disk first (.store (bitmap.setBit 0))).blocks b).number = (d.blocks b).number :=
    Device.number_exec (.store (bitmap.setBit 0))
  have le := superBlockNo_le large
  have kept : (d.exec disk first (.store (bitmap.setBit 0))).shares disk second superBlock = false := by
    unfold Device.shares
    split
    · simpa using apart₂
    · rw [numbers, numbers, number, number₂]
      exact beq_eq_false_iff_ne.mpr (by omega)
  rw [Device.memory_store _ kept]
  cases shared : d.shares disk first superBlock with
  | false => exact .inl (Device.memory_store _ shared)
  | true =>
    rw [Device.memory_store_shared _ shared, ← Device.memory_of_load loaded, Device.memory_eq_of_shares shared]
    refine .inr ⟨bits_of_superBlockNo large ?_, rfl⟩
    unfold Device.shares at shared
    split at shared
    · exact absurd (by simpa using shared) apart₁
    · rw [← number, ← number₁]
      exact (by simpa using shared : (d.blocks first).number = (d.blocks superBlock).number).symm

/-- The blocks that `mount` holds when it has fixed both bitmaps. -/
structure HoldsVolume (bits superBlock : Nat) (imap zmap : Nat → Nat) (w : World Fs) : Prop where
  blocksize : w.state.blocksizeBits = bits
  large : 9 ≤ bits
  handle : w.state.superBlock = superBlock
  early : superBlock < w.device.next
  imapBlocks : w.state.super.imapBlocks ≠ 0
  number : (w.device.blocks superBlock).number = superBlockNo bits
  imap : (w.device.blocks (imap 0)).number = 2 ∧ imap 0 ≠ superBlock
  zmap : (w.device.blocks (zmap 0)).number = 2 + w.state.super.imapBlocks ∧ zmap 0 ≠ superBlock
  icache : w.state.icache = []

theorem mountRoot_synced {bits superBlock : Nat} {memory : Bool} {imap zmap : Nat → Nat}
    (holds : HoldsVolume bits superBlock imap zmap w) (synced : Synced disk w) :
    After disk (mountRoot bits superBlock memory imap zmap) (fun r w' => r = .ok () →
      Synced disk w' ∧ w'.state.superBlock = superBlock) w := by
  have failed : ∀ {p : FsM Unit} {e : Errno} {w : World Fs}, After disk (do
      p
      Pure.pure (.error e)) (fun r w' => r = (.ok () : Except Errno Unit) →
        Synced disk w' ∧ w'.state.superBlock = superBlock) w := by
    intro p e w
    exact meets_bind.mpr ((always_true p w.state).after.mono fun _ _ _ => by simp)
  simp only [mountRoot, rereadSuper, meets_bind]
  refine after_load fun bitmap loaded => meets_bind.mpr (meets_store.mpr ?_)
  simp only [meets_bind]
  refine after_load fun bitmap' _ => meets_bind.mpr (meets_store.mpr ?_)
  simp only [meets_bind]
  refine after_load fun bytes reread => meets_modify.mpr ?_
  have marked := memory_marked bitmap' holds.large holds.imapBlocks holds.number holds.imap.1
    holds.zmap.1 holds.imap.2 holds.zmap.2 loaded
  have memory₂ := Device.memory_of_load reread
  rw [memory₂] at marked
  set d := (w.device.exec disk (imap 0) (.store (bitmap.setBit 0))).exec disk (zmap 0)
    (.store (bitmap'.setBit 0))
  set s : Fs := { w.state with super := { w.state.super with ninodes := (superBytes bits bytes).u32 0 } }
  have early : superBlock < d.next := by
    rw [Device.next_exec, Device.next_exec]
    exact holds.early
  have synced₁ : Synced disk ⟨s, d⟩ := by
    unfold Synced at synced ⊢
    change readSuper (superBytes w.state.blocksizeBits (d.memory disk w.state.superBlock)) = _
    rw [holds.handle, holds.blocksize] at synced ⊢
    rw [memory₂, readSuper_marked marked, synced]
  cases memory with
  | false =>
    exact meets_bind.mpr (meets_bind.mpr ((always_true InodeCache.maybeEvictInodes _).after.mono
      fun _ _ _ => failed))
  | true =>
    have empty : s.icache = [] := holds.icache
    refine meets_bind.mpr (((iget_retains (w := ⟨s, d⟩) rootIno empty early).and (Framed.iget rootIno s).after).mono ?_)
    rintro r w₁ ⟨kept, framed⟩
    cases r with
    | error e => exact failed
    | ok root =>
      have kept := (kept root rfl).2
      have volume := framed.volume
      have synced₁ : Synced disk w₁ := by
        have is : w.state.superBlock = superBlock := holds.handle
        unfold Synced at synced₁ ⊢
        rw [volume.super, volume.superBlock, volume.blocksizeBits]
        rw [show s.superBlock = superBlock from is] at synced₁ ⊢
        rw [kept]
        exact synced₁
      refine meets_bind.mpr (after_inode ?_)
      split
      · exact fun _ => ⟨synced₁, volume.superBlock.trans holds.handle⟩
      · exact meets_bind.mpr ((always_true (Inode.put root) w₁.state).after.mono fun _ _ _ => failed)

/-- What a bitmap loop leaves, and its first block. -/
theorem fixMaps_first {blockno n : Nat} : After disk (fixMaps blockno n 0 fun _ => 0) (fun r w' =>
    w'.state = w.state ∧ w.device.Extends w'.device ∧ (r.1 = none → 0 < n →
      (w'.device.blocks (r.2.2 0)).number = blockno ∧ w.device.next ≤ r.2.2 0 ∧ r.2.2 0 < w'.device.next)) w := by
  refine ((map_fixed blockno n (.refl w.device) (by simp : ∀ h ∈ ([] : List Nat), h < w.device.next)).and
    (fixMaps_numbers blockno n (by simp))).mono ?_
  rintro r w' ⟨⟨state, leaves, early, passed, _⟩, _, _, numbers⟩
  refine ⟨state, leaves.same, fun none some => ?_⟩
  have first : r.2.2 0 ∈ mapHandles r.2.2 0 r.2.1 ++ [] := by
    rw [(passed none).1]
    simp only [mapHandles, List.append_nil, List.mem_map, List.mem_range'_1]
    exact ⟨0, by omega, rfl⟩
  exact ⟨numbers none 0 (by omega), leaves.late _ first, early _ first⟩

/-- The superblock is held since before the bitmaps. -/
theorem holdsVolume_of_fixed {bits superBlock : Nat} {imap zmap : Nat → Nat} {s : Fs} {d d₁ d₂ : Device}
    (blocksize : s.blocksizeBits = bits) (large : 9 ≤ bits) (handle : s.superBlock = superBlock)
    (early : superBlock < d.next) (counts : s.super.imapBlocks ≠ 0)
    (number : (d.blocks superBlock).number = superBlockNo bits) (empty : s.icache = []) (same₁ : d.Extends d₁)
    (imaps : (d₁.blocks (imap 0)).number = 2 ∧ d.next ≤ imap 0 ∧ imap 0 < d₁.next) (same₂ : d₁.Extends d₂)
    (zmaps : (d₂.blocks (zmap 0)).number = 2 + s.super.imapBlocks ∧ d₁.next ≤ zmap 0 ∧ zmap 0 < d₂.next) :
    HoldsVolume bits superBlock imap zmap ⟨s, d₂⟩ ∧ d₂.memory disk superBlock = d.memory disk superBlock := by
  have same : d.Extends d₂ := Device.Extends.trans same₁ same₂
  have block := same.blocks superBlock early
  refine ⟨⟨blocksize, large, handle, Nat.lt_of_lt_of_le early same.next, counts, ?_, ⟨?_, ?_⟩, ⟨zmaps.1, ?_⟩,
    empty⟩, Device.memory_congr same.contents block⟩
  · rw [block]
    exact number
  · rw [same₂.blocks (imap 0) imaps.2.2]
    exact imaps.1
  · exact Nat.ne_of_gt (Nat.lt_of_lt_of_le early imaps.2.1)
  · exact Nat.ne_of_gt (Nat.lt_of_lt_of_le (Nat.lt_of_lt_of_le early same₁.next) zmaps.2.1)

theorem mountMaps_synced {bits superBlock : Nat} {memory : Allocations} {super : SuperBlock}
    (large : 9 ≤ bits) (early : superBlock < w.device.next)
    (number : (w.device.blocks superBlock).number = superBlockNo bits)
    (read : readSuper (superBytes bits (w.device.memory disk superBlock)) = super)
    (empty : w.state.icache = []) :
    After disk (mountMaps bits superBlock memory super) (fun r w' => r = .ok () →
      Synced disk w' ∧ w'.state.superBlock = superBlock) w := by
  have failed : ∀ {p : FsM Unit} {e : Errno} {w : World Fs}, After disk (do
      p
      Pure.pure (.error e)) (fun r w' => r = (.ok () : Except Errno Unit) →
        Synced disk w' ∧ w'.state.superBlock = superBlock) w := by
    intro p e w
    exact meets_bind.mpr ((always_true p w.state).after.mono fun _ _ _ => by simp)
  unfold mountMaps
  refine meets_bind.mpr (meets_modify.mpr ?_)
  split
  · exact failed
  rename_i counts
  split
  · exact failed
  set start : Fs := { w.state with
    super := super, superBlock := superBlock, blocksizeBits := bits, numInodeReferences := 0 }
  refine meets_bind.mpr (fixMaps_first.mono ?_)
  rintro ⟨failure, n, imap⟩ w₁ ⟨state₁, same₁, imaps⟩
  cases failure with
  | some e => exact meets_bind.mpr ((always_true _ _).after.mono fun _ _ _ => failed)
  | none =>
    refine meets_bind.mpr (fixMaps_first.mono ?_)
    rintro ⟨failure, n, zmap⟩ w₂ ⟨state₂, same₂, zmaps⟩
    refine meets_bind.mpr (meets_modify.mpr ?_)
    cases failure with
    | some e =>
      exact meets_bind.mpr ((always_true _ _).after.mono fun _ _ _ => meets_bind.mpr
        ((always_true _ _).after.mono fun _ _ _ => failed))
    | none =>
      have state : w₂.state = start := state₂.trans state₁
      rw [state]
      obtain ⟨holds, kept⟩ := @holdsVolume_of_fixed disk bits _ _ _ { start with imap := imap, zmap := zmap } _ _ _
        rfl large rfl early (fun none => counts (.inl none)) number empty same₁ (imaps rfl (by omega)) same₂
        (zmaps rfl (by omega))
      refine mountRoot_synced holds ?_
      unfold Synced
      change readSuper (superBytes bits (w₂.device.memory disk superBlock)) = super
      rw [kept]
      exact read

theorem large_of_blocksizeBits {blocksize bits : Nat} (supported : blocksizeBits blocksize = some bits) :
    9 ≤ bits := by
  unfold blocksizeBits at supported
  split at supported
  · cases supported
    decide
  split at supported
  · cases supported
    decide
  split at supported
  · cases supported
    decide
  split at supported
  · cases supported
    decide
  · cases supported

/-- After a mount the bitmaps are held, and the superblock in memory is the one that was read. -/
theorem mount_synced (bits : Nat) (memory : Allocations) (empty : w.state.icache = []) :
    After disk (mount bits memory) (fun r w' => r = .ok () →
      Holds w.device w' ∧ w'.device.Fixed w'.state.superBlock ∧ Synced disk w') w := by
  unfold mount
  refine meets_bind.mpr (meets_fix (fun _ => ?_) fun e _ h => by cases h)
  refine meets_bind.mpr ((meets_load (Device.load_hold w.device (superBlockNo bits))).mpr ?_)
  dsimp only
  split
  · exact meets_bind.mpr ((always_true (FsM.unfix w.device.next) _).after.mono fun _ _ _ =>
      meets_pure.mpr fun h => by cases h)
  rename_i good
  have supported := not_not.mp (not_or.mp good).2
  have fixed := Device.fixed_hold w.device (superBlockNo bits)
  have read := Device.memory_of_load (@Device.load_hold _ disk w.device (superBlockNo bits))
  have synced := @mountMaps_synced disk ⟨w.state, (w.device.hold (superBlockNo bits)).tick⟩ bits _ memory _ (large_of_blocksizeBits supported) fixed.1
    (congrArg Block.number (Device.blocks_hold w.device (superBlockNo bits))) rfl empty
  rw [read] at synced
  have holds := @mountMaps_holds disk bits w.device.next memory
    (readSuper (superBytes bits (w.device.contents (superBlockNo bits)))) (w.device.hold (superBlockNo bits)).tick
    ⟨w.state, (w.device.hold (superBlockNo bits)).tick⟩ fun _ held => held
  refine (holds.and synced).mono ?_
  rintro r w' ⟨holds, synced⟩ success
  obtain ⟨maps, held⟩ := holds success
  obtain ⟨synced, handle⟩ := synced success
  exact ⟨⟨maps, fun b before => held b (before.hold _)⟩, handle ▸ held _ fixed, synced⟩

end Minix

end MPStuBS
