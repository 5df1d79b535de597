import MPStuBS.VolumeRuns

/-! Unmounting: when it fails because a file is open, when it leaves nothing behind, and when it
reads a working directory that does not exist. -/
namespace MPStuBS

open Prog FsM

variable {disk : Disk Errno} {allowed : FsFault → Prop}

theorem Device.released_unfix {d : Device} {b : Nat} (b' : Nat) (gone : (d.blocks b).present = false) :
    ((d.exec disk b' .unfix).blocks b).present = false := by
  by_cases here : b = b'
  · subst here
    simp [Device.exec]
  · rwa [Device.blocks_exec_of_ne _ here]

theorem meets_put {o : Nat} {post : Unit → World Fs → Prop} {w : World Fs}
    (live : (w.state.inodes o).deleted = false) (down : post () ⟨w.state.putDown o, w.device⟩) :
    Meets disk allowed (Inode.put o) post w := by
  unfold Fs.putDown at down
  refine meets_bind.mpr ((meets_inode live).mpr ?_)
  split
  · rename_i positive
    rw [if_pos positive] at down
    refine meets_bind.mpr (meets_modify.mpr ?_)
    exact (meets_setInode (w := ⟨{ w.state with numInodeReferences := w.state.numInodeReferences - 1 }, w.device⟩) live).mpr down
  · rename_i zero
    rw [if_neg zero] at down
    exact down

namespace Framed

theorem remove (cur : Nat) : Framed (InodeCache.remove cur) := modify fun _ => Fs.framed_cache _ _ _ _

theorem decrement : Framed InodeCache.decrement := modify fun _ => Fs.framed_cache _ _ _ _

/-- Only objects without references are deleted. -/
theorem removeLoop (cache : List Nat) : Framed (InodeCache.removeLoop cache) := by
  induction cache with
  | nil => exact .pure
  | cons cur rest ih =>
    refine (remove cur).bind fun _ s => ?_
    refine always_bind.mpr (always_inode fun _ => ?_)
    split
    · rename_i zero
      refine always_bind.mpr (((quietBut_destroy cur s).and (Steady.destroy cur s)).mono ?_)
      rintro _ s₁ ⟨quiet, steady⟩
      have framed : s.Framed s₁ := quiet.framed fun _ _ => .inl ((steady.refcount cur).trans zero)
      exact ((decrement.bind fun _ => ih) s₁).mono fun _ _ rest => trans_of Fs.Framed framed rest
    · exact (decrement.bind fun _ => ih) s

end Framed

theorem Steady.removeLoop (cache : List Nat) : Steady (InodeCache.removeLoop cache) := by
  induction cache with
  | nil => exact .pure
  | cons cur rest ih =>
    refine (Steady.remove _).bind fun _ => Quiet.inode.bind fun i => ?_
    split
    · exact (Steady.destroy _).bind fun _ => Steady.decrement.bind fun _ => ih
    · exact Steady.decrement.bind fun _ => ih

/-- The references that are held stay counted. -/
theorem Fs.Steady.counted {s s' : Fs} {l : List Nat} (steady : s.Steady s') (counted : s.Counted l) :
    s'.Counted l :=
  ⟨steady.wf counted.wf, steady.num.trans counted.num, fun o =>
    (Fs.refs_congr steady.allocated (steady.refcount o)).trans (counted.refs o)⟩

namespace Minix

theorem syncMaps_fixed (map : Nat → Nat) (n : Nat) : ∀ {w : World Fs} {i : Nat},
    Meets disk allowed (syncMaps map n i) (fun _ w' =>
      w'.state = w.state ∧ ∀ b, w.device.Fixed b → w'.device.Fixed b) w := by
  induction n with
  | zero => exact ⟨rfl, fun _ => id⟩
  | succ n ih =>
    intro w i
    simp only [syncMaps, meets_bind, meets_sync]
    refine (ih (w := ⟨w.state, w.device.exec disk (map i) .sync⟩)).mono ?_
    rintro _ w' ⟨state, fixed⟩
    exact ⟨state, fun b held => fixed b (held.exec (by simp))⟩

/-- Every block of the map is released, and none is fixed again. -/
theorem unfixMaps_released (map : Nat → Nat) (n : Nat) : ∀ {w : World Fs} {i : Nat},
    Meets disk allowed (unfixMaps map n i) (fun _ w' => w'.state = w.state ∧
      (∀ j, i ≤ j → j < i + n → (w'.device.blocks (map j)).present = false) ∧
      ∀ b, (w.device.blocks b).present = false → (w'.device.blocks b).present = false) w := by
  induction n with
  | zero => exact ⟨rfl, fun j late early => absurd early (Nat.not_lt.mpr late), fun _ => id⟩
  | succ n ih =>
    intro w i
    simp only [unfixMaps, meets_bind, meets_unfix]
    refine (ih (w := ⟨w.state, w.device.exec disk (map i) .unfix⟩)).mono ?_
    rintro _ w' ⟨state, released, kept⟩
    refine ⟨state, fun j late early => ?_, fun b gone => kept b (Device.released_unfix (map i) gone)⟩
    by_cases here : j = i
    · subst here
      exact kept _ (by simp [Device.exec])
    · exact released j (by omega) (by omega)

end Minix

namespace VFS

variable {w : World Fs}

/-- On the way to the end of a volume, while these references are left. -/
structure Leaving (base : Fs) (l : List Nat) (cwd : Option Nat) (w : World Fs) : Prop where
  volume : base.SameVolume w.state
  counted : w.state.Counted l
  ordered : w.state.Ordered
  noneLost : ¬ w.state.HasLost
  retired : w.state.Retired
  maps : w.device.HoldsMaps base
  files : w.state.fdTable.inodes = []
  cwd : w.state.cwd = cwd

namespace Leaving

variable {base : Fs} {l : List Nat} {cwd : Option Nat}

theorem visits (leaving : Leaving base l cwd w) : InodeCache.Visits base w.state.icache w :=
  have settled := leaving.ordered.settled leaving.noneLost
  ⟨leaving.volume, leaving.maps, settled.nodup, settled.live⟩

theorem run {α : Type} {p : FsM α} {post : α → World Fs → Prop} (leaving : Leaving base l cwd w)
    (returns : Returns disk p (fun a w' => w'.device.HoldsMaps base ∧ post a w') w) (framed : Framed p)
    (orders : p.Always (fun _ s' => s'.Ordered) w.state) (steady : Steady p) :
    Returns disk p (fun a w' => Leaving base l cwd w' ∧ post a w') w := by
  refine (((returns.and_after (framed w.state).after).and_after (steady w.state).after).and_after
    orders.after).mono ?_
  rintro _ w₁ ⟨⟨⟨⟨maps, result⟩, framed⟩, steady⟩, ordered⟩
  refine ⟨⟨trans_of Fs.SameVolume leaving.volume framed.volume, steady.counted leaving.counted, ordered, ?_,
    framed.retired leaving.retired, maps, framed.files.trans leaving.files,
    framed.cwd.trans leaving.cwd⟩, result⟩
  rintro ⟨o, isLost⟩
  exact leaving.noneLost ⟨o, steady.log ▸ isLost⟩

theorem syncFs (leaving : Leaving base l cwd w) :
    Returns disk VFS.syncFs (fun _ w' => Leaving base l cwd w') w := by
  have returns : Returns disk VFS.syncFs (fun _ w' => w'.device.HoldsMaps base ∧ True) w := by
    refine meets_bind.mpr ((InodeCache.syncLoop_returns _ leaving.visits).mono ?_)
    rintro _ w₁ ⟨_, maps⟩
    refine meets_bind.mpr (meets_get.mpr (meets_bind.mpr ((Minix.syncMaps_fixed _ _).mono ?_)))
    rintro _ w₂ ⟨_, fixed⟩
    refine (Minix.syncMaps_fixed _ _).mono ?_
    rintro _ w₃ ⟨_, fixed₂⟩
    exact ⟨maps.mono (refl_of Fs.SameVolume _) fun b held => fixed₂ b (fixed b held), trivial⟩
  refine (leaving.run returns .syncFs ((orders_syncFs w.state).mono fun _ _ orders =>
    orders leaving.ordered) Steady.syncFs).mono ?_
  rintro _ w₁ ⟨leaving, -⟩
  exact leaving

theorem put {o : Nat} (leaving : Leaving base (o :: l) cwd w) :
    Returns disk (Inode.put o) (fun _ w' => Leaving base l cwd w') w := by
  have live := leaving.counted.live leaving.retired leaving.noneLost (.head _)
  have down : Returns disk (Inode.put o) (fun _ w' => w' = ⟨w.state.putDown o, w.device⟩) w :=
    meets_put live rfl
  refine ((down.and_after (Framed.put o w.state).after).and_after (put_orders o w.state).after).mono ?_
  rintro _ _ ⟨⟨rfl, framed⟩, orders⟩
  refine ⟨trans_of Fs.SameVolume leaving.volume framed.volume, leaving.counted.putDown,
    orders leaving.ordered, ?_, framed.retired leaving.retired, leaving.maps,
    framed.files.trans leaving.files, framed.cwd.trans leaving.cwd⟩
  rintro ⟨o', isLost⟩
  exact leaving.noneLost ⟨o', Fs.putDown_log w.state o ▸ isLost⟩

/-- There is no working directory any more. -/
theorem leave (leaving : Leaving base l cwd w) :
    Leaving base l none ⟨{ w.state with cwd := none }, w.device⟩ := by
  have same : w.state.SameCache { w.state with cwd := none } :=
    ⟨rfl, rfl, rfl, fun _ => Iff.rfl, fun _ => ⟨rfl, rfl, rfl⟩⟩
  have volume := leaving.volume
  exact ⟨⟨volume.mounted, volume.super, volume.blocksizeBits, volume.imap, volume.zmap, volume.rootInode, volume.superBlock⟩,
    leaving.counted.congr ⟨leaving.counted.wf.icache, by simp, leaving.counted.wf.root,
      leaving.counted.wf.files⟩ rfl rfl rfl, same.ordered leaving.ordered, leaving.noneLost,
    leaving.retired, leaving.maps, leaving.files, rfl⟩

theorem removeFsInodes (leaving : Leaving base l cwd w) : Returns disk InodeCache.removeFsInodes
    (fun _ w' => Leaving base l cwd w' ∧ w'.state.icache = []) w := by
  refine meets_bind.mpr (meets_get.mpr (leaving.run ?_ (.removeLoop _) ?_ (Steady.removeLoop _)))
  · refine (InodeCache.removeLoop_returns _ leaving.visits rfl).mono ?_
    rintro _ w₁ ⟨_, maps, empty⟩
    exact ⟨maps, empty⟩
  · exact InodeCache.removeLoop_orders _ leaving.ordered (InodeCache.ahead_all leaving.ordered)

end Leaving

/-- What is left after a volume was unmounted. The superblock, from which the numbers of blocks of
the bitmaps were read, was the one that was mounted to the end. -/
structure Unmounted (disk : Disk Errno) (w w' : World Fs) : Prop where
  mounted : w'.state.mounted = false
  cwd : w'.state.cwd = none
  icache : w'.state.icache = []
  imap : ∀ i < w.state.super.imapBlocks, (w'.device.blocks (w.state.imap i)).present = false
  zmap : ∀ i < w.state.super.zmapBlocks, (w'.device.blocks (w.state.zmap i)).present = false
  superBlock : (w'.device.blocks w.state.superBlock).present = false
  super : Minix.readSuper (Minix.superBytes w.state.blocksizeBits
    (w'.device.memory disk w.state.superBlock)) = w.state.super

/-- How `umount` is meant to work. -/
structure UmountWorks (disk : Disk Errno) (w : World Fs) : Prop where
  busy : w.state.fdTable.inodes ≠ [] → umount.run disk w = .ok (.error .ebusy, w)
  done : w.state.fdTable.inodes = [] → ∃ w', umount.run disk w = .ok (.ok (), w') ∧ Unmounted disk w w'

theorem references (intact : Intact disk w) (mounted : w.state.mounted = true) :
    w.state.numInodeReferences = 1 + w.state.cwd.toList.length + w.state.fdTable.inodes.length := by
  rw [intact.attached.counted.num, Fs.holders, if_pos mounted]
  simp only [List.length_append, List.length_cons, List.length_nil]
  omega

theorem umount_busy (mounted : w.state.mounted = true) (three : 2 < w.state.numInodeReferences) :
    umount.run disk w = .ok (.error .ebusy, w) := by
  have busy : Returns disk umount (fun r w' => r = .error .ebusy ∧ w' = w) w := by
    simp only [umount, meets_bind, meets_get, mounted, three, Bool.not_true, Bool.false_eq_true, if_false,
      if_true]
    exact ⟨rfl, rfl⟩
  obtain ⟨r, w', ran, rfl, rfl⟩ := busy.run
  exact ran

/-- Without a working directory it is read all the same, unless there are too many references. -/
theorem umount_faults (mounted : w.state.mounted = true) (noCwd : w.state.cwd = none)
    (few : w.state.numInodeReferences ≤ 2) : After disk umount (fun _ _ => False) w := by
  simp only [umount, meets_bind, meets_get, mounted, noCwd, Nat.not_lt.mpr few, Bool.not_true,
    Bool.false_eq_true, if_false]
  split
  · exact meets_bind.mpr ((always_true syncFs w.state).after.mono fun _ _ _ => meets_fault.mpr trivial)
  · exact meets_fault.mpr trivial

/-- What a volume that is unmounted leaves, but for the superblock. -/
theorem umount_done (intact : Intact disk w) (mounted : w.state.mounted = true) {cwd : Nat}
    (isCwd : w.state.cwd = some cwd) (noFiles : w.state.fdTable.inodes = []) :
    Returns disk umount (fun r w' => r = .ok () ∧ Intact disk w' ∧ w'.state.mounted = false ∧
      (∀ i < w.state.super.imapBlocks, (w'.device.blocks (w.state.imap i)).present = false) ∧
      (∀ i < w.state.super.zmapBlocks, (w'.device.blocks (w.state.zmap i)).present = false) ∧
      (w'.device.blocks w.state.superBlock).present = false) w := by
  have two : w.state.numInodeReferences = 2 := by
    rw [references intact mounted, isCwd, noFiles]
    rfl
  have holders : w.state.holders = [w.state.rootInode, cwd] := by
    simp [Fs.holders, mounted, isCwd, noFiles]
  have leaving : Leaving w.state [cwd, w.state.rootInode] (some cwd) w :=
    ⟨refl_of Fs.SameVolume _, (holders ▸ intact.attached.counted).perm (.swap _ _ _), intact.ordered,
      intact.noneLost, intact.retired, intact.maps mounted, noFiles, isCwd⟩
  simp only [umount, meets_bind, meets_get, mounted, isCwd, two, Nat.lt_irrefl, Bool.not_true,
    Bool.false_eq_true, if_false]
  refine leaving.syncFs.mono fun _ w₁ leaving => ?_
  refine meets_bind.mpr (leaving.put.mono fun _ w₂ leaving => meets_bind.mpr (meets_modify.mpr ?_))
  refine meets_bind.mpr (leaving.leave.put.mono fun _ w₃ leaving => meets_bind.mpr ?_)
  refine leaving.removeFsInodes.mono ?_
  rintro _ w₄ ⟨leaving, empty⟩
  simp only [Minix.umount, meets_bind, meets_get]
  refine (Minix.unfixMaps_released _ _).mono ?_
  rintro _ w₅ ⟨state₅, imap, _⟩
  refine meets_bind.mpr ((Minix.unfixMaps_released _ _).mono ?_)
  rintro _ w₆ ⟨state₆, zmap, kept⟩
  have state : w₆.state = w₄.state := state₆.trans state₅
  have volume := leaving.volume
  rw [volume.superBlock]
  refine meets_unfix.mpr (meets_bind.mpr (meets_modify.mpr (meets_pure.mpr ⟨rfl, ?_, rfl, ?_, ?_, ?_⟩)))
  · have same : w₄.state.SameCache { w₄.state with mounted := false } :=
      ⟨rfl, rfl, rfl, fun _ => Iff.rfl, fun _ => ⟨rfl, rfl, rfl⟩⟩
    have counted : Fs.Counted { w₄.state with mounted := false } [] := leaving.counted.congr
      ⟨leaving.counted.wf.icache, leaving.counted.wf.cwd, by simp, leaving.counted.wf.files⟩ rfl rfl rfl
    rw [state]
    refine ⟨⟨?_, fun _ => ⟨leaving.cwd, leaving.files⟩⟩, same.ordered leaving.ordered, leaving.noneLost,
      leaving.retired, by simp, by simp, by simp, fun _ => empty⟩
    simpa [Fs.holders, leaving.cwd, leaving.files] using counted
  · intro i less
    rw [← volume.super] at less
    rw [← volume.imap]
    exact Device.released_unfix _ (kept _ (imap i (Nat.zero_le i) (by omega)))
  · intro i less
    rw [← volume.super] at less
    rw [← volume.zmap]
    exact Device.released_unfix _ (zmap i (Nat.zero_le i) (by omega))
  · simp [Device.exec]

/-- Nothing is stored in the superblock while the volume is unmounted. -/
theorem umount_works (intact : Intact disk w) (mounted : w.state.mounted = true) {cwd : Nat}
    (isCwd : w.state.cwd = some cwd) (noFiles : w.state.fdTable.inodes = [])
    (avoids : umount.avoids disk w.state.superBlock w = true) :
    ∃ w', umount.run disk w = .ok (.ok (), w') ∧ Unmounted disk w w' := by
  obtain ⟨r, w', ran, rfl, intact', unmounted, imap, zmap, superBlock⟩ :=
    (umount_done intact mounted isCwd noFiles).run
  have kept := (after_avoids umount (intact.superBlock mounted).1 avoids).of_run ran
  refine ⟨w', ran, unmounted, (idle_of_intact intact' unmounted).cwd, intact'.icache unmounted, imap, zmap,
    superBlock, ?_⟩
  rw [kept.2]
  exact intact.synced mounted

/-- Every state of a run is intact. -/
theorem runs_intact {contents : Nat → Bytes} (runs : Runs disk contents w) : Intact disk w := by
  induction runs with
  | start =>
    exact ⟨⟨⟨wf_initial, rfl, fun o => rfl⟩, fun _ => ⟨rfl, rfl⟩⟩, ordered_initial,
      by simp [Fs.HasLost, World.initial, Fs.initial], fun o deleted => by
        simp [World.initial, Fs.initial, Inode.fresh] at deleted, by simp [World.initial, Fs.initial],
      by simp [World.initial, Fs.initial], by simp [World.initial, Fs.initial], fun _ => rfl⟩
  | mount before bits memory mounted clean ih => exact mount_intact ih bits memory mounted clean
  | call before op mounts unmounts result called clean avoids ih =>
    exact call_intact ih op mounts unmounts called clean avoids
  | @umount w w' before unmounted avoids ih =>
    cases mounted : w.state.mounted with
    | false =>
      have refused : After disk VFS.umount (fun r _ => r = .error .einval) w := by
        simp only [VFS.umount, meets_bind, meets_get, mounted, Bool.not_false, if_true]
        exact rfl
      cases refused.of_run unmounted
    | true =>
      by_cases many : 2 < w.state.numInodeReferences
      · rw [umount_busy mounted many] at unmounted
        cases unmounted
      · cases isCwd : w.state.cwd with
        | none => exact ((umount_faults mounted isCwd (Nat.not_lt.mp many)).of_run unmounted).elim
        | some cwd =>
          have noFiles : w.state.fdTable.inodes = [] := by
            have count := references ih mounted
            rw [isCwd] at count
            refine List.length_eq_zero_iff.mp ?_
            simp only [Option.toList_some, List.length_singleton] at count
            omega
          exact ((umount_done ih mounted isCwd noFiles).of_run unmounted).2.1

/-- In every state of a run in which a volume is mounted, `umount` works as it is meant to exactly
if there is a working directory, or at least two files are open. -/
theorem umount_works_iff (disk : Disk Errno) (contents : Nat → Bytes) (w : World Fs)
    (runs : Runs disk contents w) (mounted : w.state.mounted = true)
    (avoids : umount.avoids disk w.state.superBlock w = true) :
    UmountWorks disk w ↔ w.state.cwd ≠ none ∨ 2 ≤ w.state.fdTable.inodes.length := by
  have intact := runs_intact runs
  have count := references intact mounted
  constructor
  · intro works
    by_contra! neither
    obtain ⟨noCwd, few⟩ := neither
    rw [noCwd] at count
    have faults : After disk umount (fun _ _ => False) w :=
      umount_faults mounted noCwd (by simp at count; omega)
    by_cases noFiles : w.state.fdTable.inodes = []
    · obtain ⟨w', done, _⟩ := works.done noFiles
      exact faults.of_run done
    · exact faults.of_run (works.busy noFiles)
  · intro enough
    refine ⟨fun files => umount_busy mounted ?_, fun noFiles => ?_⟩
    · have some := List.length_pos_of_ne_nil files
      cases isCwd : w.state.cwd with
      | none =>
        rw [isCwd] at count
        have two := enough.resolve_left fun ne => ne isCwd
        simp at count
        omega
      | some cwd =>
        rw [isCwd] at count
        simp at count
        omega
    · obtain ⟨cwd, isCwd⟩ := Option.ne_none_iff_exists'.mp (enough.resolve_right (by simp [noFiles]))
      exact umount_works intact mounted isCwd noFiles avoids

/-- Nothing but the loading of inodes was noted. -/
def onlyLoads (s s' : Fs) : Bool := (s.since s').all fun
  | .loaded .. => true
  | _ => false

theorem clean_of_onlyLoads {s s' : Fs} (loads : onlyLoads s s' = true) : s.Clean s' := by
  have all := List.all_eq_true.mp loads
  exact fun o => ⟨fun isLost => Bool.false_ne_true (all _ isLost), fun isReleased =>
    absurd (all _ isReleased) Bool.false_ne_true⟩

/-- Mounts the image and enters the directories one after the other. -/
def mountAndEnter (disk : Disk Errno) (contents : Nat → Bytes) : List PathName → Option (World Fs)
  | [] =>
    match (mount 10 .all).run disk (.initial contents) with
    | .ok (.ok (), w) => if onlyLoads .initial w.state then some w else none
    | _ => none
  | path :: rest =>
    match mountAndEnter disk contents rest with
    | none => none
    | some w =>
      match (Op.chdir path).call.run disk w with
      | .ok (_, w') =>
        if onlyLoads w.state w'.state ∧ (Op.chdir path).call.avoids disk w.state.superBlock w then some w'
        else none
      | .error _ => none

theorem runs_mountAndEnter {contents : Nat → Bytes} (paths : List PathName) : ∀ {w : World Fs},
    mountAndEnter disk contents paths = some w → Runs disk contents w := by
  induction paths with
  | nil =>
    intro w entered
    unfold mountAndEnter at entered
    split at entered
    · rename_i mounted
      split at entered
      · rename_i loads
        obtain rfl := Option.some.inj entered
        exact .mount .start 10 .all mounted (clean_of_onlyLoads loads)
      · cases entered
    · cases entered
  | cons path rest ih =>
    intro w entered
    unfold mountAndEnter at entered
    split at entered
    · cases entered
    rename_i w₀ before
    split at entered
    · rename_i called
      split at entered
      · rename_i loads
        obtain rfl := Option.some.inj entered
        exact .call (ih before) _ (by simp) (by simp) _ called (clean_of_onlyLoads loads.1) fun _ => loads.2
      · cases entered
    · cases entered

open SmallImage

theorem umount_entered_works : ∃ w, Runs ⟨false, neverFails⟩ withFile w ∧
    UmountWorks ⟨false, neverFails⟩ w := by
  have entered : (mountAndEnter ⟨false, neverFails⟩ withFile [[slash]]).any (fun w => w.state.cwd.isSome &&
      (w.state.mounted && umount.avoids ⟨false, neverFails⟩ w.state.superBlock w)) = true := by decide +kernel
  obtain ⟨w, same, checked⟩ := (Option.any_eq_true _ _).mp entered
  obtain ⟨cwd, checked⟩ := Bool.and_eq_true_iff.mp checked
  obtain ⟨mounted, avoids⟩ := Bool.and_eq_true_iff.mp checked
  have runs := runs_mountAndEnter _ same
  exact ⟨w, runs, (umount_works_iff _ _ _ runs mounted avoids).mpr (.inl (Option.isSome_iff_ne_none.mp cwd))⟩

/-- Nobody has called `chdir`, and no file is open. -/
theorem umount_fresh_faults : ∃ w, Runs ⟨false, neverFails⟩ withFile w ∧ w.state.mounted = true ∧
    w.state.fdTable.inodes = [] ∧ ∀ w', umount.run ⟨false, neverFails⟩ w ≠ .ok (.ok (), w') := by
  have checked : (mountAndEnter ⟨false, neverFails⟩ withFile []).any (fun w => w.state.mounted &&
      (w.state.fdTable.inodes.isEmpty && (umount.run ⟨false, neverFails⟩ w).toOption.isNone)) = true := by
    decide +kernel
  obtain ⟨w, same, checked⟩ := (Option.any_eq_true _ _).mp checked
  obtain ⟨mounted, checked⟩ := Bool.and_eq_true_iff.mp checked
  obtain ⟨noFiles, faults⟩ := Bool.and_eq_true_iff.mp checked
  refine ⟨w, runs_mountAndEnter _ same, mounted, List.isEmpty_iff.mp noFiles, fun w' ran => ?_⟩
  rw [ran] at faults
  cases faults

end VFS

end MPStuBS
