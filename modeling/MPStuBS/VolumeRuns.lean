import MPStuBS.VolumeMounts

/-! Runs of mounts, unmounts and all other calls, and what holds in every state of a run whose steps
lose no reference and change no superblock. -/
namespace MPStuBS

open Prog FsM

namespace VFS

/-- The worlds that are reached from the start by calls, of which each mount and unmount succeeds.
At every step each inode can be read, `rename` gives back no reference that somebody else holds, and
nothing is stored in the superblock of the volume that is mounted. -/
inductive Runs (disk : Disk Errno) (contents : Nat → Bytes) : World Fs → Prop
  | start : Runs disk contents (.initial contents)
  | mount {w w' : World Fs} (before : Runs disk contents w) (bits : Nat) (memory : Minix.Allocations)
      (mounted : (VFS.mount bits memory).run disk w = .ok (.ok (), w')) (clean : w.state.Clean w'.state) :
      Runs disk contents w'
  | call {w w' : World Fs} (before : Runs disk contents w) (op : Op)
      (mounts : ∀ bits memory, op ≠ .mount bits memory) (unmounts : op ≠ .umount) (result : Result)
      (called : op.call.run disk w = .ok (result, w')) (clean : w.state.Clean w'.state)
      (avoids : w.state.mounted = true → op.call.avoids disk w.state.superBlock w = true) :
      Runs disk contents w'
  | umount {w w' : World Fs} (before : Runs disk contents w)
      (unmounted : VFS.umount.run disk w = .ok (.ok (), w'))
      (avoids : VFS.umount.avoids disk w.state.superBlock w = true) : Runs disk contents w'

end VFS

/-- What holds in every state of such a run. -/
structure Intact (disk : Disk Errno) (w : World Fs) : Prop where
  attached : w.state.Attached
  ordered : w.state.Ordered
  noneLost : ¬ w.state.HasLost
  retired : w.state.Retired
  maps : w.state.mounted = true → w.device.HoldsMaps w.state
  superBlock : w.state.mounted = true → w.device.Fixed w.state.superBlock
  synced : w.state.mounted = true → Synced disk w
  icache : w.state.mounted = false → w.state.icache = []

namespace VFS

variable {disk : Disk Errno} {w w' : World Fs}

/-- While no volume is mounted, there is nothing that a call could find. -/
structure Idle (s : Fs) : Prop where
  mounted : s.mounted = false
  cwd : s.cwd = none
  files : s.fdTable.inodes = []

theorem pathwalkStep12_idle {s : Fs} (idle : Idle s) (pathname : PathName) :
    (pathwalkStep12 pathname).Always (fun r s' => s' = s ∧ r = .error .enodev) s := by
  simp [pathwalkStep12, pathwalkStep12With, pathwalkStep1, always_get, idle.mounted]

theorem pathwalkStep123_idle {s : Fs} (idle : Idle s) (pathname : PathName) (followFinalSymlink : Bool) :
    (pathwalkStep123 pathname followFinalSymlink).Always (fun r s' => s' = s ∧ r = .error .enodev) s := by
  simp [pathwalkStep123, pathwalkStep123With, pathwalkStep12With, pathwalkStep1, always_get, idle.mounted]

theorem getFile_idle {s : Fs} (idle : Idle s) (fd : Int) :
    (FsM.getFile fd).Always (fun r s' => s' = s ∧ r = none) s :=
  ⟨rfl, FdTable.getFile_of_empty idle.files fd⟩

/-- A program that begins with a part that fails does no more. -/
theorem always_stopped {α β : Type} {p : FsM α} {f : α → FsM β} {s : Fs} {a : α}
    (stops : p.Always (fun r s' => s' = s ∧ r = a) s) (rest : (f a).Always (fun _ s' => s' = s) s) :
    (p >>= f).Always (fun _ s' => s' = s) s := by
  refine always_bind.mpr (stops.mono ?_)
  rintro _ _ ⟨rfl, rfl⟩
  exact rest

/-- Without a volume a call changes nothing. -/
theorem call_idle {s : Fs} (idle : Idle s) (op : Op) (mounts : ∀ bits memory, op ≠ .mount bits memory)
    (unmounts : op ≠ .umount) : op.call.Always (fun _ s' => s' = s) s := by
  have returning : ∀ {α : Type} {f : α → Value} {p : FsM (Except Errno α)},
      p.Always (fun _ s' => s' = s) s → (returning f p).Always (fun _ s' => s' = s) s := fun same =>
    always_bind.mpr (same.mono fun _ _ same => same)
  have walk := pathwalkStep12_idle idle
  have walks := pathwalkStep123_idle idle
  have closed := getFile_idle idle
  cases op with
  | mount bits memory => exact absurd rfl (mounts bits memory)
  | umount => exact absurd rfl unmounts
  | sync => simp [Op.call, VFS.sync, always_get, idle.mounted]
  | «open» pathname flags =>
    refine returning ?_
    simp only [VFS.open, always_bind, always_get, idle.mounted]
    exact rfl
  | close fd =>
    refine returning ?_
    simp only [VFS.close, always_bind, always_get]
    split
    · split
      · trivial
      · exact rfl
    · simp [FdTable.removeFile, FdTable.getFile_of_empty idle.files]
  | read fd count =>
    refine returning ?_
    unfold VFS.read
    split
    · exact rfl
    · exact always_stopped (closed fd) rfl
  | write fd buf =>
    refine returning ?_
    unfold VFS.write
    split
    · exact rfl
    · exact always_stopped (closed fd) rfl
  | lseek fd offset whence => exact returning (always_stopped (closed fd) rfl)
  | stat pathname => exact returning (always_stopped (walks pathname true) rfl)
  | lstat pathname => exact returning (always_stopped (walks pathname false) rfl)
  | fstat fd => exact returning (always_stopped (closed fd) rfl)
  | getdents fd count =>
    refine returning ?_
    unfold VFS.getdents
    split
    · exact rfl
    · exact always_stopped (closed fd) rfl
  | mkdir pathname =>
    refine returning ?_
    simp only [VFS.mkdir, always_bind, always_get, idle.mounted]
    exact rfl
  | chdir path => exact returning (always_stopped (walks path true) rfl)
  | fchdir fd => exact returning (always_stopped (closed fd) rfl)
  | truncate path length => exact returning (always_stopped (walks path true) rfl)
  | ftruncate fd length => exact returning (always_stopped (closed fd) rfl)
  | readlink pathname bufsiz =>
    refine returning ?_
    unfold VFS.readlink
    split
    · exact rfl
    · exact always_stopped (walks pathname false) rfl
  | link oldpath newpath => exact returning (always_stopped (walks oldpath false) rfl)
  | symlink target linkpath => exact returning (always_stopped (walk linkpath) rfl)
  | unlink pathname => exact returning (always_stopped (walk pathname) rfl)
  | rmdir pathname => exact returning (always_stopped (walk pathname) rfl)
  | rename oldpath newpath => exact returning (always_stopped (walk oldpath) rfl)

theorem idle_of_intact (intact : Intact disk w) (unmounted : w.state.mounted = false) : Idle w.state :=
  have ⟨cwd, files⟩ := intact.attached.unmounted unmounted
  ⟨unmounted, cwd, files⟩

theorem call_intact (intact : Intact disk w) (op : Op)
    (mounts : ∀ bits memory, op ≠ .mount bits memory) (unmounts : op ≠ .umount) {result : Result}
    (called : op.call.run disk w = .ok (result, w')) (clean : w.state.Clean w'.state)
    (avoids : w.state.mounted = true → op.call.avoids disk w.state.superBlock w = true) :
    Intact disk w' := by
  have spare := lastingCalls_spare (fun _ => True) w.device.next
  have stays := lastingCalls_stays
  have orders := lastingCalls_orders
  have stays : w.state.Stays w'.state :=
    ((Made.lastingCall (K := fun _ p => Keeps Fs.Stays p) op mounts unmounts) w.state).after.of_run called
  have ordered : w.state.Orders w'.state :=
    ((Made.lastingCall (K := fun _ p => Orders p) op mounts unmounts) w.state).after.of_run called
  have spared : Spare (fun _ => True) w.device.next op.call :=
    Made.lastingCall (K := fun _ p => Spare (fun _ => True) w.device.next p) op mounts unmounts
  have fixed := spared.fixed.of_run called
  have mounted := stays.volume.mounted
  refine ⟨(call_attached intact.attached op mounts unmounts).after.of_run called clean,
    ordered intact.ordered, clean.noneLost stays.log intact.noneLost, stays.retired intact.retired,
    fun is => ?_, fun is => ?_, fun is => ?_, fun is => ?_⟩
  · rw [mounted] at is
    exact (intact.maps is).mono stays.volume fixed
  · rw [mounted] at is
    rw [stays.volume.superBlock]
    exact fixed _ (intact.superBlock is)
  · rw [mounted] at is
    have kept := (after_avoids op.call (intact.superBlock is).1 (avoids is)).of_run called
    have synced := intact.synced is
    unfold Synced at synced ⊢
    rw [stays.volume.super, stays.volume.superBlock, stays.volume.blocksizeBits, kept.2]
    exact synced
  · rw [mounted] at is
    have same := (call_idle (idle_of_intact intact is) op mounts unmounts).after.of_run called
    rw [same]
    exact intact.icache is

theorem mount_intact (intact : Intact disk w) (bits : Nat) (memory : Minix.Allocations)
    (mounted : (mount bits memory).run disk w = .ok (.ok (), w')) (clean : w.state.Clean w'.state) :
    Intact disk w' := by
  have unmounted : w.state.mounted = false := by
    cases is : w.state.mounted with
    | false => rfl
    | true =>
      have refused : After disk (mount bits memory) (fun r _ => r = .error .enosys) w := by
        simp only [mount, meets_bind, meets_get, is, if_true]
        exact rfl
      cases refused.of_run mounted
  obtain ⟨cwd, files⟩ := intact.attached.unmounted unmounted
  have empty := intact.icache unmounted
  have holders : w.state.holders = [] := by simp [Fs.holders, unmounted, cwd, files]
  have bare : Minix.Bare w.state [] w.state :=
    ⟨holders ▸ intact.attached.counted, intact.retired, List.prefix_rfl, rfl, rfl, rfl⟩
  have after : After disk (mount bits memory) (fun r w' => r = .ok () → w.state.Clean w'.state →
      Intact disk w') w := by
    unfold mount
    simp only [meets_bind, meets_get, unmounted, Bool.false_eq_true, if_false]
    split
    · exact fun h => by cases h
    refine meets_bind.mpr ((((Minix.mount_bare bits memory bare).after.and
      (Minix.mount_synced bits memory empty)).and (Minix.orders_mount bits memory w.state).after).mono ?_)
    rintro r w₁ ⟨⟨bare, holds⟩, ordered⟩
    cases r with
    | error e => exact fun h => by cases h
    | ok _ =>
      obtain ⟨holds, fixed, synced⟩ := holds rfl
      intro _ clean
      have clean : w.state.Clean w₁.state := clean
      have bare := bare rfl clean
      have noneLost := clean.noneLost bare.log intact.noneLost
      have same : Fs.SameCache w₁.state { w₁.state with mounted := true } :=
        ⟨rfl, rfl, rfl, fun _ => Iff.rfl, fun _ => ⟨rfl, rfl, rfl⟩⟩
      refine ⟨⟨?_, by simp⟩, same.ordered (ordered intact.ordered), noneLost, bare.retired,
        fun _ => ⟨holds.1.imap, holds.1.zmap⟩, fun _ => fixed, fun _ => synced, by simp⟩
      have counted : Fs.Counted { w₁.state with mounted := true } [w₁.state.rootInode] := bare.counted.congr
        ⟨bare.counted.wf.icache, bare.counted.wf.cwd, fun _ => bare.counted.early (.head _),
          bare.counted.wf.files⟩ rfl rfl rfl
      have noCwd : w₁.state.cwd = none := bare.cwd.trans cwd
      have noFiles : w₁.state.fdTable.inodes = [] := bare.files.trans files
      simpa [Fs.holders, noCwd, noFiles] using counted
  exact after.of_run mounted rfl clean

end VFS

end MPStuBS
