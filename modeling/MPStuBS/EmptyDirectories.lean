import MPStuBS.DirectoryReading
import MPStuBS.ProgramParts
import MPStuBS.MountedVolume

/-! Which directories `check_dir_is_empty` takes for empty, and what `rmdir` and `rename` discard. -/
namespace MPStuBS.Minix

open Prog FsM Filesystem

/-- The entry `.` of the directory itself, or one whose name begins like `..`. -/
def PassesForDots (own ino : Nat) (name : List UInt8) : Prop := name = dotName ∧ ino = own ∨ dotDotName <+: name

theorem take_two (bytes : Bytes) (start : Nat) :
    take bytes start 60 = bytes start :: bytes (start + 1) :: take bytes (start + 2) 58 := rfl

/-- What the check tests of an entry. -/
theorem notEmpty_iff (bytes : Bytes) (own k : Nat) : notEmpty bytes own k = true ↔
    direntInode bytes k ≠ 0 ∧ ¬ PassesForDots own (direntInode bytes k) (nameAt bytes k) := by
  unfold notEmpty nameAt PassesForDots
  rw [take_two]
  by_cases live : direntInode bytes k = 0
  · simp [live]
  rw [if_neg live]
  by_cases dot : bytes (64 * k + 4) = 46
  swap
  · rw [if_pos dot]
    by_cases null : bytes (64 * k + 4) = 0
    · simp [live, null, dotName, dotDotName]
    · simp [live, null, dotName, dotDotName, Ne.symm dot, dot]
  rw [if_neg (not_not.mpr dot), List.takeWhile_cons_of_pos (by simp [dot]), dot]
  by_cases null : bytes (64 * k + 5) = 0
  · rw [if_pos null, show 64 * k + 4 + 1 = 64 * k + 5 from rfl, List.takeWhile_cons_of_neg (by simp [null])]
    simp [live, dotName, dotDotName]
  · rw [if_neg null, show 64 * k + 4 + 1 = 64 * k + 5 from rfl, List.takeWhile_cons_of_pos (by simp [null])]
    simp [live, dotName, dotDotName, not_congr (@eq_comm _ 46 (bytes (64 * k + 5)))]

section Checking

variable {disk : Disk Errno} {allowed : FsFault → Prop} {dir : Nat} {w : World Fs}

/-- The inode number and the name of an entry of a directory. -/
def entryIno (w : World Fs) (dir k : Nat) : Nat :=
  direntInode (slotBlock w.device.contents w.state (w.state.inodes dir) k) (slotPlace w.state k)

def entryName (w : World Fs) (dir k : Nat) : List UInt8 :=
  nameAt (slotBlock w.device.contents w.state (w.state.inodes dir) k) (slotPlace w.state k)

/-- The slot has an entry. -/
def IsLive (w : World Fs) (dir k : Nat) : Prop :=
  k < (w.state.inodes dir).size.toNat / 64 ∧ entryIno w dir k ≠ 0

/-- A directory of whole entries. -/
structure IsDirectory (w : World Fs) (dir : Nat) : Prop where
  valid : ValidInode w.state (w.state.inodes dir)
  whole : (w.state.inodes dir).size.toNat % 64 = 0

/-- What the check returns: it stops at an entry that does not pass, or at an error of the device. -/
def Checked (disk : Disk Errno) (w : World Fs) (dir : Nat) : Except Errno Unit → Prop
  | .ok () => ∀ k, IsLive w dir k → PassesForDots (w.state.inodes dir).ino (entryIno w dir k) (entryName w dir k)
  | .error e => (e = .enotempty ∧ ∃ k, IsLive w dir k ∧
      ¬ PassesForDots (w.state.inodes dir).ino (entryIno w dir k) (entryName w dir k)) ∨
      ∃ clock number, disk.fails clock number = some e

theorem checkEmptyLoop_checks (directory : IsDirectory w dir) (n : Nat) :
    ∀ {lblock : Nat} {d₁ : Device}, w.device.Extends d₁ →
      lblock + n = dirNumBlocks w.state (w.state.inodes dir) →
      (∀ k, IsLive w dir k → k < lblock * (w.state.blocksize / 64) →
        PassesForDots (w.state.inodes dir).ino (entryIno w dir k) (entryName w dir k)) →
      Meets disk allowed (checkEmptyLoop dir n lblock)
        (fun r w' => w'.state = w.state ∧ w.device.Extends w'.device ∧ Checked disk w dir r) ⟨w.state, d₁⟩ := by
  have valid := directory.valid
  induction n with
  | zero =>
    intro lblock d₁ device done passed
    refine meets_pure.mpr ⟨rfl, device, fun k live => ?_⟩
    exact passed k live (slot_before_end valid directory.whole live.1 (by omega))
  | succ n ih =>
    intro lblock d₁ device rest passed
    unfold checkEmptyLoop
    refine meets_dirBlock valid directory.whole device (by omega)
      (fun e d failure device => ⟨rfl, device, .inr failure⟩) fun block bytes d reads => ?_
    obtain ⟨_, positive⟩ := slots_per_block valid
    rw [meets_bind, meets_load reads.load, meets_bind, meets_inode (by exact valid.live), meets_bind, meets_unfix,
      Nat.mul_div_cancel_left _ (by omega)]
    have device' : w.device.Extends (d.exec disk block .unfix) := reads.device.unfix reads.late reads.clean
    split
    · rename_i found
      obtain ⟨j, inside, occupied⟩ := List.any_eq_true.mp found
      obtain ⟨live, other⟩ := (notEmpty_iff _ _ _).mp occupied
      have less := List.mem_range.mp inside
      obtain ⟨place, here⟩ := reads.slots j less
      refine meets_pure.mpr ⟨rfl, device', .inl ⟨rfl, lblock * (w.state.blocksize / 64) + j, ⟨?_, ?_⟩, ?_⟩⟩
      · exact slot_lt positive reads.started less
      · rwa [entryIno, place, here]
      · rwa [entryIno, entryName, place, here]
    · rename_i none
      refine ih device' (by omega) fun k live early => ?_
      rcases Nat.lt_or_ge k (lblock * (w.state.blocksize / 64)) with before | late
      · exact passed k live before
      obtain ⟨j, rfl⟩ := Nat.exists_eq_add_of_le late
      have less := Nat.lt_of_add_lt_add_left (lt_slots live.1 early)
      obtain ⟨place, here⟩ := reads.slots j less
      by_contra other
      rw [entryIno, entryName, place, here] at other
      have occupied := live.2
      rw [entryIno, place, here] at occupied
      exact none (List.any_eq_true.mpr ⟨j, List.mem_range.mpr less, (notEmpty_iff _ _ _).mpr ⟨occupied, other⟩⟩)

/-- `check_dir_is_empty` on any device. -/
theorem checkDirIsEmpty_checks (directory : IsDirectory w dir) :
    Meets disk allowed (checkDirIsEmpty dir)
      (fun r w' => w'.state = w.state ∧ w.device.Extends w'.device ∧ Checked disk w dir r) w := by
  unfold checkDirIsEmpty
  rw [meets_bind, meets_get, meets_bind, meets_inode directory.valid.live]
  exact checkEmptyLoop_checks directory _ (.refl _) (Nat.zero_add _) fun k _ early => by simp at early

/-- All entries are `.` of the directory itself and `..`. -/
def OnlyDots (w : World Fs) (dir : Nat) : Prop := ∀ k, IsLive w dir k →
  entryName w dir k = dotName ∧ entryIno w dir k = (w.state.inodes dir).ino ∨ entryName w dir k = dotDotName

/-- No other name begins like `..`, or there is an entry whose name does not. -/
def Told (w : World Fs) (dir : Nat) : Prop :=
  (∀ k, IsLive w dir k → dotDotName <+: entryName w dir k → entryName w dir k = dotDotName) ∨
    ∃ k, IsLive w dir k ∧ ¬ PassesForDots (w.state.inodes dir).ino (entryIno w dir k) (entryName w dir k)

/-- A directory that passes is empty exactly if no name only begins like `..`. -/
theorem passes_told (passes : ∀ k, IsLive w dir k →
    PassesForDots (w.state.inodes dir).ino (entryIno w dir k) (entryName w dir k)) :
    OnlyDots w dir ↔ Told w dir := by
  constructor
  · intro only
    refine .inl fun k live begins => ?_
    rcases only k live with ⟨dot, _⟩ | dots
    · rw [dot] at begins
      exact absurd begins (by decide)
    · exact dots
  · rintro (told | ⟨k, live, other⟩) k' live'
    · exact (passes k' live').imp id (told k' live')
    · exact absurd (passes k live) other

theorem only_dots_passes (only : OnlyDots w dir) (k : Nat) (live : IsLive w dir k) :
    PassesForDots (w.state.inodes dir).ino (entryIno w dir k) (entryName w dir k) :=
  (only k live).imp id fun dots => by
    rw [dots]

/-- The check tells the empty directories from the others exactly if the names let it. -/
theorem checked_iff_told {r : Except Errno Unit} (checked : Checked disk w dir r)
    (working : ∀ clock number e, disk.fails clock number = some e → r ≠ .error e) :
    (r = .ok () ↔ OnlyDots w dir) ↔ Told w dir := by
  cases r with
  | ok _ =>
    have passes : ∀ k, IsLive w dir k →
      PassesForDots (w.state.inodes dir).ino (entryIno w dir k) (entryName w dir k) := checked
    rw [← passes_told passes]
    exact ⟨fun same => same.mp rfl, fun only => ⟨fun _ => only, fun _ => rfl⟩⟩
  | error e =>
    obtain ⟨_, k, live, other⟩ := checked.resolve_right fun ⟨clock, number, failure⟩ =>
      working clock number e failure rfl
    refine ⟨fun _ => .inr ⟨k, live, other⟩, fun _ => ⟨fun returned => (by cases returned), fun only => ?_⟩⟩
    exact absurd (only_dots_passes only k live) other

end Checking

section Discarding

variable {disk : Disk Errno} {w w' : World Fs} {dir : Nat}

/-- What passed the check, and was a directory, was empty exactly if the names told. -/
theorem passed_told {w₁ : World Fs} (passed : (checkDirIsEmpty dir).run disk w = .ok (.ok (), w₁))
    (directory : IsDirectory w dir) : OnlyDots w dir ↔ Told w dir := by
  have checks : After disk (checkDirIsEmpty dir) _ w := checkDirIsEmpty_checks directory
  exact passes_told (checks.of_run passed).2.2

/-- `rmdir` begins with the check. -/
theorem rmdir_checks {parent : Nat} {name : List UInt8}
    (ran : (rmdir parent name dir).run disk w = .ok (.ok (), w')) :
    ∃ w₁, (checkDirIsEmpty dir).run disk w = .ok (.ok (), w₁) := by
  obtain ⟨r, w₁, checked, rest⟩ := run_bind_ok ran
  cases r with
  | error e => cases rest
  | ok _ => exact ⟨w₁, checked⟩

theorem inode_ran {ptr : Nat} {i : Inode} (ran : (inode ptr).run disk w = .ok (i, w')) :
    i = w.state.inodes ptr ∧ w' = w := by
  have reads : After disk (inode ptr) (fun i w' => i = w.state.inodes ptr ∧ w' = w) w := by
    unfold inode
    refine meets_bind.mpr (meets_get.mpr ?_)
    split
    · exact meets_fault.mpr trivial
    · exact meets_pure.mpr ⟨rfl, rfl⟩
  exact reads.of_run ran

theorem findDirent_ran {name : List UInt8} {r : Except Errno (Option (Nat × Nat))}
    (ran : (findDirent dir name).run disk w = .ok (r, w')) : w'.state = w.state :=
  ((gives_findDirent dir name).same w.state).after.of_run ran

/-- `rename` over a directory performs the check on it. -/
theorem rename_checks {oldDir oldInode newDir n : Nat} {oldName newName : List UInt8}
    (ran : (rename oldDir oldInode oldName newDir (some n) newName).run disk w = .ok (.ok (), w'))
    (isDir : Mode.isDir (w.state.inodes n).mode = true) : ∃ w₁ w₂, w₁.state = w.state ∧
      Performs disk (checkDirIsEmpty n) w₁ (.ok ()) w₂
        (rename oldDir oldInode oldName newDir (some n) newName) w := by
  unfold rename at ran ⊢
  split at ran
  · cases ran
  rename_i short
  rw [if_neg short]
  obtain ⟨r, w₁, found, rest⟩ := run_bind_ok ran
  have state₁ := findDirent_ran found
  rcases r with e | (_ | ⟨oldBlock, oldK⟩)
  · cases rest
  · cases rest
  obtain ⟨i, w₂, got, rest⟩ := run_bind_ok rest
  obtain ⟨rfl, rfl⟩ := inode_ran got
  obtain ⟨r, w₃, found', rest⟩ := run_bind_ok rest
  have state₃ := findDirent_ran found'
  rcases r with e | (_ | ⟨newBlock, newK⟩)
  · obtain ⟨_, _, _, rest⟩ := run_bind_ok rest
    obtain ⟨_, _, _, rest⟩ := run_bind_ok rest
    cases rest
  · cases rest
  obtain ⟨i', w₄, got', rest⟩ := run_bind_ok rest
  obtain ⟨rfl, rfl⟩ := inode_ran got'
  have mode : Mode.isDir (w₄.state.inodes n).mode = true := by rwa [state₃, state₁]
  obtain ⟨r, w₅, checked, rest⟩ := run_bind_ok rest
  cases r with
  | error e =>
    obtain ⟨_, _, _, rest⟩ := run_bind_ok rest
    obtain ⟨_, _, _, rest⟩ := run_bind_ok rest
    obtain ⟨_, _, _, rest⟩ := run_bind_ok rest
    obtain ⟨_, _, _, rest⟩ := run_bind_ok rest
    cases rest
  | ok _ =>
    refine ⟨w₄, w₅, state₃.trans state₁, .later found (.later got (.later found' (.later got' (.first ?_))))⟩
    rw [mode] at checked ⊢
    unfold checkReplace at checked ⊢
    split at checked
    · rename_i old
      rw [if_pos old]
      exact .here checked
    · cases checked

end Discarding

end MPStuBS.Minix

namespace MPStuBS.VFS

open Prog FsM

variable {disk : Disk Errno} {w w' : World Fs}

/-- `remove` performs its action if it removes anything. -/
theorem remove_performs {dir : Nat} {name : PathName} {isDir : Bool} {action : Nat → FsM (Except Errno Unit)}
    (ran : (remove dir name isDir action).run disk w = .ok (.ok (), w')) :
    ∃ inode w₁ w₂, Performs disk (action inode) w₁ (.ok ()) w₂ (remove dir name isDir action) w := by
  unfold remove at ran ⊢
  obtain ⟨r, w₁, looked, rest⟩ := run_bind_ok ran
  rcases r with e | (_ | inode)
  · obtain ⟨_, _, _, rest⟩ := run_bind_ok rest
    cases rest
  · obtain ⟨_, _, _, rest⟩ := run_bind_ok rest
    cases rest
  obtain ⟨i, w₂, got, rest⟩ := run_bind_ok rest
  split at rest
  · obtain ⟨_, _, _, rest⟩ := run_bind_ok rest
    obtain ⟨_, _, _, rest⟩ := run_bind_ok rest
    cases rest
  rename_i type
  obtain ⟨result, w₃, acted, rest⟩ := run_bind_ok rest
  obtain ⟨_, _, _, rest⟩ := run_bind_ok rest
  obtain ⟨_, _, _, rest⟩ := run_bind_ok rest
  cases rest
  refine ⟨inode, w₂, w₃, .later looked (.later got ?_)⟩
  rw [if_neg type]
  exact .first (.here acted)

/-- A `rmdir` that returns without an error performs that of the file system. -/
theorem rmdir_performs {path : PathName} (ran : (rmdir path).run disk w = .ok (.ok (), w')) :
    ∃ parent name dir w₁ w₂, Performs disk (Minix.rmdir parent name dir) w₁ (.ok ()) w₂ (rmdir path) w := by
  unfold rmdir at ran ⊢
  obtain ⟨r, w₁, walked, rest⟩ := run_bind_ok ran
  cases r with
  | error e => cases rest
  | ok path =>
    obtain ⟨inode, w₂, w₃, performs⟩ := remove_performs rest
    exact ⟨_, _, inode, w₂, w₃, .later walked performs⟩

theorem leave_ran {oldDir newDir : Nat} {result : Except Errno Unit}
    (ran : (leave oldDir newDir result).run disk w = .ok (.ok (), w')) : result = .ok () := by
  obtain ⟨_, _, _, rest⟩ := run_bind_ok ran
  obtain ⟨_, _, _, rest⟩ := run_bind_ok rest
  cases rest
  rfl

theorem renameIn_performs {oldPath newPath : Path} (ran : (renameIn oldPath newPath).run disk w = .ok (.ok (), w')) :
    ∃ oldDir oldInode oldName newDir newInode newName w₁ w₂,
      Performs disk (renameDistinct oldDir oldInode oldName newDir newInode newName) w₁ (.ok ()) w₂
        (renameIn oldPath newPath) w := by
  unfold renameIn at ran ⊢
  obtain ⟨r, w₁, looked, rest⟩ := run_bind_ok ran
  rcases r with e | (_ | oldInode)
  · cases leave_ran rest
  · cases leave_ran rest
  obtain ⟨i, w₂, got, rest⟩ := run_bind_ok rest
  dsimp only at rest
  split at rest
  · obtain ⟨_, _, _, rest⟩ := run_bind_ok rest
    cases leave_ran rest
  rename_i accepted
  obtain ⟨r, w₃, looked', rest⟩ := run_bind_ok rest
  cases r with
  | error e =>
    obtain ⟨_, _, _, rest⟩ := run_bind_ok rest
    cases leave_ran rest
  | ok newInode =>
    obtain ⟨refusal, w₄, refused, rest⟩ := run_bind_ok rest
    cases refusal with
    | some e =>
      obtain ⟨_, _, _, rest⟩ := run_bind_ok rest
      obtain ⟨_, _, _, rest⟩ := run_bind_ok rest
      cases leave_ran rest
    | none =>
      obtain ⟨result, w₅, renamed, rest⟩ := run_bind_ok rest
      obtain ⟨_, _, _, rest⟩ := run_bind_ok rest
      obtain ⟨_, _, _, rest⟩ := run_bind_ok rest
      obtain rfl := leave_ran rest
      refine ⟨oldPath.curDir, oldInode, component oldPath.pathname, newPath.curDir, newInode,
        component newPath.pathname, w₄, w₅, .later looked (.later got ?_)⟩
      dsimp only
      rw [if_neg accepted]
      exact .later looked' (.later refused (.first (.here renamed)))

/-- A `rename` that returns without an error performs that of the file system, unless both names are
those of one entry. -/
theorem rename_performs {oldpath newpath : PathName} (ran : (rename oldpath newpath).run disk w = .ok (.ok (), w')) :
    ∃ oldDir oldInode oldName newDir newInode newName w₁ w₂,
      Performs disk (renameDistinct oldDir oldInode oldName newDir newInode newName) w₁ (.ok ()) w₂
        (rename oldpath newpath) w := by
  unfold rename at ran ⊢
  obtain ⟨r, w₁, walked, rest⟩ := run_bind_ok ran
  cases r with
  | error e => cases rest
  | ok oldPath =>
    obtain ⟨r, w₂, walked', rest⟩ := run_bind_ok rest
    cases r with
    | error e =>
      obtain ⟨_, _, _, rest⟩ := run_bind_ok rest
      cases rest
    | ok newPath =>
      obtain ⟨oldDir, oldInode, oldName, newDir, newInode, newName, w₃, w₄, performs⟩ := renameIn_performs rest
      exact ⟨_, _, _, _, _, _, w₃, w₄, .later walked (.later walked' performs)⟩

/-- The check tells whether a directory is empty exactly if its names let it, and so it is with what
a `rmdir` or a `rename` over a directory discards. -/
theorem empty_iff_told (disk : Disk Errno) :
    (∀ w dir, Minix.IsDirectory w dir → ∃ r w', (Minix.checkDirIsEmpty dir).run disk w = .ok (r, w') ∧
      ((∀ clock number e, disk.fails clock number = some e → r ≠ .error e) →
        ((r = .ok () ↔ Minix.OnlyDots w dir) ↔ Minix.Told w dir))) ∧
    (∀ w w' path, (rmdir path).run disk w = .ok (.ok (), w') → ∃ parent name dir w₁ w₂,
      Performs disk (Minix.rmdir parent name dir) w₁ (.ok ()) w₂ (rmdir path) w ∧
      (Minix.IsDirectory w₁ dir → (Minix.OnlyDots w₁ dir ↔ Minix.Told w₁ dir))) ∧
    (∀ w w' oldpath newpath, (rename oldpath newpath).run disk w = .ok (.ok (), w') →
      ∃ oldDir oldInode oldName newDir newInode newName w₁ w₂,
        Performs disk (renameDistinct oldDir oldInode oldName newDir newInode newName) w₁ (.ok ()) w₂
          (rename oldpath newpath) w ∧
        ∀ dir, newInode = some dir → Mode.isDir (w₁.state.inodes dir).mode = true →
          (oldDir ≠ newDir ∨ oldName ≠ newName) → ∃ w₃ w₄, w₃.state = w₁.state ∧
            Performs disk (Minix.checkDirIsEmpty dir) w₃ (.ok ()) w₄
              (renameDistinct oldDir oldInode oldName newDir newInode newName) w₁ ∧
            (Minix.IsDirectory w₃ dir → (Minix.OnlyDots w₃ dir ↔ Minix.Told w₃ dir))) := by
  refine ⟨fun w dir directory => ?_, fun w w' path ran => ?_, fun w w' oldpath newpath ran => ?_⟩
  · have checks : Returns disk (Minix.checkDirIsEmpty dir) _ w := Minix.checkDirIsEmpty_checks directory
    obtain ⟨r, w', ran, _, _, checked⟩ := checks.run
    exact ⟨r, w', ran, Minix.checked_iff_told checked⟩
  · obtain ⟨parent, name, dir, w₁, w₂, performs⟩ := rmdir_performs ran
    obtain ⟨w₃, passed⟩ := Minix.rmdir_checks performs.ran
    exact ⟨parent, name, dir, w₁, w₂, performs, Minix.passed_told passed⟩
  · obtain ⟨oldDir, oldInode, oldName, newDir, newInode, newName, w₁, w₂, performs⟩ := rename_performs ran
    refine ⟨oldDir, oldInode, oldName, newDir, newInode, newName, w₁, w₂, performs, ?_⟩
    rintro dir rfl isDir distinct
    have renamed := performs.ran
    unfold renameDistinct at renamed ⊢
    rw [if_pos distinct] at renamed ⊢
    obtain ⟨w₃, w₄, state, checks⟩ := Minix.rename_checks renamed isDir
    exact ⟨w₃, w₄, state, checks, Minix.passed_told checks.ran⟩

section Images

open SmallImage

/-- The name of a file that begins like `..`. -/
def nameDots : List UInt8 := [46, 46, 120]

/-- The root directory holds the entry `..x` besides `.` and `..`. -/
def withDots : Nat → Bytes :=
  image (imap 7) (zmap 3) (record 2 fileMode 1 0 0 (record 1 dirMode 2 192 6 zeroes))
    (Minix.writeDirent rootEntries 2 2 nameDots)

theorem root_directory {contents : Nat → Bytes} {w : World Fs}
    (mounted : (Minix.mount 10 .all).run ⟨true, neverFails⟩ (.initial contents) = .ok (.ok (), w))
    (block : contents 1 = superBlock super) (size : (contents 4).u32 8 = 192) : Minix.IsDirectory w w.state.rootInode := by
  have read : Minix.readSuper (Minix.superBytes 10 (contents 1)) = super := by
    rw [block]
    exact readSuper_small
  have is := Meets.of_run (Minix.mount_mounts 10 .all (fun _ _ => rfl) rfl (Device.holds_new _ _) (Nat.le_refl 10)
    read (Nat.succ_ne_zero 15)) mounted rfl
  have geometry : w.state.geometry = ⟨super, 10⟩ := by rw [Fs.geometry, is.super, is.blocksizeBits]
  have root := is.root
  rw [geometry] at root
  have whole : (w.state.inodes w.state.rootInode).size = 192 := by
    rw [root]
    exact congrArg Int.ofNat size
  refine ⟨⟨by rw [root]; rfl, by rw [is.blocksizeBits]; decide, by rw [whole]; decide, ?_⟩, by rw [whole]; rfl⟩
  rw [whole, Fs.blocksize, Fs.indirCount, is.blocksizeBits]
  decide

theorem returned_ok {r : Except Errno Unit} (returned : r.toOption.isSome = true) : r = .ok () := by
  cases r with
  | error e => cases returned
  | ok _ => rfl

theorem empty_iff_told_small :
    (∃ w r w', (Minix.checkDirIsEmpty w.state.rootInode).run ⟨true, neverFails⟩ w = .ok (r, w') ∧
      ((∀ clock number e, neverFails clock number = some e → r ≠ .error e) →
        ((r = .ok () ↔ Minix.OnlyDots w w.state.rootInode) ↔ Minix.Told w w.state.rootInode))) ∧
    (∃ w parent name dir w₁ w₂,
      Performs ⟨true, neverFails⟩ (Minix.rmdir parent name dir) w₁ (.ok ()) w₂ (rmdir nameG) w ∧
      (Minix.IsDirectory w₁ dir → (Minix.OnlyDots w₁ dir ↔ Minix.Told w₁ dir))) := by
  obtain ⟨checks, removes, _⟩ := empty_iff_told ⟨true, neverFails⟩
  constructor
  · obtain ⟨r, w, mounted, returned⟩ := ran_of_any ⟨true, neverFails⟩ (Minix.mount 10 .all) (.initial withFile)
      (fun r _ => r.toOption.isSome) (by decide +kernel)
    obtain rfl := returned_ok returned
    obtain ⟨r, w', checked⟩ := checks w _ (root_directory mounted rfl (by decide))
    exact ⟨w, r, w', checked⟩
  · obtain ⟨_, w, _, removed⟩ := ran_of_any ⟨true, neverFails⟩ (calls [.mount 10 .all, .mkdir nameG])
      (.initial withFile) (fun _ w => ((rmdir nameG).run ⟨true, neverFails⟩ w).toOption.any fun r =>
        r.1.toOption.isSome) (by decide +kernel)
    obtain ⟨r, w', ran, returned⟩ := ran_of_any _ _ _ (fun r _ => (Except.toOption r).isSome) removed
    obtain rfl := returned_ok returned
    obtain ⟨parent, name, dir, w₁, w₂, discarded⟩ := removes w w' nameG ran
    exact ⟨w, parent, name, dir, w₁, w₂, discarded⟩

/-- A directory with the entry `..x` passes for empty. -/
theorem dots_file_passes : ∃ w w', Minix.IsDirectory w w.state.rootInode ∧
    (Minix.IsLive w w.state.rootInode 0 ∧ Minix.entryName w w.state.rootInode 0 = Minix.dotName ∧
      Minix.entryIno w w.state.rootInode 0 = (w.state.inodes w.state.rootInode).ino) ∧
    (Minix.IsLive w w.state.rootInode 1 ∧ Minix.entryName w w.state.rootInode 1 = Minix.dotDotName) ∧
    (Minix.IsLive w w.state.rootInode 2 ∧ Minix.entryName w w.state.rootInode 2 = nameDots) ∧
    (Minix.checkDirIsEmpty w.state.rootInode).run ⟨true, neverFails⟩ w = .ok (.ok (), w') := by
  obtain ⟨r, w, mounted, checked⟩ := ran_of_any ⟨true, neverFails⟩ (Minix.mount 10 .all) (.initial withDots)
    (fun r w => r.toOption.isSome && ((w.state.inodes w.state.rootInode).size == 192) &&
      ((w.state.inodes w.state.rootInode).ino == 1) &&
      ((List.range 3).map fun k => (Minix.entryIno w w.state.rootInode k, Minix.entryName w w.state.rootInode k)) ==
        [(1, Minix.dotName), (1, Minix.dotDotName), (2, nameDots)] &&
      ((Minix.checkDirIsEmpty w.state.rootInode).run ⟨true, neverFails⟩ w).toOption.any fun r => r.1.toOption.isSome)
    (by decide +kernel)
  simp only [Bool.and_eq_true, beq_iff_eq] at checked
  obtain ⟨⟨⟨⟨returned, size⟩, ino⟩, entries⟩, passed⟩ := checked
  obtain rfl := returned_ok returned
  obtain ⟨r, w', ran, returned⟩ := ran_of_any _ _ _ (fun r _ => (Except.toOption r).isSome) passed
  obtain rfl := returned_ok returned
  simp only [List.range_succ, List.range_zero, List.nil_append, List.map_cons, List.map_nil, List.cons_append,
    List.cons.injEq, Prod.mk.injEq, and_true] at entries
  obtain ⟨⟨ino₀, name₀⟩, ⟨ino₁, name₁⟩, ino₂, name₂⟩ := entries
  have live : ∀ k < 3, Minix.entryIno w w.state.rootInode k ≠ 0 → Minix.IsLive w w.state.rootInode k :=
    fun k less nonzero => ⟨by rw [size]; exact less, nonzero⟩
  refine ⟨w, w', root_directory mounted rfl (by decide), ⟨live 0 (by decide) (by rw [ino₀]; decide), name₀, ?_⟩,
    ⟨live 1 (by decide) (by rw [ino₁]; decide), name₁⟩, ⟨live 2 (by decide) (by rw [ino₂]; decide), name₂⟩, ran⟩
  rw [ino₀, ino]

end Images

end MPStuBS.VFS
