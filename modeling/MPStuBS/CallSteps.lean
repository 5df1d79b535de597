import MPStuBS.OperationWalks
import MPStuBS.ReferenceRuns

/-! What the calls of the VFS are made of. What holds of these parts and is kept when programs are
put together holds of every call and of every run of calls. -/
namespace MPStuBS

open Prog FsM

/-- The program has the property. -/
def Made (K : (α : Type) → FsM α → Prop) {α : Type} (p : FsM α) : Prop := K α p

/-- A property of programs that sequencing keeps, and that the parts have which all calls but
`mount` and `umount` consist of. -/
class Calls (K : (α : Type) → FsM α → Prop) : Prop where
  pure : ∀ {α : Type} (a : α), Made K (Pure.pure a : FsM α)
  bind : ∀ {α β : Type} {p : FsM α} {f : α → FsM β}, Made K p → (∀ a, Made K (f a)) → Made K (p >>= f)
  fault : ∀ {α : Type} (f : FsFault), Made K (FsM.fault f : FsM α)
  state : Made K FsM.get
  inode : ∀ o, Made K (FsM.inode o)
  setSize : ∀ o (size : Int), Made K (FsM.setInode o fun i => { i with size := size })
  setDirty : ∀ o, Made K (FsM.setInode o .setDirty)
  get : ∀ o, Made K (Inode.get o)
  put : ∀ o, Made K (Inode.put o)
  lookup : ∀ dir name, Made K (Minix.lookup dir name)
  mkdir : ∀ dir name mode, Made K (Minix.mkdir dir name mode)
  create : ∀ dir name mode, Made K (Minix.create dir name mode)
  symlink : ∀ dir name symname, Made K (Minix.symlink dir name symname)
  link : ∀ dir name inode, Made K (Minix.link dir name inode)
  unlink : ∀ dir name inode, Made K (Minix.unlink dir name inode)
  rmdir : ∀ dir name inode, Made K (Minix.rmdir dir name inode)
  rename : ∀ oldDir oldInode oldName newDir newInode newName,
    Made K (Minix.rename oldDir oldInode oldName newDir newInode newName)
  iterateDir : ∀ dir ctx, Made K (Minix.iterateDir dir ctx)
  truncate : ∀ inode length, Made K (Minix.truncate inode length)
  read : ∀ inode count pos, Made K (Filesystem.read inode count pos)
  write : ∀ inode buf pos, Made K (Filesystem.write inode buf pos)
  punchHole : ∀ inode start stop, Made K (Filesystem.punchHole inode start stop)
  getLink : ∀ inode, Made K (Filesystem.getLink inode)
  setPos : ∀ file pos, Made K (FsM.setPos file pos)
  syncFs : Made K VFS.syncFs

/-- The parts that only some calls have: `open`, `close`, `chdir` and `fchdir`. -/
class LastingCalls (K : (α : Type) → FsM α → Prop) : Prop extends Calls K where
  files : ∀ t, Made K (FsM.modify fun s => { s with fdTable := t })
  enter : ∀ o, Made K (FsM.modify fun s => { s with cwd := some o })

/-- The steps that the parts consist of keep the relation. -/
structure Respected (R : Fs → Fs → Prop) : Prop where
  quiet : ∀ {s s' : Fs}, s.Quiet s' → R s s'
  get : ∀ o, Keeps R (Inode.get o)
  put : ∀ o, Keeps R (Inode.put o)
  iget : ∀ ino, Keeps R (Minix.iget ino)
  newInode : ∀ mode, Keeps R (Minix.newInode mode)
  released : ∀ (s : Fs) o, R s (s.note (.released o))

/-- What has the steps has the parts of the calls. -/
theorem Counts.calls {K : FsM.Property} [Counts K] (endless : K.stops .endless)
    (setPos : ∀ file pos, Has K (FsM.setPos file pos)) (syncFs : Has K VFS.syncFs) : Calls fun _ p => Has K p where
  pure _ := Gives.pure trivial
  bind := Has.bind
  fault f := by
    by_cases loops : f = .endless
    · exact Looks.fault (loops ▸ endless)
    · exact Has.fault loops
  state := Has.get
  inode _ := Has.inode
  setSize _ _ := Has.setSize
  setDirty _ := Has.setDirty
  get _ := Counts.take
  put _ := Counts.put
  lookup := Minix.has_lookup
  mkdir := Minix.has_mkdir endless
  create := Minix.has_create endless
  symlink := Minix.has_symlink endless
  link := Minix.has_link endless
  unlink := Minix.has_unlink
  rmdir := Minix.has_rmdir
  rename := Minix.has_rename endless
  iterateDir := Minix.has_iterateDir
  truncate := Minix.has_truncate
  read := Filesystem.has_read endless
  write := Filesystem.has_write endless
  punchHole := Filesystem.has_punchHole endless
  getLink := Filesystem.has_getLink endless
  setPos := setPos
  syncFs := syncFs

namespace Respected

variable {R : Fs → Fs → Prop} (respected : Respected R)
include respected

variable [IsPreorder Fs R]

theorem counts : Counts (Keeping R) where
  toFills := fills_keeping respected.quiet
  take := .of_keeps (respected.get _)
  put := .of_keeps (respected.put _)
  iget := .of_keeps (respected.iget _)
  newInode := .of_keeps (respected.newInode _)
  released s := ⟨respected.released s _, trivial⟩

/-- The parts keep the relation. -/
theorem calls (setPos : ∀ file pos, Keeps R (FsM.setPos file pos)) (syncFs : Keeps R VFS.syncFs) :
    Calls fun _ p => Keeps R p := by
  have counts := respected.counts
  have same : (fun _ p => Has (Keeping R) p : (α : Type) → FsM α → Prop) = fun _ p => Keeps R p :=
    funext fun _ => funext fun _ => propext ⟨Gives.keeps, Has.of_keeps⟩
  exact same ▸ Counts.calls trivial (fun file pos => .of_keeps (setPos file pos)) (.of_keeps syncFs)

end Respected

namespace Made

variable {K : (α : Type) → FsM α → Prop}

theorem ite {α : Type} {c : Prop} [Decidable c] {p q : FsM α} (fst : Made K p) (snd : Made K q) :
    Made K (if c then p else q) := by
  split
  · exact fst
  · exact snd

section Temporary

variable [Calls K]

theorem pure {α : Type} {a : α} : Made K (Pure.pure a : FsM α) := Calls.pure a

theorem bind {α β : Type} {p : FsM α} {f : α → FsM β} (fst : Made K p) (snd : ∀ a, Made K (f a)) :
    Made K (p >>= f) := Calls.bind fst snd

theorem returning {α : Type} {f : α → VFS.Value} {p : FsM (Except Errno α)} (made : Made K p) :
    Made K (VFS.returning f p) := made.bind fun _ => .pure

theorem putThen {α : Type} {o : Nat} {k : Unit → FsM α} (next : Made K (k ())) :
    Made K (Inode.put o >>= k) := (Calls.put o).bind fun _ => next

section Walk

theorem pathwalkStep1 (pathname : VFS.PathName) (cwd : Option Nat) :
    Made K (VFS.pathwalkStep1 pathname cwd) := by
  refine Calls.state.bind fun s => .ite .pure ?_
  cases pathname with
  | nil => exact .pure
  | cons c rest => exact (Calls.get _).bind fun _ => .pure

variable {resolve : Nat → Nat → FsM (Except Errno Nat)}
  (resolves : ∀ inode curDir, Made K (resolve inode curDir))
include resolves

theorem follow (inode curDir : Nat) (isLnk : Bool) : Made K (VFS.follow resolve inode curDir isLnk) :=
  .ite ((resolves _ _).bind fun _ => Made.putThen .pure) .pure

theorem pathwalkStep2 (fuel : Nat) : ∀ path, Made K (VFS.pathwalkStep2 resolve fuel path) := by
  induction fuel with
  | zero => exact fun _ => Calls.fault _
  | succ fuel ih =>
    intro path
    refine .ite .pure (.ite .pure (.ite (ih _) (Calls.state.bind fun s => .ite (ih _)
      ((Calls.lookup _ _).bind fun r => ?_))))
    match r with
    | .error e => exact Made.putThen .pure
    | .ok none => exact Made.putThen .pure
    | .ok (some inode) =>
      refine (Calls.inode _).bind fun i => (Made.follow resolves _ _ _).bind
        fun target => Made.putThen ?_
      cases target with
      | error e => exact .pure
      | ok inode => exact (Calls.inode _).bind fun i => .ite (ih _) (Made.putThen .pure)

theorem pathwalkStep3 (path : VFS.Path) (followSymlink : Bool) :
    Made K (VFS.pathwalkStep3 resolve path followSymlink) := by
  refine .ite .pure ((Calls.lookup _ _).bind fun r => ?_)
  match r with
  | .error e => exact Made.putThen .pure
  | .ok none => exact Made.putThen .pure
  | .ok (some inode) =>
    refine (Calls.inode _).bind fun i => (Made.follow resolves _ _ _).bind
      fun target => Made.putThen ?_
    cases target with
    | error e => exact .pure
    | ok inode => exact (Calls.inode _).bind fun i => .ite (Made.putThen .pure) .pure

theorem pathwalkStep12With (pathname : VFS.PathName) (cwd : Option Nat) :
    Made K (VFS.pathwalkStep12With resolve pathname cwd) :=
  (Made.pathwalkStep1 _ _).bind fun
    | .error _ => .pure
    | .ok path => Made.pathwalkStep2 resolves _ path

theorem pathwalkStep123With (pathname : VFS.PathName) (cwd : Option Nat) (followFinal : Bool) :
    Made K (VFS.pathwalkStep123With resolve pathname cwd followFinal) :=
  (Made.pathwalkStep12With resolves _ _).bind fun
    | .error _ => .pure
    | .ok path => Made.pathwalkStep3 resolves path followFinal

end Walk

theorem resolveSymlink (depth : Nat) :
    ∀ symlink curDir, Made K (VFS.resolveSymlink depth symlink curDir) := by
  induction depth with
  | zero => exact fun _ _ => .pure
  | succ depth ih =>
    exact fun symlink _ => (Calls.getLink symlink).bind fun
      | .error _ => .pure
      | .ok _ => Made.pathwalkStep123With ih _ _ true

theorem pathwalkStep12 (pathname : VFS.PathName) : Made K (VFS.pathwalkStep12 pathname) :=
  Calls.state.bind fun _ => Made.pathwalkStep12With (Made.resolveSymlink _) _ _

theorem pathwalkStep123 (pathname : VFS.PathName) (followFinal : Bool) :
    Made K (VFS.pathwalkStep123 pathname followFinal) :=
  Calls.state.bind fun _ =>
    Made.pathwalkStep123With (Made.resolveSymlink _) _ _ _

/-- A call that resolves its path first. -/
theorem resolved {α : Type} {pathname : VFS.PathName} {followFinal : Bool}
    {k : Nat → FsM (Except Errno α)} (rest : ∀ inode, Made K (k inode)) : Made K (do
      match ← VFS.pathwalkStep123 pathname followFinal with
      | .error e => Pure.pure (.error e)
      | .ok inode => k inode) :=
  (Made.pathwalkStep123 _ _).bind fun
    | .error _ => .pure
    | .ok inode => rest inode

/-- A call that resolves its path up to the last component first. -/
theorem parted {α : Type} {pathname : VFS.PathName} {k : VFS.Path → FsM (Except Errno α)}
    (rest : ∀ path, Made K (k path)) : Made K (do
      match ← VFS.pathwalkStep12 pathname with
      | .error e => Pure.pure (.error e)
      | .ok path => k path) :=
  (Made.pathwalkStep12 _).bind fun
    | .error _ => .pure
    | .ok path => rest path

/-- A call that looks its descriptor up first. -/
theorem ofFile {α : Type} {fd : Int} {k : File → FsM (Except Errno α)}
    (rest : ∀ file, Made K (k file)) : Made K (do
      match ← FsM.getFile fd with
      | none => Pure.pure (.error .ebadf)
      | some file => k file) := by
  have looked : Made K (FsM.getFile fd) := Calls.state.bind fun _ => .pure
  exact looked.bind fun
    | none => .pure
    | some file => rest file

theorem read (fd : Int) (count : Nat) : Made K (VFS.read fd count) :=
  .ite .pure (Made.ofFile fun _ => .ite .pure ((Calls.inode _).bind fun _ =>
    .ite .pure ((Calls.read _ _ _).bind fun
      | .error _ => .pure
      | .ok _ => (Calls.setPos _ _).bind fun _ => .pure)))

theorem writeFile (file : File) (buf : List UInt8) (originalSize : Int) :
    Made K (VFS.writeFile file buf originalSize) :=
  (Calls.write _ _ _).bind fun
    | .error _ => (Calls.truncate _ _).bind fun _ => .pure
    | .ok _ => (Calls.setPos _ _).bind fun _ => (Calls.inode _).bind fun _ =>
        .ite ((Calls.setSize _ _).bind fun _ => (Calls.setDirty _).bind
          fun _ => .pure) .pure

theorem write (fd : Int) (buf : List UInt8) : Made K (VFS.write fd buf) :=
  .ite .pure (Made.ofFile fun _ => .ite .pure ((Calls.inode _).bind fun _ =>
    .ite .pure (.ite ((Calls.punchHole _ _ _).bind fun
      | .error _ => (Calls.truncate _ _).bind fun _ => .pure
      | .ok () => Made.writeFile _ _ _) (Made.writeFile _ _ _))))

theorem lseek (fd : Int) (offset : Int) (whence : VFS.Whence) : Made K (VFS.lseek fd offset whence) := by
  refine Made.ofFile fun file => (Calls.inode _).bind fun i => ?_
  cases whence with
  | set => exact (Calls.setPos _ _).bind fun _ => .pure
  | cur => exact (Calls.setPos _ _).bind fun _ => .pure
  | «end» => exact (Calls.setPos _ _).bind fun _ => .pure
  | other => exact .pure

theorem statInode (inode : Nat) : Made K (VFS.statInode inode) :=
  Calls.state.bind fun _ => (Calls.inode _).bind fun _ => .pure

theorem getdents (fd : Int) (count : Int) : Made K (VFS.getdents fd count) := by
  refine .ite .pure (Made.ofFile fun file => (Calls.inode _).bind fun i =>
    .ite .pure (.ite .pure ((Calls.iterateDir _ _).bind fun r => ?_)))
  cases r with
  | error e => exact .pure
  | ok ctx =>
    dsimp only
    split
    · exact .pure
    · exact (Calls.setPos _ _).bind fun _ => .pure

theorem truncateInode (inode : Nat) (length : Int) : Made K (VFS.truncateInode inode length) :=
  (Calls.inode _).bind fun _ => .ite .pure (.ite .pure (.ite
    (Calls.punchHole _ _ _)
    ((Calls.truncate _ _).bind fun _ => .pure)))

theorem readlink (pathname : VFS.PathName) (bufsiz : Nat) : Made K (VFS.readlink pathname bufsiz) :=
  .ite .pure (Made.resolved fun _ => (Calls.inode _).bind fun _ =>
    .ite (Made.putThen .pure) ((Calls.getLink _).bind fun link =>
      Made.putThen (match link with
        | .error _ => .pure
        | .ok _ => .pure)))

theorem link (oldpath newpath : VFS.PathName) : Made K (VFS.link oldpath newpath) := by
  refine Made.resolved fun inode => (Calls.inode _).bind fun i =>
    .ite (Made.putThen .pure) ((Made.pathwalkStep12 _).bind fun r => ?_)
  cases r with
  | error e => exact Made.putThen .pure
  | ok path =>
    exact .ite (Made.putThen (Made.putThen .pure))
      ((Calls.link _ _ _).bind fun _ =>
        Made.putThen (Made.putThen .pure))

theorem remove (dir : Nat) (name : VFS.PathName) (isDir : Bool) {action : Nat → FsM (Except Errno Unit)}
    (acts : ∀ inode, Made K (action inode)) : Made K (VFS.remove dir name isDir action) := by
  refine (Calls.lookup _ _).bind fun r => ?_
  match r with
  | .error e => exact Made.putThen .pure
  | .ok none => exact Made.putThen .pure
  | .ok (some inode) =>
    exact (Calls.inode _).bind fun i => .ite (Made.putThen (Made.putThen .pure))
      ((acts inode).bind fun _ => Made.putThen (Made.putThen .pure))

theorem leave (oldDir newDir : Nat) (result : Except Errno Unit) :
    Made K (VFS.leave oldDir newDir result) := Made.putThen (Made.putThen .pure)

theorem renameIn (oldPath newPath : VFS.Path) : Made K (VFS.renameIn oldPath newPath) := by
  refine (Calls.lookup _ _).bind fun r => ?_
  match r with
  | .error e => exact Made.leave _ _ _
  | .ok none => exact Made.leave _ _ _
  | .ok (some oldInode) =>
    refine (Calls.inode _).bind fun i => .ite (Made.putThen (Made.leave _ _ _))
      ((Calls.lookup _ _).bind fun r => ?_)
    cases r with
    | error e => exact Made.putThen (Made.leave _ _ _)
    | ok newInode =>
      have putNew : Made K (VFS.putNew newInode) := by
        cases newInode with
        | none => exact .pure
        | some newInode => exact Calls.put _
      have refuses : Made K (VFS.refuses newInode (Mode.isDir i.mode) (VFS.hasSlash newPath.pathname)) := by
        cases newInode with
        | none => exact .pure
        | some newInode => exact (Calls.inode _).bind fun _ => .pure
      refine refuses.bind fun refused => ?_
      cases refused with
      | some e => exact Made.putThen (putNew.bind fun _ => Made.leave _ _ _)
      | none =>
        exact Made.bind (.ite (Calls.rename _ _ _ _ _ _) .pure) fun _ =>
          Made.putThen (putNew.bind fun _ => Made.leave _ _ _)

theorem rename (oldpath newpath : VFS.PathName) : Made K (VFS.rename oldpath newpath) :=
  Made.parted fun oldPath => (Made.pathwalkStep12 _).bind fun
    | .error _ => Made.putThen .pure
    | .ok newPath => Made.renameIn oldPath newPath

/-- Every call that keeps no reference for longer is made of the parts. -/
theorem temporaryCall (op : VFS.Op) (temporary : op.temporary = true) : Made K op.call := by
  cases op with
  | mount | umount | «open» | close | chdir | fchdir => cases temporary
  | sync =>
    have synced : Made K VFS.sync := Calls.state.bind fun _ => .ite Calls.syncFs .pure
    exact synced.bind fun _ => .pure
  | read fd count => exact Made.returning (Made.read fd count)
  | write fd buf => exact Made.returning (Made.write fd buf)
  | lseek fd offset whence => exact Made.returning (Made.lseek fd offset whence)
  | stat pathname | lstat pathname =>
    exact Made.returning (Made.resolved fun _ => (Made.statInode _).bind fun _ => Made.putThen .pure)
  | fstat fd =>
    exact Made.returning (Made.ofFile fun _ => (Made.statInode _).bind fun _ => .pure)
  | getdents fd count => exact Made.returning (Made.getdents fd count)
  | mkdir pathname =>
    exact Made.returning (Calls.state.bind fun _ => .ite .pure
      (Made.parted fun _ => (Calls.mkdir _ _ _).bind fun _ => Made.putThen .pure))
  | truncate path length =>
    exact Made.returning (Made.resolved fun _ => (Made.truncateInode _ _).bind fun _ =>
      Made.putThen .pure)
  | ftruncate fd length =>
    exact Made.returning (Made.ofFile fun _ => .ite .pure (Made.truncateInode _ _))
  | readlink pathname bufsiz => exact Made.returning (Made.readlink pathname bufsiz)
  | link oldpath newpath => exact Made.returning (Made.link oldpath newpath)
  | symlink target linkpath =>
    exact Made.returning (Made.parted fun _ => .ite (Made.putThen .pure)
      ((Calls.symlink _ _ _).bind fun _ => Made.putThen .pure))
  | unlink pathname =>
    exact Made.returning (Made.parted fun _ => .ite (Made.putThen .pure)
      (Made.remove _ _ _ fun _ => Calls.unlink _ _ _))
  | rmdir pathname =>
    exact Made.returning (Made.parted fun _ => Made.remove _ _ _ fun _ => Calls.rmdir _ _ _)
  | rename oldpath newpath => exact Made.returning (Made.rename oldpath newpath)

end Temporary

section Lasting

variable [LastingCalls K]

theorem openFile (inode accmode : Nat) : Made K (VFS.openFile inode accmode) := by
  refine Calls.state.bind fun s => ?_
  cases s.fdTable.insertFile ⟨0, accmode, inode, 0⟩ with
  | none => exact Made.putThen .pure
  | some r => exact (LastingCalls.files _).bind fun _ => .pure

theorem «open» (pathname : VFS.PathName) (flags : Nat) : Made K (VFS.open pathname flags) := by
  refine Calls.state.bind fun s => .ite .pure (.ite .pure (.ite .pure
    (Made.parted fun path => .ite (Made.putThen .pure) ((Calls.get _).bind fun _ =>
      (Made.pathwalkStep3 (Made.resolveSymlink _) path true).bind fun r => ?_))))
  cases r with
  | ok inode =>
    have checks : Made K (VFS.checkOpen inode flags (flags &&& VFS.Flags.accmode)
        (VFS.hasSlash path.pathname)) :=
      (Calls.inode _).bind fun _ => .ite .pure (.ite .pure (.ite .pure .pure))
    refine Made.putThen (checks.bind fun refused => ?_)
    cases refused with
    | some e => exact Made.putThen .pure
    | none => exact Made.openFile _ _
  | error e =>
    refine .ite (Made.putThen .pure) (.ite (Made.putThen .pure)
      ((Calls.create _ _ _).bind fun created => Made.putThen ?_))
    cases created with
    | error e => exact .pure
    | ok inode => exact Made.openFile _ _

theorem close (fd : Int) : Made K (VFS.close fd) := by
  refine Calls.state.bind fun s => .ite (.ite (Calls.fault _) .pure) ?_
  cases s.fdTable.removeFile fd.toNat with
  | none => exact .pure
  | some r =>
    exact (LastingCalls.files _).bind fun _ => Made.putThen .pure

theorem chdirInode (inode : Nat) : Made K (VFS.chdirInode inode) := by
  refine (Calls.inode _).bind fun i => .ite .pure ((Calls.get _).bind fun _ =>
    Calls.state.bind fun s => ?_)
  have entered : Made K (do
      FsM.modify fun s => { s with cwd := some inode }
      Pure.pure (.ok ()) : FsM (Except Errno Unit)) :=
    (LastingCalls.enter inode).bind fun _ => .pure
  cases s.cwd with
  | some cwd => exact (Calls.put _).bind fun _ => entered
  | none => exact entered

/-- A property of the parts that sequencing keeps is one of every call but `mount` and `umount`. -/
theorem lastingCall (op : VFS.Op) (mounts : ∀ bits memory, op ≠ .mount bits memory)
    (unmounts : op ≠ .umount) : Made K op.call := by
  by_cases temporary : op.temporary = true
  · exact Made.temporaryCall op temporary
  · cases op with
    | mount bits memory => exact absurd rfl (mounts bits memory)
    | umount => exact absurd rfl unmounts
    | «open» pathname flags => exact Made.returning (Made.open pathname flags)
    | close fd => exact Made.returning (Made.close fd)
    | chdir path =>
      exact Made.returning (Made.resolved fun _ => (Made.chdirInode _).bind fun _ => Made.putThen .pure)
    | fchdir fd => exact Made.returning (Made.ofFile fun _ => Made.chdirInode _)
    | _ => exact absurd rfl temporary

theorem call (mount : ∀ bits memory, Made K (VFS.mount bits memory)) (umount : Made K VFS.umount)
    (op : VFS.Op) : Made K op.call := by
  cases op with
  | mount bits memory => exact Made.returning (mount bits memory)
  | umount => exact Made.returning umount
  | _ => exact Made.lastingCall _ (fun _ _ => by simp) (by simp)

theorem calls (mount : ∀ bits memory, Made K (VFS.mount bits memory)) (umount : Made K VFS.umount)
    (ops : List VFS.Op) : Made K (VFS.calls ops) := by
  induction ops with
  | nil => exact .pure
  | cons op rest ih => exact (Made.call mount umount op).bind fun _ => ih.bind fun _ => .pure

end Lasting

end Made

end MPStuBS
