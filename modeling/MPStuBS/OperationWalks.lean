import MPStuBS.FunctionWalks
import MPStuBS.Vfs

/-! What the operations on directories consist of, and the life of inode objects: the rest of the walk
over the functions of the file system. -/
namespace MPStuBS

open FsM

/-- The steps that give and take references to inode objects. -/
class Counts (K : FsM.Property) : Prop extends Fills K where
  take : ∀ {o : Nat}, Has K (Inode.get o)
  put : ∀ {o : Nat}, Has K (Inode.put o)
  iget : ∀ {ino : Nat}, Has K (Minix.iget ino)
  newInode : ∀ {mode : Nat}, Has K (Minix.newInode mode)
  released : ∀ {o : Nat}, Has K (FsM.note (.released o))

/-- Every step of the functions but those of `mount` and `umount`. -/
class Replaces (K : FsM.Property) : Prop extends Fills K where
  sync : ∀ {b : Nat}, K.own b ∨ K.mine b → Has K (FsM.sync b)
  set : ∀ {s : Fs}, Maps K.mine s → Has K (FsM.set s)

variable {K : FsM.Property}

namespace Minix

section Counting

variable [Counts K]

theorem has_lookup (dir : Nat) (name : List UInt8) : Has K (lookup dir name) := by
  refine (gives_findDirent dir name).bind fun r isOwn => ?_
  match r with
  | .error e => exact .pure trivial
  | .ok none => exact .pure trivial
  | .ok (some (block, k)) =>
    exact Has.load.bind fun _ => (Looks.unfix (isOwn _ _ rfl)).bind fun _ => Counts.iget.bind fun
      | .error _ => .pure trivial
      | .ok _ => .pure trivial

theorem has_abandon (inode : Nat) : Has K (abandon inode) :=
  Has.setNlinks.bind fun _ => Has.setDirty.bind fun _ => Counts.put

theorem has_iterateBlock (block k : Nat) : ∀ i ctx, Has K (iterateBlock block k i ctx) := by
  induction k with
  | zero => exact fun _ _ => .pure trivial
  | succ k ih =>
    intro i ctx
    have emit : ∀ type, Has K (do
        let bytes ← load block
        let name := Filesystem.take bytes (64 * i + 4) (namelen bytes i 60)
        let emitted := ctx.dirEmit name (direntInode bytes i) type
        if emitted.1 then iterateBlock block k (i + 1) { emitted.2 with pos := emitted.2.pos + 64 }
        else Pure.pure (false, emitted.2) : FsM (Bool × ReaddirContext)) := fun _ =>
      Has.load.bind fun _ => .ite (ih _ _) (.pure trivial)
    exact Has.load.bind fun _ => .ite (ih _ _) (Counts.iget.bind fun
      | .error _ => emit 0
      | .ok _ => Has.inode.bind fun _ => Counts.put.bind fun _ => emit _)

theorem has_iterateLoop (dir k : Nat) : ∀ lblock offset ctx, Has K (iterateLoop dir k lblock offset ctx) := by
  induction k with
  | zero => exact fun _ _ _ => .pure trivial
  | succ k ih =>
    exact fun _ _ _ => (has_getBlock_looking _ _).bind fun
      | .error _ => .pure trivial
      | .ok _ => Looks.fix.bind fun
        | .error _, _ => .pure trivial
        | .ok _, fixed => (has_dirBlockLastByte _ _).bind fun _ => (has_iterateBlock _ _ _ _).bind fun _ =>
            (Looks.unfix (fixed _ rfl)).bind fun _ => .ite (ih _ _ _) (.pure trivial)

theorem has_iterateDir (dir : Nat) (ctx : ReaddirContext) : Has K (iterateDir dir ctx) :=
  Has.get.bind fun _ => Has.inode.bind fun _ => has_iterateLoop _ _ _ _ _

theorem has_release (inode : Nat) : Has K (release inode) := Counts.released.bind fun _ => Counts.put

theorem has_renameFinish (oldDir oldInode newDir : Nat) {oldBlock : Nat} (isOwn : K.own oldBlock)
    (oldK : Nat) (oldIsDir : Bool) : Has K (renameFinish oldDir oldInode newDir oldBlock oldK oldIsDir) :=
  (has_release _).bind fun _ => Has.load.bind fun _ => (Changes.store (.inl isOwn)).bind fun _ =>
    (Changes.markDirty (.inl isOwn)).bind fun _ => (Looks.unfix isOwn).bind fun _ => .ite
      ((has_getBlock_looking _ _).bind fun
        | .error _ => .pure trivial
        | .ok _ => Looks.fix.bind fun
          | .error _, _ => .pure trivial
          | .ok _, fixed => Has.load.bind fun _ => Has.inode.bind fun _ => .ite (Has.fault FsFault.noConfusion)
              ((Changes.store (.inl (fixed _ rfl))).bind fun _ => (Changes.markDirty (.inl (fixed _ rfl))).bind fun _ =>
                (Looks.unfix (fixed _ rfl)).bind fun _ => Has.decNlinks.bind fun _ => Has.setDirty.bind fun _ =>
                  .pure trivial))
      (.pure trivial)

theorem has_renameFail (oldInode : Nat) {oldBlock : Nat} (isOwn : K.own oldBlock) (e : Errno) :
    Has K (renameFail oldInode oldBlock e) :=
  (has_release _).bind fun _ => (Looks.unfix isOwn).bind fun _ => .pure trivial

section Endless

variable (endless : K.stops .endless)
include endless

theorem has_mkdir (parentDir : Nat) (name : List UInt8) (mode : Nat) : Has K (mkdir parentDir name mode) :=
  .ite (.pure trivial) (Counts.newInode.bind fun
    | .error _ => .pure trivial
    | .ok _ => Has.setNlinks.bind fun _ => (has_makeEmptyDir endless _ _).bind fun
      | .error _ => (has_abandon _).bind fun _ => .pure trivial
      | .ok _ => (has_addLink endless _ _ _).bind fun
        | .error _ => (has_abandon _).bind fun _ => .pure trivial
        | .ok _ => Has.incNlinks.bind fun _ => Has.setDirty.bind fun _ => Counts.put.bind fun _ => .pure trivial)

theorem has_create (dir : Nat) (name : List UInt8) (mode : Nat) : Has K (create dir name mode) :=
  .ite (.pure trivial) (Counts.newInode.bind fun
    | .error _ => .pure trivial
    | .ok _ => (has_addLink endless _ _ _).bind fun
      | .error _ => (has_abandon _).bind fun _ => .pure trivial
      | .ok _ => Has.setNlinks.bind fun _ => Has.setDirty.bind fun _ => .pure trivial)

theorem has_symlink (dir : Nat) (name symname : List UInt8) : Has K (symlink dir name symname) := by
  refine .ite (.pure trivial) (Has.get.bind fun s => .ite (.pure trivial)
    (Counts.newInode.bind fun r => ?_))
  cases r with
  | error e => exact .pure trivial
  | ok inode =>
    refine Has.setNlinks.bind fun _ => (has_writeAll endless _ _ _ _).bind fun r => ?_
    cases r with
    | error e => exact Has.setDirty.bind fun _ => Counts.put.bind fun _ => .pure trivial
    | ok _ =>
      have rest : ∀ result, Has K (do
          setInode inode .setDirty
          Inode.put inode
          Pure.pure result : FsM (Except Errno Unit)) := fun result =>
        Has.setDirty.bind fun _ => Counts.put.bind fun _ => .pure trivial
      refine (has_addLink endless _ _ _).bind fun result => ?_
      dsimp only
      split
      · exact Has.bind (Fills.fill fun _ => ⟨rfl, rfl, rfl, rfl, rfl⟩) fun _ => rest _
      · exact rest _

theorem has_rename (oldDir oldInode : Nat) (oldName : List UInt8) (newDir : Nat)
    (newInode : Option Nat) (newName : List UInt8) :
    Has K (rename oldDir oldInode oldName newDir newInode newName) := by
  refine .ite (.pure trivial) ((gives_findDirent oldDir oldName).bind fun r isOwn => ?_)
  match r with
  | .error e => exact .pure trivial
  | .ok none => exact .pure trivial
  | .ok (some (oldBlock, oldK)) =>
    have isOwn := isOwn _ _ rfl
    refine Has.inode.bind fun i => (gives_findDirent newDir newName).bind fun r isOwn' => ?_
    match r, newInode with
    | .error e, _ => exact has_renameFail _ isOwn _
    | .ok (some _), none => exact Has.fault FsFault.noConfusion
    | .ok none, some _ => exact Has.fault FsFault.noConfusion
    | .ok none, none =>
      refine (has_addLink endless _ _ _).bind fun r => ?_
      cases r with
      | error e => exact has_renameFail _ isOwn _
      | ok _ =>
        dsimp only
        split
        · exact Has.incNlinks.bind fun _ => has_renameFinish _ _ _ isOwn _ _
        · exact has_renameFinish _ _ _ isOwn _ _
    | .ok (some (newBlock, newK)), some newInode =>
      have isOwn' := isOwn' _ _ rfl
      refine Has.inode.bind fun m => (has_checkReplace _ _ _).bind fun r => ?_
      cases r with
      | error e =>
        exact (has_release _).bind fun _ => (Looks.unfix isOwn').bind fun _ => has_renameFail _ isOwn _
      | ok _ =>
        have rest : Has K (do
            setInode newInode .decNlinks
            setInode newInode .setDirty
            release newInode
            renameFinish oldDir oldInode newDir oldBlock oldK (Mode.isDir i.mode)) :=
          Has.decNlinks.bind fun _ => Has.setDirty.bind fun _ => (has_release _).bind fun _ =>
            has_renameFinish _ _ _ isOwn _ _
        refine Has.inode.bind fun _ => Has.load.bind fun _ => (Changes.store (.inl isOwn')).bind fun _ =>
          (Changes.markDirty (.inl isOwn')).bind fun _ => (Looks.unfix isOwn').bind fun _ => ?_
        split
        · exact Has.decNlinks.bind fun _ => rest
        · exact rest

end Endless

end Counting

end Minix

section Replacing

variable [Replaces K]

namespace Has

theorem modify {f : Fs → Fs} (kept : ∀ s, Maps K.mine s → Maps K.mine (f s)) : Has K (FsM.modify f) :=
  Looks.get.bind fun s maps => Replaces.set (kept s maps)

theorem setInode {ptr : Nat} {f : Inode → Inode} : Has K (FsM.setInode ptr f) := Looks.setInode Replaces.set

theorem note {event : FsEvent} : Has K (FsM.note event) := modify fun _ maps => maps

end Has

theorem Inode.has_get (o : Nat) : Has K (Inode.get o) := Has.bind (Has.modify fun _ => id) fun _ => Has.setInode

theorem Inode.has_put (o : Nat) : Has K (Inode.put o) :=
  Has.inode.bind fun _ => .ite (Has.bind (Has.modify fun _ => id) fun _ => Has.setInode) (.pure trivial)

theorem Inode.has_destroy (inode : Nat) : Has K (destroy inode) := by
  refine Has.inode.bind fun i => ?_
  split
  · exact (Minix.has_truncate _ _).bind fun _ => (Minix.has_freeInode _).bind fun _ => Has.setInode
  · split
    · exact (has_writeToDisk _).bind fun _ => Has.setInode
    · exact Has.setInode

theorem has_allocateInode : Has K allocateInode :=
  Looks.get.bind fun _ maps => Has.bind (Replaces.set maps) fun _ => .pure trivial

namespace InodeCache

theorem has_insertInode (new : Nat) : Has K (insertInode new) :=
  Has.get.bind fun _ => Has.inode.bind fun _ => (Minix.has_contains _ _).bind fun _ =>
    .ite (.pure trivial) (Has.modify fun _ => id)

theorem has_evictLoop (cache : List Nat) : Has K (evictLoop cache) := by
  induction cache with
  | nil => exact .pure trivial
  | cons cur rest ih =>
    exact Has.get.bind fun _ => .ite (.pure trivial) (Has.inode.bind fun _ => .ite
      (Has.bind (Has.modify fun _ => id) fun _ => (Inode.has_destroy _).bind fun _ =>
        Has.bind (Has.modify fun _ => id) fun _ => ih) ih)

theorem has_getInode (ino : Nat) : Has K (getInode ino) := by
  have evicted : Has K maybeEvictInodes := Has.get.bind fun _ => has_evictLoop _
  refine evicted.bind fun _ => Has.get.bind fun s => (Minix.has_find ino s.icache).bind fun found => ?_
  cases found with
  | some cur => exact (Inode.has_get _).bind fun _ => .pure trivial
  | none => exact has_allocateInode.bind fun _ => (has_insertInode _).bind fun _ => .pure trivial

theorem has_syncLoop (cache : List Nat) : Has K (syncLoop cache) := by
  induction cache with
  | nil => exact .pure trivial
  | cons cur rest ih =>
    refine Has.inode.bind fun i => ?_
    split
    · exact Has.bind (Has.modify fun _ => id) fun _ => (Inode.has_destroy _).bind fun _ =>
        Has.bind (Has.modify fun _ => id) fun _ => ih
    · split
      · exact (Inode.has_writeToDisk _).bind fun _ => ih
      · exact ih

end InodeCache

namespace Minix

theorem has_newInode (mode : Nat) : Has K (newInode mode) :=
  Looks.get.bind fun _ maps => (has_findFreeInode _ _).bind fun
    | none => .pure trivial
    | some (_, _) => Has.load.bind fun _ => .ite (.pure trivial) ((Changes.store (.inr (maps.1 _))).bind fun _ =>
        .ite (.pure trivial) (has_allocateInode.bind fun _ => (Changes.markDirty (.inr (maps.1 _))).bind fun _ =>
          Has.setInode.bind fun _ => Has.setInode.bind fun _ => Has.setInode.bind fun _ =>
            (InodeCache.has_insertInode _).bind fun _ => .pure trivial))

theorem has_iget (ino : Nat) : Has K (iget ino) := by
  refine (InodeCache.has_getInode ino).bind fun inode => Has.inode.bind fun i =>
    .ite (.pure trivial) ((gives_rawInode ino).bind fun r isOwn => ?_)
  cases r with
  | error e => exact (Inode.has_destroy _).bind fun _ => Has.note.bind fun _ => .pure trivial
  | ok found =>
    exact Has.load.bind fun _ => Has.setInode.bind fun _ => (Looks.unfix (isOwn _ rfl)).bind fun _ =>
      Has.setInode.bind fun _ => (has_inodeMarked ino).bind fun _ => Has.note.bind fun _ => .pure trivial

theorem has_syncMaps {map : Nat → Nat} (maps : ∀ i, K.mine (map i)) (k : Nat) : ∀ i, Has K (syncMaps map k i) := by
  induction k with
  | zero => exact fun _ => .pure trivial
  | succ k ih => exact fun i => (Replaces.sync (.inr (maps i))).bind fun _ => ih (i + 1)

end Minix

theorem VFS.has_syncFs : Has K VFS.syncFs := by
  have synced : Has K InodeCache.syncFsInodes := Has.get.bind fun _ => InodeCache.has_syncLoop _
  exact synced.bind fun _ => Looks.get.bind fun _ maps =>
    (Minix.has_syncMaps maps.1 _ _).bind fun _ => Minix.has_syncMaps maps.2 _ _

instance : Counts K where
  take := Inode.has_get _
  put := Inode.has_put _
  iget := Minix.has_iget _
  newInode := Minix.has_newInode _
  released := Has.note

end Replacing

end MPStuBS
