import MPStuBS.FunctionWalks
import MPStuBS.StateLogic

/-! The functions that work on the contents of files and directories leave everything in
the state as it is, except for the contents of inode objects. -/
namespace MPStuBS

open Prog FsM

def Fs.Quiet (s s' : Fs) : Prop :=
  ∃ inodes, s' = { s with inodes := inodes } ∧ ∀ o, (s.inodes o).Kept (inodes o)

instance : IsPreorder Fs Fs.Quiet where
  refl s := ⟨s.inodes, rfl, fun o => .refl _⟩
  trans := by
    rintro a b c ⟨inodes, rfl, kept⟩ ⟨inodes', rfl, kept'⟩
    exact ⟨inodes', rfl, fun o => (kept o).trans (kept' o)⟩

abbrev Quiet {α : Type} (p : FsM α) : Prop := Keeps Fs.Quiet p

/-- Only the zones and the dirty marks of inode objects change. -/
def Fs.Remapped (s s' : Fs) : Prop :=
  ∃ inodes, s' = { s with inodes := inodes } ∧ ∀ o, (s.inodes o).Remapped (inodes o)

instance : IsPreorder Fs Fs.Remapped where
  refl s := ⟨s.inodes, rfl, fun o => .refl _⟩
  trans := by
    rintro a b c ⟨inodes, rfl, same⟩ ⟨inodes', rfl, same'⟩
    exact ⟨inodes', rfl, fun o => (same o).trans (same' o)⟩

abbrev Remaps {α : Type} (p : FsM α) : Prop := Keeps Fs.Remapped p

theorem Fs.Remapped.quiet {s s' : Fs} : s.Remapped s' → s.Quiet s' := by
  rintro ⟨inodes, rfl, same⟩
  exact ⟨inodes, rfl, fun o => (same o).kept⟩

namespace Quiet

variable {α : Type} {R : Fs → Fs → Prop} [IsPreorder Fs R]

/-! These steps leave the state alone. -/

theorem get : Keeps R FsM.get := fun s => refl_of R s

omit [IsPreorder Fs R] in
theorem fault {f : FsFault} : Keeps R (FsM.fault f : FsM α) := fun _ => trivial

theorem fix {n : Nat} : Keeps R (FsM.fix n) := fun s _ => refl_of R s

theorem load {b : Nat} : Keeps R (FsM.load b) := by
  intro s r
  cases r with
  | none => trivial
  | some bytes => exact refl_of R s

theorem store {b : Nat} {bytes : Bytes} : Keeps R (FsM.store b bytes) := fun s => refl_of R s

theorem markDirty {b : Nat} : Keeps R (FsM.markDirty b) := fun s => refl_of R s

theorem unfix {b : Nat} : Keeps R (FsM.unfix b) := fun s => refl_of R s

theorem forget {b : Nat} : Keeps R (FsM.forget b) := fun s => refl_of R s

theorem sync {b : Nat} : Keeps R (FsM.sync b) := fun s => refl_of R s

theorem inode {ptr : Nat} : Keeps R (FsM.inode ptr) :=
  Quiet.get.bind fun _ => .ite Quiet.fault .pure

end Quiet

section Updates

variable {ptr : Nat} {f : Inode → Inode}

theorem Fs.inodes_setInode {r : Inode → Inode → Prop} (same : ∀ i, r i i) (changed : ∀ i, r i (f i)) (s : Fs)
    (o : Nat) : r (s.inodes o) ((s.setInode ptr f).inodes o) := by
  change r _ (Function.update s.inodes ptr (f (s.inodes ptr)) o)
  by_cases here : o = ptr
  · subst here
    rw [Function.update_self]
    exact changed _
  · rw [Function.update_of_ne here]
    exact same _

theorem keeps_setInode {R : Fs → Fs → Prop} (related : ∀ s : Fs, R s (s.setInode ptr f)) :
    Keeps R (FsM.setInode ptr f) := by
  intro s
  simp only [FsM.setInode, always_bind]
  change Always (if (s.inodes ptr).deleted then _ else _) _ s
  split
  · trivial
  · exact related s

theorem Quiet.setInode (kept : ∀ i : Inode, i.Kept (f i)) : Quiet (FsM.setInode ptr f) :=
  keeps_setInode fun s => ⟨_, rfl, Fs.inodes_setInode Inode.Kept.refl kept s⟩

theorem Remaps.setInode (same : ∀ i : Inode, i.Remapped (f i)) : Remaps (FsM.setInode ptr f) :=
  keeps_setInode fun s => ⟨_, rfl, Fs.inodes_setInode Inode.Remapped.refl same s⟩

end Updates

/-- The program keeps the relation. -/
def Keeping (R : Fs → Fs → Prop) : FsM.Property where
  holds _ p post := ∀ s, p.Always (fun a s' => R s s' ∧ post a) s
  own _ := True
  mine _ := True
  stops _ := True

section Keeping

variable {R : Fs → Fs → Prop} {α : Type} {p : FsM α} {post : α → Prop}

theorem Gives.keeps (h : Gives (Keeping R) p post) : Keeps R p := fun s => (h s).mono fun _ _ => And.left

theorem Has.of_keeps (keeps : Keeps R p) : Has (Keeping R) p := fun s => (keeps s).mono fun _ _ r => ⟨r, trivial⟩

variable [IsPreorder Fs R]

/-- Looking keeps every state. -/
instance : Looks (Keeping R) where
  pure holds s := ⟨refl_of R s, holds⟩
  bind h next s := always_bind.mpr ((h s).mono fun a s' got => (next a got.2 s').mono fun _ _ after =>
    ⟨trans_of R got.1 after.1, after.2⟩)
  fault _ _ := trivial
  others _ := trivial
  get s := ⟨refl_of R s, maps_all s⟩
  fix s _ := ⟨refl_of R s, fun _ _ => trivial⟩
  peek h s r := h r s
  unfix _ := .of_keeps Quiet.unfix

/-- A program that only looks leaves the state as it is. -/
theorem Gives.same {α : Type} {p : FsM α} {post : α → Prop} (h : Gives (Keeping (· = ·)) p post) (s : Fs) :
    p.Always (fun _ s' => s' = s) s := (h s).mono fun _ _ got => got.1.symm

theorem changes_keeping (weaker : ∀ {s s' : Fs}, s.Remapped s' → R s s') : Changes (Keeping R) where
  store _ := .of_keeps Quiet.store
  markDirty _ := .of_keeps Quiet.markDirty
  forget _ := .of_keeps Quiet.forget
  remap same s := (Remaps.setInode same s).mono fun _ _ remapped => ⟨weaker remapped, trivial⟩

theorem fills_keeping (weaker : ∀ {s s' : Fs}, s.Quiet s' → R s s') : Fills (Keeping R) where
  toChanges := changes_keeping fun remapped => weaker remapped.quiet
  fill kept s := (Quiet.setInode kept s).mono fun _ _ quiet => ⟨weaker quiet, trivial⟩

end Keeping

instance : Changes (Keeping Fs.Remapped) := changes_keeping id

instance : Fills (Keeping Fs.Quiet) := fills_keeping id

namespace Quiet

variable {ptr : Nat}

theorem setDirty : Quiet (FsM.setInode ptr .setDirty) := Has.setDirty.keeps

theorem incNlinks : Quiet (FsM.setInode ptr .incNlinks) := Has.incNlinks.keeps

theorem decNlinks : Quiet (FsM.setInode ptr .decNlinks) := Has.decNlinks.keeps

theorem setSize {size : Inode → Int} : Quiet (FsM.setInode ptr fun i => { i with size := size i }) := Has.setSize.keeps

theorem setNlinks {n : Nat} : Quiet (FsM.setInode ptr fun i => { i with nlinks := n }) := Has.setNlinks.keeps

end Quiet

namespace Minix

theorem quiet_newBlock : Quiet newBlock := has_newBlock.keeps

theorem quiet_rawInode (ino : Nat) : Quiet (rawInode ino) := (gives_rawInode ino).keeps

theorem quiet_findFreeInode (n i : Nat) : Quiet (findFreeInode n i) := (has_findFreeInode n i).keeps

theorem quiet_freeInode (inode : Nat) : Quiet (freeInode inode) := (has_freeInode inode).keeps

theorem quiet_getBlock (ptr block : Nat) (create : Bool) : Quiet (getBlock ptr block create) :=
  (has_getBlock trivial ptr block create).keeps

theorem quiet_truncate (ptr : Nat) (length : Int) : Quiet (truncate ptr length) := (has_truncate ptr length).keeps

theorem quiet_inodeMarked (ino : Nat) : Quiet (inodeMarked ino) := (has_inodeMarked ino).keeps

theorem quiet_dirBlockLastByte (dir lblock : Nat) : Quiet (dirBlockLastByte dir lblock) :=
  (has_dirBlockLastByte dir lblock).keeps

theorem quiet_findDirent (dir : Nat) (name : List UInt8) : Quiet (findDirent dir name) :=
  (gives_findDirent dir name).keeps

theorem quiet_addLink (dir inode : Nat) (name : List UInt8) : Quiet (addLink dir inode name) :=
  (has_addLink trivial dir inode name).keeps

theorem quiet_makeEmptyDir (inode parentDir : Nat) : Quiet (makeEmptyDir inode parentDir) :=
  (has_makeEmptyDir trivial inode parentDir).keeps

theorem quiet_rmdir (parentDir : Nat) (name : List UInt8) (dir : Nat) : Quiet (rmdir parentDir name dir) :=
  (has_rmdir parentDir name dir).keeps

theorem quiet_link (dir : Nat) (name : List UInt8) (inode : Nat) : Quiet (link dir name inode) :=
  (has_link trivial dir name inode).keeps

theorem quiet_writeAll (inode : Nat) (buf : List UInt8) (fuel written : Nat) :
    Quiet (writeAll inode buf fuel written) := (has_writeAll trivial inode buf fuel written).keeps

theorem quiet_unlink (dir : Nat) (name : List UInt8) (inode : Nat) : Quiet (unlink dir name inode) :=
  (has_unlink dir name inode).keeps

theorem quiet_checkReplace (newInode : Nat) (oldIsDir newIsDir : Bool) :
    Quiet (checkReplace newInode oldIsDir newIsDir) := (has_checkReplace newInode oldIsDir newIsDir).keeps

end Minix

namespace Filesystem

theorem quiet_read (ptr count : Nat) (pos : Int) : Quiet (read ptr count pos) := (has_read trivial ptr count pos).keeps

theorem quiet_write (ptr : Nat) (buf : List UInt8) (pos : Int) : Quiet (write ptr buf pos) :=
  (has_write trivial ptr buf pos).keeps

theorem remaps_punchHole (ptr : Nat) (start stop : Int) : Remaps (punchHole ptr start stop) :=
  (has_punchHole trivial ptr start stop).keeps

theorem quiet_punchHole (ptr : Nat) (start stop : Int) : Quiet (punchHole ptr start stop) :=
  (has_punchHole trivial ptr start stop).keeps

theorem quiet_getLink (ptr : Nat) : Quiet (getLink ptr) := (has_getLink trivial ptr).keeps

end Filesystem

theorem Inode.quiet_writeToDisk (inode : Nat) : Quiet (writeToDisk inode) := (has_writeToDisk inode).keeps

theorem InodeCache.quiet_contains (ino : Nat) (cache : List Nat) : Quiet (contains ino cache) :=
  (Minix.has_contains ino cache).keeps

end MPStuBS
