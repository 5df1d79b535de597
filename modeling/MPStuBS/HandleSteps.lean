import MPStuBS.CallSteps
import MPStuBS.HandleLogic

/-! No function of the file system releases a block that it has not fixed, except `umount` and the
end of a failed `mount`. -/
namespace MPStuBS

open Prog FsM

/-- Of the blocks that were fixed before the `n`-th the program releases none and changes none but
those of the bitmaps. -/
def Sparing (mine : Nat → Prop) (n : Nat) : FsM.Property where
  holds _ p post := p.Spares mine (Maps mine) n post
  own b := n ≤ b
  mine := mine
  stops _ := True

abbrev Spare {α : Type} (mine : Nat → Prop) (n : Nat) (p : FsM α) : Prop := p.Spares mine (Maps mine) n fun _ => True

variable {mine : Nat → Prop} {n b : Nat}

instance : Looks (Sparing mine n) where
  pure holds := holds
  bind := Spares.bind
  fault _ := trivial
  others _ := trivial
  get _ maps := maps
  fix _ late := late
  peek h := h
  unfix late := ⟨.inl late, trivial⟩

theorem spare_set {s : Fs} (maps : Maps mine s) : Has (Sparing mine n) (FsM.set s) := ⟨maps, trivial⟩

instance : Replaces (Sparing mine n) where
  store may := ⟨may.imp_right fun own => ⟨own, by simp⟩, trivial⟩
  markDirty may := ⟨may.imp_right fun own => ⟨own, by simp⟩, trivial⟩
  forget late := ⟨.inl late, .inl late, trivial⟩
  remap _ := Looks.setInode spare_set
  fill _ := Looks.setInode spare_set
  sync may := ⟨may.imp_right fun own => ⟨own, by simp⟩, trivial⟩
  set := spare_set

namespace Spare

theorem load : Spare mine n (FsM.load b) := Has.load (K := Sparing mine n) (b := b)

theorem store {bytes : Bytes} (may : n ≤ b ∨ mine b) : Spare mine n (FsM.store b bytes) :=
  Changes.store (K := Sparing mine n) may

theorem inode {o : Nat} : Spare mine n (FsM.inode o) := Has.inode (K := Sparing mine n) (o := o)

end Spare

theorem Inode.spare_put (o : Nat) : Spare mine n (Inode.put o) := Inode.has_put (K := Sparing mine n) o

theorem Minix.spare_iget (ino : Nat) : Spare mine n (iget ino) := has_iget (K := Sparing mine n) ino

theorem lastingCalls_spare (mine : Nat → Prop) (n : Nat) : LastingCalls fun _ p => Spare mine n p where
  toCalls := Counts.calls (K := Sparing mine n) trivial (fun _ _ => Has.modify fun _ => id) VFS.has_syncFs
  files _ := Has.modify (K := Sparing mine n) fun _ => id
  enter _ := Has.modify (K := Sparing mine n) fun _ => id

end MPStuBS
