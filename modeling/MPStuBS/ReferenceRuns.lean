import MPStuBS.CallBalance
import MPStuBS.VfsDevices

/-! `rename`, and the balance of every call in every state that the calls can reach. -/
namespace MPStuBS.VFS

open Prog FsM

/-- What holds after a call that keeps no reference. -/
def Settled (s₀ s : Fs) : Prop := s.Wf ∧ (s₀.Balanced s ↔ s₀.Clean s)

variable {s₀ s : Fs} {held dropped : List Nat}

theorem Owes.settled (owes : Owes s₀ s []) : Settled s₀ s := ⟨owes.wf, owes.balanced_iff⟩

theorem leave_settles {oldDir newDir : Nat} (settles : Settles s₀ s dropped [oldDir, newDir])
    (result : Except Errno Unit) : (leave oldDir newDir result).Always (fun _ => Settled s₀) s :=
  always_bind.mpr (settles.put.mono fun _ _ settles => always_bind.mpr (settles.put.mono
    fun _ _ settles => ⟨settles.wf, settles.balanced_iff⟩))

theorem leave_owes {oldDir newDir : Nat} (owes : Owes s₀ s [newDir, oldDir])
    (result : Except Errno Unit) : (leave oldDir newDir result).Always (fun _ => Settled s₀) s :=
  owes.swap.putThen fun _ owes => owes.putThen fun _ owes => Owes.settled owes

theorem refuses_owes (owes : Owes s₀ s held) (newInode : Option Nat) (oldIsDir mustBeDir : Bool) :
    (refuses newInode oldIsDir mustBeDir).Always (fun _ s' => Owes s₀ s' held) s := by
  cases newInode with
  | none => exact owes
  | some newInode => exact owes.bind Quiet.inode fun _ _ owes => owes

theorem renameDistinct_owes {oldInode : Nat} {newInode : Option Nat}
    (owes : Owes s₀ s (oldInode :: (newInode.toList ++ held))) (oldDir newDir : Nat)
    (oldName newName : PathName) :
    (renameDistinct oldDir oldInode oldName newDir newInode newName).Always
      (fun _ s' => Dropping s₀ s' (oldInode :: (newInode.toList ++ held))) s := by
  unfold renameDistinct
  split
  · exact Minix.rename_owes owes _ _ _ _
  · simpa using owes.dropping

theorem renameIn_settled {oldPath newPath : Path}
    (owes : Owes s₀ s [newPath.curDir, oldPath.curDir]) :
    (renameIn oldPath newPath).Always (fun _ => Settled s₀) s := by
  unfold renameIn
  dsimp only
  refine always_bind.mpr ((Minix.lookup_owes owes _ _).mono fun r s₁ owing => ?_)
  match r with
  | .error e => exact leave_owes owing _
  | .ok none => exact leave_owes owing _
  | .ok (some oldInode) =>
    have owes : Owes s₀ s₁ [oldInode, newPath.curDir, oldPath.curDir] := owing
    refine owes.bind Quiet.inode fun i s₂ owes => ?_
    split
    · exact owes.putThen fun _ owes => leave_owes owes _
    refine always_bind.mpr ((Minix.lookup_owes owes _ _).mono fun r s₃ owing => ?_)
    cases r with
    | error e =>
      have owes : Owes s₀ s₃ [oldInode, newPath.curDir, oldPath.curDir] := owing
      exact owes.putThen fun _ owes => leave_owes owes _
    | ok newInode =>
      have owes : Owes s₀ s₃ (oldInode :: (newInode.toList ++ [newPath.curDir, oldPath.curDir])) := by
        cases newInode with
        | none => exact owing
        | some newInode => exact Accounts.swap owing
      refine always_bind.mpr ((refuses_owes owes _ _ _).mono fun refused s₄ owes => ?_)
      cases refused with
      | some e =>
        refine owes.putThen fun s₅ owes => ?_
        cases newInode with
        | none => exact leave_owes owes _
        | some newInode => exact owes.putThen fun s₆ owes => leave_owes owes _
      | none =>
        refine always_bind.mpr ((renameDistinct_owes owes _ _ _ _).mono
          fun result s₅ ⟨held, dropped, all, accounts⟩ => ?_)
        have order : (oldInode :: (newInode.toList ++ [newPath.curDir, oldPath.curDir])).Perm
            (oldInode :: (newInode.toList ++ [oldPath.curDir, newPath.curDir])) :=
          ((List.Perm.swap _ _ _).append_left _).cons _
        have settles := accounts.settles (all.trans order)
        refine always_bind.mpr (settles.put.mono fun _ s₆ settles => ?_)
        cases newInode with
        | none => exact leave_settles settles result
        | some newInode =>
          exact always_bind.mpr (Settles.put (o := newInode) settles |>.mono fun _ s₇ settles =>
            leave_settles settles result)

theorem rename_settled (owes : Owes s₀ s []) (oldpath newpath : PathName) :
    (VFS.rename oldpath newpath).Always (fun _ => Settled s₀) s := by
  refine always_bind.mpr ((pathwalkStep12_owes owes oldpath).mono fun r s₁ owing => ?_)
  cases r with
  | error e => exact Owes.settled owing
  | ok oldPath =>
    have owes : Owes s₀ s₁ [oldPath.curDir] := owing
    refine always_bind.mpr ((pathwalkStep12_owes owes newpath).mono fun r s₂ owing => ?_)
    cases r with
    | error e =>
      have owes : Owes s₀ s₂ [oldPath.curDir] := owing
      exact owes.putThen fun _ owes => Owes.settled owes
    | ok newPath => exact renameIn_settled owing

/-- Every call but those that take or give back a reference for longer. -/
def Op.temporary : Op → Bool
  | .mount .. | .umount | .open .. | .close _ | .chdir _ | .fchdir _ => false
  | _ => true

theorem returning_settled {α : Type} {f : α → Value} {p : FsM (Except Errno α)}
    (settled : p.Always (fun _ => Settled s₀) s) : (returning f p).Always (fun _ => Settled s₀) s :=
  always_bind.mpr (settled.mono fun _ _ settled => settled)

theorem Steady.settled {α : Type} {p : FsM α} (steady : Steady p) (owes : Owes s₀ s []) :
    p.Always (fun _ => Settled s₀) s :=
  (steady.owes owes).mono fun _ _ => Owes.settled

theorem call_settled (wf : s.Wf) (op : Op) (temporary : op.temporary = true) :
    op.call.Always (fun _ => Settled s) s := by
  have owes : Owes s s [] := .refl wf
  have settle : ∀ {α : Type} {p : FsM α}, p.Always (fun _ s' => Owes s s' []) s →
      p.Always (fun _ => Settled s) s := fun h => h.mono fun _ _ => Owes.settled
  cases op with
  | mount | umount | «open» | close | chdir | fchdir => cases temporary
  | sync => exact always_bind.mpr (Steady.settled steady_sync owes)
  | read fd count => exact returning_settled (Steady.settled (steady_read _ _) owes)
  | write fd buf => exact returning_settled (Steady.settled (steady_write _ _) owes)
  | lseek fd offset whence => exact returning_settled (Steady.settled (steady_lseek _ _ _) owes)
  | stat pathname => exact returning_settled (settle (statPath_owes owes _ _))
  | lstat pathname => exact returning_settled (settle (statPath_owes owes _ _))
  | fstat fd => exact returning_settled (Steady.settled (steady_fstat _) owes)
  | getdents fd count => exact returning_settled (settle (getdents_owes owes _ _))
  | mkdir pathname => exact returning_settled (settle (mkdir_owes owes _))
  | truncate path length => exact returning_settled (settle (truncate_owes owes _ _))
  | ftruncate fd length => exact returning_settled (Steady.settled (steady_ftruncate _ _) owes)
  | readlink pathname bufsiz => exact returning_settled (settle (readlink_owes owes _ _))
  | link oldpath newpath => exact returning_settled (settle (link_owes owes _ _))
  | symlink target linkpath => exact returning_settled (settle (symlink_owes owes _ _))
  | unlink pathname => exact returning_settled (settle (unlink_owes owes _))
  | rmdir pathname => exact returning_settled (settle (rmdir_owes owes _))
  | rename oldpath newpath => exact returning_settled (rename_settled owes _ _)

end MPStuBS.VFS
