import MPStuBS.VfsDevices

/-! The calls of the VFS with a descriptor that no open file has. -/
namespace MPStuBS

/-- No open file has the descriptor. -/
def FdTable.Free (t : FdTable) (fd : Int) : Prop :=
  ∀ bucket < tableSize, ∀ file ∈ t.table bucket, (file.fd : Int) ≠ fd

theorem FdTable.Free.getFile {t : FdTable} {fd : Int} (free : t.Free fd) : t.getFile fd = none := by
  unfold FdTable.getFile
  split
  · rfl
  · rename_i natural
    refine List.find?_eq_none.mpr fun file inBucket same => ?_
    have apart := free (fd.toNat % tableSize) (Nat.mod_lt _ (by decide)) file inBucket
    have eq : file.fd = fd.toNat := beq_iff_eq.mp same
    omega

theorem FdTable.free_of_neg (t : FdTable) {fd : Int} (negative : fd < 0) : t.Free fd := by
  intro bucket _ file _
  omega

namespace VFS

open Prog FsM

/-- The call looks the descriptor up: nothing is wrong with its other arguments. -/
inductive Op.Uses (fd : Int) : Op → Prop
  | close : Uses fd (.close fd)
  | read {count : Nat} (positive : 0 < count) : Uses fd (.read fd count)
  | write {buf : List UInt8} (positive : buf ≠ []) : Uses fd (.write fd buf)
  | lseek {offset : Int} {whence : Whence} : Uses fd (.lseek fd offset whence)
  | fstat : Uses fd (.fstat fd)
  | getdents {count : Int} (sufficient : (sizeofDirent : Int) + 2 ≤ count) : Uses fd (.getdents fd count)
  | fchdir : Uses fd (.fchdir fd)
  | ftruncate {length : Int} : Uses fd (.ftruncate fd length)

/-- `remove_file` takes the remainder of a negative descriptor as an index. -/
def Op.indexesBefore : Op → Prop
  | .close fd => fd < 0 ∧ fd.tmod FdTable.tableSize ≠ 0
  | _ => False

section Rejects

variable {disk : Disk Errno} {w : World Fs} {fd : Int}

/-- A call that begins with `get_file`. -/
theorem getFile_rejects {α : Type} (f : α → Value) (free : w.state.fdTable.Free fd)
    (rest : File → FsM (Except Errno α)) :
    (returning f (do
      match ← FsM.getFile fd with
      | none => Pure.pure (.error .ebadf)
      | some file => rest file)).run disk w = .ok (.error .ebadf, w) := by
  have missing : (FsM.getFile fd).run disk w = .ok (none, w) :=
    congrArg (fun file => Except.ok (file, w)) free.getFile
  have split : ∀ {β γ : Type} (p : FsM β) (k : β → FsM γ), (p >>= k).run disk w =
      (p.run disk w).bind fun r => (k r.1).run disk r.2 := fun p k => run_bind p k w
  rw [returning, split, split, missing]
  rfl

/-- `close` goes by the bucket without a check of the sign. -/
theorem close_run (fd : Int) (free : w.state.fdTable.Free fd) :
    (Op.close fd).call.run disk w =
      if fd < 0 ∧ fd.tmod FdTable.tableSize ≠ 0 then .error .outOfBounds
      else .ok (.error .ebadf, w) := by
  change ((returning _ (if fd < 0 then _ else _) : FsM Result)).run disk w = _
  by_cases negative : fd < 0
  · by_cases outside : fd.tmod FdTable.tableSize ≠ 0
    · rw [if_pos negative, if_pos outside, if_pos ⟨negative, outside⟩]
      rfl
    · rw [if_pos negative, if_neg outside, if_neg fun both => outside both.2]
      rfl
  · have natural : (fd.toNat : Int) = fd := Int.toNat_of_nonneg (by omega)
    have missing : w.state.fdTable.removeFile fd.toNat = none := by
      unfold FdTable.removeFile
      rw [natural, free.getFile]
    rw [if_neg negative, missing, if_neg fun both => negative both.1]
    rfl

/-- A descriptor that no open file has is refused and nothing changes, exactly unless the
table is indexed before its start. -/
theorem rejected_iff {op : Op} (uses : op.Uses fd) (free : w.state.fdTable.Free fd) :
    op.call.run disk w = .ok (.error .ebadf, w) ↔ ¬ op.indexesBefore := by
  cases uses with
  | close =>
    rw [close_run fd free]
    unfold Op.indexesBefore
    split
    · rename_i outside
      exact ⟨fun returns => (by cases returns), fun inside => absurd outside inside⟩
    · rename_i inside
      exact ⟨fun _ => inside, fun _ => rfl⟩
  | @read count positive =>
    refine ⟨fun _ => id, fun _ => ?_⟩
    rw [Op.call, VFS.read, if_neg (Nat.ne_of_gt positive)]
    exact getFile_rejects _ free _
  | @write buf positive =>
    refine ⟨fun _ => id, fun _ => ?_⟩
    rw [Op.call, VFS.write, if_neg positive]
    exact getFile_rejects _ free _
  | lseek => exact ⟨fun _ => id, fun _ => getFile_rejects _ free _⟩
  | fstat => exact ⟨fun _ => id, fun _ => getFile_rejects _ free _⟩
  | @getdents count sufficient =>
    refine ⟨fun _ => id, fun _ => ?_⟩
    rw [Op.call, VFS.getdents, if_neg (Int.not_lt.mpr sufficient)]
    exact getFile_rejects _ free _
  | fchdir => exact ⟨fun _ => id, fun _ => getFile_rejects _ free _⟩
  | ftruncate => exact ⟨fun _ => id, fun _ => getFile_rejects _ free _⟩

end Rejects

open SmallImage

/-- A volume on which `f` is open. -/
@[irreducible] def withOpenFile : World Fs :=
  match session ⟨false, neverFails⟩ withFile [.mount 10 .all, .open nameF Flags.rdwr] with
  | .ok (_, w) => w
  | .error _ => .initial withFile

/-- Two descriptors in the bucket of the open file. -/
theorem close_multiple_rejected : withOpenFile.state.fdTable.getFile 0 ≠ none ∧
    (Op.close (-8)).call.run ⟨false, neverFails⟩ withOpenFile = .ok (.error .ebadf, withOpenFile) ∧
      (Op.write 8 [7]).call.run ⟨false, neverFails⟩ withOpenFile = .ok (.error .ebadf, withOpenFile) := by
  have opened : (withOpenFile.state.fdTable.getFile 0).isSome := by decide +kernel
  have free : withOpenFile.state.fdTable.Free 8 := by
    unfold FdTable.Free
    decide +kernel
  refine ⟨Option.isSome_iff_ne_none.mp opened, ?_, ?_⟩
  · exact (rejected_iff .close (FdTable.free_of_neg _ (by decide))).mpr fun outside => outside.2 (by decide)
  · exact (rejected_iff (.write (List.cons_ne_nil 7 [])) free).mpr id

theorem close_negative_out_of_bounds : ∃ results w,
    session ⟨false, neverFails⟩ withFile [.mount 10 .all] = .ok (results, w) ∧
      w.state.fdTable.Free (-1) ∧
      (Op.close (-1)).call.run ⟨false, neverFails⟩ w = .error .outOfBounds := by
  have returns : ((session ⟨false, neverFails⟩ withFile [.mount 10 .all]).isOk : Bool) = true := by
    decide +kernel
  cases mounted : session ⟨false, neverFails⟩ withFile [.mount 10 .all] with
  | error f =>
    rw [mounted] at returns
    cases returns
  | ok r =>
    have free := r.2.state.fdTable.free_of_neg (show (-1 : Int) < 0 by decide)
    refine ⟨r.1, r.2, rfl, free, ?_⟩
    rw [close_run (-1) free]
    exact if_pos ⟨by decide, by decide⟩

end VFS
end MPStuBS
