import MPStuBS.References

/-! What the functions of the file system hold when they return: each states which
references its caller has to give back. -/
namespace MPStuBS

open Prog FsM

/-- An inode that is returned is held. -/
def Owing (s₀ : Fs) (held : List Nat) : Except Errno Nat → Fs → Prop
  | .ok o, s => Owes s₀ s (o :: held)
  | .error _, s => Owes s₀ s held

def OwingPath (s₀ : Fs) (held : List Nat) : Except Errno VFS.Path → Fs → Prop
  | .ok path, s => Owes s₀ s (path.curDir :: held)
  | .error _, s => Owes s₀ s held

def OwingFound (s₀ : Fs) (held : List Nat) : Except Errno (Option Nat) → Fs → Prop
  | .ok (some o), s => Owes s₀ s (o :: held)
  | .ok none, s => Owes s₀ s held
  | .error _, s => Owes s₀ s held

variable {s₀ s : Fs} {held : List Nat}

/-- A steady program before the rest. -/
theorem Accounts.bind {α β : Type} {dropped : List Nat} {p : FsM α} {f : α → FsM β}
    {post : β → Fs → Prop} (owes : Accounts s₀ s held dropped) (steady : Steady p)
    (rest : ∀ a s', Accounts s₀ s' held dropped → (f a).Always post s') : (p >>= f).Always post s :=
  always_bind.mpr ((steady.owes owes).mono rest)

/-- Giving back what was taken last, before the rest. -/
theorem Accounts.putThen {β : Type} {dropped : List Nat} {o : Nat} {f : Unit → FsM β}
    {post : β → Fs → Prop} (owes : Accounts s₀ s (o :: held) dropped)
    (rest : ∀ s', Accounts s₀ s' held dropped → (f ()).Always post s') :
    (Inode.put o >>= f).Always post s :=
  always_bind.mpr (owes.put.mono fun _ s' => rest s')

namespace InodeCache

theorem insertInode_owes {o : Nat} (owes : Owes s₀ s (o :: held)) :
    (insertInode o).Always (fun _ s' => Owes s₀ s' (o :: held)) s := by
  unfold insertInode
  refine owes.bind Quiet.get fun _ s₁ owes => owes.bind Quiet.inode fun _ s₂ owes =>
    owes.bind (quiet_contains _ _).steady fun found s₃ owes => ?_
  split
  · exact owes
  · refine owes.steady ⟨rfl, rfl, rfl, fun _ => rfl, fun _ => id, fun wf => ⟨fun p inCache => ?_, wf.cwd, wf.root, wf.files⟩⟩
    rcases List.mem_append.mp inCache with old | new
    · exact wf.icache p old
    · rw [List.mem_singleton.mp new]
      exact owes.allocated

/-- The inode that is found is in the list. -/
theorem find_owes (ino : Nat) (cache : List Nat) :
    ∀ {s : Fs}, Owes s₀ s held → (find ino cache).Always
      (fun found s' => Owes s₀ s' held ∧ s'.allocated = s.allocated ∧ ∀ o ∈ found, o ∈ cache) s := by
  induction cache with
  | nil =>
    intro s owes
    exact ⟨owes, rfl, by simp⟩
  | cons cur rest ih =>
    intro s owes
    simp only [find, always_bind, FsM.inode]
    change Always (if (s.inodes cur).deleted then _ else _) _ _
    split
    · trivial
    simp only [always_pure]
    split
    · exact ⟨owes, rfl, by simp⟩
    · refine (ih owes).mono ?_
      rintro found s' ⟨owes, allocated, member⟩
      exact ⟨owes, allocated, fun o isFound => List.mem_cons_of_mem _ (member o isFound)⟩

theorem getInode_owes (owes : Owes s₀ s held) (ino : Nat) :
    (getInode ino).Always (fun o s' => Owes s₀ s' (o :: held)) s := by
  unfold getInode
  refine owes.bind Steady.maybeEvictInodes fun _ s₁ owes => ?_
  simp only [always_bind]
  refine (find_owes ino s₁.icache owes).mono ?_
  rintro found s₂ ⟨owes', allocated, member⟩
  cases found with
  | some cur =>
    have early : cur < s₂.allocated := by
      rw [allocated]
      exact owes.wf.icache cur (member cur rfl)
    exact always_bind.mpr ((owes'.get early).mono fun _ s₃ owes => owes)
  | none =>
    exact always_bind.mpr (owes'.allocate.mono fun o s₃ owes =>
      always_bind.mpr ((insertInode_owes owes).mono fun _ s₄ owes => owes))

end InodeCache

namespace Minix

theorem iget_owes (owes : Owes s₀ s held) (ino : Nat) : (iget ino).Always (Owing s₀ held) s := by
  have fields : ∀ (o : Nat) (bytes : Bytes) (raw : Nat), Steady (setInode o (readInode bytes raw ino)) :=
    fun _ _ _ => Steady.setInode (fun _ => rfl) fun _ => id
  have notNew : ∀ o : Nat, Steady (setInode o fun i => { i with new := false }) :=
    fun _ => Steady.setInode (fun _ => rfl) fun _ => id
  unfold iget
  refine always_bind.mpr ((InodeCache.getInode_owes owes ino).mono fun o s₁ owes => ?_)
  refine owes.bind Quiet.inode fun i s₂ owes => ?_
  split
  · exact owes
  refine owes.bind (quiet_rawInode ino).steady fun r s₃ owes => ?_
  cases r with
  | error e =>
    exact always_bind.mpr (((Steady.destroy o).owes owes).and (Steady.destroy_deletes o _) |>.mono
      fun _ s₄ ⟨owes, deleted⟩ => always_bind.mpr ((owes.lose deleted).mono fun _ s₅ owes => owes))
  | ok r =>
    exact owes.bind Quiet.load fun bytes s₄ owes => owes.bind (fields _ _ _) fun _ s₅ owes =>
      owes.bind Quiet.unfix fun _ s₆ owes => owes.bind (notNew o) fun _ s₇ owes =>
        owes.bind (quiet_inodeMarked ino).steady fun marked s₈ owes =>
          always_bind.mpr (owes.load.mono fun _ s₉ owes => owes)

theorem lookup_owes (owes : Owes s₀ s held) (dir : Nat) (name : List UInt8) :
    (lookup dir name).Always (OwingFound s₀ held) s := by
  unfold lookup
  refine owes.bind (quiet_findDirent dir name).steady fun found s₁ owes => ?_
  match found with
  | .error e => exact owes
  | .ok none => exact owes
  | .ok (some (block, k)) =>
    refine owes.bind Quiet.load fun bytes s₂ owes => owes.bind Quiet.unfix fun _ s₃ owes => ?_
    refine always_bind.mpr ((iget_owes owes _).mono fun r s₄ owing => ?_)
    cases r <;> exact owing

theorem newInode_owes (owes : Owes s₀ s held) (mode : Nat) :
    (newInode mode).Always (Owing s₀ held) s := by
  unfold newInode
  refine owes.bind Quiet.get fun t s₁ owes =>
    owes.bind (quiet_findFreeInode _ _).steady fun found s₂ owes => ?_
  cases found with
  | none => exact owes
  | some found =>
    refine owes.bind Quiet.load fun bitmap s₃ owes => ?_
    split
    · exact owes
    refine owes.bind Quiet.store fun _ s₄ owes => ?_
    dsimp only
    split
    · exact owes
    refine always_bind.mpr (owes.allocate.mono fun o s₅ owes => ?_)
    have number : ∀ j : Nat, Steady (setInode o fun i => { i with ino := j, mode := mode, data := fun _ => 0 }) :=
      fun _ => Steady.setInode (fun _ => rfl) fun _ => id
    have notNew : Steady (setInode o fun i => { i with new := false }) := Steady.setInode (fun _ => rfl) fun _ => id
    exact owes.bind Quiet.markDirty fun _ s₆ owes => owes.bind (number _) fun _ s₇ owes =>
      owes.bind Quiet.setDirty.steady fun _ s₈ owes => owes.bind notNew fun _ s₉ owes =>
        always_bind.mpr ((InodeCache.insertInode_owes owes).mono fun _ s₁₀ owes => owes)

theorem abandon_owes {o : Nat} (owes : Owes s₀ s (o :: held)) :
    (abandon o).Always (fun _ s' => Owes s₀ s' held) s :=
  owes.bind Quiet.setNlinks.steady fun _ _ owes => owes.bind Quiet.setDirty.steady fun _ _ owes =>
    owes.put

theorem mkdir_owes (owes : Owes s₀ s held) (parentDir : Nat) (name : List UInt8) (mode : Nat) :
    (mkdir parentDir name mode).Always (fun _ s' => Owes s₀ s' held) s := by
  unfold mkdir
  split
  · exact owes
  refine always_bind.mpr ((newInode_owes owes mode).mono fun r s₁ owing => ?_)
  cases r with
  | error e => exact owing
  | ok o =>
    have owes : Owes s₀ s₁ (o :: held) := owing
    refine owes.bind Quiet.setNlinks.steady fun _ s₂ owes =>
      owes.bind (quiet_makeEmptyDir o parentDir).steady fun r s₃ owes => ?_
    cases r with
    | error e => exact always_bind.mpr ((abandon_owes owes).mono fun _ s₄ owes => owes)
    | ok _ =>
      refine owes.bind (quiet_addLink parentDir o name).steady fun r s₄ owes => ?_
      cases r with
      | error e => exact always_bind.mpr ((abandon_owes owes).mono fun _ s₅ owes => owes)
      | ok _ =>
        exact owes.bind Quiet.incNlinks.steady fun _ s₅ owes =>
          owes.bind Quiet.setDirty.steady fun _ s₆ owes => owes.putThen fun s₇ owes => owes

theorem create_owes (owes : Owes s₀ s held) (dir : Nat) (name : List UInt8) (mode : Nat) :
    (create dir name mode).Always (Owing s₀ held) s := by
  unfold create
  split
  · exact owes
  refine always_bind.mpr ((newInode_owes owes mode).mono fun r s₁ owing => ?_)
  cases r with
  | error e => exact owing
  | ok o =>
    have owes : Owes s₀ s₁ (o :: held) := owing
    refine owes.bind (quiet_addLink dir o name).steady fun r s₂ owes => ?_
    cases r with
    | error e => exact always_bind.mpr ((abandon_owes owes).mono fun _ s₃ owes => owes)
    | ok _ =>
      exact owes.bind Quiet.setNlinks.steady fun _ s₃ owes =>
        owes.bind Quiet.setDirty.steady fun _ s₄ owes => owes

theorem symlink_owes (owes : Owes s₀ s held) (dir : Nat) (name symname : List UInt8) :
    (symlink dir name symname).Always (fun _ s' => Owes s₀ s' held) s := by
  unfold symlink
  split
  · exact owes
  refine owes.bind Quiet.get fun t s₁ owes => ?_
  dsimp only
  split
  · exact owes
  refine always_bind.mpr ((newInode_owes owes _).mono fun r s₂ owing => ?_)
  cases r with
  | error e => exact owing
  | ok o =>
    have owes : Owes s₀ s₂ (o :: held) := owing
    have finished : Steady (setInode o fun i => { i with nlinks := 1, size := symname.length + 1 }) :=
      Steady.setInode (fun _ => rfl) fun _ => id
    refine owes.bind Quiet.setNlinks.steady fun _ s₃ owes =>
      owes.bind (quiet_writeAll _ _ _ _).steady fun r s₄ owes => ?_
    cases r with
    | error e => exact owes.bind Quiet.setDirty.steady fun _ s₅ owes => owes.putThen fun s₆ owes => owes
    | ok _ =>
      refine owes.bind (quiet_addLink dir o name).steady fun result s₅ owes => ?_
      split
      · exact owes.bind finished fun _ s₆ owes => owes.bind Quiet.setDirty.steady fun _ s₇ owes =>
          owes.putThen fun s₈ owes => owes
      · exact owes.bind Quiet.setDirty.steady fun _ s₆ owes => owes.putThen fun s₇ owes => owes

theorem iterateBlock_owes (block n : Nat) :
    ∀ {s : Fs} (k : Nat) (ctx : ReaddirContext), Owes s₀ s held →
      (iterateBlock block n k ctx).Always (fun _ s' => Owes s₀ s' held) s := by
  induction n with
  | zero => exact fun _ _ owes => owes
  | succ n ih =>
    intro s k ctx owes
    unfold iterateBlock
    refine owes.bind Quiet.load fun bytes s₁ owes => ?_
    split
    · exact ih _ _ owes
    have emit : ∀ {s : Fs} (type : Nat), Owes s₀ s held →
        (do
          let bytes ← load block
          let name := Filesystem.take bytes (64 * k + 4) (namelen bytes k 60)
          let emitted := ctx.dirEmit name (direntInode bytes k) type
          if emitted.1 then iterateBlock block n (k + 1) { emitted.2 with pos := emitted.2.pos + 64 }
          else Pure.pure (false, emitted.2) : FsM (Bool × ReaddirContext)).Always
        (fun _ s' => Owes s₀ s' held) s := by
      intro s type owes
      refine owes.bind Quiet.load fun bytes s₂ owes => ?_
      dsimp only
      split
      · exact ih _ _ owes
      · exact owes
    refine always_bind.mpr ((iget_owes owes _).mono fun r s₂ owing => ?_)
    cases r with
    | error e => exact emit 0 owing
    | ok o =>
      have owes : Owes s₀ s₂ (o :: held) := owing
      exact owes.bind Quiet.inode fun i s₃ owes => owes.putThen fun s₄ owes => emit _ owes

theorem iterateLoop_owes (dir n : Nat) :
    ∀ {s : Fs} (lblock offset : Nat) (ctx : ReaddirContext), Owes s₀ s held →
      (iterateLoop dir n lblock offset ctx).Always (fun _ s' => Owes s₀ s' held) s := by
  induction n with
  | zero => exact fun _ _ _ owes => owes
  | succ n ih =>
    intro s lblock offset ctx owes
    unfold iterateLoop
    refine owes.bind (quiet_getBlock _ _ _).steady fun r s₁ owes => ?_
    cases r with
    | error e => exact owes
    | ok blockno =>
      refine owes.bind Quiet.fix fun r s₂ owes => ?_
      cases r with
      | error e => exact owes
      | ok block =>
        refine owes.bind (quiet_dirBlockLastByte _ _).steady fun lastByte s₃ owes => ?_
        refine always_bind.mpr ((iterateBlock_owes block _ _ _ owes).mono fun (go, ctx) s₄ owes => ?_)
        refine owes.bind Quiet.unfix fun _ s₅ owes => ?_
        split
        · exact ih _ _ _ owes
        · exact owes

theorem iterateDir_owes (owes : Owes s₀ s held) (dir : Nat) (ctx : ReaddirContext) :
    (iterateDir dir ctx).Always (fun _ s' => Owes s₀ s' held) s :=
  owes.bind Quiet.get fun _ _ owes => owes.bind Quiet.inode fun _ _ owes =>
    iterateLoop_owes _ _ _ _ _ owes

end Minix
end MPStuBS
