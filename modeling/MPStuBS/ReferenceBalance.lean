import MPStuBS.ReferenceCalls

/-! Path resolution and the calls of the VFS: which references they hold when they return. -/
namespace MPStuBS.VFS

open Prog FsM

variable {s₀ s : Fs} {held : List Nat}

/-- What is assumed of `resolve_symlink` inside a path walk. -/
def Resolves (s₀ : Fs) (resolve : Nat → Nat → FsM (Except Errno Nat)) : Prop :=
  ∀ {s : Fs} {held : List Nat} (symlink curDir : Nat), Owes s₀ s held → curDir < s.allocated →
    (resolve symlink curDir).Always (Owing s₀ held) s

theorem pathwalkStep1_owes (owes : Owes s₀ s held) (pathname : PathName) {cwd : Option Nat}
    (allocated : ∀ o ∈ cwd, o < s.allocated) :
    (pathwalkStep1 pathname cwd).Always (OwingPath s₀ held) s := by
  unfold pathwalkStep1
  simp only [always_bind]
  change Always (if !s.mounted then _ else _) _ s
  split
  · exact owes
  rename_i mounted
  have root : s.rootInode < s.allocated := owes.wf.root (by simpa using mounted)
  cases pathname with
  | nil => exact owes
  | cons c rest =>
    refine always_bind.mpr ((owes.get ?_).mono fun _ s₁ owes => owes)
    split
    · exact root
    · cases cwd with
      | none => exact root
      | some o => exact allocated o rfl

variable {resolve : Nat → Nat → FsM (Except Errno Nat)}

/-- Following a symbolic link replaces the reference to it by one to its target. -/
theorem follow_owes (resolves : Resolves s₀ resolve) {inode curDir : Nat} (isLnk : Bool)
    (owes : Owes s₀ s (inode :: curDir :: held)) :
    (follow resolve inode curDir isLnk).Always (Owing s₀ (curDir :: held)) s := by
  unfold follow
  split
  · refine always_bind.mpr ((resolves inode curDir owes owes.swap.allocated).mono fun r s₁ owing => ?_)
    cases r with
    | error e =>
      have owes : Owes s₀ s₁ (inode :: curDir :: held) := owing
      exact owes.putThen fun s₂ owes => owes
    | ok t =>
      have owes : Owes s₀ s₁ (t :: inode :: curDir :: held) := owing
      exact owes.swap.putThen fun s₂ owes => owes
  · exact owes

theorem pathwalkStep2_owes (resolves : Resolves s₀ resolve) (fuel : Nat) :
    ∀ {s : Fs} {path : Path}, Owes s₀ s (path.curDir :: held) →
      (pathwalkStep2 resolve fuel path).Always (OwingPath s₀ held) s := by
  induction fuel with
  | zero => exact fun _ => trivial
  | succ fuel ih =>
    intro s path owes
    unfold pathwalkStep2
    dsimp only
    split
    · exact owes
    split
    · exact owes
    split
    · exact ih owes
    refine owes.bind Quiet.get fun t s₁ owes => ?_
    split
    · exact ih owes
    refine always_bind.mpr ((Minix.lookup_owes owes _ _).mono fun r s₂ owing => ?_)
    match r with
    | .error e =>
      have owes : Owes s₀ s₂ (path.curDir :: held) := owing
      exact owes.putThen fun s₃ owes => owes
    | .ok none =>
      have owes : Owes s₀ s₂ (path.curDir :: held) := owing
      exact owes.putThen fun s₃ owes => owes
    | .ok (some inode) =>
      have owes : Owes s₀ s₂ (inode :: path.curDir :: held) := owing
      refine owes.bind Quiet.inode fun i s₃ owes => ?_
      refine always_bind.mpr ((follow_owes resolves _ owes).mono fun target s₄ owing => ?_)
      cases target with
      | error e =>
        have owes : Owes s₀ s₄ (path.curDir :: held) := owing
        exact owes.putThen fun s₅ owes => owes
      | ok next =>
        have owes : Owes s₀ s₄ (next :: path.curDir :: held) := owing
        refine owes.swap.putThen fun s₅ owes => owes.bind Quiet.inode fun i s₆ owes => ?_
        split
        · exact ih owes
        · exact owes.putThen fun s₇ owes => owes

theorem pathwalkStep3_owes (resolves : Resolves s₀ resolve) {path : Path} (followSymlink : Bool)
    (owes : Owes s₀ s (path.curDir :: held)) :
    (pathwalkStep3 resolve path followSymlink).Always (Owing s₀ held) s := by
  unfold pathwalkStep3
  dsimp only
  split
  · exact owes
  refine always_bind.mpr ((Minix.lookup_owes owes _ _).mono fun r s₁ owing => ?_)
  match r with
  | .error e =>
    have owes : Owes s₀ s₁ (path.curDir :: held) := owing
    exact owes.putThen fun s₂ owes => owes
  | .ok none =>
    have owes : Owes s₀ s₁ (path.curDir :: held) := owing
    exact owes.putThen fun s₂ owes => owes
  | .ok (some inode) =>
    have owes : Owes s₀ s₁ (inode :: path.curDir :: held) := owing
    refine owes.bind Quiet.inode fun i s₂ owes => ?_
    refine always_bind.mpr ((follow_owes resolves _ owes).mono fun target s₃ owing => ?_)
    cases target with
    | error e =>
      have owes : Owes s₀ s₃ (path.curDir :: held) := owing
      exact owes.putThen fun s₄ owes => owes
    | ok next =>
      have owes : Owes s₀ s₃ (next :: path.curDir :: held) := owing
      refine owes.swap.putThen fun s₄ owes => owes.bind Quiet.inode fun i s₅ owes => ?_
      split
      · exact owes.putThen fun s₆ owes => owes
      · exact owes

theorem pathwalkStep12With_owes (resolves : Resolves s₀ resolve) (owes : Owes s₀ s held)
    (pathname : PathName) {cwd : Option Nat} (allocated : ∀ o ∈ cwd, o < s.allocated) :
    (pathwalkStep12With resolve pathname cwd).Always (OwingPath s₀ held) s := by
  refine always_bind.mpr ((pathwalkStep1_owes owes pathname allocated).mono fun r s₁ owing => ?_)
  cases r with
  | error e => exact owing
  | ok path => exact pathwalkStep2_owes resolves _ owing

theorem pathwalkStep123With_owes (resolves : Resolves s₀ resolve) (owes : Owes s₀ s held)
    (pathname : PathName) {cwd : Option Nat} (allocated : ∀ o ∈ cwd, o < s.allocated) (follow : Bool) :
    (pathwalkStep123With resolve pathname cwd follow).Always (Owing s₀ held) s := by
  refine always_bind.mpr ((pathwalkStep12With_owes resolves owes pathname allocated).mono
    fun r s₁ owing => ?_)
  cases r with
  | error e => exact owing
  | ok path => exact pathwalkStep3_owes resolves follow owing

theorem resolves (s₀ : Fs) (depth : Nat) : Resolves s₀ (resolveSymlink depth) := by
  induction depth with
  | zero => exact fun _ _ owes _ => owes
  | succ depth ih =>
    intro s held symlink curDir owes early
    unfold resolveSymlink
    have link := Filesystem.quiet_getLink symlink s
    simp only [always_bind]
    refine link.mono fun r s₁ quiet => ?_
    have owes₁ := owes.steady quiet.steady
    cases r with
    | error e => exact owes₁
    | ok target =>
      refine pathwalkStep123With_owes ih owes₁ _ (fun o isCwd => ?_) true
      obtain rfl : curDir = o := Option.some.inj isCwd
      rw [quiet.steady.allocated]
      exact early

theorem pathwalkStep12_owes (owes : Owes s₀ s held) (pathname : PathName) :
    (pathwalkStep12 pathname).Always (OwingPath s₀ held) s :=
  pathwalkStep12With_owes (resolves s₀ maxDepth) owes pathname owes.wf.cwd

theorem pathwalkStep123_owes (owes : Owes s₀ s held) (pathname : PathName) (follow : Bool) :
    (pathwalkStep123 pathname follow).Always (Owing s₀ held) s :=
  pathwalkStep123With_owes (resolves s₀ maxDepth) owes pathname owes.wf.cwd follow

end MPStuBS.VFS
