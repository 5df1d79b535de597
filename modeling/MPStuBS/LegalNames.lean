import MPStuBS.StateLogic
import MPStuBS.VfsDevices
import Mathlib.Data.List.TakeWhile

/-! The names under which the calls make directory entries. The calls are repeated here with the
function that adds an entry as a parameter, so that its names can be checked. -/
namespace MPStuBS

/-- A name that an entry may have: 1 to 60 bytes, none of them a slash or null. -/
structure LegalName (name : List UInt8) : Prop where
  nonempty : name ≠ []
  length : name.length ≤ 60
  noSlash : VFS.slash ∉ name
  noNull : 0 ∉ name

instance (name : List UInt8) : Decidable (LegalName name) :=
  decidable_of_iff (name ≠ [] ∧ name.length ≤ 60 ∧ VFS.slash ∉ name ∧ 0 ∉ name)
    ⟨fun ⟨a, b, c, d⟩ => ⟨a, b, c, d⟩, fun ⟨a, b, c, d⟩ => ⟨a, b, c, d⟩⟩

/-- The type of `add_link`. -/
abbrev AddLink := Nat → Nat → List UInt8 → FsM (Except Errno Unit)

namespace Minix

open FsM

/-- `add_link` with the check that the name is legal. -/
def addLegalLink : AddLink := fun dir inode name =>
  if LegalName name then addLink dir inode name else fault .assertion

variable (add : AddLink)

def mkdirWith (parentDir : Nat) (name : List UInt8) (mode : Nat) : FsM (Except Errno Unit) := do
  if 60 < name.length then pure (.error .enametoolong)
  else do
    match ← newInode mode with
    | .error e => pure (.error e)
    | .ok inode => do
      setInode inode fun i => { i with nlinks := 0 }
      match ← makeEmptyDir inode parentDir with
      | .error e => do
        abandon inode
        pure (.error e)
      | .ok () => do
        match ← add parentDir inode name with
        | .error e => do
          abandon inode
          pure (.error e)
        | .ok () => do
          setInode inode .incNlinks
          setInode inode .setDirty
          Inode.put inode
          pure (.ok ())

def linkWith (dir : Nat) (name : List UInt8) (inode : Nat) : FsM (Except Errno Unit) := do
  if 60 < name.length then pure (.error .enametoolong)
  else do
    match ← add dir inode name with
    | .error e => pure (.error e)
    | .ok () => do
      setInode inode .incNlinks
      setInode inode .setDirty
      pure (.ok ())

def createWith (dir : Nat) (name : List UInt8) (mode : Nat) : FsM (Except Errno Nat) := do
  if 60 < name.length then pure (.error .enametoolong)
  else do
    match ← newInode mode with
    | .error e => pure (.error e)
    | .ok inode => do
      match ← add dir inode name with
      | .error e => do
        abandon inode
        pure (.error e)
      | .ok () => do
        setInode inode fun i => { i with nlinks := 1 }
        setInode inode .setDirty
        pure (.ok inode)

def symlinkWith (dir : Nat) (name symname : List UInt8) : FsM (Except Errno Unit) := do
  if 60 < name.length then pure (.error .enametoolong)
  else do
    let s ← get
    let len := symname.length + 1
    if s.blocksize < len ∨ Filesystem.maxSymlinkLen < len then pure (.error .enametoolong)
    else do
      match ← newInode (Mode.iflnk ||| 0o777) with
      | .error e => pure (.error e)
      | .ok inode => do
        setInode inode fun i => { i with nlinks := 0 }
        match ← writeAll inode (symname ++ [0]) (len + 1) 0 with
        | .error e => do
          setInode inode .setDirty
          Inode.put inode
          pure (.error e)
        | .ok () => do
          let result ← add dir inode name
          if result = .ok () then setInode inode fun i => { i with nlinks := 1, size := len }
          else pure ()
          setInode inode .setDirty
          Inode.put inode
          pure result

def renameWith (oldDir oldInode : Nat) (oldName : List UInt8) (newDir : Nat) (newInode : Option Nat)
    (newName : List UInt8) : FsM (Except Errno Unit) := do
  if 60 < oldName.length ∨ 60 < newName.length then pure (.error .enametoolong)
  else do
    match ← findDirent oldDir oldName with
    | .error e => pure (.error e)
    | .ok none => pure (.error .enoent)
    | .ok (some (oldBlock, oldK)) => do
      let i ← inode oldInode
      let oldIsDir := Mode.isDir i.mode
      match ← findDirent newDir newName with
      | .error e => renameFail oldInode oldBlock e
      | .ok (some (newBlock, newK)) => do
        match newInode with
        | none => fault .assertion
        | some newInode => do
          let n ← inode newInode
          let newIsDir := Mode.isDir n.mode
          match ← checkReplace newInode oldIsDir newIsDir with
          | .error e => do
            release newInode
            unfix newBlock
            renameFail oldInode oldBlock e
          | .ok () => do
            let i ← inode oldInode
            let bytes ← load newBlock
            store newBlock (bytes.setU32 (64 * newK) i.ino)
            markDirty newBlock
            unfix newBlock
            if newIsDir then setInode newInode .decNlinks else pure ()
            setInode newInode .decNlinks
            setInode newInode .setDirty
            release newInode
            renameFinish oldDir oldInode newDir oldBlock oldK oldIsDir
      | .ok none => do
        match newInode with
        | some _ => fault .assertion
        | none => do
          match ← add newDir oldInode newName with
          | .error e => renameFail oldInode oldBlock e
          | .ok () => do
            if oldIsDir then setInode newDir .incNlinks else pure ()
            renameFinish oldDir oldInode newDir oldBlock oldK oldIsDir

end Minix

namespace VFS

open FsM

section

variable (add : AddLink)

def openWith (pathname : PathName) (flags : Nat) : FsM (Except Errno Nat) := do
  let s ← get
  let accmode := flags &&& Flags.accmode
  if !s.mounted then pure (.error .enodev)
  else if flags &&& (Flags.accmode ||| Flags.creat ||| Flags.excl) ≠ flags then pure (.error .einval)
  else if flags &&& Flags.excl ≠ 0 ∧ flags &&& Flags.creat = 0 then pure (.error .einval)
  else do
    match ← pathwalkStep12 pathname with
    | .error e => pure (.error e)
    | .ok path => do
      let filename := path.pathname
      let parentDir := path.curDir
      let mustBeDir := hasSlash filename
      if mustBeDir ∧ flags &&& Flags.creat ≠ 0 then do
        Inode.put parentDir
        pure (.error .einval)
      else do
        Inode.get parentDir
        match ← pathwalkStep3 (resolveSymlink maxDepth) path true with
        | .ok inode => do
          Inode.put parentDir
          match ← checkOpen inode flags accmode mustBeDir with
          | some e => do
            Inode.put inode
            pure (.error e)
          | none => openFile inode accmode
        | .error e => do
          if e ≠ .enoent then do
            Inode.put parentDir
            pure (.error e)
          else if flags &&& Flags.creat = 0 then do
            Inode.put parentDir
            pure (.error .enoent)
          else do
            let created ← Minix.createWith add parentDir filename (0o777 ||| Mode.ifreg)
            Inode.put parentDir
            match created with
            | .error e => pure (.error e)
            | .ok inode => openFile inode accmode

def mkdirWith (pathname : PathName) : FsM (Except Errno Unit) := do
  let s ← get
  if !s.mounted then pure (.error .enodev)
  else do
    match ← pathwalkStep12 pathname with
    | .error e => pure (.error e)
    | .ok path => do
      let result ← Minix.mkdirWith add path.curDir (component path.pathname) (0o777 ||| Mode.ifdir)
      Inode.put path.curDir
      pure result

def linkWith (oldpath newpath : PathName) : FsM (Except Errno Unit) := do
  match ← pathwalkStep123 oldpath false with
  | .error e => pure (.error e)
  | .ok inode => do
    let i ← FsM.inode inode
    if Mode.isDir i.mode then do
      Inode.put inode
      pure (.error .eperm)
    else do
      match ← pathwalkStep12 newpath with
      | .error e => do
        Inode.put inode
        pure (.error e)
      | .ok path => do
        if hasSlash path.pathname then do
          Inode.put path.curDir
          Inode.put inode
          pure (.error .einval)
        else do
          let result ← Minix.linkWith add path.curDir path.pathname inode
          Inode.put path.curDir
          Inode.put inode
          pure result

def symlinkWith (target linkpath : PathName) : FsM (Except Errno Unit) := do
  match ← pathwalkStep12 linkpath with
  | .error e => pure (.error e)
  | .ok path => do
    if hasSlash path.pathname then do
      Inode.put path.curDir
      pure (.error .einval)
    else do
      let result ← Minix.symlinkWith add path.curDir path.pathname target
      Inode.put path.curDir
      pure result

def renameDistinctWith (oldDir oldInode : Nat) (oldName : PathName) (newDir : Nat)
    (newInode : Option Nat) (newName : PathName) : FsM (Except Errno Unit) :=
  if oldDir ≠ newDir ∨ oldName ≠ newName then
    Minix.renameWith add oldDir oldInode oldName newDir newInode newName
  else pure (.ok ())

def renameInWith (oldPath newPath : Path) : FsM (Except Errno Unit) := do
  let oldDir := oldPath.curDir
  let newDir := newPath.curDir
  let oldName := component oldPath.pathname
  let newName := component newPath.pathname
  match ← Minix.lookup oldDir oldName with
  | .error e => leave oldDir newDir (.error e)
  | .ok none => leave oldDir newDir (.error .enoent)
  | .ok (some oldInode) => do
    let i ← inode oldInode
    let oldIsDir := Mode.isDir i.mode
    if hasSlash oldPath.pathname && !oldIsDir then do
      Inode.put oldInode
      leave oldDir newDir (.error .enoent)
    else do
      match ← Minix.lookup newDir newName with
      | .error e => do
        Inode.put oldInode
        leave oldDir newDir (.error e)
      | .ok newInode => do
        match ← refuses newInode oldIsDir (hasSlash newPath.pathname) with
        | some e => do
          Inode.put oldInode
          putNew newInode
          leave oldDir newDir (.error e)
        | none => do
          let result ← renameDistinctWith add oldDir oldInode oldName newDir newInode newName
          Inode.put oldInode
          putNew newInode
          leave oldDir newDir result

def renameWith (oldpath newpath : PathName) : FsM (Except Errno Unit) := do
  match ← pathwalkStep12 oldpath with
  | .error e => pure (.error e)
  | .ok oldPath => do
    match ← pathwalkStep12 newpath with
    | .error e => do
      Inode.put oldPath.curDir
      pure (.error e)
    | .ok newPath => renameInWith add oldPath newPath

/-- The call, with `add` in the place of `add_link`. -/
def Op.callWith : Op → FsM Result
  | .open pathname flags => returning (fun fd : Nat => .number fd) (openWith add pathname flags)
  | .mkdir pathname => returning (fun _ => .done) (mkdirWith add pathname)
  | .link oldpath newpath => returning (fun _ => .done) (linkWith add oldpath newpath)
  | .symlink target linkpath => returning (fun _ => .done) (symlinkWith add target linkpath)
  | .rename oldpath newpath => returning (fun _ => .done) (renameWith add oldpath newpath)
  | op => op.call

def callsWith : List Op → FsM (List Result)
  | [] => pure []
  | op :: rest => do
    let result ← op.callWith add
    let results ← callsWith rest
    pure (result :: results)

end

theorem callWith_addLink (op : Op) : op.callWith Minix.addLink = op.call := by
  cases op <;> rfl

/-- What the resolution of a path leaves: it starts with a name, unless the path is slashes only. -/
structure Remains (pathname rest : PathName) : Prop where
  bytes : ∀ c ∈ rest, c ∈ pathname
  nonempty : pathname ≠ []
  slashes : component rest = [] → pathname.all (· == slash) = true

theorem mem_of_mem_skipSlashes {s : PathName} {c : UInt8} (member : c ∈ skipSlashes s) : c ∈ s :=
  (List.dropWhile_suffix _).subset member

theorem component_skipSlashes {s : PathName} (empty : component (skipSlashes s) = []) :
    skipSlashes s = [] := by
  by_contra some
  have first : ((skipSlashes s).head some == slash) = false := List.head_dropWhile_not _ some
  cases eq : skipSlashes s with
  | nil => exact some eq
  | cons c rest =>
    simp only [eq, List.head_cons, beq_eq_false_iff_ne] at first
    rw [eq] at empty
    simp [component, first] at empty

theorem pathwalkStep1_remains (pathname : PathName) (cwd : Option Nat) (s : Fs) :
    (pathwalkStep1 pathname cwd).Always
      (fun r _ => ∀ path, r = .ok path → Remains pathname path.pathname) s := by
  simp only [pathwalkStep1, Prog.always_bind]
  change Prog.Always (if !s.mounted then _ else _) _ s
  split
  · rintro path ⟨⟩
  cases pathname with
  | nil => rintro path ⟨⟩
  | cons c rest =>
    simp only [Prog.always_bind]
    refine (Prog.always_true _ s).mono ?_
    rintro _ s' - path ⟨⟩
    split
    · rename_i isSlash
      refine ⟨fun c member => mem_of_mem_skipSlashes member, List.cons_ne_nil _ _, fun empty => ?_⟩
      have all := List.dropWhile_eq_nil_iff.mp (component_skipSlashes empty)
      simpa using all
    · rename_i other
      refine ⟨fun _ => id, List.cons_ne_nil _ _, fun empty => ?_⟩
      simp [component, other] at empty

theorem remains_next {pathname rest : PathName} (remains : Remains pathname rest) (n : Nat)
    (some : skipSlashes (rest.drop n) ≠ []) : Remains pathname (skipSlashes (rest.drop n)) :=
  ⟨fun c member => remains.bytes c (List.mem_of_mem_drop (mem_of_mem_skipSlashes member)),
    remains.nonempty, fun empty => absurd (component_skipSlashes empty) some⟩

theorem pathwalkStep2_remains (resolve : Nat → Nat → FsM (Except Errno Nat)) (pathname : PathName)
    (fuel : Nat) : ∀ (path : Path) (s : Fs), Remains pathname path.pathname →
    (pathwalkStep2 resolve fuel path).Always
      (fun r _ => ∀ path, r = .ok path → Remains pathname path.pathname) s := by
  induction fuel with
  | zero => exact fun _ _ _ => trivial
  | succ fuel ih =>
    intro path s remains
    simp only [pathwalkStep2]
    split
    · rintro path ⟨⟩
      exact remains
    split
    · rintro path ⟨⟩
      exact remains
    rename_i some
    have next := remains_next remains _ some
    split
    · exact ih _ s next
    simp only [Prog.always_bind]
    change Prog.Always (if _ ∧ path.curDir = s.rootInode then _ else _) _ s
    split
    · exact ih _ s next
    simp only [Prog.always_bind]
    refine (Prog.always_true _ s).mono fun found s _ => ?_
    rcases found with e | _ | inode
    · refine Prog.always_bind.mpr ((Prog.always_true _ s).mono ?_)
      rintro _ _ - path ⟨⟩
    · refine Prog.always_bind.mpr ((Prog.always_true _ s).mono ?_)
      rintro _ _ - path ⟨⟩
    · simp only [Prog.always_bind]
      refine (Prog.always_true _ s).mono fun i s _ => (Prog.always_true _ s).mono fun target s _ =>
        (Prog.always_true _ s).mono fun _ s _ => ?_
      cases target with
      | error e => rintro path ⟨⟩
      | ok inode =>
        simp only [Prog.always_bind]
        refine (Prog.always_true _ s).mono fun i s _ => ?_
        split
        · exact ih _ s next
        · refine Prog.always_bind.mpr ((Prog.always_true _ s).mono ?_)
          rintro _ _ - path ⟨⟩

theorem pathwalkStep12_remains (pathname : PathName) (s : Fs) :
    (pathwalkStep12 pathname).Always
      (fun r _ => ∀ path, r = .ok path → Remains pathname path.pathname) s := by
  simp only [pathwalkStep12, pathwalkStep12With, Prog.always_bind]
  refine (Prog.always_true _ s).mono fun s₁ s _ => ?_
  refine (pathwalkStep1_remains pathname s₁.cwd s).mono fun r s remains => ?_
  cases r with
  | error e => rintro path ⟨⟩
  | ok path => exact pathwalkStep2_remains _ pathname _ path s (remains path rfl)

/-- The condition on the new path of a call: a C string that does not consist of slashes only. The
empty path is rejected by the first step of its resolution. -/
structure Names (pathname : PathName) : Prop where
  noNull : 0 ∉ pathname
  some : pathname ≠ [] → pathname.all (· == slash) = false

theorem legal_component {pathname rest : PathName} (names : Names pathname)
    (remains : Remains pathname rest) (short : (component rest).length ≤ 60) :
    LegalName (component rest) := by
  refine ⟨fun empty => ?_, short, fun member => ?_, fun member => ?_⟩
  · have all := remains.slashes empty
    rw [names.some remains.nonempty] at all
    cases all
  · simpa using List.mem_takeWhile_imp member
  · exact names.noNull (remains.bytes 0 ((List.takeWhile_subset _) member))

theorem component_of_not_hasSlash {s : PathName} (none : hasSlash s = false) : component s = s := by
  refine List.takeWhile_eq_self_iff.mpr fun c member => ?_
  simp only [hasSlash, List.contains_eq_mem, decide_eq_false_iff_not] at none
  have other : c ≠ slash := fun eq => none (eq ▸ member)
  simpa using other

end VFS

namespace Minix

variable {name : List UInt8}

theorem addLegalLink_of_legal (legal : LegalName name) (dir inode : Nat) :
    addLegalLink dir inode name = addLink dir inode name := if_pos legal

theorem mkdirWith_legal (legal : name.length ≤ 60 → LegalName name) (parentDir mode : Nat) :
    mkdirWith addLegalLink parentDir name mode = mkdirWith addLink parentDir name mode := by
  unfold mkdirWith
  split
  · rfl
  · simp only [addLegalLink_of_legal (legal (by omega))]

theorem linkWith_legal (legal : name.length ≤ 60 → LegalName name) (dir inode : Nat) :
    linkWith addLegalLink dir name inode = linkWith addLink dir name inode := by
  unfold linkWith
  split
  · rfl
  · simp only [addLegalLink_of_legal (legal (by omega))]

theorem createWith_legal (legal : name.length ≤ 60 → LegalName name) (dir mode : Nat) :
    createWith addLegalLink dir name mode = createWith addLink dir name mode := by
  unfold createWith
  split
  · rfl
  · simp only [addLegalLink_of_legal (legal (by omega))]

theorem symlinkWith_legal (legal : name.length ≤ 60 → LegalName name) (dir : Nat) (symname : List UInt8) :
    symlinkWith addLegalLink dir name symname = symlinkWith addLink dir name symname := by
  unfold symlinkWith
  split
  · rfl
  · simp only [addLegalLink_of_legal (legal (by omega))]

theorem renameWith_legal (legal : name.length ≤ 60 → LegalName name) (oldDir oldInode : Nat)
    (oldName : List UInt8) (newDir : Nat) (newInode : Option Nat) :
    renameWith addLegalLink oldDir oldInode oldName newDir newInode name =
      renameWith addLink oldDir oldInode oldName newDir newInode name := by
  unfold renameWith
  split
  · rfl
  · simp only [addLegalLink_of_legal (legal (by omega))]

end Minix

namespace VFS

section

variable {disk : Disk Errno} {w : World Fs} {pathname : PathName}

theorem mkdirWith_run (names : Names pathname) :
    (mkdirWith Minix.addLegalLink pathname).run disk w = (mkdirWith Minix.addLink pathname).run disk w := by
  refine Prog.run_bind_congr (Prog.always_true _ _) fun s w _ => ?_
  split
  · rfl
  refine Prog.run_bind_congr (pathwalkStep12_remains pathname w.state) fun r w remains => ?_
  cases r with
  | error e => rfl
  | ok path => simp only [Minix.mkdirWith_legal (legal_component names (remains path rfl))]

/-- A name without a slash is what is left of its path. -/
theorem legal_rest {rest : PathName} (names : Names pathname) (remains : Remains pathname rest)
    (none : hasSlash rest = false) (short : rest.length ≤ 60) : LegalName rest := by
  have same := component_of_not_hasSlash none
  exact same ▸ legal_component names remains (same.symm ▸ short)

theorem linkWith_run (oldpath : PathName) (names : Names pathname) :
    (linkWith Minix.addLegalLink oldpath pathname).run disk w =
      (linkWith Minix.addLink oldpath pathname).run disk w := by
  refine Prog.run_bind_congr (Prog.always_true _ _) fun r w _ => ?_
  cases r with
  | error e => rfl
  | ok inode =>
    refine Prog.run_bind_congr (Prog.always_true _ _) fun i w _ => ?_
    split
    · rfl
    refine Prog.run_bind_congr (pathwalkStep12_remains pathname w.state) fun r w remains => ?_
    cases r with
    | error e => rfl
    | ok path =>
      cases slashed : hasSlash path.pathname with
      | true => simp only [slashed, if_true]
      | false => simp only [slashed, Bool.false_eq_true, if_false,
          Minix.linkWith_legal (legal_rest names (remains path rfl) slashed)]

theorem symlinkWith_run (target : PathName) (names : Names pathname) :
    (symlinkWith Minix.addLegalLink target pathname).run disk w =
      (symlinkWith Minix.addLink target pathname).run disk w := by
  refine Prog.run_bind_congr (pathwalkStep12_remains pathname w.state) fun r w remains => ?_
  cases r with
  | error e => rfl
  | ok path =>
    cases slashed : hasSlash path.pathname with
    | true => simp only [slashed, if_true]
    | false => simp only [slashed, Bool.false_eq_true, if_false,
        Minix.symlinkWith_legal (legal_rest names (remains path rfl) slashed)]

theorem renameWith_run (oldpath : PathName) (names : Names pathname) :
    (renameWith Minix.addLegalLink oldpath pathname).run disk w =
      (renameWith Minix.addLink oldpath pathname).run disk w := by
  refine Prog.run_bind_congr (Prog.always_true _ _) fun r w _ => ?_
  cases r with
  | error e => rfl
  | ok oldPath =>
    refine Prog.run_bind_congr (pathwalkStep12_remains pathname w.state) fun r w remains => ?_
    cases r with
    | error e => rfl
    | ok newPath => simp only [renameInWith, renameDistinctWith,
        Minix.renameWith_legal (legal_component names (remains newPath rfl))]

/-- The root itself exists, so that `open` does not create it. -/
theorem openWith_run (noNull : 0 ∉ pathname) (flags : Nat) :
    (openWith Minix.addLegalLink pathname flags).run disk w =
      (openWith Minix.addLink pathname flags).run disk w := by
  refine Prog.run_bind_congr (Prog.always_true _ _) fun s w _ => ?_
  dsimp only
  split
  · rfl
  split
  · rfl
  split
  · rfl
  refine Prog.run_bind_congr (pathwalkStep12_remains pathname w.state) fun r w remains => ?_
  cases r with
  | error e => rfl
  | ok path =>
    have remains := remains path rfl
    dsimp only
    split
    · rfl
    rename_i slashless
    refine Prog.run_bind_congr (Prog.always_true _ _) fun _ w _ => ?_
    by_cases empty : path.pathname = []
    · have found : pathwalkStep3 (resolveSymlink maxDepth) path true = Pure.pure (.ok path.curDir) := by
        unfold pathwalkStep3
        simp [component, empty]
      rw [found]
      rfl
    refine Prog.run_bind_congr (Prog.always_true _ _) fun r w _ => ?_
    cases r with
    | ok inode => rfl
    | error e =>
      dsimp only
      split
      · rfl
      split
      · rfl
      rename_i creates
      have none : hasSlash path.pathname = false := by
        by_contra slashed
        exact slashless ⟨by simpa using slashed, creates⟩
      have legal : path.pathname.length ≤ 60 → LegalName path.pathname := fun short =>
        ⟨empty, short, by simpa [hasSlash] using none, fun member => noNull (remains.bytes 0 member)⟩
      simp only [Minix.createWith_legal legal]

/-- What the caller has to see to: the new path of the call is a C string, and except for `open` it
does not consist of slashes only. -/
def Op.NamesEntry : Op → Prop
  | .open pathname _ => 0 ∉ pathname
  | .mkdir pathname => Names pathname
  | .link _ newpath => Names newpath
  | .symlink _ linkpath => Names linkpath
  | .rename _ newpath => Names newpath
  | _ => True

theorem callWith_run {op : Op} (names : op.NamesEntry) :
    (op.callWith Minix.addLegalLink).run disk w = op.call.run disk w := by
  rw [← callWith_addLink]
  have returning_run : ∀ {α : Type} {f : α → Value} {p q : FsM (Except Errno α)},
      p.run disk w = q.run disk w → (returning f p).run disk w = (returning f q).run disk w := by
    intro α f p q same
    change (p.bind _).run disk w = (q.bind _).run disk w
    rw [Prog.run_bind, Prog.run_bind, same]
  cases op with
  | «open» pathname flags => exact returning_run (openWith_run names flags)
  | mkdir pathname => exact returning_run (mkdirWith_run names)
  | link oldpath newpath => exact returning_run (linkWith_run oldpath names)
  | symlink target linkpath => exact returning_run (symlinkWith_run target names)
  | rename oldpath newpath => exact returning_run (renameWith_run oldpath names)
  | _ => rfl

end

/-- In every run whose new paths are more than slashes, the check that entries get legal names only
makes no difference: it never fails. -/
theorem created_names_legal (disk : Disk Errno) (image : Nat → Bytes) (ops : List Op)
    (names : ∀ op ∈ ops, op.NamesEntry) :
    (callsWith Minix.addLegalLink ops).run disk (.initial image) = session disk image ops := by
  unfold session
  generalize World.initial image = w
  induction ops generalizing w with
  | nil => rfl
  | cons op rest ih =>
    simp only [callsWith, calls]
    have same : (op.callWith Minix.addLegalLink).run disk w = op.call.run disk w :=
      callWith_run (names op (.head _))
    change (Prog.bind _ _).run disk w = (Prog.bind _ _).run disk w
    rw [Prog.run_bind, Prog.run_bind, same]
    cases op.call.run disk w with
    | error e => rfl
    | ok r =>
      change (Prog.bind _ _).run disk r.2 = (Prog.bind _ _).run disk r.2
      rw [Prog.run_bind, Prog.run_bind, ih (fun op later => names op (.tail _ later)) r.2]

open SmallImage

def makeEntries : List Op := [.mount 10 .all, .mkdir nameG, .link nameF [103, 47, 104], .rename nameF [104]]

theorem makeEntries_legal :
    (callsWith Minix.addLegalLink makeEntries).run ⟨false, neverFails⟩ (.initial withFile) =
      session ⟨false, neverFails⟩ withFile makeEntries := by
  refine created_names_legal _ _ _ fun op member => ?_
  have all : ∀ op ∈ makeEntries, op.NamesEntry := by
    simp only [makeEntries, List.forall_mem_cons]
    exact ⟨trivial, ⟨by decide, by decide⟩, ⟨by decide, by decide⟩, ⟨by decide, by decide⟩, by simp⟩
  exact all op member

/-- `mkdir("/")` makes an entry without a name. -/
theorem mkdir_root_illegal :
    (callsWith Minix.addLegalLink [.mount 10 .all, .mkdir [slash]]).run ⟨false, neverFails⟩
        (.initial withFile) ≠
      session ⟨false, neverFails⟩ withFile [.mount 10 .all, .mkdir [slash]] := by
  intro same
  have faults : ((callsWith Minix.addLegalLink [.mount 10 .all, .mkdir [slash]]).run
      ⟨false, neverFails⟩ (.initial withFile)).toOption.isSome = false := by
    decide +kernel
  have returns : (session ⟨false, neverFails⟩ withFile
      [.mount 10 .all, .mkdir [slash]]).toOption.isSome = true := by
    decide +kernel
  rw [same, returns] at faults
  cases faults

end VFS

end MPStuBS
