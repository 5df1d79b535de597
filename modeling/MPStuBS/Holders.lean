import MPStuBS.CallFrames
import MPStuBS.ReachableReferences
import Mathlib.Data.List.Perm.Basic

/-! Who holds the references between two calls: the root of the mounted volume, the working
directory and the open files, as long as no inode is lost and `rename` gives back none that it has
not taken. -/
namespace MPStuBS

open Prog FsM

namespace FdTable

variable {t t' : FdTable} {file : File} {bucket fd : Nat}

/-- The files of one bucket and of the others. -/
theorem inodes_perm (t : FdTable) (inside : bucket < tableSize) :
    t.inodes.Perm ((t.table bucket).map File.inode ++
      ((List.range tableSize).erase bucket).flatMap fun b => (t.table b).map File.inode) :=
  (List.perm_cons_erase (List.mem_range.mpr inside)).flatMap_right _

/-- Changing a bucket by one file. -/
theorem inodes_update {bitmap : Nat → Nat} {o : Nat} {l : List File} (inside : bucket < tableSize)
    (changed : (l.map File.inode).Perm (o :: (t.table bucket).map File.inode)) :
    (FdTable.mk bitmap (Function.update t.table bucket l)).inodes.Perm (o :: t.inodes) := by
  have rest : (((List.range tableSize).erase bucket).flatMap fun b =>
      (Function.update t.table bucket l b).map File.inode) =
      ((List.range tableSize).erase bucket).flatMap fun b => (t.table b).map File.inode := by
    refine List.flatMap_congr fun b member => ?_
    have other := (List.nodup_range.mem_erase_iff.mp member).1
    rw [Function.update_of_ne other]
  have split := inodes_perm ⟨bitmap, Function.update t.table bucket l⟩ inside
  simp only [Function.update_self, rest] at split
  exact split.trans ((changed.append_right _).trans ((t.inodes_perm inside).symm.cons o))

theorem inodes_insertFile (inserted : t.insertFile file = some (fd, t')) :
    t'.inodes.Perm (file.inode :: t.inodes) := by
  unfold insertFile at inserted
  cases found : findFree t.bitmap (maxFiles / 64) 0 with
  | none => simp [found] at inserted
  | some free =>
    simp only [found, Option.some.injEq, Prod.mk.injEq] at inserted
    obtain ⟨rfl, rfl⟩ := inserted
    exact inodes_update (Nat.mod_lt _ (by decide)) (.refl _)

theorem perm_of_find {α : Type} {p : α → Bool} {a : α} {l : List α} (found : l.find? p = some a) :
    l.Perm (a :: l.eraseP p) := by
  obtain ⟨here, before, after, rfl, others⟩ := List.find?_eq_some_iff_append.mp found
  rw [List.eraseP_append_right _ fun b member => by simpa using others b member,
    List.eraseP_cons_of_pos here]
  exact List.perm_middle

theorem inodes_removeFile (removed : t.removeFile fd = some (file, t')) :
    t.inodes.Perm (file.inode :: t'.inodes) := by
  unfold removeFile at removed
  cases found : t.getFile fd with
  | none => simp [found] at removed
  | some entry =>
    simp only [found, Option.some.injEq, Prod.mk.injEq] at removed
    obtain ⟨rfl, rfl⟩ := removed
    unfold getFile at found
    rw [if_neg (by omega)] at found
    have entries := (perm_of_find found).map File.inode
    have whole : t.inodes = (FdTable.mk t.bitmap (Function.update (Function.update t.table
        (fd % tableSize) ((t.table (fd % tableSize)).eraseP fun file => file.fd == fd))
        (fd % tableSize) (t.table (fd % tableSize)))).inodes := by
      rw [Function.update_idem, Function.update_eq_self]
    rw [whole]
    refine inodes_update (t := ⟨_, Function.update t.table (fd % tableSize) _⟩)
      (Nat.mod_lt fd (by decide)) ?_
    simpa using entries

/-- Without open files no descriptor is valid. -/
theorem getFile_of_empty (empty : t.inodes = []) (fd : Int) : t.getFile fd = none := by
  unfold getFile
  split
  · rfl
  · have none : t.table (fd.toNat % tableSize) = [] := by
      have all := List.flatMap_eq_nil_iff.mp empty (fd.toNat % tableSize)
        (List.mem_range.mpr (Nat.mod_lt _ (by decide)))
      exact List.map_eq_nil_iff.mp all
    rw [none]
    rfl

end FdTable

/-- The references are those in the list. -/
structure Fs.Counted (s : Fs) (l : List Nat) : Prop where
  wf : s.Wf
  num : s.numInodeReferences = l.length
  refs : ∀ o, s.refs o = l.count o

/-- What a `get` does to an object that is not deleted. -/
def Fs.takeUp (s : Fs) (o : Nat) : Fs :=
  Fs.setInode { s with numInodeReferences := s.numInodeReferences + 1 } o
    fun i => { i with refcount := i.refcount + 1 }

theorem Fs.putDown_mounted (s : Fs) (o : Nat) : (s.putDown o).mounted = s.mounted := by
  unfold Fs.putDown
  split <;> rfl

theorem Fs.putDown_rootInode (s : Fs) (o : Nat) : (s.putDown o).rootInode = s.rootInode := by
  unfold Fs.putDown
  split <;> rfl

theorem Fs.putDown_cwd (s : Fs) (o : Nat) : (s.putDown o).cwd = s.cwd := by
  unfold Fs.putDown
  split <;> rfl

theorem Fs.putDown_fdTable (s : Fs) (o : Nat) : (s.putDown o).fdTable = s.fdTable := by
  unfold Fs.putDown
  split <;> rfl

theorem always_take {s : Fs} {o : Nat} {post : Unit → Fs → Prop} (up : post () (s.takeUp o)) :
    (Inode.get o).Always post s := by
  refine always_bind.mpr ?_
  exact always_setInode fun _ => up

namespace Fs.Counted

variable {s s₀ : Fs} {l l' : List Nat} {o : Nat}

theorem perm (counted : s.Counted l) (same : l.Perm l') : s.Counted l' :=
  ⟨counted.wf, counted.num.trans same.length_eq, fun o => (counted.refs o).trans (same.count_eq o)⟩

/-- The table of files or the working directory may change. -/
theorem congr (counted : s.Counted l) (wf : s₀.Wf) (num : s₀.numInodeReferences = s.numInodeReferences)
    (inodes : s₀.inodes = s.inodes) (allocated : s₀.allocated = s.allocated) : s₀.Counted l :=
  ⟨wf, num.trans counted.num, fun o => (Fs.refs_congr allocated (by rw [inodes])).trans (counted.refs o)⟩

theorem early (counted : s.Counted l) (member : o ∈ l) : o < s.allocated := by
  by_contra late
  have none := counted.refs o
  rw [Fs.refs_of_le (Nat.not_lt.mp late)] at none
  have some := List.count_pos_iff.mpr member
  omega

theorem positive (counted : s.Counted l) (member : o ∈ l) : (s.inodes o).refcount ≠ 0 := by
  have here := counted.refs o
  rw [Fs.refs_of_lt (counted.early member)] at here
  have some := List.count_pos_iff.mpr member
  omega

theorem live (counted : s.Counted l) (retired : s.Retired) (none : ¬ s.HasLost) (member : o ∈ l) :
    (s.inodes o).deleted = false := by
  by_contra deleted
  rcases retired o (by simpa using deleted) with zero | isLost
  · exact counted.positive member zero
  · exact none ⟨o, isLost⟩

theorem putDown (counted : s.Counted (o :: l)) : (s.putDown o).Counted l := by
  have here := counted.positive (.head _)
  refine ⟨Fs.putDown_wf counted.wf o, ?_, fun p => ?_⟩
  · unfold Fs.putDown
    rw [if_pos here]
    change s.numInodeReferences - 1 = _
    rw [counted.num, List.length_cons, Nat.add_sub_cancel]
  · rw [Fs.putDown_refs s (counted.early (.head _)), counted.refs, List.count_cons]
    by_cases eq : p = o
    · simp [eq]
    · simp [eq, Ne.symm eq]

theorem takeUp (counted : s.Counted l) (early : o < s.allocated) : (s.takeUp o).Counted (o :: l) := by
  refine ⟨⟨counted.wf.icache, counted.wf.cwd, counted.wf.root, counted.wf.files⟩, ?_, fun p => ?_⟩
  · change s.numInodeReferences + 1 = _
    rw [counted.num, List.length_cons]
  · by_cases eq : p = o
    · subst eq
      rw [Fs.refs_of_lt (by exact early), List.count_cons_self, ← counted.refs p, Fs.refs_of_lt early]
      simp [Fs.takeUp, Fs.setInode]
    · rw [List.count_cons_of_ne (Ne.symm eq), ← counted.refs p]
      exact Fs.refs_congr rfl (by simp [Fs.takeUp, Fs.setInode, Function.update_of_ne eq])

end Fs.Counted

/-- What has been taken in the meantime is counted too. -/
theorem Accounts.counted {s₀ s : Fs} {held l : List Nat} (owes : Owes s₀ s held)
    (counted : s₀.Counted l) (noneLost : ∀ o, .lost o ∉ s₀.since s) : s.Counted (held ++ l) := by
  have none : (s₀.since s).countP FsEvent.isLost = 0 := by
    refine List.countP_eq_zero.mpr fun e inLog => ?_
    cases e with
    | lost o => exact absurd inLog (noneLost o)
    | loaded => simp [FsEvent.isLost]
    | released => simp [FsEvent.isLost]
  refine ⟨owes.wf, ?_, fun o => ?_⟩
  · rw [owes.num, none, counted.num, List.length_append]
    omega
  · rw [owes.refs, counted.refs, List.count_eq_zero_of_not_mem (noneLost o), List.count_append]
    omega

/-- The root, the working directory and the open files. -/
def Fs.holders (s : Fs) : List Nat :=
  (if s.mounted then [s.rootInode] else []) ++ (s.cwd.toList ++ s.fdTable.inodes)

theorem Fs.putDown_holders (s : Fs) (o : Nat) : (s.putDown o).holders = s.holders := by
  unfold Fs.holders
  rw [Fs.putDown_mounted, Fs.putDown_rootInode, Fs.putDown_cwd, Fs.putDown_fdTable]

/-- Every reference has a holder, and without a volume there is none. -/
structure Fs.Attached (s : Fs) : Prop where
  counted : s.Counted s.holders
  unmounted : s.mounted = false → s.cwd = none ∧ s.fdTable.inodes = []

theorem Fs.Framed.holders {s s' : Fs} (framed : s.Framed s') : s'.holders = s.holders := by
  unfold Fs.holders
  rw [framed.volume.mounted, framed.volume.rootInode, framed.cwd, framed.files]

theorem Fs.Framed.attached {s s' : Fs} (framed : s.Framed s') (attached : s.Attached)
    (counted : s'.Counted s.holders) : s'.Attached := by
  refine ⟨framed.holders ▸ counted, fun unmounted => ?_⟩
  rw [framed.cwd, framed.files]
  exact attached.unmounted (framed.volume.mounted ▸ unmounted)

/-- Since the state `s₀` the references in `held` have been taken, and nothing was opened, closed or
entered. -/
structure Traced (s₀ s : Fs) (held : List Nat) : Prop where
  owes : Owes s₀ s held
  framed : s₀.Framed s

namespace Traced

variable {s₀ s : Fs} {held : List Nat}

theorem refl (wf : s.Wf) : Traced s s [] := ⟨.refl wf, refl_of Fs.Framed s⟩

/-- A program whose references are known, before the rest. -/
theorem run {α β : Type} {p : FsM α} {f : α → FsM β} {post : α → Fs → Prop} {post' : β → Fs → Prop}
    (traced : Traced s₀ s held) (framed : Framed p) (owing : p.Always post s)
    (rest : ∀ a s', post a s' → s₀.Framed s' → (f a).Always post' s') : (p >>= f).Always post' s :=
  always_bind.mpr ((owing.and (framed s)).mono fun a s' h =>
    rest a s' h.1 (trans_of Fs.Framed traced.framed h.2))

theorem bind {α β : Type} {p : FsM α} {f : α → FsM β} {post : β → Fs → Prop}
    (traced : Traced s₀ s held) (quiet : Quiet p)
    (rest : ∀ a s', Traced s₀ s' held → (f a).Always post s') : (p >>= f).Always post s :=
  traced.run (.calm quiet) (quiet.steady.owes traced.owes) fun a s' owes framed => rest a s' ⟨owes, framed⟩

theorem putThen {β : Type} {o : Nat} {f : Unit → FsM β} {post : β → Fs → Prop}
    (traced : Traced s₀ s (o :: held)) (rest : ∀ s', Traced s₀ s' held → (f ()).Always post s') :
    (Inode.put o >>= f).Always post s :=
  traced.run (.put o) traced.owes.put fun _ s' owes framed => rest s' ⟨owes, framed⟩

theorem swap {a b : Nat} (traced : Traced s₀ s (a :: b :: held)) : Traced s₀ s (b :: a :: held) :=
  ⟨traced.owes.swap, traced.framed⟩

/-- Nothing has been taken for longer. -/
theorem attached (traced : Traced s₀ s []) (before : s₀.Attached) (clean : s₀.Clean s) : s.Attached :=
  traced.framed.attached before (traced.owes.counted before.counted fun o => (clean o).1)

end Traced

namespace VFS

variable {s₀ s : Fs} {held : List Nat}

/-- The file takes over the reference to its inode. -/
theorem openFile_attached {inode : Nat} (before : s₀.Attached) (mounted : s₀.mounted = true)
    (traced : Traced s₀ s [inode]) (accmode : Nat) :
    (openFile inode accmode).Always (fun _ s' => s₀.Clean s' → s'.Attached) s := by
  unfold openFile
  simp only [always_bind, always_get]
  cases inserted : s.fdTable.insertFile ⟨0, accmode, inode, 0⟩ with
  | none => exact traced.putThen fun _ traced => traced.attached before
  | some r =>
    intro clean
    have counted := traced.owes.counted before.counted fun o => (clean o).1
    have files := FdTable.inodes_insertFile inserted
    have isMounted := traced.framed.volume.mounted.trans mounted
    refine ⟨(counted.congr (wf_insertFile counted.wf traced.owes.allocated inserted) rfl rfl rfl).perm ?_,
      fun unmounted => ?_⟩
    · rw [← traced.framed.holders]
      unfold Fs.holders
      exact (((files.append_left _).trans List.perm_middle).append_left _).trans List.perm_middle |>.symm
    · exact absurd (isMounted.symm.trans unmounted) (by simp)

theorem open_attached (before : s.Attached) (pathname : PathName) (flags : Nat) :
    (VFS.open pathname flags).Always (fun _ s' => s.Clean s' → s'.Attached) s := by
  have calls := calls_framed
  have traced : Traced s s [] := .refl before.counted.wf
  unfold VFS.open
  refine always_bind.mpr (always_get.mpr ?_)
  dsimp only
  split
  · exact traced.attached before
  rename_i mounted
  have mounted : s.mounted = true := by simpa using mounted
  split
  · exact traced.attached before
  split
  · exact traced.attached before
  refine traced.run (Made.pathwalkStep12 (K := fun _ p => Framed p) pathname)
    (pathwalkStep12_owes traced.owes pathname) fun r s₂ owing framed => ?_
  cases r with
  | error e => exact Traced.attached ⟨owing, framed⟩ before
  | ok path =>
    have traced : Traced s s₂ [path.curDir] := ⟨owing, framed⟩
    dsimp only
    split
    · exact traced.putThen fun _ traced => traced.attached before
    refine traced.run (.get _) (traced.owes.get traced.owes.allocated) fun _ s₃ owes framed => ?_
    have traced : Traced s s₃ [path.curDir, path.curDir] := ⟨owes, framed⟩
    refine traced.run (Made.pathwalkStep3 (K := fun _ p => Framed p) (Made.resolveSymlink _) path true)
      (pathwalkStep3_owes (resolves s maxDepth) true traced.owes) fun r s₄ owing framed => ?_
    cases r with
    | ok inode =>
      have traced : Traced s s₄ [inode, path.curDir] := ⟨owing, framed⟩
      refine traced.swap.putThen fun s₅ traced => ?_
      have checks : Quiet (checkOpen inode flags (flags &&& Flags.accmode) (hasSlash path.pathname)) :=
        Quiet.inode.bind fun _ => .ite .pure (.ite .pure (.ite .pure .pure))
      refine traced.bind checks fun refused s₆ traced => ?_
      cases refused with
      | some e => exact traced.putThen fun _ traced => traced.attached before
      | none => exact openFile_attached before mounted traced _
    | error e =>
      have traced : Traced s s₄ [path.curDir] := ⟨owing, framed⟩
      dsimp only
      split
      · exact traced.putThen fun _ traced => traced.attached before
      split
      · exact traced.putThen fun _ traced => traced.attached before
      refine traced.run (calls_framed.create _ _ _) (Minix.create_owes traced.owes _ _ _)
        fun created s₅ owing framed => ?_
      cases created with
      | error e =>
        have traced : Traced s s₅ [path.curDir] := ⟨owing, framed⟩
        exact traced.putThen fun _ traced => traced.attached before
      | ok inode =>
        have traced : Traced s s₅ [inode, path.curDir] := ⟨owing, framed⟩
        exact traced.swap.putThen fun _ traced => openFile_attached before mounted traced _

/-- The file gives its reference back. -/
theorem close_attached (before : s.Attached) (fd : Int) :
    (VFS.close fd).Always (fun _ s' => s'.Attached) s := by
  unfold VFS.close
  simp only [always_bind, always_get]
  split
  · split
    · trivial
    · exact before
  · cases removed : s.fdTable.removeFile fd.toNat with
    | none => exact before
    | some r =>
      obtain ⟨file, t⟩ := r
      have files := FdTable.inodes_removeFile removed
      set closed : Fs := { s with fdTable := t } with isClosed
      have same : s.holders.Perm (file.inode :: closed.holders) := by
        unfold Fs.holders
        exact (((files.append_left _).trans List.perm_middle).append_left _).trans List.perm_middle
      have counted : closed.Counted (file.inode :: closed.holders) :=
        (before.counted.congr (wf_removeFile before.counted.wf removed) rfl rfl rfl).perm same
      refine always_bind.mpr ?_
      change (Inode.put file.inode >>= fun _ => (Pure.pure (Except.ok ()) : FsM (Except Errno Unit))).Always _ closed
      refine always_bind.mpr (always_put fun _ => ?_)
      refine ⟨?_, fun unmounted => ?_⟩
      · rw [Fs.putDown_holders]
        exact counted.putDown
      · rw [Fs.putDown_mounted] at unmounted
        have none := (before.unmounted unmounted).2
        rw [none] at files
        exact absurd files.symm.eq_nil (List.cons_ne_nil _ _)

/-- Entering a directory replaces the reference of the former one. -/
theorem chdirInode_counted (mounted : s.mounted = true) (inode : Nat) (held : List Nat) :
    (chdirInode inode).Always (fun _ s' => s'.log = s.log ∧ s'.mounted = true ∧
      (s.Counted (held ++ s.holders) → inode < s.allocated → s'.Counted (held ++ s'.holders))) s := by
  unfold chdirInode
  refine always_bind.mpr (always_inode fun _ => ?_)
  split
  · exact ⟨rfl, mounted, fun counted _ => counted⟩
  refine always_bind.mpr (always_take (always_bind.mpr (always_get.mpr ?_)))
  have enter : ∀ {s₁ : Fs}, s₁.log = s.log → s₁.mounted = true → s₁.rootInode = s.rootInode →
      s₁.fdTable = s.fdTable → (s.Counted (held ++ s.holders) → inode < s.allocated →
        s₁.Counted (inode :: held ++ ([s.rootInode] ++ s.fdTable.inodes))) →
      (do
        FsM.modify fun s => { s with cwd := some inode }
        Pure.pure (.ok ()) : FsM (Except Errno Unit)).Always (fun _ s' => s'.log = s.log ∧
          s'.mounted = true ∧ (s.Counted (held ++ s.holders) → inode < s.allocated →
            s'.Counted (held ++ s'.holders))) s₁ := by
    intro s₁ log isMounted root files counted
    refine ⟨log, isMounted, fun before early => ?_⟩
    have counted := counted before early
    have early := counted.early (o := inode) (.head _)
    have entered : Fs.Wf { s₁ with cwd := some inode } := ⟨counted.wf.icache, fun o isCwd => by
      obtain rfl := Option.some.inj isCwd
      exact early, counted.wf.root, counted.wf.files⟩
    refine (counted.congr entered rfl rfl rfl).perm ?_
    unfold Fs.holders
    rw [if_pos (by exact isMounted), root, files]
    have order := @List.perm_middle _ inode (held ++ [s.rootInode]) s.fdTable.inodes
    simpa using order.symm
  have taken : s.Counted (held ++ s.holders) → inode < s.allocated →
      (s.takeUp inode).Counted (inode :: (held ++ ([s.rootInode] ++ (s.cwd.toList ++ s.fdTable.inodes)))) := by
    intro counted early
    have counted := counted.takeUp early
    rwa [Fs.holders, if_pos mounted] at counted
  cases isCwd : (s.takeUp inode).cwd with
  | none =>
    have isCwd : s.cwd = none := isCwd
    refine enter rfl mounted rfl rfl fun counted early => ?_
    have counted := taken counted early
    rwa [isCwd] at counted
  | some cwd =>
    have isCwd : s.cwd = some cwd := isCwd
    refine always_bind.mpr (always_put fun _ => ?_)
    refine enter (Fs.putDown_log _ _) ((Fs.putDown_mounted _ _).trans mounted) (Fs.putDown_rootInode _ _)
      (Fs.putDown_fdTable _ _) fun counted early => ?_
    have counted := taken counted early
    rw [isCwd] at counted
    refine Fs.Counted.putDown (counted.perm ?_)
    have order := @List.perm_middle _ cwd (inode :: (held ++ [s.rootInode])) s.fdTable.inodes
    simpa using order

/-- Without a volume no path leads anywhere. -/
theorem pathwalk_unmounted (unmounted : s.mounted = false) (path : PathName) (follow : Bool) :
    (pathwalkStep123 path follow).Always (fun r s' => s' = s ∧ ∃ e, r = .error e) s := by
  unfold pathwalkStep123 pathwalkStep123With pathwalkStep12With pathwalkStep1
  simp only [always_bind, always_get, unmounted, Bool.not_false, if_true]
  exact ⟨rfl, _, rfl⟩

theorem chdir_attached (before : s.Attached) (path : PathName) :
    (VFS.chdir path).Always (fun _ s' => s.Clean s' → s'.Attached) s := by
  have calls := calls_framed
  by_cases mounted : s.mounted = true
  · refine (Traced.refl before.counted.wf).run (Made.pathwalkStep123 (K := fun _ p => Framed p) path true)
      (pathwalkStep123_owes (.refl before.counted.wf) path true) fun r s₁ owing framed => ?_
    cases r with
    | error e => exact Traced.attached ⟨owing, framed⟩ before
    | ok inode =>
      have traced : Traced s s₁ [inode] := ⟨owing, framed⟩
      refine always_bind.mpr ((chdirInode_counted (framed.volume.mounted.trans mounted) inode [inode]).mono ?_)
      rintro result s₂ ⟨log, mounted, counted⟩
      refine always_bind.mpr (always_put fun _ clean => ?_)
      have since : s.since (s₂.putDown inode) = s.since s₁ :=
        Fs.since_of_log ((Fs.putDown_log s₂ inode).trans log)
      have clean : s.Clean s₁ := by
        unfold Fs.Clean at clean ⊢
        rwa [since] at clean
      have counted := counted (framed.holders ▸ traced.owes.counted before.counted fun o => (clean o).1)
        traced.owes.allocated
      refine ⟨?_, fun unmounted => ?_⟩
      · rw [Fs.putDown_holders]
        exact Fs.Counted.putDown counted
      · rw [Fs.putDown_mounted] at unmounted
        exact absurd (mounted.symm.trans unmounted) (by simp)
  · refine always_bind.mpr ((pathwalk_unmounted (by simpa using mounted) path true).mono ?_)
    rintro _ _ ⟨rfl, e, rfl⟩ _
    exact before

theorem fchdir_attached (before : s.Attached) (fd : Int) :
    (VFS.fchdir fd).Always (fun _ s' => s'.Attached) s := by
  unfold VFS.fchdir FsM.getFile
  simp only [always_bind, always_get, always_pure]
  cases found : s.fdTable.getFile fd with
  | none => exact before
  | some file =>
    have mounted : s.mounted = true := by
      by_contra unmounted
      have none := (before.unmounted (by simpa using unmounted)).2
      rw [FdTable.getFile_of_empty none] at found
      cases found
    refine (chdirInode_counted mounted file.inode []).mono ?_
    rintro result s₁ ⟨_, isMounted, counted⟩
    refine ⟨counted before.counted ?_, fun unmounted => absurd (isMounted.symm.trans unmounted) (by simp)⟩
    unfold FdTable.getFile at found
    split at found
    · cases found
    · exact before.counted.wf.files _ file (List.mem_of_find?_eq_some found)

/-- Every call but `mount` and `umount` leaves each reference with its holder. -/
theorem call_attached (before : s.Attached) (op : Op) (mounts : ∀ bits memory, op ≠ .mount bits memory)
    (unmounts : op ≠ .umount) : op.call.Always (fun _ s' => s.Clean s' → s'.Attached) s := by
  have calls := calls_framed
  by_cases temporary : op.temporary = true
  · have framed : Framed op.call := Made.temporaryCall (K := fun _ p => Framed p) op temporary
    refine ((call_settled before.counted.wf op temporary).and (framed s)).mono ?_
    rintro _ s' ⟨⟨wf, balanced⟩, framed⟩ clean
    have balanced := balanced.mpr clean
    exact framed.attached before ⟨wf, balanced.num.trans before.counted.num, fun o =>
      (balanced.refs o).trans (before.counted.refs o)⟩
  · have returning : ∀ {α : Type} {f : α → Value} {p : FsM (Except Errno α)},
        p.Always (fun _ s' => s.Clean s' → s'.Attached) s →
        (returning f p).Always (fun _ s' => s.Clean s' → s'.Attached) s := fun attached =>
      always_bind.mpr (attached.mono fun _ _ attached => attached)
    cases op with
    | mount bits memory => exact absurd rfl (mounts bits memory)
    | umount => exact absurd rfl unmounts
    | «open» pathname flags => exact returning (open_attached before pathname flags)
    | close fd => exact returning ((close_attached before fd).mono fun _ _ attached _ => attached)
    | chdir path => exact returning (chdir_attached before path)
    | fchdir fd => exact returning ((fchdir_attached before fd).mono fun _ _ attached _ => attached)
    | _ => exact absurd rfl temporary

end VFS

end MPStuBS
