import MPStuBS.ReferenceRuns

/-! The calls that keep references, and the balance of the others in every state that the
calls can reach. -/
namespace MPStuBS

open Prog FsM

theorem always_get {post : Fs → Fs → Prop} {s : Fs} : FsM.get.Always post s ↔ post s s := Iff.rfl

/-- What names only allocated objects before does so afterwards. -/
def Fs.Sound (s s' : Fs) : Prop := s.Wf → s'.Wf

instance : IsPreorder Fs Fs.Sound where
  refl _ := id
  trans _ _ _ fst snd := snd ∘ fst

abbrev Sound {α : Type} (p : FsM α) : Prop := Keeps Fs.Sound p

theorem Steady.sound {α : Type} {p : FsM α} (steady : Steady p) : Sound p :=
  fun s => (steady s).mono fun _ _ => Fs.Steady.wf

namespace Sound

theorem of_wf {α : Type} {p : FsM α} (sound : ∀ s : Fs, s.Wf → p.Always (fun _ s' => s'.Wf) s) :
    Sound p := by
  intro s
  by_cases wf : s.Wf
  · exact (sound s wf).mono fun _ _ wf' _ => wf'
  · exact (always_true p s).mono fun _ _ _ wf' => absurd wf' wf

/-- A sound program before the rest. -/
theorem andThen {α β : Type} {p : FsM α} {f : α → FsM β} {post : β → Fs → Prop} {s : Fs}
    (sound : Sound p) (wf : s.Wf) (rest : ∀ a s', s'.Wf → (f a).Always post s') :
    (p >>= f).Always post s :=
  always_bind.mpr ((sound s).mono fun a s' sound => rest a s' (sound wf))

theorem modify {f : Fs → Fs} (sound : ∀ s : Fs, s.Wf → (f s).Wf) : Sound (FsM.modify f) :=
  fun s => sound s

theorem put (inode : Nat) : Sound (Inode.put inode) := fun s =>
  always_put fun _ wf => s.putDown_wf wf inode

theorem removeLoop (cache : List Nat) : Sound (InodeCache.removeLoop cache) := by
  induction cache with
  | nil => exact .pure
  | cons cur rest ih =>
    refine (Steady.remove _).sound.bind fun _ => Quiet.inode.bind fun i => ?_
    split
    · exact (Steady.destroy _).sound.bind fun _ => Steady.decrement.sound.bind fun _ => ih
    · exact Steady.decrement.sound.bind fun _ => ih

theorem unfixMaps (map : Nat → Nat) (n : Nat) : ∀ i, Sound (Minix.unfixMaps map n i) := by
  induction n with
  | zero => exact fun _ => .pure
  | succ n ih => exact fun i => Quiet.unfix.bind fun _ => ih (i + 1)

theorem fixMaps (blockno n : Nat) : ∀ i map, Sound (Minix.fixMaps blockno n i map) := by
  induction n with
  | zero => exact fun _ _ => .pure
  | succ n ih =>
    intro i map
    refine Quiet.fix.bind fun r => ?_
    cases r with
    | error e => exact .pure
    | ok block => exact ih _ _

theorem minixUmount : Sound Minix.umount :=
  Quiet.get.bind fun _ => (unfixMaps _ _ _).bind fun _ => (unfixMaps _ _ _).bind fun _ => Quiet.unfix

end Sound

namespace FdTable

variable {t t' : FdTable} {file entry : File} {fd bucket : Nat}

theorem mem_insertFile (inserted : t.insertFile file = some (fd, t')) (inTable : entry ∈ t'.table bucket) :
    entry.inode = file.inode ∨ entry ∈ t.table bucket := by
  unfold insertFile at inserted
  cases found : findFree t.bitmap (maxFiles / 64) 0 with
  | none => simp [found] at inserted
  | some free =>
    simp only [found, Option.some.injEq, Prod.mk.injEq] at inserted
    obtain ⟨rfl, rfl⟩ := inserted
    by_cases here : bucket = (64 * free.1 + free.2) % tableSize
    · subst here
      simp only [Function.update_self] at inTable
      rcases List.mem_cons.mp inTable with rfl | old
      · exact .inl rfl
      · exact .inr old
    · exact .inr (by simpa [Function.update_of_ne here] using inTable)

theorem mem_removeFile (removed : t.removeFile fd = some (file, t')) (inTable : entry ∈ t'.table bucket) :
    entry ∈ t.table bucket := by
  unfold removeFile at removed
  cases found : t.getFile fd with
  | none => simp [found] at removed
  | some file =>
    simp only [found, Option.some.injEq, Prod.mk.injEq] at removed
    obtain ⟨rfl, rfl⟩ := removed
    by_cases here : bucket = fd % tableSize
    · subst here
      simp only [Function.update_self] at inTable
      exact List.mem_of_mem_eraseP inTable
    · simpa [Function.update_of_ne here] using inTable

end FdTable

namespace VFS

theorem sound_umount : Sound VFS.umount := by
  have leave : Sound (FsM.modify fun s => { s with cwd := none }) :=
    Sound.modify fun s wf => ⟨wf.icache, by simp, wf.root, wf.files⟩
  have unmount : Sound (FsM.modify fun s => { s with mounted := false }) :=
    Sound.modify fun s wf => ⟨wf.icache, wf.cwd, by simp, wf.files⟩
  refine Quiet.get.bind fun s => ?_
  split
  · exact .pure
  split
  · exact .pure
  split
  · split
    · exact Steady.syncFs.sound.bind fun _ _ => trivial
    · exact fun _ => trivial
  · exact Steady.syncFs.sound.bind fun _ => (Sound.put _).bind fun _ => leave.bind fun _ =>
      (Sound.put _).bind fun _ => (Quiet.get.bind fun _ => Sound.removeLoop _).bind
        fun _ => Sound.minixUmount.bind fun _ => unmount.bind fun _ => .pure

/-- A mount that succeeds has set the root inode. -/
def MountsRoot (r : Except Errno Unit) (s : Fs) : Prop :=
  s.Wf ∧ (r = .ok () → s.rootInode < s.allocated)

theorem MountsRoot.failed {e : Errno} {s : Fs} (wf : s.Wf) : MountsRoot (.error e) s := ⟨wf, by simp⟩

theorem mountRoot_mountsRoot (bits superBlock : Nat) (memory : Bool) (imap zmap : Nat → Nat) {s : Fs}
    (wf : s.Wf) : (Minix.mountRoot bits superBlock memory imap zmap).Always MountsRoot s := by
  have reread : ∀ bytes : Bytes, Sound (FsM.modify fun s =>
      { s with super := { s.super with ninodes := (Minix.superBytes bits bytes).u32 0 } }) := fun _ =>
    Sound.modify fun s wf => ⟨wf.icache, wf.cwd, wf.root, wf.files⟩
  unfold Minix.mountRoot
  refine Sound.andThen Quiet.load wf fun _ s₁ wf => Sound.andThen Quiet.store wf fun _ s₂ wf =>
    Sound.andThen Quiet.load wf fun _ s₃ wf => Sound.andThen Quiet.store wf fun _ s₄ wf =>
      Sound.andThen (Quiet.load.bind reread) wf fun _ s₅ wf => ?_
  cases memory with
  | false =>
    simp only [Minix.igetRoot, Bool.false_eq_true, if_false, always_bind, always_pure]
    refine (Steady.maybeEvictInodes.sound s₅).mono fun _ s₆ sound => ?_
    exact (Sound.minixUmount s₆).mono fun _ s₇ unmounted => MountsRoot.failed (unmounted (sound wf))
  | true =>
    refine always_bind.mpr ((Minix.iget_owes (.refl wf) Minix.rootIno).mono fun r s₆ owing => ?_)
    cases r with
    | error e => exact Sound.minixUmount.andThen owing.wf fun _ _ wf => .failed wf
    | ok root =>
      have owes : Owes s₅ s₆ [root] := owing
      refine owes.bind Quiet.inode fun i s₇ owes => ?_
      split
      · exact ⟨⟨owes.wf.icache, owes.wf.cwd, fun _ => owes.allocated, owes.wf.files⟩,
          fun _ => owes.allocated⟩
      · exact owes.putThen fun _ owes => Sound.minixUmount.andThen owes.wf fun _ _ wf => .failed wf

theorem mountMaps_mountsRoot (bits superBlock : Nat) (memory : Minix.Allocations) (super : SuperBlock)
    {s : Fs} (wf : s.Wf) : (Minix.mountMaps bits superBlock memory super).Always MountsRoot s := by
  have start : Sound (FsM.modify fun s => { s with
      super := super, superBlock := superBlock, blocksizeBits := bits, numInodeReferences := 0 }) :=
    Sound.modify fun s wf => ⟨wf.icache, wf.cwd, wf.root, wf.files⟩
  have setMaps : ∀ imap zmap : Nat → Nat,
      Sound (FsM.modify fun s => { s with imap := imap, zmap := zmap }) := fun _ _ =>
    Sound.modify fun s wf => ⟨wf.icache, wf.cwd, wf.root, wf.files⟩
  have released : ∀ e : Errno, ∀ {s : Fs}, s.Wf →
      (unfix superBlock >>= fun _ => Pure.pure (Except.error e)).Always MountsRoot s := fun _ _ wf =>
    Sound.andThen Quiet.unfix wf fun _ _ wf => .failed wf
  unfold Minix.mountMaps
  refine start.andThen wf fun _ s₁ wf => ?_
  split
  · exact released _ wf
  split
  · exact released _ wf
  refine (Sound.fixMaps _ _ _ _).andThen wf fun (failure, n, imap) s₂ wf => ?_
  cases failure with
  | some e => exact (Sound.unfixMaps _ _ _).andThen wf fun _ _ wf => released e wf
  | none =>
    refine (Sound.fixMaps _ _ _ _).andThen wf fun (failure, n, zmap) s₃ wf =>
      (setMaps _ _).andThen wf fun _ s₄ wf => ?_
    cases failure with
    | some e =>
      exact (Sound.unfixMaps _ _ _).andThen wf fun _ _ wf =>
        (Sound.unfixMaps _ _ _).andThen wf fun _ _ wf => released e wf
    | none => exact mountRoot_mountsRoot bits superBlock memory.root imap zmap wf

theorem mount_root (bits : Nat) (memory : Minix.Allocations) {s : Fs} (wf : s.Wf) :
    (Minix.mount bits memory).Always MountsRoot s := by
  unfold Minix.mount
  refine Sound.andThen Quiet.fix wf fun r s₁ wf => ?_
  cases r with
  | error e => exact .failed wf
  | ok superBlock =>
    refine Sound.andThen Quiet.load wf fun bytes s₂ wf => ?_
    dsimp only
    split
    · exact Sound.andThen Quiet.unfix wf fun _ _ wf => .failed wf
    · exact mountMaps_mountsRoot _ _ _ _ wf

theorem sound_mount (bits : Nat) (memory : Minix.Allocations) : Sound (VFS.mount bits memory) := by
  refine Sound.of_wf fun s wf => Sound.andThen Quiet.get wf fun s₁ s₂ wf => ?_
  split
  · exact wf
  split
  · exact wf
  refine always_bind.mpr ((mount_root bits memory wf).mono fun r s₃ ⟨wf, root⟩ => ?_)
  cases r with
  | error e => exact wf
  | ok _ => exact ⟨wf.icache, wf.cwd, fun _ => root rfl, wf.files⟩

theorem wf_insertFile {s : Fs} {file : File} {fd : Nat} {t : FdTable} (wf : s.Wf)
    (early : file.inode < s.allocated) (inserted : s.fdTable.insertFile file = some (fd, t)) :
    Fs.Wf { s with fdTable := t } := by
  refine ⟨wf.icache, wf.cwd, wf.root, fun bucket entry inTable => ?_⟩
  rcases FdTable.mem_insertFile inserted inTable with same | old
  · exact same ▸ early
  · exact wf.files bucket entry old

theorem wf_removeFile {s : Fs} {file : File} {fd : Nat} {t : FdTable} (wf : s.Wf)
    (removed : s.fdTable.removeFile fd = some (file, t)) : Fs.Wf { s with fdTable := t } :=
  ⟨wf.icache, wf.cwd, wf.root, fun bucket entry inTable =>
    wf.files bucket entry (FdTable.mem_removeFile removed inTable)⟩

theorem openFile_wf {s₀ s : Fs} {inode : Nat} (owes : Owes s₀ s [inode]) (accmode : Nat) :
    (openFile inode accmode).Always (fun _ s' => s'.Wf) s := by
  unfold openFile
  simp only [always_bind, always_get]
  cases inserted : s.fdTable.insertFile ⟨0, accmode, inode, 0⟩ with
  | none => exact owes.putThen fun _ owes => owes.wf
  | some r => exact wf_insertFile owes.wf owes.allocated inserted

theorem open_wf {s : Fs} (wf : s.Wf) (pathname : PathName) (flags : Nat) :
    (VFS.open pathname flags).Always (fun _ s' => s'.Wf) s := by
  have owes : Owes s s [] := .refl wf
  unfold VFS.open
  refine owes.bind Quiet.get fun _ s₁ owes => ?_
  dsimp only
  split
  · exact owes.wf
  split
  · exact owes.wf
  split
  · exact owes.wf
  refine always_bind.mpr ((pathwalkStep12_owes owes pathname).mono fun r s₂ owing => ?_)
  cases r with
  | error e => exact owing.wf
  | ok path =>
    have owes : Owes s s₂ [path.curDir] := owing
    dsimp only
    split
    · exact owes.putThen fun _ owes => owes.wf
    refine always_bind.mpr ((owes.get owes.allocated).mono fun _ s₃ owes => ?_)
    refine always_bind.mpr ((pathwalkStep3_owes (resolves s maxDepth) true owes).mono
      fun r s₄ owing => ?_)
    cases r with
    | ok inode =>
      have owes : Owes s s₄ [inode, path.curDir] := owing
      refine owes.swap.putThen fun s₅ owes => ?_
      have checks : Steady (checkOpen inode flags (flags &&& Flags.accmode) (hasSlash path.pathname)) :=
        Quiet.inode.bind fun _ => .ite .pure (.ite .pure (.ite .pure .pure))
      refine owes.bind checks fun refused s₆ owes => ?_
      cases refused with
      | some e => exact owes.putThen fun _ owes => owes.wf
      | none => exact openFile_wf owes _
    | error e =>
      have owes : Owes s s₄ [path.curDir] := owing
      dsimp only
      split
      · exact owes.putThen fun _ owes => owes.wf
      split
      · exact owes.putThen fun _ owes => owes.wf
      refine always_bind.mpr ((Minix.create_owes owes _ _ _).mono fun created s₅ owing => ?_)
      cases created with
      | error e =>
        have owes : Owes s s₅ [path.curDir] := owing
        exact owes.putThen fun _ owes => owes.wf
      | ok inode =>
        have owes : Owes s s₅ [inode, path.curDir] := owing
        exact owes.swap.putThen fun _ owes => openFile_wf owes _

theorem close_wf {s : Fs} (wf : s.Wf) (fd : Int) :
    (VFS.close fd).Always (fun _ s' => s'.Wf) s := by
  unfold VFS.close
  simp only [always_bind, always_get]
  split
  · split
    · trivial
    · exact wf
  · cases removed : s.fdTable.removeFile fd.toNat with
    | none => exact wf
    | some r =>
      exact (Sound.put r.1.inode).andThen (s := { s with fdTable := r.2 }) (wf_removeFile wf removed)
        fun _ _ wf => wf

theorem chdirInode_wf {s₀ s : Fs} {held : List Nat} {inode : Nat} (owes : Owes s₀ s held)
    (early : inode < s.allocated) : (chdirInode inode).Always (fun _ s' => s'.Wf) s := by
  have enter : ∀ {s : Fs}, s.Wf → inode < s.allocated → Fs.Wf { s with cwd := some inode } :=
    fun wf early => ⟨wf.icache, fun o isCwd => by
      obtain rfl := Option.some.inj isCwd
      exact early, wf.root, wf.files⟩
  unfold chdirInode
  simp only [always_bind, FsM.inode, always_get]
  split
  · trivial
  simp only [always_pure]
  split
  · exact owes.wf
  simp only [always_bind]
  refine (owes.get early).mono fun _ s₁ owes => always_get.mpr ?_
  have allocated := owes.allocated
  cases s₁.cwd with
  | none => exact enter owes.wf allocated
  | some cwd =>
    refine always_bind.mpr (always_put fun _ => ?_)
    exact enter (Fs.putDown_wf owes.wf cwd) (by rwa [Fs.putDown_allocated])

theorem chdir_wf {s : Fs} (wf : s.Wf) (path : PathName) :
    (VFS.chdir path).Always (fun _ s' => s'.Wf) s := by
  refine always_bind.mpr ((pathwalkStep123_owes (.refl wf) path true).mono fun r s₁ owing => ?_)
  cases r with
  | error e => exact owing.wf
  | ok inode =>
    have owes : Owes s s₁ [inode] := owing
    exact always_bind.mpr ((chdirInode_wf owes owes.allocated).mono fun _ s₂ wf =>
      (Sound.put inode).andThen wf fun _ _ wf => wf)

theorem fchdir_wf {s : Fs} (wf : s.Wf) (fd : Int) :
    (VFS.fchdir fd).Always (fun _ s' => s'.Wf) s := by
  unfold VFS.fchdir FsM.getFile
  simp only [always_bind, always_get, always_pure]
  cases found : s.fdTable.getFile fd with
  | none => exact wf
  | some file =>
    refine chdirInode_wf (.refl wf) ?_
    unfold FdTable.getFile at found
    split at found
    · cases found
    · exact wf.files _ file (List.mem_of_find?_eq_some found)

theorem returning_wf {α : Type} {f : α → Value} {p : FsM (Except Errno α)} {s : Fs}
    (sound : p.Always (fun _ s' => s'.Wf) s) : (returning f p).Always (fun _ s' => s'.Wf) s :=
  always_bind.mpr (sound.mono fun _ _ wf => wf)

/-- Every call leaves the state naming only allocated objects. -/
theorem sound_call (op : Op) : Sound op.call := by
  refine Sound.of_wf fun s wf => ?_
  by_cases temporary : op.temporary = true
  · exact (call_settled wf op temporary).mono fun _ _ settled => settled.1
  · cases op with
    | mount bits memory => exact returning_wf ((sound_mount bits memory s).mono fun _ _ sound => sound wf)
    | umount => exact returning_wf ((sound_umount s).mono fun _ _ sound => sound wf)
    | «open» pathname flags => exact returning_wf (open_wf wf pathname flags)
    | close fd => exact returning_wf (close_wf wf fd)
    | chdir path => exact returning_wf (chdir_wf wf path)
    | fchdir fd => exact returning_wf (fchdir_wf wf fd)
    | _ => exact absurd rfl temporary

theorem sound_calls (ops : List Op) : Sound (calls ops) := by
  induction ops with
  | nil => exact .pure
  | cons op rest ih => exact (sound_call op).bind fun _ => ih.bind fun _ => .pure

theorem wf_initial : Fs.Wf .initial := ⟨by simp [Fs.initial], by simp [Fs.initial], by simp [Fs.initial], by simp [Fs.initial, FdTable.empty]⟩

/-- In every state that the calls can reach, a call that keeps no reference leaves all
counts as they were exactly if it is clean. -/
theorem references_balanced_iff (disk : Disk Errno) (image : Nat → Bytes) (ops : List Op)
    (results : List Result) (w : World Fs) (reached : session disk image ops = .ok (results, w))
    (op : Op) (temporary : op.temporary = true) (result : Result) (w' : World Fs)
    (returned : op.call.run disk w = .ok (result, w')) :
    w.state.Balanced w'.state ↔ w.state.Clean w'.state := by
  have wellFormed : After disk (calls ops) (fun _ w => w.state.Wf) (.initial image) :=
    ((sound_calls ops Fs.initial).mono fun _ _ sound => sound wf_initial).after
  have settled : After disk op.call (fun _ w' => Settled w.state w'.state) w :=
    (call_settled (wellFormed.of_run reached) op temporary).after
  exact (settled.of_run returned).2

/-- The worlds before and after a call that follows a session. -/
def around (disk : Disk Errno) (image : Nat → Bytes) (ops : List Op) (op : Op) :
    Except FsFault (World Fs × World Fs) :=
  match session disk image ops with
  | .error f => .error f
  | .ok (_, w) =>
    match op.call.run disk w with
    | .error f => .error f
    | .ok (_, w') => .ok (w, w')

theorem around_returns (disk : Disk Errno) (image : Nat → Bytes) (ops : List Op) (op : Op)
    (check : Fs → Fs → Bool)
    (checked : (around disk image ops op).toOption.any (fun r => check r.1.state r.2.state) = true) :
    ∃ results w result w', session disk image ops = .ok (results, w) ∧
      op.call.run disk w = .ok (result, w') ∧ check w.state w'.state = true := by
  unfold around at checked
  cases reached : session disk image ops with
  | error f =>
    rw [reached] at checked
    exact absurd checked Bool.false_ne_true
  | ok r =>
    obtain ⟨results, w⟩ := r
    rw [reached] at checked
    cases returned : op.call.run disk w with
    | error f =>
      simp only [returned] at checked
      exact absurd checked Bool.false_ne_true
    | ok r' =>
      obtain ⟨result, w'⟩ := r'
      simp only [returned] at checked
      exact ⟨results, w, result, w', rfl, returned, checked⟩

open SmallImage in
def openF : List Op := [.mount 10 .all, .open nameF Flags.rdwr]

open SmallImage in
theorem stat_opened_balanced : ∃ results w result w',
    session ⟨false, neverFails⟩ withFile openF = .ok (results, w) ∧
      (Op.stat nameF).call.run ⟨false, neverFails⟩ w = .ok (result, w') ∧
      w.state.Balanced w'.state := by
  obtain ⟨results, w, result, w', reached, returned, quiet⟩ := around_returns
    ⟨false, neverFails⟩ withFile openF (.stat nameF) (fun s s' => decide (s.since s' = []))
    (by decide +kernel)
  have nothing : w.state.since w'.state = [] := of_decide_eq_true quiet
  refine ⟨results, w, result, w', reached, returned, ?_⟩
  refine (references_balanced_iff _ _ _ _ _ reached _ rfl _ _ returned).mpr fun o => ?_
  rw [nothing]
  simp

open SmallImage in
/-- `rename` of an open file gives back the reference of its descriptor. -/
theorem rename_opened_unbalanced : ∃ results w result w',
    session ⟨false, neverFails⟩ withFile openF = .ok (results, w) ∧
      (Op.rename nameF nameG).call.run ⟨false, neverFails⟩ w = .ok (result, w') ∧
      ¬ w.state.Balanced w'.state := by
  obtain ⟨results, w, result, w', reached, returned, lost⟩ := around_returns
    ⟨false, neverFails⟩ withFile openF (.rename nameF nameG)
    (fun s s' => decide (s'.refs 1 < s.refs 1)) (by decide +kernel)
  have fewer : w'.state.refs 1 < w.state.refs 1 := of_decide_eq_true lost
  exact ⟨results, w, result, w', reached, returned, fun balanced =>
    Nat.ne_of_lt fewer (balanced.refs 1)⟩

end VFS

end MPStuBS
