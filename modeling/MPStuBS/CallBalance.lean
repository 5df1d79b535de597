import MPStuBS.ReferenceBalance

/-! A call of the VFS leaves the references as they were, unless it loses an inode that
cannot be read, or `rename` gives back a reference that it has not taken. -/
namespace MPStuBS

open Prog FsM

/-- All reference counts are the same. -/
structure Fs.Balanced (s s' : Fs) : Prop where
  num : s'.numInodeReferences = s.numInodeReferences
  refs : ∀ o, s'.refs o = s.refs o

/-- Since the state `s` every inode could be read, and `rename` has moved or replaced only
inodes that were not referenced before. -/
def Fs.Clean (s s' : Fs) : Prop :=
  ∀ o, .lost o ∉ s.since s' ∧ (.released o ∈ s.since s' → s.refs o = 0)

theorem Accounts.balanced {s s' : Fs} {dropped : List Nat} (owes : Accounts s s' [] dropped)
    (clean : s.Clean s') : s.Balanced s' := by
  have none : (s.since s').countP FsEvent.isLost = 0 := by
    refine List.countP_eq_zero.mpr fun e inLog => ?_
    cases e with
    | lost o => exact absurd inLog (clean o).1
    | loaded => simp [FsEvent.isLost]
    | released => simp [FsEvent.isLost]
  refine ⟨?_, fun o => ?_⟩
  · rw [owes.num, none]
    simp
  · rw [owes.refs, List.count_eq_zero_of_not_mem (clean o).1]
    simp

theorem Owes.balanced_iff {s s' : Fs} (owes : Owes s s' []) : s.Balanced s' ↔ s.Clean s' := by
  refine ⟨fun balanced o => ⟨fun isLost => ?_, fun isReleased => ?_⟩, owes.balanced⟩
  · have refs := owes.refs o
    rw [balanced.refs] at refs
    have positive := List.count_pos_iff.mpr isLost
    simp only [List.count_nil] at refs
    omega
  · exact absurd ((owes.released o).mp isReleased) (by simp)

/-- While the references in `rest` are being given back at the end of `rename`. -/
structure Settles (s₀ s : Fs) (dropped rest : List Nat) : Prop where
  wf : s.Wf
  early : ∀ o ∈ rest, o < s.allocated
  released : ∀ o, .released o ∈ s₀.since s ↔ o ∈ dropped
  kept : ∀ o ∈ dropped, .lost o ∉ s₀.since s
  refs : ∀ o, s.refs o =
    s₀.refs o + (s₀.since s).count (.lost o) + rest.count o - dropped.count o
  clean : s₀.Clean s → ∃ held left, Accounts s₀ s held dropped ∧ left ⊆ dropped ∧
    (held ++ left).Perm rest

section Settling

variable {s₀ s : Fs} {held dropped rest : List Nat}

/-- All of `rest` has been taken, but what has been dropped is no longer held. -/
theorem Accounts.settles (owes : Accounts s₀ s held dropped) (all : (held ++ dropped).Perm rest) :
    Settles s₀ s dropped rest := by
  refine ⟨owes.wf, fun o inRest => ?_, owes.released, fun o inDropped => (owes.dropped o inDropped).2,
    fun o => ?_, fun _ => ⟨held, dropped, owes, fun _ => id, all⟩⟩
  · rcases List.mem_append.mp (all.mem_iff.mpr inRest) with isHeld | isDropped
    · have owes' := owes.perm (List.perm_cons_erase isHeld)
      exact owes'.allocated
    · exact (owes.dropped o isDropped).1
  · rw [owes.refs, ← all.count_eq, List.count_append]
    omega

theorem Fs.putDown_refs (s : Fs) {o : Nat} (early : o < s.allocated) (p : Nat) :
    (s.putDown o).refs p = s.refs p - if p = o then 1 else 0 := by
  unfold Fs.putDown
  split
  · by_cases here : p = o
    · subst here
      rw [Fs.refs_of_lt (by exact early), Fs.refs_of_lt early]
      simp [Fs.setInode]
    · rw [if_neg here]
      exact Fs.refs_congr rfl (by simp [Fs.setInode, Function.update_of_ne here])
  · rename_i zero
    split
    · rename_i here
      subst here
      rw [Fs.refs_of_lt early]
      omega
    · rfl

theorem Fs.putDown_log (s : Fs) (o : Nat) : (s.putDown o).log = s.log := by
  unfold Fs.putDown
  split <;> rfl

theorem Fs.putDown_allocated (s : Fs) (o : Nat) : (s.putDown o).allocated = s.allocated := by
  unfold Fs.putDown
  split <;> rfl

theorem Fs.putDown_wf {s : Fs} (wf : s.Wf) (o : Nat) : (s.putDown o).Wf := by
  unfold Fs.putDown
  split
  · exact ⟨wf.icache, wf.cwd, wf.root, wf.files⟩
  · exact wf

/-- A `put` without a reference does nothing. -/
theorem Fs.putDown_of_zero {s : Fs} {o : Nat} (early : o < s.allocated) (zero : s.refs o = 0) :
    s.putDown o = s := by
  rw [Fs.refs_of_lt early] at zero
  unfold Fs.putDown
  rw [if_neg (by simpa using zero)]

theorem Accounts.putDown {o : Nat} (owes : Accounts s₀ s (o :: held) dropped)
    (live : (s.inodes o).deleted = false) : Accounts s₀ (s.putDown o) held dropped := by
  have put := owes.put
  simp only [Inode.put, FsM.inode, always_bind] at put
  change Always (if (s.inodes o).deleted then _ else _) _ _ at put
  rw [live] at put
  simp only [Bool.false_eq_true, if_false, always_pure, FsM.setInode] at put
  change Always (if (s.inodes o).refcount ≠ 0 then _ else _) _ _ at put
  unfold Fs.putDown
  split
  · rename_i positive
    rw [if_pos positive] at put
    simp only [always_bind] at put
    change Always (if (s.inodes o).deleted then _ else _) _ _ at put
    rw [live] at put
    exact put
  · rename_i zero
    rw [if_neg zero] at put
    exact put

theorem Settles.put {o : Nat} (settles : Settles s₀ s dropped (o :: rest)) :
    (Inode.put o).Always (fun _ s' => Settles s₀ s' dropped rest) s := by
  refine always_put fun live => ?_
  have since : s₀.since (s.putDown o) = s₀.since s := Fs.since_of_log (s.putDown_log o)
  have early : o < s.allocated := settles.early o (by simp)
  refine ⟨Fs.putDown_wf settles.wf o, fun p inRest => ?_, ?_, ?_, fun p => ?_, fun clean => ?_⟩
  · rw [Fs.putDown_allocated]
    exact settles.early p (by simp [inRest])
  · rw [since]
    exact settles.released
  · rw [since]
    exact settles.kept
  · rw [since, Fs.putDown_refs s early, settles.refs, List.count_cons]
    by_cases here : p = o
    · subst here
      simp
      omega
    · simp [here, Ne.symm here]
  · unfold Fs.Clean at clean
    rw [since] at clean
    obtain ⟨held, left, owes, sub, all⟩ := settles.clean clean
    by_cases isHeld : o ∈ held
    · refine ⟨held.erase o, left, (owes.perm (List.perm_cons_erase isHeld)).putDown live, sub, ?_⟩
      have split : (o :: (held.erase o ++ left)).Perm (o :: rest) :=
        ((List.perm_cons_erase isHeld).symm.append_right left).trans all
      exact split.cons_inv
    · have isLeft : o ∈ left := by
        have member := all.mem_iff.mpr (List.mem_cons_self (a := o) (l := rest))
        exact (List.mem_append.mp member).resolve_left isHeld
      have zero : s.refs o = 0 := by
        rw [owes.refs, (clean o).2 ((settles.released o).mpr (sub isLeft)),
          List.count_eq_zero_of_not_mem isHeld, List.count_eq_zero_of_not_mem (clean o).1]
      rw [Fs.putDown_of_zero early zero]
      refine ⟨held, left.erase o, owes, fun p inLeft => sub (List.mem_of_mem_erase inLeft), ?_⟩
      have split : (o :: (held ++ left.erase o)).Perm (o :: rest) :=
        (List.perm_middle.symm.trans ((List.perm_cons_erase isLeft).symm.append_left held)).trans all
      exact split.cons_inv

theorem Settles.balanced_iff (settles : Settles s₀ s dropped []) : s₀.Balanced s ↔ s₀.Clean s := by
  constructor
  · intro balanced o
    have refs := settles.refs o
    rw [balanced.refs] at refs
    simp only [List.count_nil, Nat.add_zero] at refs
    constructor
    · intro isLost
      have positive := List.count_pos_iff.mpr isLost
      have notDropped : o ∉ dropped := fun isDropped => settles.kept o isDropped isLost
      rw [List.count_eq_zero_of_not_mem notDropped] at refs
      omega
    · intro isReleased
      have isDropped := (settles.released o).mp isReleased
      have positive := List.count_pos_iff.mpr isDropped
      rw [List.count_eq_zero_of_not_mem (settles.kept o isDropped)] at refs
      omega
  · intro clean
    obtain ⟨held, left, owes, _, all⟩ := settles.clean clean
    obtain rfl : held = [] := (List.append_eq_nil_iff.mp all.eq_nil).1
    exact owes.balanced clean

end Settling

section Release

variable {s₀ s : Fs} {held dropped : List Nat}

/-- `rename` gives back a reference that its caller holds. -/
theorem Accounts.release {o : Nat} (owes : Accounts s₀ s (o :: held) dropped) :
    (Minix.release o).Always (fun _ s' => Accounts s₀ s' held (o :: dropped)) s := by
  refine always_bind.mpr ?_
  change (Inode.put o).Always _ (s.note (.released o))
  refine always_put fun live => ?_
  have down : Accounts s₀ (s.putDown o) held dropped := owes.putDown live
  have noted : (s.note (.released o)).putDown o = (s.putDown o).note (.released o) := by
    unfold Fs.putDown
    split <;> rename_i positive
    · rw [if_pos (by exact positive)]
      rfl
    · rw [if_neg (by exact positive)]
  have since : s₀.since ((s.putDown o).note (.released o)) = s₀.since (s.putDown o) ++ [.released o] :=
    Fs.since_note down.log rfl
  have notLost : .lost o ∉ s₀.since (s.putDown o) := by
    intro isLost
    rw [Fs.since_of_log (s.putDown_log o)] at isLost
    exact Bool.false_ne_true (live.symm.trans (owes.lost o isLost).2)
  rw [noted]
  refine ⟨⟨down.wf.icache, down.wf.cwd, down.wf.root, down.wf.files⟩, ?_, fun p => ?_, fun p isLost => ?_,
    fun p isDropped => ?_, ?_, fun p => ?_⟩
  · exact Nat.le_trans down.log (by simp [Fs.note])
  · rw [since, List.mem_append, down.released p]
    simp [or_comm]
  · rw [since] at isLost
    exact down.lost p (by simpa using isLost)
  · rw [since]
    rcases List.mem_cons.mp isDropped with rfl | before
    · exact ⟨by
        change p < (s.putDown p).allocated
        rw [Fs.putDown_allocated]
        exact owes.allocated, by simpa using notLost⟩
    · exact ⟨(down.dropped p before).1, by simpa using (down.dropped p before).2⟩
  · change (s.putDown o).numInodeReferences = _
    rw [since, down.num, List.countP_append]
    simp [FsEvent.isLost]
  · change (s.putDown o).refs p = _
    rw [since, down.refs p, List.count_append]
    simp

/-- What is held and what has been dropped are together what the caller has taken. -/
def Dropping (s₀ s : Fs) (all : List Nat) : Prop :=
  ∃ held dropped, (held ++ dropped).Perm all ∧ Accounts s₀ s held dropped

theorem Accounts.dropping (owes : Accounts s₀ s held dropped) : Dropping s₀ s (held ++ dropped) :=
  ⟨held, dropped, .refl _, owes⟩

theorem Accounts.releaseThen {β : Type} {o : Nat} {f : Unit → FsM β} {post : β → Fs → Prop}
    (owes : Accounts s₀ s (o :: held) dropped)
    (rest : ∀ s', Accounts s₀ s' held (o :: dropped) → (f ()).Always post s') :
    (Minix.release o >>= f).Always post s :=
  always_bind.mpr (owes.release.mono fun _ s' => rest s')

namespace Minix

theorem renameFail_owes {oldInode : Nat} {all : List Nat}
    (owes : Accounts s₀ s (oldInode :: held) dropped) (same : (oldInode :: held ++ dropped).Perm all)
    (oldBlock : Nat) (e : Errno) :
    (renameFail oldInode oldBlock e).Always (fun _ s' => Dropping s₀ s' all) s :=
  owes.releaseThen fun _ owes => owes.bind Quiet.unfix fun _ _ owes =>
    ⟨held, oldInode :: dropped, List.perm_middle.trans same, owes⟩

theorem renameFinish_owes {oldInode : Nat} {all : List Nat}
    (owes : Accounts s₀ s (oldInode :: held) dropped) (same : (oldInode :: held ++ dropped).Perm all)
    (oldDir newDir oldBlock oldK : Nat) (oldIsDir : Bool) :
    (renameFinish oldDir oldInode newDir oldBlock oldK oldIsDir).Always
      (fun _ s' => Dropping s₀ s' all) s := by
  have done : ∀ {s : Fs}, Accounts s₀ s held (oldInode :: dropped) → Dropping s₀ s all :=
    fun owes => ⟨held, oldInode :: dropped, List.perm_middle.trans same, owes⟩
  unfold renameFinish
  refine owes.releaseThen fun s₁ owes => owes.bind Quiet.load fun bytes s₂ owes =>
    owes.bind Quiet.store fun _ s₃ owes => owes.bind Quiet.markDirty fun _ s₄ owes =>
      owes.bind Quiet.unfix fun _ s₅ owes => ?_
  split
  · refine owes.bind (quiet_getBlock _ _ _).steady fun r s₆ owes => ?_
    cases r with
    | error e => exact done owes
    | ok blockno =>
      refine owes.bind Quiet.fix fun r s₇ owes => ?_
      cases r with
      | error e => exact done owes
      | ok block =>
        refine owes.bind Quiet.load fun bytes s₈ owes =>
          owes.bind Quiet.inode fun i s₉ owes => ?_
        split
        · trivial
        · exact owes.bind Quiet.store fun _ _ owes => owes.bind Quiet.markDirty
            fun _ _ owes => owes.bind Quiet.unfix fun _ _ owes =>
              owes.bind Quiet.decNlinks.steady fun _ _ owes => owes.bind Quiet.setDirty.steady
                fun _ _ owes => done owes
  · exact done owes

theorem rename_owes {oldInode : Nat} {newInode : Option Nat}
    (owes : Owes s₀ s (oldInode :: (newInode.toList ++ held))) (oldDir newDir : Nat)
    (oldName newName : List UInt8) :
    (rename oldDir oldInode oldName newDir newInode newName).Always
      (fun _ s' => Dropping s₀ s' (oldInode :: (newInode.toList ++ held))) s := by
  have early : ∀ {s : Fs}, Owes s₀ s (oldInode :: (newInode.toList ++ held)) →
      Dropping s₀ s (oldInode :: (newInode.toList ++ held)) := fun owes => by
    simpa using owes.dropping
  unfold rename
  split
  · exact early owes
  refine owes.bind (quiet_findDirent _ _).steady fun found s₁ owes => ?_
  match found with
  | .error e => exact early owes
  | .ok none => exact early owes
  | .ok (some (oldBlock, oldK)) =>
    refine owes.bind Quiet.inode fun i s₂ owes => owes.bind (quiet_findDirent _ _).steady
      fun found s₃ owes => ?_
    match found with
    | .error e => exact renameFail_owes owes (by simp) _ _
    | .ok (some (newBlock, newK)) =>
      cases newInode with
      | none => trivial
      | some newInode =>
        have all : (newInode :: oldInode :: held).Perm (oldInode :: ([newInode] ++ held)) :=
          .swap _ _ _
        refine owes.bind Quiet.inode fun n s₄ owes => owes.bind
          (quiet_checkReplace _ _ _).steady fun r s₅ owes => ?_
        cases r with
        | error e =>
          exact owes.swap.releaseThen fun s₆ owes => owes.bind Quiet.unfix fun _ s₇ owes =>
            renameFail_owes owes (List.perm_append_comm.trans all) _ _
        | ok _ =>
          have finish : ∀ {s : Fs}, Owes s₀ s (oldInode :: ([newInode] ++ held)) →
              (do
                setInode newInode .decNlinks
                setInode newInode .setDirty
                release newInode
                renameFinish oldDir oldInode newDir oldBlock oldK (Mode.isDir i.mode)).Always
                (fun _ s' => Dropping s₀ s' (oldInode :: ([newInode] ++ held))) s := fun owes =>
            owes.bind Quiet.decNlinks.steady fun _ _ owes => owes.bind Quiet.setDirty.steady
              fun _ _ owes => owes.swap.releaseThen fun _ owes =>
                renameFinish_owes owes (List.perm_append_comm.trans all) _ _ _ _ _
          refine owes.bind Quiet.inode fun i s₆ owes => owes.bind Quiet.load
            fun bytes s₇ owes => owes.bind Quiet.store fun _ s₈ owes =>
              owes.bind Quiet.markDirty fun _ s₉ owes => owes.bind Quiet.unfix
                fun _ s₁₀ owes => ?_
          split
          · exact owes.bind Quiet.decNlinks.steady fun _ _ owes => finish owes
          · exact finish owes
    | .ok none =>
      cases newInode with
      | some newInode => trivial
      | none =>
        refine owes.bind (quiet_addLink _ _ _).steady fun r s₄ owes => ?_
        cases r with
        | error e => exact renameFail_owes owes (by simp) _ _
        | ok _ =>
          dsimp only
          split
          · exact owes.bind Quiet.incNlinks.steady fun _ _ owes => renameFinish_owes owes (by simp) _ _ _ _ _
          · exact renameFinish_owes owes (by simp) _ _ _ _ _

end Minix

end Release

namespace VFS

variable {s₀ s : Fs} {held : List Nat}

theorem steady_setPos (file : File) (pos : Int) : Steady (setPos file pos) := by
  refine Steady.modify fun s => ⟨rfl, rfl, rfl, fun _ => rfl, fun _ => id, fun wf =>
    ⟨wf.icache, wf.cwd, wf.root, fun bucket entry inTable => ?_⟩⟩
  simp only [FdTable.setPos] at inTable
  by_cases here : bucket = file.fd % FdTable.tableSize
  · subst here
    rw [Function.update_self] at inTable
    obtain ⟨before, old, rfl⟩ := List.mem_map.mp inTable
    have allocated := wf.files _ before old
    split <;> exact allocated
  · rw [Function.update_of_ne here] at inTable
    exact wf.files bucket entry inTable

theorem steady_getFile (fd : Int) : Steady (getFile fd) := Quiet.get.bind fun _ => .pure

theorem steady_sync : Steady VFS.sync := Quiet.get.bind fun _ => .ite Steady.syncFs .pure

theorem steady_read (fd : Int) (count : Nat) : Steady (VFS.read fd count) :=
  .ite .pure ((steady_getFile fd).bind fun
    | none => .pure
    | some _ => .ite .pure (Quiet.inode.bind fun _ => .ite .pure
        ((Filesystem.quiet_read _ _ _).steady.bind fun
          | .error _ => .pure
          | .ok _ => (steady_setPos _ _).bind fun _ => .pure)))

theorem steady_writeFile (file : File) (buf : List UInt8) (originalSize : Int) :
    Steady (writeFile file buf originalSize) := by
  refine (Filesystem.quiet_write _ _ _).steady.bind fun r => ?_
  cases r with
  | error e => exact (Minix.quiet_truncate _ _).steady.bind fun _ => .pure
  | ok n =>
    refine (steady_setPos _ _).bind fun _ => Quiet.inode.bind fun i => ?_
    split
    · exact Quiet.setSize.steady.bind fun _ => Quiet.setDirty.steady.bind fun _ => .pure
    · exact .pure

theorem steady_write (fd : Int) (buf : List UInt8) : Steady (VFS.write fd buf) :=
  .ite .pure ((steady_getFile fd).bind fun
    | none => .pure
    | some _ => .ite .pure (Quiet.inode.bind fun _ => .ite .pure (.ite
        ((Filesystem.quiet_punchHole _ _ _).steady.bind fun
          | .error _ => (Minix.quiet_truncate _ _).steady.bind fun _ => .pure
          | .ok () => steady_writeFile _ _ _)
        (steady_writeFile _ _ _))))

theorem steady_lseek (fd offset : Int) (whence : Whence) : Steady (VFS.lseek fd offset whence) :=
  (steady_getFile fd).bind fun
    | none => .pure
    | some file => Quiet.inode.bind fun _ => by
      cases whence with
      | other => exact .pure
      | set => exact (steady_setPos _ _).bind fun _ => .pure
      | cur => exact (steady_setPos _ _).bind fun _ => .pure
      | «end» => exact (steady_setPos _ _).bind fun _ => .pure

theorem steady_statInode (inode : Nat) : Steady (statInode inode) :=
  Quiet.get.bind fun _ => Quiet.inode.bind fun _ => .pure

theorem steady_fstat (fd : Int) : Steady (VFS.fstat fd) :=
  (steady_getFile fd).bind fun
    | none => .pure
    | some _ => (steady_statInode _).bind fun _ => .pure

theorem steady_truncateInode (inode : Nat) (length : Int) : Steady (truncateInode inode length) :=
  Quiet.inode.bind fun _ => .ite .pure (.ite .pure (.ite
    (Filesystem.quiet_punchHole _ _ _).steady
    ((Minix.quiet_truncate _ _).steady.bind fun _ => .pure)))

theorem steady_ftruncate (fd length : Int) : Steady (VFS.ftruncate fd length) :=
  (steady_getFile fd).bind fun
    | none => .pure
    | some _ => .ite .pure (steady_truncateInode _ _)

theorem statPath_owes (owes : Owes s₀ s held) (pathname : PathName) (follow : Bool) :
    (statPath pathname follow).Always (fun _ s' => Owes s₀ s' held) s := by
  refine always_bind.mpr ((pathwalkStep123_owes owes pathname follow).mono fun r s₁ owing => ?_)
  cases r with
  | error e => exact owing
  | ok inode =>
    have owes : Owes s₀ s₁ (inode :: held) := owing
    exact owes.bind (steady_statInode _) fun _ _ owes => owes.putThen fun _ owes => owes

theorem getdents_owes (owes : Owes s₀ s held) (fd count : Int) :
    (VFS.getdents fd count).Always (fun _ s' => Owes s₀ s' held) s := by
  unfold VFS.getdents
  split
  · exact owes
  refine owes.bind (steady_getFile fd) fun file s₁ owes => ?_
  cases file with
  | none => exact owes
  | some file =>
    refine owes.bind Quiet.inode fun i s₂ owes => ?_
    split
    · exact owes
    split
    · exact owes
    refine always_bind.mpr ((Minix.iterateDir_owes owes _ _).mono fun r s₃ owes => ?_)
    cases r with
    | error e => exact owes
    | ok ctx =>
      cases failed : ctx.error with
      | some e =>
        simp only [failed]
        exact owes
      | none =>
        simp only [failed]
        exact owes.bind (steady_setPos _ _) fun _ _ owes => owes

theorem mkdir_owes (owes : Owes s₀ s held) (pathname : PathName) :
    (VFS.mkdir pathname).Always (fun _ s' => Owes s₀ s' held) s := by
  refine owes.bind Quiet.get fun t s₁ owes => ?_
  split
  · exact owes
  refine always_bind.mpr ((pathwalkStep12_owes owes pathname).mono fun r s₂ owing => ?_)
  cases r with
  | error e => exact owing
  | ok path =>
    exact always_bind.mpr ((Minix.mkdir_owes owing _ _ _).mono fun _ _ owes =>
      owes.putThen fun _ owes => owes)

theorem truncate_owes (owes : Owes s₀ s held) (path : PathName) (length : Int) :
    (VFS.truncate path length).Always (fun _ s' => Owes s₀ s' held) s := by
  refine always_bind.mpr ((pathwalkStep123_owes owes path true).mono fun r s₁ owing => ?_)
  cases r with
  | error e => exact owing
  | ok inode =>
    have owes : Owes s₀ s₁ (inode :: held) := owing
    exact owes.bind (steady_truncateInode _ _) fun _ _ owes => owes.putThen fun _ owes => owes

theorem readlink_owes (owes : Owes s₀ s held) (pathname : PathName) (bufsiz : Nat) :
    (VFS.readlink pathname bufsiz).Always (fun _ s' => Owes s₀ s' held) s := by
  unfold VFS.readlink
  split
  · exact owes
  refine always_bind.mpr ((pathwalkStep123_owes owes pathname false).mono fun r s₁ owing => ?_)
  cases r with
  | error e => exact owing
  | ok inode =>
    have owes : Owes s₀ s₁ (inode :: held) := owing
    refine owes.bind Quiet.inode fun i s₂ owes => ?_
    split
    · exact owes.putThen fun _ owes => owes
    · refine owes.bind (Filesystem.quiet_getLink _).steady fun link s₃ owes =>
        owes.putThen fun s₄ owes => ?_
      cases link <;> exact owes

theorem link_owes (owes : Owes s₀ s held) (oldpath newpath : PathName) :
    (VFS.link oldpath newpath).Always (fun _ s' => Owes s₀ s' held) s := by
  refine always_bind.mpr ((pathwalkStep123_owes owes oldpath false).mono fun r s₁ owing => ?_)
  cases r with
  | error e => exact owing
  | ok inode =>
    have owes : Owes s₀ s₁ (inode :: held) := owing
    refine owes.bind Quiet.inode fun i s₂ owes => ?_
    split
    · exact owes.putThen fun _ owes => owes
    refine always_bind.mpr ((pathwalkStep12_owes owes newpath).mono fun r s₃ owing => ?_)
    cases r with
    | error e =>
      have owes : Owes s₀ s₃ (inode :: held) := owing
      exact owes.putThen fun _ owes => owes
    | ok path =>
      have owes : Owes s₀ s₃ (path.curDir :: inode :: held) := owing
      dsimp only
      split
      · exact owes.putThen fun _ owes => owes.putThen fun _ owes => owes
      · exact owes.bind (Minix.quiet_link _ _ _).steady fun _ _ owes =>
          owes.putThen fun _ owes => owes.putThen fun _ owes => owes

theorem symlink_owes (owes : Owes s₀ s held) (target linkpath : PathName) :
    (VFS.symlink target linkpath).Always (fun _ s' => Owes s₀ s' held) s := by
  refine always_bind.mpr ((pathwalkStep12_owes owes linkpath).mono fun r s₁ owing => ?_)
  cases r with
  | error e => exact owing
  | ok path =>
    have owes : Owes s₀ s₁ (path.curDir :: held) := owing
    dsimp only
    split
    · exact owes.putThen fun _ owes => owes
    · exact always_bind.mpr ((Minix.symlink_owes owes _ _ _).mono fun _ _ owes =>
        owes.putThen fun _ owes => owes)

theorem remove_owes {dir : Nat} (owes : Owes s₀ s (dir :: held)) (name : PathName) (isDir : Bool)
    {action : Nat → FsM (Except Errno Unit)} (quiet : ∀ o, Quiet (action o)) :
    (remove dir name isDir action).Always (fun _ s' => Owes s₀ s' held) s := by
  refine always_bind.mpr ((Minix.lookup_owes owes dir name).mono fun r s₁ owing => ?_)
  match r with
  | .error e =>
    have owes : Owes s₀ s₁ (dir :: held) := owing
    exact owes.putThen fun _ owes => owes
  | .ok none =>
    have owes : Owes s₀ s₁ (dir :: held) := owing
    exact owes.putThen fun _ owes => owes
  | .ok (some inode) =>
    have owes : Owes s₀ s₁ (inode :: dir :: held) := owing
    refine owes.bind Quiet.inode fun i s₂ owes => ?_
    split
    · exact owes.swap.putThen fun _ owes => owes.putThen fun _ owes => owes
    · exact owes.bind (quiet inode).steady fun _ _ owes =>
        owes.swap.putThen fun _ owes => owes.putThen fun _ owes => owes

theorem unlink_owes (owes : Owes s₀ s held) (pathname : PathName) :
    (VFS.unlink pathname).Always (fun _ s' => Owes s₀ s' held) s := by
  refine always_bind.mpr ((pathwalkStep12_owes owes pathname).mono fun r s₁ owing => ?_)
  cases r with
  | error e => exact owing
  | ok path =>
    have owes : Owes s₀ s₁ (path.curDir :: held) := owing
    dsimp only
    split
    · exact owes.putThen fun _ owes => owes
    · exact remove_owes owes _ _ fun _ => Minix.quiet_unlink _ _ _

theorem rmdir_owes (owes : Owes s₀ s held) (pathname : PathName) :
    (VFS.rmdir pathname).Always (fun _ s' => Owes s₀ s' held) s := by
  refine always_bind.mpr ((pathwalkStep12_owes owes pathname).mono fun r s₁ owing => ?_)
  cases r with
  | error e => exact owing
  | ok path => exact remove_owes owing _ _ fun _ => Minix.quiet_rmdir _ _ _

end VFS

end MPStuBS
