import MPStuBS.QuietSteps
import MPStuBS.Vfs

/-! The references to inode objects that a call of the VFS takes and gives back. -/
namespace MPStuBS

open Prog FsM

/-- Every object that the state names has been allocated. -/
structure Fs.Wf (s : Fs) : Prop where
  icache : ∀ o ∈ s.icache, o < s.allocated
  cwd : ∀ o ∈ s.cwd, o < s.allocated
  root : s.mounted = true → s.rootInode < s.allocated
  files : ∀ bucket, ∀ file ∈ s.fdTable.table bucket, file.inode < s.allocated

/-- The references to an object, none before it is allocated. -/
def Fs.refs (s : Fs) (o : Nat) : Nat := if o < s.allocated then (s.inodes o).refcount else 0

theorem Fs.refs_of_lt {s : Fs} {o : Nat} (early : o < s.allocated) :
    s.refs o = (s.inodes o).refcount := if_pos early

theorem Fs.refs_of_le {s : Fs} {o : Nat} (late : s.allocated ≤ o) : s.refs o = 0 :=
  if_neg (Nat.not_lt.mpr late)

theorem Fs.refs_congr {s s' : Fs} {o : Nat} (allocated : s'.allocated = s.allocated)
    (refcount : (s'.inodes o).refcount = (s.inodes o).refcount) : s'.refs o = s.refs o := by
  unfold Fs.refs
  rw [allocated, refcount]

/-- Nothing is referenced more or less than before. -/
structure Fs.Steady (s s' : Fs) : Prop where
  log : s'.log = s.log
  allocated : s'.allocated = s.allocated
  num : s'.numInodeReferences = s.numInodeReferences
  refcount : ∀ o, (s'.inodes o).refcount = (s.inodes o).refcount
  deleted : ∀ o, (s.inodes o).deleted = true → (s'.inodes o).deleted = true
  wf : s.Wf → s'.Wf

instance : IsPreorder Fs Fs.Steady where
  refl _ := ⟨rfl, rfl, rfl, fun _ => rfl, fun _ => id, id⟩
  trans _ _ _ fst snd := ⟨snd.log.trans fst.log, snd.allocated.trans fst.allocated,
    snd.num.trans fst.num, fun o => (snd.refcount o).trans (fst.refcount o),
    fun o => snd.deleted o ∘ fst.deleted o, snd.wf ∘ fst.wf⟩

theorem Fs.Quiet.steady {s s' : Fs} (quiet : s.Quiet s') : s.Steady s' := by
  obtain ⟨inodes, rfl, kept⟩ := quiet
  exact ⟨rfl, rfl, rfl, fun o => (kept o).refcount, fun o => ((kept o).deleted.trans ·), fun wf => ⟨wf.icache, wf.cwd, wf.root, wf.files⟩⟩

abbrev Steady {α : Type} (p : FsM α) : Prop := Keeps Fs.Steady p

theorem Quiet.steady {α : Type} {p : FsM α} (quiet : Quiet p) : Steady p :=
  fun s => (quiet s).mono fun _ _ => Fs.Quiet.steady

namespace Steady

theorem modify {f : Fs → Fs} (steady : ∀ s : Fs, s.Steady (f s)) : Steady (FsM.modify f) :=
  fun s => steady s

theorem setInode {ptr : Nat} {f : Inode → Inode} (kept : ∀ i : Inode, (f i).refcount = i.refcount)
    (gone : ∀ i : Inode, i.deleted = true → (f i).deleted = true) : Steady (FsM.setInode ptr f) := by
  intro s
  simp only [FsM.setInode, always_bind]
  change Always (if (s.inodes ptr).deleted then _ else _) _ s
  split
  · trivial
  · refine ⟨rfl, rfl, rfl, fun o => ?_, fun o => ?_, fun wf => ⟨wf.icache, wf.cwd, wf.root, wf.files⟩⟩
    · by_cases here : o = ptr
      · subst here
        simpa [Fs.setInode] using kept _
      · simp [Fs.setInode, Function.update_of_ne here]
    · by_cases here : o = ptr
      · subst here
        simpa [Fs.setInode] using gone _
      · simp [Fs.setInode, Function.update_of_ne here]

theorem destroy (inode : Nat) : Steady (Inode.destroy inode) := by
  have deletes : Steady (FsM.setInode inode fun i => { i with deleted := true }) :=
    setInode (fun _ => rfl) fun _ _ => rfl
  refine Quiet.inode.bind fun i => ?_
  split
  · exact (Minix.quiet_truncate _ _).steady.bind fun _ => (Minix.quiet_freeInode _).steady.bind
      fun _ => deletes
  · split
    · exact (Inode.quiet_writeToDisk _).steady.bind fun _ => deletes
    · exact deletes

theorem deletes (inode : Nat) (s : Fs) : (FsM.setInode inode fun i => { i with deleted := true }).Always
    (fun _ s' => (s'.inodes inode).deleted = true) s := by
  simp only [FsM.setInode, always_bind]
  change Always (if (s.inodes inode).deleted then _ else _) _ s
  split
  · trivial
  · change ((s.setInode inode _).inodes inode).deleted = true
    simp [Fs.setInode]

theorem destroy_deletes (inode : Nat) (s : Fs) :
    (Inode.destroy inode).Always (fun _ s' => (s'.inodes inode).deleted = true) s := by
  unfold Inode.destroy
  refine always_bind.mpr ((always_true _ s).mono fun i s₁ _ => ?_)
  split
  · exact always_bind.mpr ((always_true _ s₁).mono fun _ s₂ _ => always_bind.mpr ((always_true _ s₂).mono
      fun _ s₃ _ => deletes inode s₃))
  · split
    · exact always_bind.mpr ((always_true _ s₁).mono fun _ s₂ _ => deletes inode s₂)
    · exact deletes inode s₁

theorem remove (inode : Nat) : Steady (InodeCache.remove inode) :=
  modify fun _ => ⟨rfl, rfl, rfl, fun _ => rfl, fun _ => id, fun wf =>
    ⟨fun o inRest => wf.icache o (List.mem_of_mem_erase inRest), wf.cwd, wf.root, wf.files⟩⟩

theorem decrement : Steady InodeCache.decrement :=
  modify fun _ => ⟨rfl, rfl, rfl, fun _ => rfl, fun _ => id, fun wf => ⟨wf.icache, wf.cwd, wf.root, wf.files⟩⟩

theorem evictLoop (cache : List Nat) : Steady (InodeCache.evictLoop cache) := by
  induction cache with
  | nil => exact .pure
  | cons cur rest ih =>
    exact Quiet.get.bind fun _ => .ite .pure (Quiet.inode.bind fun _ => .ite
      ((remove _).bind fun _ => (destroy _).bind fun _ => decrement.bind fun _ => ih) ih)

theorem maybeEvictInodes : Steady InodeCache.maybeEvictInodes :=
  Quiet.get.bind fun _ => evictLoop _

theorem syncLoop (cache : List Nat) : Steady (InodeCache.syncLoop cache) := by
  induction cache with
  | nil => exact .pure
  | cons cur rest ih =>
    refine Quiet.inode.bind fun i => ?_
    split
    · exact (remove _).bind fun _ => (destroy _).bind fun _ => decrement.bind fun _ => ih
    · split
      · exact (Inode.quiet_writeToDisk _).steady.bind fun _ => ih
      · exact ih

theorem syncMaps (map : Nat → Nat) (n : Nat) : ∀ i, Steady (Minix.syncMaps map n i) := by
  induction n with
  | zero => exact fun _ => .pure
  | succ n ih => exact fun i => Quiet.sync.bind fun _ => ih (i + 1)

theorem syncFs : Steady VFS.syncFs :=
  (Quiet.get.bind fun _ => syncLoop _).bind fun _ => Quiet.get.bind fun _ =>
    (syncMaps _ _ _).bind fun _ => syncMaps _ _ _

end Steady

def FsEvent.isLost : FsEvent → Bool
  | .lost _ => true
  | _ => false

/-- What was noted since the state `s`. -/
def Fs.since (s s' : Fs) : List FsEvent := s'.log.drop s.log.length

/-- Since the state `s` the references in `held` have been taken and not been given back,
and those in `dropped` were given back by someone who had not taken them. Inodes that could
not be read keep theirs. -/
structure Accounts (s s' : Fs) (held dropped : List Nat) : Prop where
  wf : s'.Wf
  log : s.log.length ≤ s'.log.length
  released : ∀ o, .released o ∈ s.since s' ↔ o ∈ dropped
  lost : ∀ o, .lost o ∈ s.since s' → o < s'.allocated ∧ (s'.inodes o).deleted = true
  dropped : ∀ o ∈ dropped, o < s'.allocated ∧ .lost o ∉ s.since s'
  num : s'.numInodeReferences =
    s.numInodeReferences + held.length + (s.since s').countP FsEvent.isLost
  refs : ∀ o, s'.refs o = s.refs o + held.count o + (s.since s').count (.lost o)

abbrev Owes (s s' : Fs) (held : List Nat) : Prop := Accounts s s' held []

theorem Fs.since_of_log {s s' s'' : Fs} (log : s''.log = s'.log) : s.since s'' = s.since s' := by
  unfold Fs.since
  rw [log]

theorem Fs.since_note {s s' s'' : Fs} {event : FsEvent} (early : s.log.length ≤ s'.log.length)
    (log : s''.log = s'.log ++ [event]) : s.since s'' = s.since s' ++ [event] := by
  unfold Fs.since
  rw [log, List.drop_append_of_le_length early]

theorem Owes.refl {s : Fs} (wf : s.Wf) : Owes s s [] := by
  refine ⟨wf, Nat.le_refl _, ?_, ?_, ?_, ?_, ?_⟩ <;> simp [Fs.since]

theorem Accounts.perm {s s' : Fs} {held held' dropped : List Nat} (owes : Accounts s s' held dropped)
    (same : held.Perm held') : Accounts s s' held' dropped :=
  { owes with
    num := by rw [owes.num, same.length_eq]
    refs := fun o => by rw [owes.refs, same.count_eq] }

theorem Accounts.swap {s s' : Fs} {a b : Nat} {held dropped : List Nat}
    (owes : Accounts s s' (a :: b :: held) dropped) : Accounts s s' (b :: a :: held) dropped :=
  owes.perm (.swap b a held)

theorem Accounts.steady {s s' s'' : Fs} {held dropped : List Nat} (owes : Accounts s s' held dropped)
    (steady : s'.Steady s'') : Accounts s s'' held dropped := by
  have since : s.since s'' = s.since s' := Fs.since_of_log steady.log
  refine ⟨steady.wf owes.wf, ?_, ?_, ?_, ?_, ?_, fun o => ?_⟩
  · rw [steady.log]
    exact owes.log
  · rw [since]
    exact owes.released
  · intro o isLost
    rw [since] at isLost
    rw [steady.allocated]
    exact ⟨(owes.lost o isLost).1, steady.deleted o (owes.lost o isLost).2⟩
  · rw [since, steady.allocated]
    exact owes.dropped
  · rw [since, steady.num]
    exact owes.num
  · rw [since, ← owes.refs]
    exact Fs.refs_congr steady.allocated (steady.refcount o)

/-- A referenced object has been allocated. -/
theorem Accounts.allocated {s s' : Fs} {o : Nat} {held dropped : List Nat}
    (owes : Accounts s s' (o :: held) dropped) : o < s'.allocated := by
  by_contra late
  have none := owes.refs o
  rw [Fs.refs_of_le (Nat.not_lt.mp late), List.count_cons_self] at none
  omega

section Rules

variable {s₀ s : Fs} {held dropped : List Nat}

theorem Steady.owes {α : Type} {p : FsM α} (steady : Steady p) (owes : Accounts s₀ s held dropped) :
    p.Always (fun _ s' => Accounts s₀ s' held dropped) s :=
  (steady s).mono fun _ _ => owes.steady

theorem Accounts.get {o : Nat} (owes : Owes s₀ s held) (allocated : o < s.allocated) :
    (Inode.get o).Always (fun _ s' => Owes s₀ s' (o :: held)) s := by
  simp only [Inode.get, FsM.setInode, always_bind]
  change Always (if (s.inodes o).deleted then _ else _) _ _
  split
  · trivial
  refine ⟨⟨owes.wf.icache, owes.wf.cwd, owes.wf.root, owes.wf.files⟩, owes.log, owes.released,
    fun p isLost => ⟨(owes.lost p isLost).1, ?_⟩, by simp, ?_, fun p => ?_⟩
  · by_cases here : p = o
    · subst here
      simpa [Fs.setInode] using (owes.lost p isLost).2
    · simpa [Fs.setInode, Function.update_of_ne here] using (owes.lost p isLost).2
  · change s.numInodeReferences + 1 = _
    rw [owes.num, List.length_cons]
    change _ = _ + (s₀.since s).countP _
    omega
  · change _ = _ + (s₀.since s).count _
    by_cases here : p = o
    · subst here
      rw [Fs.refs_of_lt (by exact allocated), List.count_cons_self]
      have before := owes.refs p
      rw [Fs.refs_of_lt allocated] at before
      simp only [Fs.setInode, Function.update_self, before]
      omega
    · rw [List.count_cons_of_ne (Ne.symm here), ← owes.refs p]
      exact Fs.refs_congr rfl (by simp [Fs.setInode, Function.update_of_ne here])

/-- What a `put` does to an object that is not deleted. -/
def Fs.putDown (s : Fs) (o : Nat) : Fs :=
  if (s.inodes o).refcount ≠ 0 then
    Fs.setInode { s with numInodeReferences := s.numInodeReferences - 1 } o
      fun i => { i with refcount := i.refcount - 1 }
  else s

theorem always_put {o : Nat} {post : Unit → Fs → Prop}
    (down : (s.inodes o).deleted = false → post () (s.putDown o)) : (Inode.put o).Always post s := by
  simp only [Inode.put, FsM.inode, always_bind]
  change Always (if (s.inodes o).deleted then _ else _) _ _
  split
  · trivial
  rename_i live
  have down := down (by simpa using live)
  unfold Fs.putDown at down
  simp only [always_pure, FsM.setInode]
  change Always (if (s.inodes o).refcount ≠ 0 then _ else _) _ _
  split
  · rename_i positive
    rw [if_pos positive] at down
    simp only [always_bind]
    change Always (if (s.inodes o).deleted then _ else _) _ _
    rw [if_neg live]
    exact down
  · rename_i zero
    rw [if_neg zero] at down
    exact down

theorem Accounts.put {o : Nat} (owes : Accounts s₀ s (o :: held) dropped) :
    (Inode.put o).Always (fun _ s' => Accounts s₀ s' held dropped) s := by
  have allocated := owes.allocated
  have positive : (s.inodes o).refcount
      = s₀.refs o + held.count o + (s₀.since s).count (.lost o) + 1 := by
    have here := owes.refs o
    rw [Fs.refs_of_lt allocated, List.count_cons_self] at here
    omega
  refine always_put fun live => ?_
  unfold Fs.putDown
  rw [if_pos (by omega)]
  refine ⟨⟨owes.wf.icache, owes.wf.cwd, owes.wf.root, owes.wf.files⟩, owes.log, owes.released,
    fun p isLost => ⟨(owes.lost p isLost).1, ?_⟩, owes.dropped, ?_, fun p => ?_⟩
  · by_cases here : p = o
    · subst here
      simpa [Fs.setInode] using (owes.lost p isLost).2
    · simpa [Fs.setInode, Function.update_of_ne here] using (owes.lost p isLost).2
  · change s.numInodeReferences - 1 = _ + (s₀.since s).countP _
    rw [owes.num, List.length_cons]
    omega
  · change _ = _ + (s₀.since s).count _
    by_cases here : p = o
    · subst here
      rw [Fs.refs_of_lt (by exact allocated)]
      simp only [Fs.setInode, Function.update_self, positive]
      omega
    · have before := owes.refs p
      rw [List.count_cons_of_ne (Ne.symm here)] at before
      rw [← before]
      exact Fs.refs_congr rfl (by simp [Fs.setInode, Function.update_of_ne here])

theorem Accounts.allocate (owes : Owes s₀ s held) :
    allocateInode.Always (fun o s' => Owes s₀ s' (o :: held)) s := by
  simp only [allocateInode, always_bind]
  refine ⟨⟨fun o inCache => Nat.lt_succ_of_lt (owes.wf.icache o inCache),
    fun o isCwd => Nat.lt_succ_of_lt (owes.wf.cwd o isCwd),
    fun mounted => Nat.lt_succ_of_lt (owes.wf.root mounted),
    fun bucket file inTable => Nat.lt_succ_of_lt (owes.wf.files bucket file inTable)⟩,
    owes.log, owes.released, fun p isLost => ?_, by simp, ?_, fun p => ?_⟩
  · obtain ⟨early, deleted⟩ := owes.lost p isLost
    refine ⟨Nat.lt_succ_of_lt early, ?_⟩
    simpa [Function.update_of_ne (Nat.ne_of_lt early)] using deleted
  · change s.numInodeReferences + 1 = _ + (s₀.since s).countP _
    rw [owes.num, List.length_cons]
    omega
  · change _ = _ + (s₀.since s).count _
    by_cases here : p = s.allocated
    · subst here
      have before := owes.refs s.allocated
      rw [Fs.refs_of_le (Nat.le_refl _)] at before
      rw [Fs.refs_of_lt (by exact Nat.lt_succ_self _), List.count_cons_self]
      simp only [Function.update_self, Inode.fresh]
      omega
    · rw [List.count_cons_of_ne (Ne.symm here), ← owes.refs p]
      by_cases early : p < s.allocated
      · rw [Fs.refs_of_lt early, Fs.refs_of_lt (by exact Nat.lt_succ_of_lt early)]
        simp [Function.update_of_ne here]
      · rw [Fs.refs_of_le (Nat.not_lt.mp early)]
        have late : s.allocated + 1 ≤ p := by omega
        exact Fs.refs_of_le (by exact late)

/-- The reference of a deleted inode that could not be read is lost. -/
theorem Accounts.lose {o : Nat} (owes : Owes s₀ s (o :: held)) (deleted : (s.inodes o).deleted = true) :
    (FsM.note (.lost o)).Always (fun _ s' => Owes s₀ s' held) s := by
  have since : s₀.since (s.note (.lost o)) = s₀.since s ++ [.lost o] := Fs.since_note owes.log rfl
  refine ⟨⟨owes.wf.icache, owes.wf.cwd, owes.wf.root, owes.wf.files⟩, ?_, fun p => ?_,
    fun p isLost => ?_, by simp, ?_, fun p => ?_⟩
  · exact Nat.le_trans owes.log (by simp [Fs.note])
  · rw [since, ← owes.released p]
    simp
  · rw [since, List.mem_append, List.mem_singleton] at isLost
    rcases isLost with before | new
    · exact owes.lost p before
    · obtain rfl := FsEvent.lost.inj new
      exact ⟨owes.allocated, deleted⟩
  · change s.numInodeReferences = _
    rw [since, owes.num, List.countP_append, List.length_cons]
    simp [FsEvent.isLost]
    omega
  · change s.refs p = _
    rw [since, owes.refs p, List.count_append, List.count_cons]
    by_cases here : p = o
    · subst here
      simp
      omega
    · simp [Ne.symm here]

theorem Accounts.load {ino : Nat} {marked : Bool} (owes : Owes s₀ s held) :
    (FsM.note (.loaded ino marked)).Always (fun _ s' => Owes s₀ s' held) s := by
  have since : s₀.since (s.note (.loaded ino marked)) = s₀.since s ++ [.loaded ino marked] :=
    Fs.since_note owes.log rfl
  refine ⟨⟨owes.wf.icache, owes.wf.cwd, owes.wf.root, owes.wf.files⟩, ?_, fun p => ?_,
    fun p isLost => ?_, by simp, ?_, fun p => ?_⟩
  · exact Nat.le_trans owes.log (by simp [Fs.note])
  · rw [since, ← owes.released p]
    simp
  · rw [since] at isLost
    exact owes.lost p (by simpa using isLost)
  · change s.numInodeReferences = _
    rw [since, owes.num, List.countP_append]
    simp [FsEvent.isLost]
  · change s.refs p = _
    rw [since, owes.refs p, List.count_append]
    simp

end Rules

end MPStuBS
