import MPStuBS.DestroyRuns

/-! What the calls leave as it is: the mounted volume, and, but for those that open, close or enter
something, the working directory and the open files. No call deletes an object that is referenced. -/
namespace MPStuBS

open Prog FsM

/-- The inodes of the open files. -/
def FdTable.inodes (t : FdTable) : List Nat :=
  (List.range tableSize).flatMap fun bucket => (t.table bucket).map File.inode

/-- A deleted object is not referenced, unless it could not be read. -/
def Fs.Retired (s : Fs) : Prop :=
  ∀ o, (s.inodes o).deleted = true → (s.inodes o).refcount = 0 ∨ .lost o ∈ s.log

/-- What every call keeps while a volume is mounted. -/
structure Fs.Stays (s s' : Fs) : Prop where
  volume : s.SameVolume s'
  log : s.log <+: s'.log
  retired : s.Retired → s'.Retired

/-- Nothing is opened, closed or entered. -/
structure Fs.Framed (s s' : Fs) : Prop extends Fs.Stays s s' where
  cwd : s'.cwd = s.cwd
  files : s'.fdTable.inodes = s.fdTable.inodes

instance : IsPreorder Fs Fs.Stays where
  refl s := ⟨refl_of Fs.SameVolume s, List.prefix_rfl, id⟩
  trans _ _ _ fst snd := ⟨trans_of Fs.SameVolume fst.volume snd.volume, fst.log.trans snd.log,
    snd.retired ∘ fst.retired⟩

instance : IsPreorder Fs Fs.Framed where
  refl s := ⟨refl_of Fs.Stays s, rfl, rfl⟩
  trans _ _ _ fst snd := ⟨trans_of Fs.Stays fst.toStays snd.toStays, snd.cwd.trans fst.cwd,
    snd.files.trans fst.files⟩

theorem Fs.Clean.noneLost {s s' : Fs} (clean : s.Clean s') (log : s.log <+: s'.log)
    (none : ¬ s.HasLost) : ¬ s'.HasLost := by
  rintro ⟨o, isLost⟩
  obtain ⟨new, eq⟩ := log
  refine (clean o).1 ?_
  unfold Fs.since
  rw [← eq, List.drop_left]
  rw [← eq] at isLost
  exact (List.mem_append.mp isLost).resolve_left fun old => none ⟨o, old⟩

/-- Only the counters and the list of the cache change. -/
theorem Fs.framed_cache (s : Fs) (icache : List Nat) (numInodes references : Nat) :
    s.Framed { s with icache := icache, numInodes := numInodes, numInodeReferences := references } :=
  ⟨⟨⟨rfl, rfl, rfl, rfl, rfl, rfl, rfl⟩, List.prefix_rfl, id⟩, rfl, rfl⟩

/-- Only one inode changes in what decides about its life. -/
theorem Fs.QuietBut.framed {s s' : Fs} {o : Nat} (quiet : s.QuietBut o s')
    (retired : s.Retired → (s'.inodes o).deleted = true →
      (s'.inodes o).refcount = 0 ∨ .lost o ∈ s'.log) : s.Framed s' := by
  obtain ⟨inodes, rfl, kept⟩ := quiet
  refine ⟨⟨⟨rfl, rfl, rfl, rfl, rfl, rfl, rfl⟩, List.prefix_rfl, fun before p deleted => ?_⟩, rfl, rfl⟩
  by_cases here : p = o
  · subst here
    exact retired before deleted
  · have same := kept p here
    rw [same.deleted] at deleted
    rw [same.refcount]
    exact before p deleted

theorem Fs.Quiet.framed {s s' : Fs} (quiet : s.Quiet s') : s.Framed s' := by
  obtain ⟨inodes, rfl, kept⟩ := quiet
  refine ⟨⟨⟨rfl, rfl, rfl, rfl, rfl, rfl, rfl⟩, List.prefix_rfl, fun before o deleted => ?_⟩, rfl, rfl⟩
  rw [(kept o).deleted] at deleted
  rw [(kept o).refcount]
  exact before o deleted

abbrev Framed {α : Type} (p : FsM α) : Prop := Keeps Fs.Framed p

namespace Framed

variable {α : Type}

theorem calm {p : FsM α} (quiet : Quiet p) : Framed p := fun s =>
  (quiet s).mono fun _ _ => Fs.Quiet.framed

theorem modify {f : Fs → Fs} (framed : ∀ s : Fs, s.Framed (f s)) : Framed (FsM.modify f) := framed

/-- An object that is changed is not deleted. -/
theorem setInode {ptr : Nat} {f : Inode → Inode} (kept : ∀ i : Inode, (f i).deleted = i.deleted) :
    Framed (FsM.setInode ptr f) := fun s => always_setInode fun live =>
  (quietBut_setInode s ptr f).framed fun _ deleted => by
    simp [Fs.setInode, kept, live] at deleted

theorem get (o : Nat) : Framed (Inode.get o) :=
  (modify fun s => s.framed_cache s.icache s.numInodes _).bind fun _ => setInode fun _ => rfl

theorem put (o : Nat) : Framed (Inode.put o) :=
  (calm Quiet.inode).bind fun _ => .ite
    ((modify fun s => s.framed_cache s.icache s.numInodes _).bind fun _ => setInode fun _ => rfl) .pure

/-- An object without references leaves the cache and is deleted before the program goes on. -/
theorem drop {cur : Nat} {s : Fs} (zero : (s.inodes cur).refcount = 0) {p : FsM α} (next : Framed p) :
    (do
      InodeCache.remove cur
      Inode.destroy cur
      InodeCache.decrement
      p).Always (fun _ s' => s.Framed s') s := by
  simp only [always_bind]
  set removed : Fs := { s with icache := s.icache.erase cur } with isRemoved
  refine ((quietBut_destroy cur removed).and (Steady.destroy cur removed)).mono ?_
  rintro _ s₁ ⟨quiet, steady⟩
  have framed : s.Framed s₁ := trans_of Fs.Framed (s.framed_cache _ s.numInodes s.numInodeReferences)
    (quiet.framed fun _ _ => .inl ((steady.refcount cur).trans zero))
  refine (next { s₁ with numInodes := s₁.numInodes - 1 }).mono fun _ s₂ rest => ?_
  exact trans_of Fs.Framed framed (trans_of Fs.Framed
    (s₁.framed_cache s₁.icache _ s₁.numInodeReferences) rest)

theorem evictLoop (cache : List Nat) : Framed (InodeCache.evictLoop cache) := by
  induction cache with
  | nil => exact .pure
  | cons cur rest ih =>
    intro s
    simp only [InodeCache.evictLoop, always_bind]
    change Always (if s.numInodes ≤ InodeCache.softLimit then _ else _) _ s
    split
    · exact refl_of Fs.Framed s
    simp only [always_bind]
    refine always_inode fun _ => ?_
    split
    · rename_i zero
      exact drop zero ih
    · exact ih s

theorem syncLoop (cache : List Nat) : Framed (InodeCache.syncLoop cache) := by
  induction cache with
  | nil => exact .pure
  | cons cur rest ih =>
    intro s
    simp only [InodeCache.syncLoop, always_bind]
    refine always_inode fun _ => ?_
    split
    · rename_i unused
      exact drop unused.1 ih
    · split
      · exact ((calm (Inode.quiet_writeToDisk cur)).bind fun _ => ih) s
      · exact ih s

theorem syncFs : Framed VFS.syncFs :=
  ((calm Quiet.get).bind fun _ => syncLoop _).bind fun _ => calm (Quiet.get.bind fun _ =>
    (quiet_syncMaps _ _ _).bind fun _ => quiet_syncMaps _ _ _)

theorem allocate : Framed allocateInode := by
  intro s
  simp only [allocateInode, always_bind]
  refine ⟨⟨⟨rfl, rfl, rfl, rfl, rfl, rfl, rfl⟩, List.prefix_rfl, fun before o deleted => ?_⟩, rfl, rfl⟩
  by_cases here : o = s.allocated
  · subst here
    simp [Inode.fresh] at deleted
  · simp only [Function.update_of_ne here] at deleted ⊢
    exact before o deleted

theorem insertInode (o : Nat) : Framed (InodeCache.insertInode o) :=
  (calm Quiet.get).bind fun _ => (calm Quiet.inode).bind fun _ =>
    (calm (InodeCache.quiet_contains _ _)).bind fun _ => .ite .pure
      (modify fun _ => Fs.framed_cache _ _ _ _)

theorem find (ino : Nat) (cache : List Nat) : Framed (InodeCache.find ino cache) := by
  induction cache with
  | nil => exact .pure
  | cons cur rest ih => exact (calm Quiet.inode).bind fun _ => .ite .pure ih

theorem getInode (ino : Nat) : Framed (InodeCache.getInode ino) := by
  have evict : Framed InodeCache.maybeEvictInodes := (calm Quiet.get).bind fun _ => evictLoop _
  refine evict.bind fun _ => (calm Quiet.get).bind fun _ => (find ino _).bind fun found => ?_
  cases found with
  | some cur => exact (get cur).bind fun _ => .pure
  | none => exact allocate.bind fun new => (insertInode new).bind fun _ => .pure

theorem note (event : FsEvent) : Framed (FsM.note event) := fun _ =>
  ⟨⟨⟨rfl, rfl, rfl, rfl, rfl, rfl, rfl⟩, List.prefix_append _ _, fun before o deleted =>
    (before o deleted).imp_right (List.mem_append_left _)⟩, rfl, rfl⟩

/-- An inode that cannot be read is deleted although it is referenced. -/
theorem lose (o : Nat) {p : FsM α} (next : Framed p) : Framed (do
    Inode.destroy o
    FsM.note (.lost o)
    p) := by
  intro s
  refine always_bind.mpr ((quietBut_destroy o s).mono fun _ s₁ quiet => ?_)
  have noted : s.Framed (s₁.note (.lost o)) := by
    obtain ⟨inodes, rfl, kept⟩ := quiet
    refine ⟨⟨⟨rfl, rfl, rfl, rfl, rfl, rfl, rfl⟩, List.prefix_append _ _, fun before p deleted => ?_⟩, rfl, rfl⟩
    by_cases here : p = o
    · subst here
      exact .inr (List.mem_append_right _ (.head _))
    · have same := kept p here
      have deleted : (inodes p).deleted = true := deleted
      rw [same.deleted] at deleted
      exact (before p deleted).imp (fun zero => same.refcount.trans zero) (List.mem_append_left _)
  exact (next _).mono fun _ _ rest => trans_of Fs.Framed noted rest

theorem iget (ino : Nat) : Framed (Minix.iget ino) := by
  have fields : ∀ (o : Nat) (bytes : Bytes) (raw : Nat),
      Framed (FsM.setInode o (Minix.readInode bytes raw ino)) := fun _ _ _ => setInode fun _ => rfl
  have notNew : ∀ o : Nat, Framed (FsM.setInode o fun i => { i with new := false }) := fun _ =>
    setInode fun _ => rfl
  refine (getInode ino).bind fun o => (calm Quiet.inode).bind fun i => .ite .pure
    ((calm (Minix.quiet_rawInode ino)).bind fun r => ?_)
  cases r with
  | error e => exact lose o .pure
  | ok found =>
    exact (calm Quiet.load).bind fun _ => (fields o _ _).bind fun _ => (calm Quiet.unfix).bind fun _ =>
      (notNew o).bind fun _ => (calm (Minix.quiet_inodeMarked ino)).bind fun _ => (note _).bind
        fun _ => .pure

theorem newInode (mode : Nat) : Framed (Minix.newInode mode) := by
  have numbered : ∀ o j : Nat, Framed (FsM.setInode o fun i =>
      { i with ino := j, mode := mode, data := fun _ => 0 }) := fun _ _ => setInode fun _ => rfl
  have notNew : ∀ o : Nat, Framed (FsM.setInode o fun i => { i with new := false }) := fun _ =>
    setInode fun _ => rfl
  refine (calm Quiet.get).bind fun _ => (calm (Minix.quiet_findFreeInode _ _)).bind fun found => ?_
  cases found with
  | none => exact .pure
  | some found =>
    exact (calm Quiet.load).bind fun _ => .ite .pure ((calm Quiet.store).bind fun _ => .ite .pure
      (allocate.bind fun o => (calm Quiet.markDirty).bind fun _ => (numbered o _).bind
        fun _ => (calm Quiet.setDirty).bind fun _ => (notNew o).bind fun _ =>
          (insertInode o).bind fun _ => .pure))

theorem setPos (file : File) (pos : Int) : Framed (FsM.setPos file pos) := by
  refine modify fun _ => ⟨⟨⟨rfl, rfl, rfl, rfl, rfl, rfl, rfl⟩, List.prefix_rfl, id⟩, rfl, ?_⟩
  refine List.flatMap_congr fun bucket _ => ?_
  by_cases here : bucket = file.fd % FdTable.tableSize
  · subst here
    simp only [FdTable.setPos, Function.update_self, List.map_map]
    refine List.map_congr_left fun entry _ => ?_
    simp only [Function.comp_apply]
    split <;> rfl
  · simp only [FdTable.setPos, Function.update_of_ne here]

end Framed

/-- Nothing is noted while an inode is looked for in the cache. -/
theorem getInode_log (ino : Nat) (s : Fs) : (InodeCache.getInode ino).Always (fun _ s' => s'.log = s.log) s := by
  simp only [InodeCache.getInode, always_bind]
  refine (Steady.maybeEvictInodes s).mono fun _ s₁ steady => ?_
  refine (InodeCache.find_always ino s₁.icache s₁).mono ?_
  rintro found s₂ ⟨rfl, -, -⟩
  rw [← steady.log]
  cases found with
  | some cur =>
    simp only [Inode.get, always_bind]
    exact always_setInode fun _ => rfl
  | none =>
    simp only [allocateInode, InodeCache.insertInode, always_bind]
    refine always_inode fun _ => (InodeCache.contains_always _ _ _).mono ?_
    rintro found s' ⟨rfl, -, -⟩
    cases found with
    | true => exact rfl
    | false => exact rfl

/-- An inode can be read: it has a number of the volume, and its block of the table can be fixed. -/
def Fs.Readable (disk : Disk Errno) (s : Fs) (ino : Nat) : Prop :=
  ino ≠ 0 ∧ ino ≤ s.super.ninodes ∧
    ∀ clock, disk.fails clock (2 + s.super.imapBlocks + s.super.zmapBlocks + (ino - 1) / s.inodesPerBlock) = none

/-- What follows in `iget` for an inode that is read. -/
theorem loadNew_log (o ino block raw : Nat) (s : Fs) : Always (do
    let bytes ← FsM.load block
    FsM.setInode o (Minix.readInode bytes raw ino)
    FsM.unfix block
    FsM.setInode o fun i => { i with new := false }
    FsM.note (.loaded ino (← Minix.inodeMarked ino))
    Pure.pure (Except.ok o) : FsM (Except Errno Nat)) (fun _ s' => ∀ p, .lost p ∈ s'.log → .lost p ∈ s.log) s := by
  have fields : ∀ bytes, Steady (FsM.setInode o (Minix.readInode bytes raw ino)) := fun _ =>
    Steady.setInode (fun _ => rfl) fun _ => id
  have notNew : Steady (FsM.setInode o fun i => { i with new := false }) :=
    Steady.setInode (fun _ => rfl) fun _ => id
  simp only [always_bind]
  refine ((Quiet.steady Quiet.load) s).mono fun bytes s₁ first => (fields bytes s₁).mono fun _ s₂ second => ?_
  refine ((Quiet.steady Quiet.unfix) s₂).mono fun _ s₃ third => (notNew s₃).mono fun _ s₄ fourth => ?_
  refine ((Minix.quiet_inodeMarked ino).steady s₄).mono fun marked s₅ fifth => fun p isLost => ?_
  rw [← first.log, ← second.log, ← third.log, ← fourth.log, ← fifth.log]
  rcases List.mem_append.mp isLost with old | new
  · exact old
  · cases List.mem_singleton.mp new

/-- `iget` loses no inode that can be read. -/
theorem iget_losesNone (disk : Disk Errno) (ino : Nat) (w : World Fs) (readable : w.state.Readable disk ino) :
    After disk (Minix.iget ino) (fun _ w' => ∀ o, .lost o ∈ w'.state.log → .lost o ∈ w.state.log) w := by
  obtain ⟨positive, bounded, fixes⟩ := readable
  have sameLog := getInode_log ino w.state
  refine meets_bind.mpr ((sameLog.and (Framed.getInode ino w.state)).after.mono ?_)
  rintro o w₁ ⟨log, framed⟩
  have size : w₁.state.inodesPerBlock = w.state.inodesPerBlock := by
    rw [Fs.inodesPerBlock, Fs.blocksize, framed.volume.blocksizeBits]
    rfl
  refine meets_bind.mpr (after_inode ?_)
  split
  · exact fun p isLost => log ▸ isLost
  simp only [Minix.rawInode, meets_bind, meets_get, framed.volume.super, size]
  rw [if_neg (by omega)]
  simp only [meets_bind]
  refine meets_fix (fun _ => ?_) fun e failure => ?_
  · rw [← log]
    have loaded := loadNew_log o ino w₁.device.next (64 * ((ino - 1) % w.state.inodesPerBlock)) w₁.state
    exact loaded.after (w := ⟨w₁.state, (w₁.device.hold _).tick⟩)
  · rw [fixes] at failure
    cases failure

theorem respected_framed : Respected Fs.Framed where
  quiet := Fs.Quiet.framed
  get := Framed.get
  put := Framed.put
  iget := Framed.iget
  newInode := Framed.newInode
  released s o := Framed.note (.released o) s

theorem calls_framed : Calls fun _ p => Framed p :=
  respected_framed.calls Framed.setPos Framed.syncFs

theorem Framed.stays {α : Type} {p : FsM α} (framed : Framed p) : Keeps Fs.Stays p := fun s =>
  (framed s).mono fun _ _ => Fs.Framed.toStays

theorem respected_stays : Respected Fs.Stays where
  quiet quiet := quiet.framed.toStays
  get o := (Framed.get o).stays
  put o := (Framed.put o).stays
  iget ino := (Framed.iget ino).stays
  newInode mode := (Framed.newInode mode).stays
  released s o := (Framed.note (.released o)).stays s

theorem lastingCalls_stays : LastingCalls fun _ p => Keeps Fs.Stays p where
  toCalls := respected_stays.calls (fun file pos => (Framed.setPos file pos).stays) Framed.syncFs.stays
  files _ _ := ⟨⟨rfl, rfl, rfl, rfl, rfl, rfl, rfl⟩, List.prefix_rfl, id⟩
  enter _ _ := ⟨⟨rfl, rfl, rfl, rfl, rfl, rfl, rfl⟩, List.prefix_rfl, id⟩

end MPStuBS
