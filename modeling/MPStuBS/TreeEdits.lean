import MPStuBS.TreeChains

/-! Steps that change the block tree of one inode: only its zones and its dirty mark change
in memory. -/
namespace MPStuBS.Minix

open Prog FsM Device HeapTree

/-- What a program does that changes only the zones and the dirty mark of an inode. -/
structure Edits (disk : Disk Errno) (ptr : Nat) (w w' : World Fs) (kept pinned : List Nat)
    (view' : Nat → Bytes) (data' : Nat → Nat) : Prop where
  state : ∃ dirty, w'.state = w.state.setInode ptr fun i => { i with data := data', dirty := dirty }
  follows : w.device.Follows w'.device
  stored : Stored disk w' kept pinned view'

section Rules

variable {disk : Disk Errno} {ptr : Nat} {w w' w'' : World Fs} {kept pinned kept' pinned' : List Nat}
  {view view' view'' : Nat → Bytes} {data' data'' : Nat → Nat}

theorem setInode_setInode (s : Fs) (f f' : Inode → Inode) :
    (s.setInode ptr f).setInode ptr f' = s.setInode ptr fun i => f' (f i) := by
  simp [Fs.setInode]

theorem setInode_self {s : Fs} {f : Inode → Inode} (same : f (s.inodes ptr) = s.inodes ptr) :
    s.setInode ptr f = s := by
  simp [Fs.setInode, same]

@[simp] theorem inodes_setInode (s : Fs) (f : Inode → Inode) :
    (s.setInode ptr f).inodes ptr = f (s.inodes ptr) := Function.update_self _ _ _

theorem Works.edits (works : Works disk w w' kept pinned view') :
    Edits disk ptr w w' kept pinned view' (w.state.inodes ptr).data :=
  ⟨⟨(w.state.inodes ptr).dirty, works.state.trans (setInode_self rfl).symm⟩, works.follows, works.stored⟩

theorem Edits.refl (stored : Stored disk w kept pinned view) :
    Edits disk ptr w w kept pinned view (w.state.inodes ptr).data :=
  (Works.refl stored).edits

theorem Edits.data (edits : Edits disk ptr w w' kept pinned view' data') :
    (w'.state.inodes ptr).data = data' := by
  obtain ⟨dirty, state⟩ := edits.state
  rw [state, inodes_setInode]

theorem Edits.geometry (edits : Edits disk ptr w w' kept pinned view' data') :
    w'.state.geometry = w.state.geometry := by
  obtain ⟨dirty, state⟩ := edits.state
  rw [state]
  rfl

theorem Edits.deleted (edits : Edits disk ptr w w' kept pinned view' data') :
    (w'.state.inodes ptr).deleted = (w.state.inodes ptr).deleted := by
  obtain ⟨dirty, state⟩ := edits.state
  rw [state, inodes_setInode]

theorem Edits.trans (fst : Edits disk ptr w w' kept pinned view' data')
    (snd : Edits disk ptr w' w'' kept' pinned' view'' data'') :
    Edits disk ptr w w'' kept' pinned' view'' data'' := by
  obtain ⟨dirty, state⟩ := fst.state
  obtain ⟨dirty', state'⟩ := snd.state
  refine ⟨⟨dirty', ?_⟩, fst.follows.trans snd.follows, snd.stored⟩
  rw [state', state, setInode_setInode]

theorem edits_inode (stored : Stored disk w kept pinned view) (data' : Nat → Nat) (dirty : Bool) :
    Edits disk ptr w ⟨w.state.setInode ptr fun i => { i with data := data', dirty := dirty }, w.device⟩
      kept pinned view data' :=
  ⟨⟨dirty, rfl⟩, .refl _, stored.follow rfl rfl rfl (.refl _) stored.holds⟩

theorem edits_setDirty (stored : Stored disk w kept pinned view) :
    Edits disk ptr w ⟨w.state.setInode ptr .setDirty, w.device⟩ kept pinned view
      (w.state.inodes ptr).data := by
  have same : w.state.setInode ptr .setDirty = w.state.setInode ptr fun i =>
      { i with data := (w.state.inodes ptr).data, dirty := true } := rfl
  rw [same]
  exact edits_inode stored _ true

theorem Edits.perm (edits : Edits disk ptr w w' kept pinned view' data') (same : kept.Perm kept')
    (same' : pinned.Perm pinned') : Edits disk ptr w w' kept' pinned' view' data' :=
  ⟨edits.state, edits.follows, edits.stored.perm same same'⟩

/-- Marking the inode after a step. -/
theorem Edits.setDirty (edits : Edits disk ptr w w' kept pinned view' data') :
    Edits disk ptr w ⟨w'.state.setInode ptr .setDirty, w'.device⟩ kept pinned view' data' := by
  have dirtied := edits.trans (edits_setDirty edits.stored)
  rwa [edits.data] at dirtied

/-- A step of the device alone. -/
theorem Edits.then (fst : Edits disk ptr w w' kept pinned view' data')
    (snd : Works disk w' w'' kept' pinned' view'') : Edits disk ptr w w'' kept' pinned' view'' data' := by
  have edits := fst.trans snd.edits
  rwa [fst.data] at edits

end Rules

/-- The entries of an area are those that follow the path; its block may be changed. -/
inductive Area.Leads (d : Device) (pinned : List Nat) (view : Nat → Bytes) (data : Nat → Nat) :
    Area → List Nat → Prop
  | inode : Leads d pinned view data .inode []
  | block {h : Nat} {path : List Nat} (member : h ∈ pinned) (nonempty : path ≠ [])
      (number : d.number h = zoneOf view data path) (nonzero : zoneOf view data path ≠ 0) :
      Leads d pinned view data (.block h) path

variable {disk : Disk Errno} {allowed : FsFault → Prop} {ptr : Nat} {w : World Fs}
  {kept pinned : List Nat} {view : Nat → Bytes} {area : Area} {path : List Nat} {k : Nat}

theorem IsPath.last {m : Nat} {pre : List Nat} (isPath : IsPath m (pre ++ [k])) (nonempty : pre ≠ []) :
    k < m := by
  obtain _ | ⟨o, pre⟩ := pre
  · exact absurd rfl nonempty
  · exact isPath.2.2 k (by simp)

theorem readEntry_leads (live : (w.state.inodes ptr).deleted = false)
    (stored : Stored disk w kept pinned view)
    (leads : area.Leads w.device pinned view (w.state.inodes ptr).data path)
    (isPath : IsPath w.state.indirCount (path ++ [k])) {post : Nat → World Fs → Prop} :
    Meets disk allowed (readEntry ptr area k) post w ↔
      post (zoneOf view (w.state.inodes ptr).data (path ++ [k])) w := by
  cases leads with
  | inode => exact readEntry_inode live isPath.1
  | block member nonempty number nonzero =>
    rw [readEntry_block stored (List.mem_append_right _ member) (isPath.last nonempty), number,
      zoneOf_snoc nonempty nonzero]

theorem writeEntry_leads {v : Nat} (live : (w.state.inodes ptr).deleted = false)
    (stored : Stored disk w kept pinned view)
    (leads : area.Leads w.device pinned view (w.state.inodes ptr).data path)
    (isPath : IsPath w.state.indirCount (path ++ [k])) (small : v < 4294967296) :
    Meets disk allowed (writeEntry ptr area k v) (fun _ w' => ∃ view' data',
      Edits disk ptr w w' kept pinned view' data' ∧
      Written view (w.state.inodes ptr).data (path ++ [k]) v view' data') w := by
  cases leads with
  | inode =>
    have bound : k < 10 := isPath.1
    simp only [writeEntry, if_pos (Nat.lt_trans bound (by omega : 10 < 16)), meets_setInode live,
      Nat.mod_eq_of_lt small]
    exact ⟨view, _, edits_inode stored _ (w.state.inodes ptr).dirty, .root⟩
  | @block h _ member nonempty number nonzero =>
    obtain _ | ⟨o, pre⟩ := path
    · exact absurd rfl nonempty
    simp only [writeEntry, meets_bind, meets_get]
    rw [meets_load (stored.load (List.mem_append_right _ member))]
    simp only [if_pos (isPath.last nonempty), meets_store, number]
    have works := works_store stored member
      ((view (zoneOf view (w.state.inodes ptr).data (o :: pre))).setU32 (4 * k) v)
    rw [number] at works
    exact ⟨_, _, works.edits, .block nonzero⟩

end MPStuBS.Minix
