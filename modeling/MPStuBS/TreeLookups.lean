import MPStuBS.TreeStates

/-! What `iget`, `lookup`, `get` and `put` do on a file system that holds a tree. -/
namespace MPStuBS.VFS

open Prog FsM Minix Filesystem

variable {disk : Disk Errno} {t : SlotTree} {w w' : World Fs} {view view' : Nat → Bytes}
  {allowed : FsFault → Prop} {node : FileTree.Node Nat PathName} {ino : Nat} {known : Nat → Prop}

/-- Blocks behind the bitmaps are on the device as they are shown. -/
theorem Stored.contents (stored : Stored disk w [] [] view) {n : Nat} (late : w.state.geometry.inodeStart ≤ n) :
    w.device.contents n = view n :=
  stored.holds.shows.rest n fun member => Nat.not_lt.mpr late (stored.number_mapHandles member).2

/-- What is read from a record fits into a record. -/
theorem record_fits (g : Geometry) (i : Inode) : (g.record view ino i).Fits where
  mode := Bytes.u16_lt _ _
  nlinks := Bytes.u16_lt _ _
  size := by
    have small := (view (g.inodeBlock ino)).u32_lt (g.inodeSlot ino + 8)
    simp only [Geometry.record, readInode]
    omega
  data n bound := by
    simp only [Geometry.record, readInode, if_pos bound]
    exact Bytes.u32_lt _ _

section Load

/-- An inode is read into a new object of the cache. -/
structure Loads (disk : Disk Errno) (w : World Fs) (view : Nat → Bytes) (ino : Nat) (w' : World Fs) : Prop where
  volume : w.state.SameVolume w'.state
  cwd : w'.state.cwd = w.state.cwd
  fdTable : w'.state.fdTable = w.state.fdTable
  icache : w'.state.icache = w.state.icache ++ [w.state.allocated]
  allocated : w'.state.allocated = w.state.allocated + 1
  others : ∀ o, o ≠ w.state.allocated → w'.state.inodes o = w.state.inodes o
  new : w'.state.inodes w.state.allocated = loadedInode view w.state.geometry ino
  stored : Stored disk w' [] [] view

namespace Loads

variable (loads : Loads disk w view ino w')
include loads

theorem goes (early : ∀ o ∈ w.state.icache, o < w.state.allocated) : Goes w w' [w.state.allocated] := by
  refine ⟨loads.volume, loads.cwd, loads.fdTable, by rw [loads.allocated]; omega, fun o => ?_,
    fun o member _ => ?_, fun o member => ?_⟩
  · by_cases here : o = w.state.allocated
    · subst here
      rw [Fs.refs_of_le (Nat.le_refl _), Fs.refs_of_lt (by rw [loads.allocated]; omega), loads.new]
      simp [loadedInode, Geometry.record, readInode, Inode.fresh]
    · rw [List.count_singleton, if_neg (by simpa using Ne.symm here)]
      unfold Fs.refs
      rw [loads.others o here, loads.allocated]
      split <;> split <;> omega
  · rw [loads.icache, loads.others o (Nat.ne_of_lt (early o member))]
    exact ⟨List.mem_append_left _ member, rfl⟩
  · rw [loads.icache]
    exact List.mem_append_right _ member

variable (pictured : Pictures disk t w view)
include pictured

/-- Whatever holds of the cached inodes and of the new one holds of all that are cached then. -/
theorem every {P : Nat → Inode → Prop} (old : ∀ o ∈ w.state.icache, P o (w.state.inodes o))
    (new : P w.state.allocated (loadedInode view w.state.geometry ino)) :
    ∀ o ∈ w'.state.icache, P o (w'.state.inodes o) := by
  intro o member
  rw [loads.icache, List.mem_append, List.mem_singleton] at member
  rcases member with member | rfl
  · rw [loads.others o (Nat.ne_of_lt (pictured.settled.early o member))]
    exact old o member
  · rwa [loads.new]

variable (absent : ∀ o ∈ w.state.icache, (w.state.inodes o).ino ≠ ino)
  (nlinks : (w.state.geometry.record view ino .fresh).nlinks ≠ 0)
include nlinks

theorem safe {z : Nat} (safe : Safe w.state view z) : Safe w'.state view z := by
  have geometry := SameVolume.geometry loads.volume
  have count : w'.state.indirCount = w.state.indirCount := congrArg Geometry.indirCount geometry
  refine ⟨geometry ▸ safe.zone, loads.every pictured
    (P := fun _ i => i.nlinks = 0 → z ∉ zones w'.state.indirCount view i.data) ?_ fun unlinked =>
      absurd unlinked nlinks⟩
  rw [count]
  exact safe.unused

theorem lasts : Lasts w w' view view := by
  refine ⟨fun _ _ => rfl, fun _ => loads.safe pictured nlinks, fun o member _ => ?_⟩
  rw [loads.others o (Nat.ne_of_lt (pictured.settled.early o member))]
  exact ⟨rfl, rfl, rfl, fun _ _ => rfl⟩

include absent in
theorem pictures (has : w.state.geometry.HasInode ino) : Pictures disk t w' view := by
  have geometry := SameVolume.geometry loads.volume
  have count : w'.state.indirCount = w.state.indirCount := congrArg Geometry.indirCount geometry
  have every := fun {P : Nat → Inode → Prop} => loads.every pictured (P := P)
  have same : ∀ i, SameBlocks w.state w'.state view view (Safe w.state view) (Safe w'.state view) i i := by
    exact fun i => ⟨loads.volume.blocksizeBits, fun _ _ => rfl, fun _ => loads.safe pictured nlinks, rfl, rfl, rfl,
      fun _ _ => rfl⟩
  have settled : MPStuBS.Settled w'.state w'.state.icache := by
    rw [loads.icache]
    refine Settled.append (pictured.settled.congr (by rw [loads.allocated]; omega) fun o member => ?_) ?_ ?_ ?_ ?_
      fun o member => ?_
    · rw [loads.others o (Nat.ne_of_lt (pictured.settled.early o member))]
      exact ⟨rfl, rfl, rfl⟩
    · rw [loads.allocated]
      exact Nat.lt_succ_self _
    · rw [loads.new]
      rfl
    · rw [loads.new]
      rfl
    · rw [loads.new]
      exact has.1
    · rw [loads.new, loads.others o (Nat.ne_of_lt (pictured.settled.early o member))]
      exact absent o member
  refine ⟨geometry ▸ pictured.formed, loads.volume.mounted.trans pictured.mounted, loads.stored, settled, ?_,
    fun ino node found => ?_, ?_, ?_, ?_, fun other node found absent => ?_, ?_, fun o member p member' => ?_⟩
  · rw [geometry]
    exact every (P := fun _ i => w.state.geometry.HasInode i.ino) pictured.numbers has
  · rw [geometry]
    exact pictured.numbered ino node found
  · refine every (P := fun _ i => ∀ node, t.node i.ino = some node → Shown w'.state view i node (t.slots i.ino))
      (fun o member node found => (pictured.cached o member node found).congr (same _)) fun node found => ?_
    exact (pictured.recorded ino node found absent).congr ⟨loads.volume.blocksizeBits, fun _ _ => rfl,
      fun _ => loads.safe pictured nlinks, rfl, rfl, rfl, fun _ _ => rfl⟩
  · refine every (P := fun _ i => (t.node i.ino).isSome → i.Fits) pictured.fits fun _ => ?_
    obtain ⟨mode, nlinks, size, data⟩ : (w.state.geometry.record view ino .fresh).Fits := record_fits _ _
    exact ⟨mode, nlinks, size, data⟩
  · rw [geometry]
    refine every (P := fun _ i => (t.node i.ino).isSome → i.dirty = false →
      i.SameFile (w.state.geometry.record view i.ino .fresh)) pictured.clean fun _ _ => ?_
    exact ⟨rfl, rfl, rfl, fun _ _ => rfl⟩
  · rw [geometry]
    refine (pictured.recorded other node found fun o member => ?_).congr (same _)
    rw [← loads.others o (Nat.ne_of_lt (pictured.settled.early o member))]
    exact absent o (by rw [loads.icache]; exact List.mem_append_left _ member)
  · rw [geometry]
    exact every (P := fun _ i => i.nlinks = 0 → Tree w.state.geometry view i.data) pictured.dead
      fun unlinked => absurd unlinked nlinks
  · rw [count]
    refine every (P := fun o i => ∀ p ∈ w'.state.icache, i.nlinks = 0 → (w'.state.inodes p).nlinks = 0 → o ≠ p →
      ∀ z ∈ zones w.state.indirCount view i.data, z ∉ zones w.state.indirCount view (w'.state.inodes p).data)
      (fun o inCache => ?_) (fun _ _ unlinked => absurd unlinked nlinks) o member p member'
    exact every (P := fun p i => (w.state.inodes o).nlinks = 0 → i.nlinks = 0 → o ≠ p →
      ∀ z ∈ zones w.state.indirCount view (w.state.inodes o).data, z ∉ zones w.state.indirCount view i.data)
      (fun p inCache' => pictured.apart o inCache p inCache') fun _ unlinked => absurd unlinked nlinks

omit nlinks in
include absent in
theorem linked (linked : Linked known w view) : Linked known w' view := by
  have geometry := SameVolume.geometry loads.volume
  refine ⟨geometry ▸ linked.numbered, ?_, fun ino isKnown clean => ?_⟩
  · refine loads.every pictured (P := fun _ i => known i.ino → i.Fits ∧ i.nlinks ≠ 0) linked.cached fun isKnown => ?_
    obtain ⟨mode, nlinks, size, data⟩ : (w.state.geometry.record view ino .fresh).Fits := record_fits _ _
    exact ⟨⟨mode, nlinks, size, data⟩, linked.recorded ino isKnown fun o member same => absurd same (absent o member)⟩
  · rw [geometry]
    refine linked.recorded ino isKnown fun o member same => ?_
    rw [← loads.others o (Nat.ne_of_lt (pictured.settled.early o member))] at same ⊢
    exact clean o (by rw [loads.icache]; exact List.mem_append_left _ member) same

end Loads

end Load

section Objects

variable {held : List Nat} {o : Nat}

theorem Refers.live (refers : Refers w o ino) (pictured : Pictures disk t w view) :
    (w.state.inodes o).deleted = false :=
  pictured.settled.live o refers.cached

theorem Refers.shown (refers : Refers w o ino) (pictured : Pictures disk t w view) (found : t.node ino = some node) :
    Shown w.state view (w.state.inodes o) node (t.slots ino) := by
  rw [← refers.ino] at found ⊢
  exact pictured.cached o refers.cached node found

/-- What a function that looks for an inode returns on success: a new reference to it. -/
def Obtains (disk : Disk Errno) (t : SlotTree) (w : World Fs) (view : Nat → Bytes) (ino : Nat) (o : Nat)
    (w' : World Fs) : Prop :=
  ∃ view', Pictures disk t w' view' ∧ Goes w w' [o] ∧ Lasts w w' view view' ∧ Refers w' o ino

/-- The state with another count of the references to an inode. -/
def recounted (w : World Fs) (o n refcount : Nat) : World Fs :=
  ⟨{ w.state with numInodeReferences := n }.setInode o fun i => { i with refcount := refcount }, w.device⟩

theorem recounts (w : World Fs) (o n refcount : Nat) : Recounts w (recounted w o n refcount) := by
  refine ⟨⟨rfl, rfl, rfl, rfl, rfl, rfl, rfl⟩, rfl, rfl, fun p => ?_, rfl⟩
  by_cases here : p = o
  · subst here
    exact ⟨_, Function.update_self _ _ _⟩
  · exact ⟨_, Function.update_of_ne here _ _⟩

theorem refs_recounted {n refcount : Nat} (early : o < w.state.allocated) (p : Nat) :
    (recounted w o n refcount).state.refs p = if p = o then refcount else w.state.refs p := by
  split
  · rename_i here
    subst here
    rw [Fs.refs_of_lt (by exact early)]
    simp [recounted, Fs.setInode]
  · rename_i other
    exact Fs.refs_congr rfl (by simp [recounted, Fs.setInode, other])

/-- A reference to an inode of the cache is taken. -/
theorem get_recounts (pictured : Pictures disk t w view) (member : o ∈ w.state.icache) :
    Meets disk allowed (Inode.get o) (fun _ w' => Recounts w w' ∧ Goes w w' [o] ∧
      Refers w' o (w.state.inodes o).ino) w := by
  have live := pictured.settled.live o member
  have early := pictured.settled.early o member
  unfold Inode.get
  rw [meets_bind, meets_modify, meets_setInode (by exact live)]
  have recounts := recounts w o (w.state.numInodeReferences + 1) ((w.state.inodes o).refcount + 1)
  have refs : ∀ p, (recounted w o (w.state.numInodeReferences + 1) ((w.state.inodes o).refcount + 1)).state.refs p =
      w.state.refs p + [o].count p := by
    intro p
    rw [refs_recounted early, List.count_singleton]
    by_cases here : p = o
    · subst here
      rw [Fs.refs_of_lt early]
      simp
    · rw [if_neg here, if_neg (by simpa using Ne.symm here), Nat.add_zero]
  refine ⟨recounts, ⟨recounts.volume, rfl, rfl, Nat.le_refl _, refs, fun p member _ => ⟨member, recounts.ino p⟩,
    fun p member' => ?_⟩, member, recounts.ino o, ?_⟩
  · rwa [List.mem_singleton.mp member']
  · have used := refs o
    rw [List.count_singleton_self] at used
    exact fun none => Nat.succ_ne_zero _ (used.symm.trans none)

theorem get_obtains (pictured : Pictures disk t w view) (member : o ∈ w.state.icache) :
    Meets disk allowed (Inode.get o) (fun _ w' => Obtains disk t w view (w.state.inodes o).ino o w') w := by
  refine (get_recounts pictured member).mono ?_
  rintro _ w' ⟨recounts, goes, refers⟩
  exact ⟨view, recounts.pictures pictured, goes, recounts.lasts view, refers⟩

theorem put_meets (pictured : Pictures disk t w view) (member : o ∈ w.state.icache) (used : w.state.refs o ≠ 0) :
    Meets disk allowed (Inode.put o) (fun _ w' =>
      w' = recounted w o (w.state.numInodeReferences - 1) (w.state.refs o - 1)) w := by
  rw [Fs.refs_of_lt (pictured.settled.early o member)] at used ⊢
  have live := pictured.settled.live o member
  unfold Inode.put
  rw [meets_bind, meets_inode live, if_pos used, meets_bind, meets_modify,
    meets_setInode (by exact live)]
  rfl

/-- A reference that was taken is given back. -/
theorem put_recounts {w₀ : World Fs} (pictured : Pictures disk t w view) (goes : Goes w₀ w (o :: held)) :
    Meets disk allowed (Inode.put o) (fun _ w' => Recounts w w' ∧ Goes w₀ w' held) w := by
  have member := goes.cached o (.head _)
  have early := pictured.settled.early o member
  have taken := goes.refs o
  rw [List.count_cons_self] at taken
  refine (put_meets pictured member (by omega)).mono ?_
  rintro _ _ rfl
  have recounts := recounts w o (w.state.numInodeReferences - 1) (w.state.refs o - 1)
  refine ⟨recounts, IsTrans.trans _ _ _ goes.volume recounts.volume, goes.cwd, goes.fdTable, goes.allocated, fun p => ?_,
    fun p member inUse => ?_, fun p member => goes.cached p (.tail _ member)⟩
  · rw [refs_recounted early]
    split
    · rename_i here
      subst here
      omega
    · rename_i other
      rw [goes.refs, List.count_cons_of_ne (Ne.symm other)]
  · obtain ⟨cached, ino⟩ := goes.used p member inUse
    exact ⟨cached, (recounts.ino p).trans ino⟩

theorem put_goes {w₀ : World Fs} (pictured : Pictures disk t w view) (goes : Goes w₀ w (o :: held)) :
    Meets disk allowed (Inode.put o) (fun _ w' => Pictures disk t w' view ∧ Goes w₀ w' held ∧ Lasts w w' view view ∧
      ∀ p ino, p ∈ held → Refers w p ino → Refers w' p ino) w := by
  refine (put_recounts pictured goes).mono ?_
  rintro _ w' ⟨recounts, goes'⟩
  refine ⟨recounts.pictures pictured, goes', recounts.lasts view, fun p ino inHeld refers => ⟨?_, ?_, ?_⟩⟩
  · rw [recounts.icache]
    exact refers.cached
  · exact (recounts.ino p).trans refers.ino
  · have positive := List.count_pos_iff.mpr inHeld
    rw [goes'.refs]
    omega

theorem Loads.refers (loads : Loads disk w view ino w') (early : ∀ o ∈ w.state.icache, o < w.state.allocated) :
    Refers w' w.state.allocated ino := by
  have goes := loads.goes early
  refine ⟨goes.cached _ (.head _), ?_, ?_⟩
  · rw [loads.new]
    rfl
  · rw [goes.refs, List.count_singleton_self]
    omega

/-- What `iget` leaves if it had to read the inode. -/
theorem loads_iget (stored : Stored disk w [] [] view) (marked : Bool) : Loads disk w view ino
    ⟨(w.state.insertFresh.setInode w.state.allocated fun _ => loadedInode w.device.contents w.state.geometry ino).note
      (.loaded ino marked),
      (w.device.hold (w.state.geometry.inodeBlock ino)).tick.exec disk w.device.next .unfix⟩ := by
  have released := works_unfix (works_fix stored (w.state.geometry.inodeStart_le ino) (by simp)).stored
  refine ⟨⟨rfl, rfl, rfl, rfl, rfl, rfl, rfl⟩, rfl, rfl, rfl, rfl, fun o other => ?_, ?_, ?_⟩
  · simp [Fs.note, Fs.setInode, Fs.insertFresh, other]
  · simp [Fs.note, Fs.setInode, Stored.contents stored (w.state.geometry.inodeStart_le ino), loadedInode, Geometry.record]
  · exact released.stored.follow rfl rfl rfl (.refl _) released.stored.holds

theorem Obtains.after {w₁ : World Fs} {view₁ : Nat → Bytes} (goes : Goes w w₁ []) (lasts : Lasts w w₁ view view₁)
    (obtains : Obtains disk t w₁ view₁ ino o w') : Obtains disk t w view ino o w' := by
  obtain ⟨view', pictured, goes', lasts', refers⟩ := obtains
  exact ⟨view', pictured, goes.trans goes', lasts.trans goes lasts', refers⟩

/-- An inode that has links is found in the cache or read into it, whether it is in the tree or not. -/
theorem iget_takes (reliable : Reliable disk) (pictured : Pictures disk t w view) (linked : Linked known w view)
    (isKnown : known ino) : Meets disk allowed (iget ino) (fun r w' => ∃ o view', r = .ok o ∧ Pictures disk t w' view' ∧
      Linked known w' view' ∧ Goes w w' [o] ∧ Lasts w w' view view' ∧ Refers w' o ino) w := by
  unfold iget
  rw [meets_bind, InodeCache.getInode, meets_bind, InodeCache.maybeEvictInodes, meets_bind, meets_get]
  refine (evictLoop_pictures reliable _ pictured linked pictured.settled.nodup fun _ => id).mono ?_
  rintro _ w₁ ⟨view₁, pictured₁, linked₁, goes₁, lasts₁⟩
  have settled := pictured₁.settled
  rw [meets_bind, meets_get, meets_bind]
  refine (InodeCache.find_meets _ settled.live).mono ?_
  rintro (_ | o) w₂ ⟨same, search⟩ <;> obtain rfl := same.symm
  · refine InodeCache.meets_insertFresh (fun o member => ⟨settled.early o member, settled.live o member,
      settled.numbered o member⟩) ?_
    have new : w₁.state.insertFresh.inodes w₁.state.allocated = .fresh := Function.update_self _ _ _
    have has : w₁.state.geometry.HasInode ino := linked₁.numbered ino isKnown
    rw [meets_bind, meets_inode (by rw [new]; rfl), new]
    refine meets_loadNew (w := ⟨w₁.state.insertFresh, w₁.device⟩) reliable (by exact has) new fun marked => ?_
    have loads : Loads disk w₁ view₁ ino _ := loads_iget pictured₁.stored marked
    have nlinks := linked₁.recorded ino isKnown fun o member same => absurd same (search o member)
    exact ⟨_, view₁, rfl, loads.pictures pictured₁ search nlinks has, loads.linked pictured₁ search linked₁,
      goes₁.trans (loads.goes settled.early), lasts₁.trans goes₁ (loads.lasts pictured₁ nlinks), loads.refers settled.early⟩
  · refine meets_bind.mpr ((get_recounts pictured₁ search.1).mono ?_)
    rintro _ w₃ ⟨recounts, goes₃, refers₃⟩
    have pictured₃ := recounts.pictures pictured₁
    rw [search.2] at refers₃
    rw [meets_pure, meets_bind, meets_inode (refers₃.live pictured₃), pictured₃.settled.loaded o refers₃.cached]
    exact ⟨o, view₁, rfl, pictured₃, recounts.linked linked₁, goes₁.trans goes₃,
      lasts₁.trans goes₁ (recounts.lasts view₁), refers₃⟩

theorem iget_obtains (reliable : Reliable disk) (pictured : Pictures disk t w view) (found : t.node ino = some node) :
    Meets disk allowed (iget ino) (fun r w' => ∃ o, r = .ok o ∧ Obtains disk t w view ino o w') w := by
  refine (iget_takes reliable pictured pictured.linked (Option.isSome_of_eq_some found)).mono ?_
  rintro r w' ⟨o, view', rfl, pictured', -, goes, lasts, refers⟩
  exact ⟨o, rfl, view', pictured', goes, lasts, refers⟩

end Objects

section Lookup

open FileTree

variable {held : List Nat} {o dir : Nat} {name : PathName}

/-- Only the device has gone on. -/
theorem Pictures.device (pictured : Pictures disk t w view) (state : w'.state = w.state)
    (stored : Stored disk w' [] [] view) : Pictures disk t w' view := by
  obtain ⟨formed, mounted, -, settled, numbers, numbered, cached, fits, clean, recorded, dead, apart⟩ := pictured
  rw [← state] at formed mounted settled numbers numbered cached fits clean recorded dead apart
  exact ⟨formed, mounted, stored, settled, numbers, numbered, cached, fits, clean, recorded, dead, apart⟩

theorem Goes.of_state (state : w'.state = w.state) : Goes w w' [] := by
  obtain ⟨s, d⟩ := w'
  obtain rfl : s = w.state := state
  exact ⟨⟨rfl, rfl, rfl, rfl, rfl, rfl, rfl⟩, rfl, rfl, Nat.le_refl _, fun _ => rfl, fun _ member _ => ⟨member, rfl⟩,
    by simp⟩

/-- The blocks of the tree are on the device as they are shown. -/
theorem Pictures.contents (pictured : Pictures disk t w view) {z : Nat} (safe : Safe w.state view z) :
    w.device.contents z = view z :=
  Stored.contents pictured.stored (pictured.formed.layout.table.trans safe.zone.first)

theorem Pictures.sameContents (pictured : Pictures disk t w view) (i : Inode) :
    SameBlocks w.state w.state view w.device.contents (Safe w.state view) (Safe w.state view) i i :=
  ⟨rfl, fun _ => pictured.contents, fun _ => id, rfl, rfl, rfl, fun _ _ => rfl⟩

theorem OnDisk.valid {s : Fs} {safe : Nat → Prop} {i : Inode} (onDisk : OnDisk s view safe i)
    (formed : s.geometry.Formed) (live : i.deleted = false) : ValidInode s i :=
  ⟨live, formed.layout.blocksize, onDisk.size, onDisk.fits⟩

/-- A name leads where the entry with the name says. -/
theorem ShowsDir.lists_iff {s : Fs} {safe : Nat → Prop} {i : Inode} {parent : Nat} {entries : PathName → Option Nat}
    (shows : ShowsDir s view safe i parent entries) (found : t.node ino = some (.dir parent entries))
    (noDot : name ≠ dotName) (child : Nat) :
    Minix.Lists view s i name child ↔ t.enter ino (moveOf name) = some child := by
  unfold FileTree.enter moveOf
  rw [found, if_neg noDot]
  by_cases up : name = dotDotName
  · rw [up, if_pos rfl]
    exact (shows.up child).trans ⟨fun same => congrArg some same.symm, fun same => (Option.some.inj same).symm⟩
  · rw [if_neg up]
    exact shows.down name noDot up child

/-- What a name of a directory leads to is in the tree. -/
theorem enter_node (wellFormed : t.WellFormed) (move : FileTree.Move PathName) (entered : t.enter ino move = some dir) :
    ∃ node, t.node dir = some node := by
  unfold FileTree.enter at entered
  split at entered
  · rename_i parent entries found
    cases move with
    | stay =>
      cases entered
      exact ⟨_, found⟩
    | up =>
      cases entered
      obtain ⟨_, _, node⟩ := FileTree.isDir_iff.mp (wellFormed.parent ino _ _ found)
      exact ⟨_, node⟩
    | down name => exact Option.isSome_iff_exists.mp (wellFormed.child ino parent entries name dir found entered)
  · cases entered

theorem lookup_leads (reliable : Reliable disk) (wellFormed : t.WellFormed) (pictured : Pictures disk t w view)
    {parent : Nat} {entries : PathName → Option Nat} (found : t.node ino = some (.dir parent entries))
    (refers : Refers w dir ino) (noNull : 0 ∉ name) (noDot : name ≠ dotName) :
    Meets disk allowed (lookup dir name) (fun r w' => match t.enter ino (moveOf name) with
      | none => r = .ok none ∧ ∃ view', Pictures disk t w' view' ∧ Goes w w' []
      | some child => ∃ o, r = .ok (some o) ∧ Obtains disk t w view child o w') w := by
  have shows : ShowsDir w.state view (Safe w.state view) (w.state.inodes dir) parent entries :=
    (refers.shown pictured found).depicts
  have lists : ∀ child, Minix.Lists w.device.contents w.state (w.state.inodes dir) name child ↔
      t.enter ino (moveOf name) = some child := fun child =>
    ((pictured.sameContents _).lists shows.toOnDisk name child).trans (shows.lists_iff found noDot child)
  rw [lookup, meets_bind]
  refine ((findDirent_finds reliable (shows.toOnDisk.valid pictured.formed (refers.live pictured)) shows.whole
    noNull).and_after ((peeks_findDirent dir name).after (Nat.le_refl _))).mono ?_
  rintro r ⟨s₁, d₁⟩ ⟨⟨state, search⟩, late, -, peeked⟩
  obtain rfl : s₁ = w.state := state
  have stored : Stored disk ⟨w.state, d₁⟩ [] [] view := pictured.stored.peeked rfl peeked
  have pictured₁ : Pictures disk t ⟨w.state, d₁⟩ view := pictured.device rfl stored
  cases r with
  | error e => cases search
  | ok entry =>
    cases entry with
    | none =>
      cases entered : t.enter ino (moveOf name) with
      | none => exact ⟨rfl, view, pictured₁, .of_state rfl⟩
      | some child => exact absurd ((lists child).mpr entered) (search.2 child)
    | some place =>
      obtain ⟨block, k⟩ := place
      obtain ⟨-, -, -, bytes, loaded, listed⟩ := search
      have entered := (lists _).mp listed
      obtain ⟨node, node'⟩ := enter_node wellFormed _ entered
      have unfixed : Stored disk ⟨w.state, d₁.exec disk block .unfix⟩ [] [] view := by
        refine stored.follow rfl rfl rfl (Device.follows_exec .unfix) (stored.holds.release fun member => ?_)
        exact absurd (pictured.stored.holds.shows.early (by simpa using member)) (Nat.not_lt.mpr (late block k rfl))
      have goes : Goes w ⟨w.state, d₁.exec disk block .unfix⟩ [] := .of_state rfl
      simp only [entered]
      rw [meets_bind, meets_load loaded, meets_bind, meets_unfix, meets_bind]
      refine (iget_obtains (w := ⟨w.state, d₁.exec disk block .unfix⟩) reliable (pictured.device rfl unfixed) node').mono ?_
      rintro _ w' ⟨o, rfl, obtains⟩
      exact ⟨o, rfl, .after goes (.of_state view rfl) obtains⟩

end Lookup

end MPStuBS.VFS
