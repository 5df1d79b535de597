import MPStuBS.CacheIntegrity
import MPStuBS.DestroyRuns
import MPStuBS.InodeLoading
import MPStuBS.TreeImages

/-! Mounted file systems that hold a given tree of files. The inodes of the tree may be in the
cache, with changes that are not on the disk yet, and the cache may give up any inode that is
not in use. -/
namespace MPStuBS.VFS

open Prog FsM Minix Filesystem

/-- A zone that no inode without a link uses. -/
structure Safe (s : Fs) (view : Nat → Bytes) (z : Nat) : Prop where
  zone : s.geometry.IsZone z
  unused : ∀ o ∈ s.icache, (s.inodes o).nlinks = 0 → z ∉ zones s.indirCount view (s.inodes o).data

structure Shown (s : Fs) (view : Nat → Bytes) (i : Inode) (node : FileTree.Node Nat PathName)
    (slots : List (PathName × Nat)) : Prop where
  linked : i.nlinks ≠ 0
  depicts : Depicts s view (Safe s view) i node
  listed : ∀ parent entries, node = .dir parent entries → slotsOf view s i = slots

/-- A tree with the slots of every directory in their order. -/
structure SlotTree extends FileTree Nat PathName where
  slots : Nat → List (PathName × Nat)

/-- Every node of the tree is shown by its inode in the cache, or by its record if it has none there. -/
structure Pictures (disk : Disk Errno) (t : SlotTree) (w : World Fs) (view : Nat → Bytes) : Prop where
  formed : w.state.geometry.Formed
  mounted : w.state.mounted = true
  stored : Stored disk w [] [] view
  settled : MPStuBS.Settled w.state w.state.icache
  numbers : ∀ o ∈ w.state.icache, w.state.geometry.HasInode (w.state.inodes o).ino
  numbered : ∀ ino node, t.node ino = some node → w.state.geometry.HasInode ino
  cached : ∀ o ∈ w.state.icache, ∀ node, t.node (w.state.inodes o).ino = some node →
    Shown w.state view (w.state.inodes o) node (t.slots (w.state.inodes o).ino)
  fits : ∀ o ∈ w.state.icache, (t.node (w.state.inodes o).ino).isSome → (w.state.inodes o).Fits
  clean : ∀ o ∈ w.state.icache, (t.node (w.state.inodes o).ino).isSome → (w.state.inodes o).dirty = false →
    (w.state.inodes o).SameFile (w.state.geometry.record view (w.state.inodes o).ino .fresh)
  recorded : ∀ ino node, t.node ino = some node → (∀ o ∈ w.state.icache, (w.state.inodes o).ino ≠ ino) →
    Shown w.state view (w.state.geometry.record view ino .fresh) node (t.slots ino)
  dead : ∀ o ∈ w.state.icache, (w.state.inodes o).nlinks = 0 →
    Tree w.state.geometry view (w.state.inodes o).data
  apart : ∀ o ∈ w.state.icache, ∀ p ∈ w.state.icache, (w.state.inodes o).nlinks = 0 →
    (w.state.inodes p).nlinks = 0 → o ≠ p → ∀ z ∈ zones w.state.indirCount view (w.state.inodes o).data,
      z ∉ zones w.state.indirCount view (w.state.inodes p).data

/-- These inodes have links, in the cache and on the disk. Of a changed one the record may be old. -/
structure Linked (known : Nat → Prop) (w : World Fs) (view : Nat → Bytes) : Prop where
  numbered : ∀ ino, known ino → w.state.geometry.HasInode ino
  cached : ∀ o ∈ w.state.icache, known (w.state.inodes o).ino →
    (w.state.inodes o).Fits ∧ (w.state.inodes o).nlinks ≠ 0
  recorded : ∀ ino, known ino →
    (∀ o ∈ w.state.icache, (w.state.inodes o).ino = ino → (w.state.inodes o).dirty = false) →
    (w.state.geometry.record view ino .fresh).nlinks ≠ 0

variable {disk : Disk Errno} {t : SlotTree} {w w' : World Fs} {view view' : Nat → Bytes} {cur : Nat}
  {known : Nat → Prop}

theorem SameVolume.geometry {s s' : Fs} (same : s.SameVolume s') : s'.geometry = s.geometry := by
  unfold Fs.geometry
  rw [same.super, same.blocksizeBits]

/-- What is shown in one state is shown in another whose safe blocks are the same. -/
theorem Shown.congr {s s' : Fs} {i i' : Inode} {node : FileTree.Node Nat PathName} {slots : List (PathName × Nat)}
    (shown : Shown s view i node slots) (same : SameBlocks s s' view view' (Safe s view) (Safe s' view') i i') :
    Shown s' view' i' node slots := by
  refine ⟨same.file.nlinks ▸ shown.linked, same.depicts shown.depicts, fun parent entries isDir => ?_⟩
  subst isDir
  have shows : ShowsDir s view (Safe s view) i parent entries := shown.depicts
  rw [same.slotsOf shows.toOnDisk]
  exact shown.listed parent entries rfl

section Drop

/-- One inode is destroyed and taken from the cache. -/
structure Drops (disk : Disk Errno) (w : World Fs) (view : Nat → Bytes) (cur : Nat) (w' : World Fs)
    (view' : Nat → Bytes) : Prop where
  volume : w.state.SameVolume w'.state
  icache : w'.state.icache = w.state.icache.erase cur
  others : ∀ o, o ≠ cur → w'.state.inodes o = w.state.inodes o
  refcount : (w'.state.inodes cur).refcount = (w.state.inodes cur).refcount
  allocated : w'.state.allocated = w.state.allocated
  cwd : w'.state.cwd = w.state.cwd
  fdTable : w'.state.fdTable = w.state.fdTable
  stored : Stored disk w' [] [] view'
  leaves : (w.state.inodes cur).Leaves w.state.geometry view view'

variable (pictured : Pictures disk t w view) (member : cur ∈ w.state.icache) (drops : Drops disk w view cur w' view')
include pictured member drops

theorem Drops.untouched {z : Nat} (zone : w.state.geometry.IsZone z) (free : (w.state.inodes cur).nlinks = 0 →
    z ∉ zones w.state.indirCount view (w.state.inodes cur).data) : view' z = view z := by
  refine drops.leaves.tidies.rest z (pictured.formed.layout.table.trans zone.first) ?_ ?_
  · rintro rfl
    exact Nat.not_lt.mpr zone.first (pictured.formed.room _ (pictured.numbers cur member))
  · split
    · rename_i unlinked
      exact fun inside => free unlinked (Multiset.mem_of_le arrays_le_zones inside)
    · exact Multiset.notMem_zero z

omit pictured member in
theorem Drops.mem_cache (settled : MPStuBS.Settled w.state w.state.icache) {o : Nat} (inside : o ∈ w'.state.icache) :
    o ≠ cur ∧ o ∈ w.state.icache := by
  rw [drops.icache] at inside
  exact (settled.nodup.mem_erase_iff).mp inside

/-- The blocks of another inode without a link are as before. -/
theorem Drops.zones_dead {o : Nat} (other : o ≠ cur) (inside : o ∈ w.state.icache)
    (unlinked : (w.state.inodes o).nlinks = 0) (leaf : Nat → Multiset Nat) :
    gather w.state.indirCount view' leaf (w.state.inodes o).data =
      gather w.state.indirCount view leaf (w.state.inodes o).data := by
  refine gather_congr fun n array => ?_
  have zone := Multiset.mem_of_le arrays_le_zones array
  exact drops.untouched pictured member ((pictured.dead o inside unlinked).zone n zone) fun curUnlinked =>
    pictured.apart o inside cur member unlinked curUnlinked other n zone

theorem Drops.safe {z : Nat} (safe : Safe w.state view z) : Safe w'.state view' z := by
  refine ⟨SameVolume.geometry drops.volume ▸ safe.zone, fun o inside unlinked => ?_⟩
  obtain ⟨other, inside⟩ := drops.mem_cache pictured.settled inside
  rw [drops.others o other] at unlinked ⊢
  have count : w'.state.indirCount = w.state.indirCount := by
    unfold Fs.indirCount
    rw [drops.volume.blocksizeBits]
  rw [count, Minix.zones, drops.zones_dead pictured member other inside unlinked]
  exact safe.unused o inside unlinked

theorem Drops.sameBlocks {i i' : Inode} (file : i.SameFile i') :
    SameBlocks w.state w'.state view view' (Safe w.state view) (Safe w'.state view') i i' where
  blocksizeBits := drops.volume.blocksizeBits
  view _ safe := drops.untouched pictured member safe.zone (safe.unused cur member)
  safe _ := drops.safe pictured member
  file := file

/-- The records of other inodes are as before. -/
theorem Drops.record_other {ino : Nat} (has : w.state.geometry.HasInode ino) (other : ino ≠ (w.state.inodes cur).ino)
    (i : Inode) : w.state.geometry.record view' ino i = w.state.geometry.record view ino i := by
  refine drops.leaves.tidies.record pictured.formed (fun n inside => ?_) (pictured.numbers cur member) has other i
  split at inside
  · rename_i unlinked
    exact ((pictured.dead cur member unlinked).zone n (Multiset.mem_of_le arrays_le_zones inside)).first
  · exact absurd inside (Multiset.notMem_zero n)

/-- The record of the inode is as the inode was. -/
theorem Drops.record_self (inTree : (t.node (w.state.inodes cur).ino).isSome) : (w.state.inodes cur).SameFile
    (w.state.geometry.record view' (w.state.inodes cur).ino .fresh) := by
  obtain ⟨node, found⟩ := Option.isSome_iff_exists.mp inTree
  have linked := (pictured.cached cur member node found).linked
  rw [drops.leaves.linked linked]
  split
  · exact Geometry.record_storeRecord (pictured.fits cur member inTree) .fresh
  · rename_i unchanged
    refine pictured.clean cur member inTree (Bool.eq_false_iff.mpr fun dirty => unchanged ?_)
    exact ⟨pictured.settled.loaded cur member, dirty, pictured.numbers cur member⟩

/-- The tree is still there when the cache has given up an inode. -/
theorem Drops.pictures : Pictures disk t w' view' := by
  have geometry := SameVolume.geometry drops.volume
  have cache := fun {o : Nat} => drops.mem_cache pictured.settled (o := o)
  have count : w'.state.indirCount = w.state.indirCount := congrArg Geometry.indirCount geometry
  have same : ∀ i, SameBlocks w.state w'.state view view' (Safe w.state view) (Safe w'.state view') i i :=
    fun i => drops.sameBlocks pictured member ⟨rfl, rfl, rfl, fun _ _ => rfl⟩
  have distinct : ∀ {o}, o ∈ w.state.icache → o ≠ cur → (w.state.inodes o).ino ≠ (w.state.inodes cur).ino :=
    fun inside other eq => other (pictured.settled.distinct _ inside cur member eq)
  refine ⟨geometry ▸ pictured.formed, drops.volume.mounted.trans pictured.mounted, drops.stored, ?_, fun o inside => ?_,
    fun ino node found => ?_, fun o inside node found => ?_, fun o inside found => ?_, fun o inside found clean => ?_,
    fun ino node found absent => ?_, fun o inside unlinked => ?_, fun o inside p inside' unlinked unlinked' apart => ?_⟩
  · rw [drops.icache]
    refine (pictured.settled.erase cur).congr (Nat.le_of_eq drops.allocated.symm) fun o inside => ?_
    rw [drops.others o (pictured.settled.nodup.mem_erase_iff.mp inside).1]
    exact ⟨rfl, rfl, rfl⟩
  · obtain ⟨other, inside⟩ := cache inside
    rw [drops.others o other, geometry]
    exact pictured.numbers o inside
  · rw [geometry]
    exact pictured.numbered ino node found
  · obtain ⟨other, inside⟩ := cache inside
    rw [drops.others o other] at found ⊢
    exact (pictured.cached o inside node found).congr (same _)
  · obtain ⟨other, inside⟩ := cache inside
    rw [drops.others o other] at found ⊢
    exact pictured.fits o inside found
  · obtain ⟨other, inside⟩ := cache inside
    rw [drops.others o other] at found clean ⊢
    rw [geometry, drops.record_other pictured member (pictured.numbers o inside) (distinct inside other)]
    exact pictured.clean o inside found clean
  · rw [geometry]
    by_cases here : ino = (w.state.inodes cur).ino
    · subst here
      exact (pictured.cached cur member node found).congr (drops.sameBlocks pictured member
        (drops.record_self pictured member (by simp [found])))
    · rw [drops.record_other pictured member (pictured.numbered ino node found) here]
      refine (pictured.recorded ino node found fun o inside eq => ?_).congr (same _)
      have other : o ≠ cur := by
        rintro rfl
        exact here eq.symm
      refine absent o ?_ (by rwa [drops.others o other])
      rw [drops.icache]
      exact (List.mem_erase_of_ne other).mpr inside
  · obtain ⟨other, inside⟩ := cache inside
    rw [drops.others o other] at unlinked ⊢
    have tree := pictured.dead o inside unlinked
    have zones : zones w.state.geometry.indirCount view' (w.state.inodes o).data =
        Minix.zones w.state.geometry.indirCount view (w.state.inodes o).data :=
      drops.zones_dead pictured member other inside unlinked _
    rw [geometry]
    refine ⟨?_, ?_, ?_⟩ <;> rw [zones]
    · exact tree.nodup
    · exact tree.zone
    · exact fun z used => drops.leaves.marked (tree.zone z used) (fun curUnlinked =>
        pictured.apart o inside cur member unlinked curUnlinked other z used) (tree.marked z used)
  · obtain ⟨other, inside⟩ := cache inside
    obtain ⟨other', inside'⟩ := cache inside'
    rw [drops.others o other] at unlinked ⊢
    rw [drops.others p other'] at unlinked' ⊢
    rw [count, Minix.zones, Minix.zones, drops.zones_dead pictured member other inside unlinked,
      drops.zones_dead pictured member other' inside' unlinked']
    exact pictured.apart o inside p inside' unlinked unlinked' apart

/-- An inode with a link keeps it when it is given up. -/
theorem Drops.linked (linked : Linked known w view) : Linked known w' view' := by
  have geometry := SameVolume.geometry drops.volume
  have cache := fun {o : Nat} => drops.mem_cache pictured.settled (o := o)
  refine ⟨geometry ▸ linked.numbered, fun o inside isKnown => ?_, fun ino isKnown clean => ?_⟩
  · obtain ⟨other, inside⟩ := cache inside
    rw [drops.others o other] at isKnown ⊢
    exact linked.cached o inside isKnown
  have clean' : ∀ o ∈ w.state.icache, o ≠ cur → (w.state.inodes o).ino = ino → (w.state.inodes o).dirty = false := by
    intro o inside other same
    rw [← drops.others o other] at same ⊢
    refine clean o ?_ same
    rw [drops.icache]
    exact (List.mem_erase_of_ne other).mpr inside
  rw [geometry]
  by_cases here : ino = (w.state.inodes cur).ino
  · subst here
    obtain ⟨fits, nonzero⟩ := linked.cached cur member isKnown
    rw [drops.leaves.linked nonzero]
    split
    · rw [(Geometry.record_storeRecord fits .fresh).nlinks]
      exact nonzero
    · rename_i unchanged
      refine linked.recorded _ isKnown fun o inside same => ?_
      rw [pictured.settled.distinct o inside cur member same]
      exact Bool.eq_false_iff.mpr fun dirty => unchanged
        ⟨pictured.settled.loaded cur member, dirty, pictured.numbers cur member⟩
  · rw [drops.record_other pictured member (linked.numbered ino isKnown) here]
    refine linked.recorded ino isKnown fun o inside same => clean' o inside ?_ same
    rintro rfl
    exact here same.symm

end Drop

/-- All inodes of the tree have links. -/
theorem Pictures.linked (pictured : Pictures disk t w view) : Linked (fun ino => (t.node ino).isSome) w view := by
  refine ⟨fun ino inTree => ?_, fun o member inTree => ?_, fun ino inTree clean => ?_⟩
  all_goals obtain ⟨node, found⟩ := Option.isSome_iff_exists.mp inTree
  · exact pictured.numbered ino node found
  · exact ⟨pictured.fits o member inTree, (pictured.cached o member node found).linked⟩
  · by_cases absent : ∀ o ∈ w.state.icache, (w.state.inodes o).ino ≠ ino
    · exact (pictured.recorded ino node found absent).linked
    · push Not at absent
      obtain ⟨o, member, rfl⟩ := absent
      rw [(pictured.clean o member inTree (clean o member rfl)).nlinks]
      exact (pictured.cached o member node found).linked

/-- The cache may have changed, but what was in use is as before and has these references more. -/
structure Goes (w w' : World Fs) (held : List Nat) : Prop where
  volume : w.state.SameVolume w'.state
  cwd : w'.state.cwd = w.state.cwd
  fdTable : w'.state.fdTable = w.state.fdTable
  allocated : w.state.allocated ≤ w'.state.allocated
  refs : ∀ o, w'.state.refs o = w.state.refs o + held.count o
  used : ∀ o ∈ w.state.icache, w.state.refs o ≠ 0 →
    o ∈ w'.state.icache ∧ (w'.state.inodes o).ino = (w.state.inodes o).ino
  cached : ∀ o ∈ held, o ∈ w'.state.icache

section Steps

variable {allowed : FsFault → Prop} {w'' : World Fs} {held held' : List Nat} {o : Nat}

theorem Goes.refl (w : World Fs) : Goes w w [] :=
  ⟨⟨rfl, rfl, rfl, rfl, rfl, rfl, rfl⟩, rfl, rfl, Nat.le_refl _, fun _ => rfl, fun _ member _ => ⟨member, rfl⟩, by simp⟩

theorem Goes.trans (fst : Goes w w' held) (snd : Goes w' w'' held') : Goes w w'' (held ++ held') := by
  refine ⟨IsTrans.trans _ _ _ fst.volume snd.volume, snd.cwd.trans fst.cwd, snd.fdTable.trans fst.fdTable,
    fst.allocated.trans snd.allocated, fun o => ?_, fun o member inUse => ?_, fun o member => ?_⟩
  · rw [snd.refs, fst.refs, List.count_append, Nat.add_assoc]
  · obtain ⟨member', ino⟩ := fst.used o member inUse
    obtain ⟨member'', ino'⟩ := snd.used o member' (by rw [fst.refs]; omega)
    exact ⟨member'', ino'.trans ino⟩
  · rcases List.mem_append.mp member with old | new
    · have positive := List.count_pos_iff.mpr old
      exact (snd.used o (fst.cached o old) (by rw [fst.refs]; omega)).1
    · exact snd.cached o new

theorem Drops.goes (drops : Drops disk w view cur w' view') (unused : w.state.refs cur = 0) : Goes w w' [] := by
  refine ⟨drops.volume, drops.cwd, drops.fdTable, Nat.le_of_eq drops.allocated.symm, fun o => ?_,
    fun o member inUse => ?_, by simp⟩
  · refine Fs.refs_congr drops.allocated ?_
    by_cases here : o = cur
    · rw [here, drops.refcount]
    · rw [drops.others o here]
  · have other : o ≠ cur := by
      rintro rfl
      exact inUse unused
    rw [drops.icache, drops.others o other]
    exact ⟨(List.mem_erase_of_ne other).mpr member, rfl⟩

/-- Blocks that are safe stay as they are, and inodes in use say the same of their files. -/
structure Lasts (w w' : World Fs) (view view' : Nat → Bytes) : Prop where
  blocks : ∀ z, Safe w.state view z → view' z = view z
  safe : ∀ z, Safe w.state view z → Safe w'.state view' z
  files : ∀ o ∈ w.state.icache, w.state.refs o ≠ 0 → (w.state.inodes o).SameFile (w'.state.inodes o)

theorem Lasts.of_state (view : Nat → Bytes) (state : w'.state = w.state) : Lasts w w' view view :=
  ⟨fun _ _ => rfl, fun _ safe => state ▸ safe, fun _ _ _ => state ▸ ⟨rfl, rfl, rfl, fun _ _ => rfl⟩⟩

theorem Lasts.trans {view'' : Nat → Bytes} (goes : Goes w w' held) (fst : Lasts w w' view view')
    (snd : Lasts w' w'' view' view'') : Lasts w w'' view view'' := by
  refine ⟨fun z safe => ?_, fun z safe => snd.safe z (fst.safe z safe), fun o member inUse => ?_⟩
  · rw [snd.blocks z (fst.safe z safe), fst.blocks z safe]
  · obtain ⟨mode, nlinks, size, data⟩ := fst.files o member inUse
    obtain ⟨mode', nlinks', size', data'⟩ := snd.files o (goes.used o member inUse).1 (by rw [goes.refs]; omega)
    exact ⟨mode'.trans mode, nlinks'.trans nlinks, size'.trans size, fun n low => (data' n low).trans (data n low)⟩

theorem Drops.lasts (pictured : Pictures disk t w view) (member : cur ∈ w.state.icache)
    (drops : Drops disk w view cur w' view') (unused : w.state.refs cur = 0) : Lasts w w' view view' := by
  refine ⟨fun z safe => drops.untouched pictured member safe.zone (safe.unused cur member),
    fun z safe => drops.safe pictured member safe, fun o _ inUse => ?_⟩
  have other : o ≠ cur := by
    rintro rfl
    exact inUse unused
  rw [drops.others o other]
  exact ⟨rfl, rfl, rfl, fun _ _ => rfl⟩

/-- An inode that is not in use is given up. -/
theorem drop_meets (reliable : Reliable disk) (pictured : Pictures disk t w view) (member : cur ∈ w.state.icache) :
    Meets disk allowed (do
      InodeCache.remove cur
      Inode.destroy cur
      InodeCache.decrement) (fun _ w' => ∃ view', Drops disk w view cur w' view') w := by
  simp only [InodeCache.remove, InodeCache.decrement, meets_bind, meets_modify]
  have stored := pictured.stored
  refine (Inode.destroy_destroys (w := ⟨{ w.state with icache := w.state.icache.erase cur }, w.device⟩) reliable
    pictured.formed (by rfl) (stored.follow rfl rfl rfl (.refl _) stored.holds)
    (by exact pictured.settled.live cur member) (by exact pictured.dead cur member)).mono ?_
  rintro _ w₁ ⟨⟨i, state, -, refcount, -⟩, view₁, stored₁, leaves⟩
  rw [meets_modify]
  refine ⟨view₁, ?_, ?_, fun o other => ?_, ?_, ?_, ?_, ?_, ?_, leaves⟩
  · rw [state]
    exact ⟨rfl, rfl, rfl, rfl, rfl, rfl, rfl⟩
  · rw [state]
    rfl
  · rw [state]
    exact Function.update_of_ne other _ _
  · rw [state]
    simpa [Fs.setInode] using refcount
  · rw [state]
    rfl
  · rw [state]
    rfl
  · rw [state]
    rfl
  · exact stored₁.follow rfl rfl rfl (.refl _) stored₁.holds

theorem evictLoop_pictures (reliable : Reliable disk) (rest : List Nat) : ∀ {w view}, Pictures disk t w view →
    Linked known w view → rest.Nodup → (∀ o ∈ rest, o ∈ w.state.icache) →
    Meets disk allowed (InodeCache.evictLoop rest) (fun _ w' => ∃ view', Pictures disk t w' view' ∧
      Linked known w' view' ∧ Goes w w' [] ∧ Lasts w w' view view') w := by
  induction rest with
  | nil => exact fun {w view} pictured linked _ _ => ⟨view, pictured, linked, .refl w, .of_state view rfl⟩
  | cons cur rest ih =>
    intro w view pictured linked nodup inCache
    obtain ⟨outside, nodup⟩ := List.nodup_cons.mp nodup
    have member := inCache cur (.head _)
    rw [InodeCache.evictLoop, meets_bind, meets_get]
    split
    · exact ⟨view, pictured, linked, .refl w, .of_state view rfl⟩
    rw [meets_bind, meets_inode (pictured.settled.live cur member)]
    split
    · rename_i unused
      refine meets_bind.mpr ((meets_bind.mp (drop_meets reliable pictured member)).mono fun _ w₁ later => meets_bind.mpr
        ((meets_bind.mp later).mono fun _ w₂ later => meets_bind.mpr (later.mono ?_)))
      rintro _ w₃ ⟨view₃, drops⟩
      refine (ih (drops.pictures pictured member) (drops.linked pictured member linked) nodup fun o inRest => ?_).mono ?_
      · have other : o ≠ cur := by
          rintro rfl
          exact outside inRest
        rw [drops.icache]
        exact (List.mem_erase_of_ne other).mpr (inCache o (.tail _ inRest))
      · rintro _ w' ⟨view', pictured', linked', goes, lasts⟩
        have refs : w.state.refs cur = 0 := (Fs.refs_of_lt (pictured.settled.early cur member)).trans unused
        exact ⟨view', pictured', linked', (drops.goes refs).trans goes,
          (drops.lasts pictured member refs).trans (drops.goes refs) lasts⟩
    · exact ih pictured linked nodup fun o inRest => inCache o (.tail _ inRest)

end Steps

section References

variable {held : List Nat} {o : Nat}

/-- The object is that of an inode and in use. -/
structure Refers (w : World Fs) (o ino : Nat) : Prop where
  cached : o ∈ w.state.icache
  ino : (w.state.inodes o).ino = ino
  used : w.state.refs o ≠ 0

theorem Goes.refers {ino : Nat} (goes : Goes w w' held) (refers : Refers w o ino) : Refers w' o ino := by
  obtain ⟨cached, same⟩ := goes.used o refers.cached refers.used
  refine ⟨cached, same.trans refers.ino, ?_⟩
  have used := refers.used
  rw [goes.refs]
  omega

/-- Only references are counted differently. -/
structure Recounts (w w' : World Fs) : Prop where
  volume : w.state.SameVolume w'.state
  icache : w'.state.icache = w.state.icache
  allocated : w'.state.allocated = w.state.allocated
  inodes : ∀ o, ∃ n, w'.state.inodes o = { w.state.inodes o with refcount := n }
  device : w'.device = w.device

namespace Recounts

variable {α : Type} (recounts : Recounts w w')
include recounts

theorem field {f : Inode → α} (o : Nat) (kept : ∀ (i : Inode) n, f { i with refcount := n } = f i) :
    f (w'.state.inodes o) = f (w.state.inodes o) := by
  obtain ⟨n, same⟩ := recounts.inodes o
  rw [same, kept]

theorem sameFile (o : Nat) : (w.state.inodes o).SameFile (w'.state.inodes o) := by
  obtain ⟨n, same⟩ := recounts.inodes o
  rw [same]
  exact ⟨rfl, rfl, rfl, fun _ _ => rfl⟩

theorem nlinks (o : Nat) : (w'.state.inodes o).nlinks = (w.state.inodes o).nlinks :=
  recounts.field (f := Inode.nlinks) o fun _ _ => rfl

theorem data (o : Nat) : (w'.state.inodes o).data = (w.state.inodes o).data :=
  recounts.field (f := Inode.data) o fun _ _ => rfl

theorem ino (o : Nat) : (w'.state.inodes o).ino = (w.state.inodes o).ino :=
  recounts.field (f := Inode.ino) o fun _ _ => rfl

theorem indirCount : w'.state.indirCount = w.state.indirCount :=
  congrArg Geometry.indirCount (SameVolume.geometry recounts.volume)

theorem sameBlocks {i i' : Inode} (file : i.SameFile i') :
    SameBlocks w.state w'.state view view (Safe w.state view) (Safe w'.state view) i i' where
  blocksizeBits := recounts.volume.blocksizeBits
  view _ _ := rfl
  safe z safe := by
    refine ⟨SameVolume.geometry recounts.volume ▸ safe.zone, fun o member unlinked => ?_⟩
    rw [recounts.nlinks] at unlinked
    rw [recounts.indirCount, recounts.data]
    exact safe.unused o (recounts.icache ▸ member) unlinked
  file := file

theorem lasts (view : Nat → Bytes) : Lasts w w' view view :=
  ⟨fun _ _ => rfl, (recounts.sameBlocks (recounts.sameFile 0)).safe, fun o _ _ => recounts.sameFile o⟩

theorem pictures (pictured : Pictures disk t w view) : Pictures disk t w' view := by
  obtain ⟨formed, mounted, stored, settled, numbers, numbered, cached, fits, clean, recorded, dead, apart⟩ := pictured
  have geometry := SameVolume.geometry recounts.volume
  have volume := recounts.volume
  refine ⟨geometry ▸ formed, volume.mounted.trans mounted, ?_, ?_, fun o member => ?_, fun ino node found => ?_,
    fun o member node found => ?_, fun o member found => ?_, fun o member found same => ?_,
    fun ino node found absent => ?_, fun o member unlinked => ?_,
    fun o member p member' unlinked unlinked' => ?_⟩
  · exact stored.follow volume.super volume.imap volume.zmap (recounts.device ▸ .refl _) (recounts.device ▸ stored.holds)
  · rw [recounts.icache]
    exact settled.congr (Nat.le_of_eq recounts.allocated.symm) fun o _ =>
      ⟨recounts.ino o, recounts.field (f := Inode.new) o fun _ _ => rfl,
        recounts.field (f := Inode.deleted) o fun _ _ => rfl⟩
  · rw [geometry, recounts.ino]
    exact numbers o (recounts.icache ▸ member)
  · rw [geometry]
    exact numbered ino node found
  · rw [recounts.ino] at found ⊢
    exact (cached o (recounts.icache ▸ member) node found).congr (recounts.sameBlocks (recounts.sameFile o))
  · rw [recounts.ino] at found
    obtain ⟨n, eq⟩ := recounts.inodes o
    obtain ⟨mode, nlinks, size, data⟩ := fits o (recounts.icache ▸ member) found
    rw [eq]
    exact ⟨mode, nlinks, size, data⟩
  · rw [recounts.ino] at found ⊢
    rw [recounts.field (f := Inode.dirty) o fun _ _ => rfl] at same
    obtain ⟨n, eq⟩ := recounts.inodes o
    obtain ⟨mode, nlinks, size, data⟩ := clean o (recounts.icache ▸ member) found same
    rw [eq, geometry]
    exact ⟨mode, nlinks, size, data⟩
  · rw [geometry]
    refine (recorded ino node found fun o member => ?_).congr (recounts.sameBlocks ⟨rfl, rfl, rfl, fun _ _ => rfl⟩)
    rw [← recounts.ino o]
    exact absent o (by rwa [recounts.icache])
  · rw [recounts.nlinks] at unlinked
    rw [geometry, recounts.data]
    exact dead o (recounts.icache ▸ member) unlinked
  · rw [recounts.nlinks] at unlinked unlinked'
    rw [recounts.indirCount, recounts.data, recounts.data]
    exact apart o (recounts.icache ▸ member) p (recounts.icache ▸ member') unlinked unlinked'

theorem linked (linked : Linked known w view) : Linked known w' view := by
  have geometry := SameVolume.geometry recounts.volume
  refine ⟨geometry ▸ linked.numbered, fun o member isKnown => ?_, fun ino isKnown clean => ?_⟩
  · rw [recounts.ino] at isKnown
    obtain ⟨⟨mode, nlinks, size, data⟩, nonzero⟩ := linked.cached o (recounts.icache ▸ member) isKnown
    obtain ⟨n, eq⟩ := recounts.inodes o
    rw [eq]
    exact ⟨⟨mode, nlinks, size, data⟩, nonzero⟩
  · rw [geometry]
    refine linked.recorded ino isKnown fun o member same => ?_
    rw [← recounts.field (f := Inode.dirty) o fun _ _ => rfl]
    exact clean o (recounts.icache ▸ member) ((recounts.ino o).trans same)

end Recounts

end References

end MPStuBS.VFS
