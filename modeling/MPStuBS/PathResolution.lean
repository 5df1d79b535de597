import MPStuBS.AtomicMapping
import MPStuBS.TreeWalks

/-! Every path leads where its route leads in the tree that the file system holds. -/
namespace MPStuBS.VFS

open Prog FsM Minix Filesystem FileTree

variable {disk : Disk Errno} {t : SlotTree} {w : World Fs} {view : Nat → Bytes}

/-- The path walk returns one new reference to what the path leads to, and takes none if the path
leads nowhere or through links that are nested too deeply. -/
theorem pathwalk_resolves (disk : Disk Errno) (reliable : Reliable disk) (t : SlotTree)
    (wellFormed : t.WellFormed) (w : World Fs) (view : Nat → Bytes) (pictured : Pictures disk t w view)
    (rooted : Rooted t w) (cwd : Nat) (refers : Refers w (w.state.cwd.getD w.state.rootInode) cwd)
    (isDir : t.isDir cwd = true) (path : PathName) (noNull : 0 ∉ path) (follow : Bool) :
    Returns disk (pathwalkStep123 path follow) (fun r w' => (∃ view', Pictures disk t w' view') ∧
      match t.resolve maxDepth cwd (routeOf path) follow with
      | some ino => ∃ o, r = .ok o ∧ Refers w' o ino ∧ w'.state.refs o = w.state.refs o + 1 ∧
          ∀ p, p ≠ o → w'.state.refs p = w.state.refs p
      | none => (∃ e, r = .error e) ∧ ∀ p, w'.state.refs p = w.state.refs p) w := by
  refine (pathwalkStep123_leads reliable wellFormed pictured rooted refers isDir noNull follow).mono ?_
  rintro r w' ⟨view', pictured', reached⟩
  refine ⟨⟨view', pictured'⟩, ?_⟩
  cases led : t.resolve maxDepth cwd (routeOf path) follow with
  | none =>
    rw [led] at reached
    exact ⟨reached.1, fun p => reached.2.refs p⟩
  | some ino =>
    rw [led] at reached
    obtain ⟨-, o, rfl, goes, refers'⟩ := reached
    refine ⟨o, rfl, refers', ?_, fun p other => ?_⟩
    · rw [goes.refs, List.count_singleton_self]
    · rw [goes.refs, List.count_singleton, if_neg (by simpa using Ne.symm other), Nat.add_zero]

section Mount

/-- What an inode shows of blocks that are zones is the same in any state with this block size. -/
theorem sameBlocks_zones {s s' : Fs} {safe : Nat → Prop} {i i' : Inode} (bits : s'.blocksizeBits = s.blocksizeBits)
    (safe' : ∀ z, safe z → Safe s' view z) (file : i.SameFile i') : SameBlocks s s' view view safe (Safe s' view) i i' :=
  ⟨bits, fun _ _ => rfl, safe', file⟩

theorem mounted_marked {super : SuperBlock} {bits : Nat} (is : Minix.Mounted disk super bits view w) :
    Minix.Mounted disk super bits view ⟨{ w.state with mounted := true }, w.device⟩ :=
  ⟨⟨is.stored.holds, is.stored.imap, is.stored.zmap⟩, is.super, is.blocksizeBits, is.icache, is.root⟩

/-- After a mount the file system holds the tree that the records show. -/
theorem pictures_of_mounted {super : SuperBlock} {bits : Nat} {s : Fs} (is : Minix.Mounted disk super bits view w)
    (formed : Geometry.Formed ⟨super, bits⟩) (mounted : w.state.mounted = true)
    (early : w.state.rootInode < w.state.allocated) (wellFormed : t.WellFormed) (root : t.root = rootIno)
    (same : s.blocksizeBits = bits) (shown : ∀ ino node, t.node ino = some node → Geometry.HasInode ⟨super, bits⟩ ino ∧
      (Geometry.record ⟨super, bits⟩ view ino .fresh).nlinks ≠ 0 ∧
      Depicts s view (Geometry.IsZone ⟨super, bits⟩) (Geometry.record ⟨super, bits⟩ view ino .fresh) node ∧
      ∀ parent entries, node = .dir parent entries →
        slotsOf view s (Geometry.record ⟨super, bits⟩ view ino .fresh) = t.slots ino) :
    Pictures disk t w view := by
  have geometry : w.state.geometry = ⟨super, bits⟩ := by rw [Fs.geometry, is.super, is.blocksizeBits]
  obtain ⟨entries, rootNode⟩ := wellFormed.root
  rw [root] at rootNode
  obtain ⟨hasRoot, rootLinked, -⟩ := shown _ _ rootNode
  have only : ∀ {P : Inode → Prop}, P (loadedInode view ⟨super, bits⟩ rootIno) →
      ∀ o ∈ w.state.icache, P (w.state.inodes o) := by
    intro P holds o member
    rw [is.icache, List.mem_singleton] at member
    rw [member, is.root, geometry]
    exact holds
  have safe : ∀ z, Geometry.IsZone ⟨super, bits⟩ z → Safe w.state view z := fun z zone =>
    ⟨geometry ▸ zone, only (P := fun i => i.nlinks = 0 → z ∉ zones w.state.indirCount view i.data)
      fun unlinked => absurd unlinked rootLinked⟩
  have same' : w.state.blocksizeBits = s.blocksizeBits := is.blocksizeBits.trans same.symm
  have shows : ∀ ino node, t.node ino = some node → ∀ i,
      (Geometry.record ⟨super, bits⟩ view ino .fresh).SameFile i → Shown w.state view i node (t.slots ino) := by
    intro ino node found i file
    obtain ⟨-, linked, depicts, listed⟩ := shown ino node found
    have same := sameBlocks_zones same' safe file
    refine ⟨file.nlinks ▸ linked, same.depicts depicts, fun parent entries isDir => ?_⟩
    subst isDir
    have shows : ShowsDir s view (Geometry.IsZone ⟨super, bits⟩) _ parent entries := depicts
    rw [same.slotsOf shows.toOnDisk]
    exact listed parent entries rfl
  refine ⟨geometry ▸ formed, mounted, is.stored, ⟨?_, ?_, ?_, ?_, ?_, ?_⟩, ?_, fun ino node found => ?_, ?_, ?_, ?_,
    fun ino node found _ => ?_, ?_, ?_⟩
  · rw [is.icache]
    simpa using early
  · exact only (P := fun i => i.deleted = false) rfl
  · exact only (P := fun i => i.new = false) rfl
  · exact only (P := fun i => i.ino ≠ 0) hasRoot.1
  · rw [is.icache]
    exact List.nodup_singleton _
  · rw [is.icache]
    simp
  · rw [geometry]
    exact only (P := fun i => Geometry.HasInode ⟨super, bits⟩ i.ino) hasRoot
  · rw [geometry]
    exact (shown ino node found).1
  · exact only (P := fun i => ∀ node, t.node i.ino = some node → Shown w.state view i node (t.slots i.ino))
      fun node found => shows _ _ found _ ⟨rfl, rfl, rfl, fun _ _ => rfl⟩
  · refine only (P := fun i => (t.node i.ino).isSome → i.Fits) fun _ => ?_
    obtain ⟨mode, nlinks, size, data⟩ : (Geometry.record ⟨super, bits⟩ view rootIno .fresh).Fits := record_fits _ _
    exact ⟨mode, nlinks, size, data⟩
  · rw [geometry]
    exact only (P := fun i => (t.node i.ino).isSome → i.dirty = false →
      i.SameFile (Geometry.record ⟨super, bits⟩ view i.ino .fresh)) fun _ _ => ⟨rfl, rfl, rfl, fun _ _ => rfl⟩
  · rw [geometry]
    exact shows ino node found _ ⟨rfl, rfl, rfl, fun _ _ => rfl⟩
  · rw [geometry]
    exact only (P := fun i => i.nlinks = 0 → Tree ⟨super, bits⟩ view i.data) fun unlinked => absurd unlinked rootLinked
  · exact fun o member _ _ unlinked => absurd unlinked (only (P := fun i => i.nlinks ≠ 0) rootLinked o member)

end Mount

section Directories

variable {s : Fs} {safe : Nat → Prop} {i : Inode} {z : Nat}

/-- A file of one block. -/
structure OneBlock (s : Fs) (view : Nat → Bytes) (safe : Nat → Prop) (i : Inode) (z : Nat) : Prop where
  bits : 9 ≤ s.blocksizeBits
  size : 0 ≤ i.size
  fits : i.size.toNat ≤ s.blocksize
  first : i.data 0 = z
  nonzero : z ≠ 0
  zones : zones s.indirCount view i.data = {z}
  safe : safe z

namespace OneBlock

variable (one : OneBlock s view safe i z)
include one

theorem zoneAt {p : Nat} (inside : p < i.size.toNat) : zoneAt view s i p = z := by
  have fits := one.fits
  unfold Filesystem.zoneAt
  rw [Nat.div_eq_of_lt (by omega)]
  exact one.first

theorem onDisk : OnDisk s view safe i := by
  refine ⟨one.size, ?_, fun p inside => ?_, fun z' member => ?_⟩
  · have size := one.size
    have fits := one.fits
    have blocks : 1 ≤ addressable s.indirCount := by
      unfold addressable
      omega
    have whole := Nat.mul_le_mul_right s.blocksize blocks
    omega
  · rw [one.zoneAt inside]
    exact one.nonzero
  · rw [one.zones, Multiset.mem_singleton] at member
    exact member ▸ one.safe

theorem slotsOf {n : Nat} (size : i.size = 64 * n) :
    slotsOf view s i = (List.range n).map fun k => (nameAt (view z) k, direntInode (view z) k) := by
  have fits := one.fits
  have slots : i.size.toNat / 64 = n := by omega
  unfold VFS.slotsOf slotBlock slotPlace
  rw [slots]
  refine List.map_congr_left fun k inRange => ?_
  have inside := List.mem_range.mp inRange
  rw [one.zoneAt (by omega), Nat.mod_eq_of_lt (by omega), Nat.mul_div_cancel_left _ (by omega)]

/-- A directory of one block shows what is in its slots. -/
theorem showsDir {n parent : Nat} {entries : PathName → Option Nat} {l : List (PathName × Nat)}
    (mode : Mode.isDir i.mode = true) (size : i.size = 64 * n)
    (listed : ((List.range n).map fun k => (nameAt (view z) k, direntInode (view z) k)) = l)
    (up : ∀ ino, ino ≠ 0 ∧ (dotDotName, ino) ∈ l ↔ ino = parent)
    (down : ∀ name, name ≠ dotName → name ≠ dotDotName → ∀ ino, ino ≠ 0 ∧ (name, ino) ∈ l ↔ entries name = some ino) :
    ShowsDir s view safe i parent entries ∧ VFS.slotsOf view s i = l := by
  have slots := (one.slotsOf size).trans listed
  refine ⟨⟨one.onDisk, mode, by omega, fun ino => ?_, fun name noDot noDotDot ino => ?_⟩, slots⟩
  · rw [lists_iff_mem, slots]
    exact up ino
  · rw [lists_iff_mem, slots]
    exact down name noDot noDotDot ino

end OneBlock

end Directories

section Images

open SmallImage

def nameA : PathName := [97]

def nameB : PathName := [98]

def nameL : PathName := [108]

/-- The root directory holds the directory `a`, in which there is `b`, and the link `l` to `a`. -/
def withTree : Nat → Bytes := fun n =>
  if n = 7 then writeDirent (writeDirent (writeDirent zeroes 0 2 dotName) 1 1 dotDotName) 2 3 nameB
  else if n = 8 then writeDirent (writeDirent zeroes 0 3 dotName) 1 2 dotDotName
  else if n = 9 then zeroes.splice 0 1 fun _ => 97
  else image (imap 31) (zmap 31) (record 4 0o120777 1 2 9 (record 3 dirMode 2 128 8 (record 2 dirMode 3 192 7
    (record 1 dirMode 3 256 6 zeroes)))) (writeDirent (writeDirent rootEntries 2 2 nameA) 3 4 nameL) n

def smallTree : SlotTree where
  root := 1
  node
    | 1 => some (.dir 1 fun name => if name = nameA then some 2 else if name = nameL then some 4 else none)
    | 2 => some (.dir 1 fun name => if name = nameB then some 3 else none)
    | 3 => some (.dir 2 fun _ => none)
    | 4 => some (.link ⟨false, [.down nameA], false⟩)
    | _ => none
  slots
    | 1 => [(dotName, 1), (dotDotName, 1), (nameA, 2), (nameL, 4)]
    | 2 => [(dotName, 2), (dotDotName, 1), (nameB, 3)]
    | 3 => [(dotName, 3), (dotDotName, 2)]
    | _ => []

/-- A state of a volume with this image. -/
def smallState : Fs := { Fs.initial with super := super, blocksizeBits := 10 }

def smallInode (ino : Nat) : Inode := Geometry.record ⟨super, 10⟩ (mountedView super withTree) ino .fresh

theorem smallTree_wellFormed : smallTree.WellFormed := by
  refine ⟨⟨_, rfl⟩, ?_, ?_⟩
  · rintro (_ | _ | _ | _ | _ | ino) parent entries found <;> cases found <;> rfl
  · rintro (_ | _ | _ | _ | _ | ino) parent entries name child found entered <;> cases found <;> dsimp only at entered
    · by_cases isA : name = nameA
      · rw [if_pos isA] at entered
        cases entered
        rfl
      · by_cases isL : name = nameL
        · rw [if_neg isA, if_pos isL] at entered
          cases entered
          rfl
        · rw [if_neg isA, if_neg isL] at entered
          cases entered
    · by_cases isB : name = nameB
      · rw [if_pos isB] at entered
        cases entered
        rfl
      · rw [if_neg isB] at entered
        cases entered
    · cases entered

/-- The inodes of the image have one block each. -/
theorem oneBlock_small (ino z : Nat) (size : 0 ≤ (smallInode ino).size ∧ (smallInode ino).size.toNat ≤ 1024)
    (first : (smallInode ino).data 0 = z) (nonzero : z ≠ 0)
    (whole : zones 256 (mountedView super withTree) (smallInode ino).data = {z}) (zone : Geometry.IsZone ⟨super, 10⟩ z) :
    OneBlock smallState (mountedView super withTree) (Geometry.IsZone ⟨super, 10⟩) (smallInode ino) z :=
  ⟨by decide, size.1, size.2, first, nonzero, whole, zone⟩

theorem small_shows (ino : Nat) (node : Node Nat PathName) (found : smallTree.node ino = some node) :
    Geometry.HasInode ⟨super, 10⟩ ino ∧ (smallInode ino).nlinks ≠ 0 ∧
      Depicts smallState (mountedView super withTree) (Geometry.IsZone ⟨super, 10⟩) (smallInode ino) node ∧
      ∀ parent entries, node = .dir parent entries →
        slotsOf (mountedView super withTree) smallState (smallInode ino) = smallTree.slots ino := by
  have dir : ∀ {i node parent entries l}, ShowsDir smallState (mountedView super withTree) (Geometry.IsZone ⟨super, 10⟩) i
      parent entries ∧ slotsOf (mountedView super withTree) smallState i = l → node = .dir parent entries →
      Depicts smallState (mountedView super withTree) (Geometry.IsZone ⟨super, 10⟩) i node ∧
        ∀ parent entries, node = .dir parent entries → slotsOf (mountedView super withTree) smallState i = l := by
    rintro i _ parent entries l ⟨shows, slots⟩ rfl
    exact ⟨shows, fun _ _ _ => slots⟩
  rcases ino with _ | _ | _ | _ | _ | ino <;> cases found <;> refine ⟨by decide, by decide +kernel, ?_⟩
  · refine dir ((oneBlock_small 1 6 (by decide +kernel) (by decide +kernel) (by decide) (by decide +kernel)
      ⟨by decide, by decide, by decide⟩).showsDir (n := 4) (l := smallTree.slots 1)
      (by decide +kernel) (by decide +kernel) (by decide +kernel) (fun child => ?_) fun name noDot noDotDot child => ?_) rfl
    · simp [smallTree, dotDotName, dotName, nameA, nameL]
      omega
    · by_cases isA : name = nameA <;> by_cases isL : name = nameL <;> simp_all [smallTree, nameA, nameL, eq_comm]
  · refine dir ((oneBlock_small 2 7 (by decide +kernel) (by decide +kernel) (by decide) (by decide +kernel)
      ⟨by decide, by decide, by decide⟩).showsDir (n := 3) (l := smallTree.slots 2)
      (by decide +kernel) (by decide +kernel) (by decide +kernel) (fun child => ?_) fun name noDot noDotDot child => ?_) rfl
    · simp [smallTree, dotDotName, dotName, nameB]
      omega
    · by_cases isB : name = nameB <;> simp_all [smallTree, eq_comm]
  · refine dir ((oneBlock_small 3 8 (by decide +kernel) (by decide +kernel) (by decide) (by decide +kernel)
      ⟨by decide, by decide, by decide⟩).showsDir (n := 2) (l := smallTree.slots 3)
      (by decide +kernel) (by decide +kernel) (by decide +kernel) (fun child => ?_) fun name noDot noDotDot child => ?_) rfl
    · simp [smallTree, dotDotName, dotName]
      omega
    · simp [smallTree, noDot, noDotDot]
  · have link := oneBlock_small 4 9 (by decide +kernel) (by decide +kernel) (by decide) (by decide +kernel)
      ⟨by decide, by decide, by decide⟩
    refine ⟨⟨link.onDisk, by decide +kernel, by decide +kernel, ?_⟩, fun _ _ other => by cases other⟩
    have bytes : bytesOf (mountedView super withTree) smallState (smallInode 4) = [97, 0] := by decide +kernel
    change routeOf ((bytesOf (mountedView super withTree) smallState (smallInode 4)).takeWhile _) = _
    rw [bytes]
    decide

/-- After the mount of the image. -/
structure SmallMounted (w : World Fs) : Prop where
  pictured : Pictures ⟨true, neverFails⟩ smallTree w (mountedView super withTree)
  rooted : Rooted smallTree w
  cwd : w.state.cwd = none

theorem SmallMounted.refers {w : World Fs} (is : SmallMounted w) :
    Refers w (w.state.cwd.getD w.state.rootInode) 1 := by
  rw [is.cwd]
  exact is.rooted

theorem small_mounted : ∃ w, (Minix.mount 10 .all).run ⟨true, neverFails⟩ (.initial withTree) = .ok (.ok (), w) ∧
    SmallMounted ⟨{ w.state with mounted := true }, w.device⟩ := by
  obtain ⟨r, w, mounted, checked⟩ := ran_of_any ⟨true, neverFails⟩ (Minix.mount 10 .all) (.initial withTree)
    (fun r w => r.toOption.isSome && decide (w.state.rootInode < w.state.allocated) &&
      decide (w.state.refs w.state.rootInode ≠ 0) && decide (w.state.cwd = none)) (by decide +kernel)
  obtain ⟨checked, cwd⟩ := Bool.and_eq_true_iff.mp checked
  obtain ⟨checked, used⟩ := Bool.and_eq_true_iff.mp checked
  obtain ⟨returned, early⟩ := Bool.and_eq_true_iff.mp checked
  obtain rfl : r = .ok () := by
    cases r with
    | error e => cases returned
    | ok _ => rfl
  have is := Meets.of_run (mount_mounts 10 .all (fun _ _ => rfl) rfl (Device.holds_new _ _) (Nat.le_refl 10)
    readSuper_small (Nat.succ_ne_zero 15)) mounted rfl
  have rooted : Refers w w.state.rootInode rootIno := by
    refine ⟨?_, ?_, of_decide_eq_true used⟩
    · rw [is.icache]
      exact List.mem_singleton_self _
    · rw [is.root]
      rfl
  refine ⟨w, mounted, pictures_of_mounted (mounted_marked is) ⟨⟨by decide, by decide, by decide⟩, by decide, fun ino has => ?_⟩ rfl
    (of_decide_eq_true early) smallTree_wellFormed rfl (s := smallState) rfl small_shows,
    ⟨rooted.cached, rooted.ino, rooted.used⟩, of_decide_eq_true cwd⟩
  have last := has.2
  change ino ≤ 16 at last
  change 4 + (ino - 1) / 16 < 6
  omega

/-- The path `l/b` leads through the link to the directory `b`. -/
theorem link_resolves : ∃ w, SmallMounted w ∧ Returns ⟨true, neverFails⟩ (pathwalkStep123 [108, 47, 98] true)
    (fun r w' => ∃ o, r = .ok o ∧ Refers w' o 3 ∧ w'.state.refs o = w.state.refs o + 1 ∧
      ∀ p, p ≠ o → w'.state.refs p = w.state.refs p) w := by
  obtain ⟨w, -, is⟩ := small_mounted
  have led : smallTree.resolve maxDepth 1 (routeOf [108, 47, 98]) true = some 3 := by decide +kernel
  refine ⟨_, is, (pathwalk_resolves ⟨true, neverFails⟩ (fun _ _ => rfl) smallTree smallTree_wellFormed _ _ is.pictured
    is.rooted 1 is.refers rfl [108, 47, 98] (by decide) true).mono ?_⟩
  rintro r w' ⟨-, reached⟩
  rw [led] at reached
  exact reached

end Images

end MPStuBS.VFS
