import MPStuBS.EmptyDirectories
import MPStuBS.FileReading
import MPStuBS.ProgramParts
import MPStuBS.TruncationExtent
import MPStuBS.Vfs

/-! What `truncate` and `ftruncate` do to the length and the bytes of a file. -/
namespace MPStuBS.VFS

open Prog FsM Device Minix Filesystem

/-- A file on a mounted volume. -/
structure MountedFile (disk : Disk Errno) (view : Nat → Bytes) (w : World Fs) (ptr : Nat) : Prop where
  stored : Stored disk w [] [] view
  layout : w.state.geometry.Layout
  tree : Tree w.state.geometry view (w.state.inodes ptr).data
  valid : ValidInode w.state (w.state.inodes ptr)

/-- A byte of the file as it is on the device. -/
def fileByte (w : World Fs) (ptr p : Nat) : UInt8 := byteAt w.device.contents w.state (w.state.inodes ptr) p

/-- The file has the length, with its old bytes before the old length and zeroes behind it. -/
structure LengthSet (w w' : World Fs) (ptr length : Nat) : Prop where
  size : (w'.state.inodes ptr).size = length
  kept : ∀ p : Nat, p < (w.state.inodes ptr).size → p < length → fileByte w' ptr p = fileByte w ptr p
  grown : ∀ p : Nat, (w.state.inodes ptr).size ≤ p → p < length → fileByte w' ptr p = 0

/-- The position is below the first block that cannot be fixed on the way to what is cut off. -/
def LostAt (disk : Disk Errno) (view : Nat → Bytes) (w : World Fs) (ptr length p : Nat) : Prop :=
  Broken disk w.device.clock view (w.state.inodes ptr).data
    (blockToPath w.state.indirCount (blocksOf w.state.geometry length)) (blockToPath w.state.indirCount (p / w.state.blocksize))

/-- The length is the old one, or a smaller one before which nothing but zeroes is lost. -/
def Settable (disk : Disk Errno) (view : Nat → Bytes) (w : World Fs) (ptr length : Nat) : Prop :=
  (length : Int) = (w.state.inodes ptr).size ∨ (length : Int) < (w.state.inodes ptr).size ∧
    ∀ p < length, LostAt disk view w ptr length p → fileByte w ptr p = 0

variable {disk : Disk Errno} {view : Nat → Bytes} {w w' : World Fs} {ptr length : Nat}

/-- No block of a tree is held, so that it is on the device as it is seen. -/
theorem fileByte_eq (stored : Stored disk w [] [] view) (layout : w.state.geometry.Layout)
    (tree : Tree w.state.geometry view (w.state.inodes ptr).data) {p : Nat}
    (inside : p / w.state.blocksize < addressable w.state.indirCount) :
    fileByte w ptr p = byteAt view w.state (w.state.inodes ptr) p := by
  have contents : ∀ n ∈ zones w.state.indirCount view (w.state.inodes ptr).data, w.device.contents n = view n := by
    intro n member
    have zone := tree.zone n member
    refine stored.holds.shows.rest n fun held => ?_
    exact Nat.not_lt.mpr (Nat.le_trans layout.table zone.first) (stored.number_mapHandles (by simpa using held)).2
  have isPath := (blockToPath_isPath layout.entries.2 inside).1
  have zone : zoneAt w.device.contents w.state (w.state.inodes ptr) p = zoneAt view w.state (w.state.inodes ptr) p :=
    zoneOf_congr_arrays isPath fun n member => contents n (Multiset.mem_of_le arrays_le_zones member)
  unfold fileByte byteAt
  rw [zone]
  split
  · rfl
  · rename_i nonzero
    exact congrFun (contents _ (zoneOf_mem isPath nonzero)) _

theorem blocksOf_le {g : Geometry} {count : Nat} (fits : length ≤ count * g.blocksize) : blocksOf g length ≤ count := by
  have positive : 0 < g.blocksize := Nat.two_pow_pos _
  refine Nat.lt_succ_iff.mp (Nat.div_lt_of_lt_mul ?_)
  rw [Nat.mul_comm, Nat.succ_mul]
  omega

/-- A byte before the length is in one of its blocks. -/
theorem div_lt_blocksOf {g : Geometry} {p : Nat} (before : p < length) : p / g.blocksize < blocksOf g length := by
  have positive : 0 < g.blocksize := Nat.two_pow_pos _
  have next : (p + g.blocksize) / g.blocksize ≤ blocksOf g length := Nat.div_le_div_right (by omega)
  rwa [Nat.add_div_right _ positive] at next

/-- `truncate` to a smaller length. -/
theorem truncate_shortens (file : MountedFile disk view w ptr) (shorter : (length : Int) < (w.state.inodes ptr).size) :
    After disk (Minix.truncate ptr length) (fun _ w' => LengthSet w w' ptr length ↔
      ∀ p < length, LostAt disk view w ptr length p → fileByte w ptr p = 0) w := by
  have fits := file.valid.fits
  have small := file.valid.bounds
  have positive := file.layout.entries.2
  have bound : blocksOf w.state.geometry length ≤ addressable w.state.geometry.indirCount :=
    blocksOf_le (show length ≤ addressable w.state.indirCount * w.state.blocksize by omega)
  have prunable : Prunable disk w.state.geometry ptr [] [] [] view w :=
    ⟨rfl, file.valid.live, file.stored, file.tree, by simp [OnSpine]⟩
  have truncates : After disk (Minix.truncate ptr length)
      (fun _ w' => ∃ n, Truncated disk w.state.geometry ptr length view w n w') w :=
    ((truncate_truncates file.layout (by omega) bound prunable fun _ _ _ => trivial).mono
      fun _ n _ truncated => ⟨n, truncated⟩).meets
  refine truncates.mono ?_
  rintro _ w' ⟨n, cut, cuts, view', data', lost, freed, -, edits, prunes⟩
  rw [resize_data] at prunes
  have geometry : w'.state.geometry = w.state.geometry := edits.geometry
  have count : w'.state.indirCount = w.state.indirCount := congrArg Geometry.indirCount geometry
  have blocksize : w'.state.blocksize = w.state.blocksize := congrArg Geometry.blocksize geometry
  have size : (w'.state.inodes ptr).size = length := by
    obtain ⟨dirty, state⟩ := edits.state
    rw [state, inodes_setInode]
    simp [resize]
  have inside : ∀ p < length, p / w.state.blocksize < addressable w.state.indirCount := fun p before =>
    file.valid.block_lt (by omega)
  have old : ∀ p < length, fileByte w ptr p = byteAt view w.state (w.state.inodes ptr) p := fun p before =>
    fileByte_eq file.stored file.layout file.tree (inside p before)
  have new : ∀ p < length, fileByte w' ptr p = byteAt view' w'.state (w'.state.inodes ptr) p := fun p before =>
    fileByte_eq edits.stored (geometry ▸ file.layout) (geometry ▸ edits.data ▸ prunes.tree file.tree)
      (by rw [blocksize, count]; exact inside p before)
  have gone : ∀ p < length, LostAt disk view w ptr length p → fileByte w' ptr p = 0 := by
    intro p before isLost
    rw [new p before]
    refine if_pos ?_
    rw [zoneAt, count, blocksize, edits.data]
    exact cuts.unmapped positive (inside p before) prunes.gone (.inr isLost)
  have same : ∀ p < length, ¬ LostAt disk view w ptr length p → fileByte w' ptr p = fileByte w ptr p := by
    intro p before kept
    have early : p / w.state.blocksize < blocksOf w.state.geometry length := div_lt_blocksOf (g := w.state.geometry) before
    have mapped := cuts.mapped positive (inside p before) prunes.kept prunes.gone early kept
    have zone : zoneAt view' w'.state (w'.state.inodes ptr) p = zoneAt view w.state (w.state.inodes ptr) p := by
      rw [zoneAt, count, blocksize, edits.data]
      exact mapped
    rw [new p before, old p before, byteAt, byteAt, zone]
    split
    · rfl
    · rename_i nonzero
      obtain ⟨isPath, full⟩ := blockToPath_isPath positive (inside p before)
      have kept : view' (zoneAt view w.state (w.state.inodes ptr) p) = view (zoneAt view w.state (w.state.inodes ptr) p) :=
        prunes.rest _ ((file.tree.zone _ (zoneOf_mem isPath nonzero)).offMap file.layout)
          (zoneOf_notMem_arrays file.tree.nodup isPath full nonzero)
      rw [kept, blocksize]
  constructor
  · intro set p before isLost
    rw [← set.kept p (by omega) before, gone p before isLost]
  · refine fun zeroes => ⟨size, fun p _ before => ?_, fun p behind before => by omega⟩
    by_cases isLost : LostAt disk view w ptr length p
    · rw [gone p before isLost, zeroes p before isLost]
    · exact same p before isLost

/-- Growing a file leaves its length. -/
theorem punchHole_keeps_size (stop : Int) : After disk (punchHole ptr (w.state.inodes ptr).size stop)
    (fun _ w' => (w'.state.inodes ptr).size = (w.state.inodes ptr).size) w := by
  refine (remaps_punchHole ptr _ stop w.state).after.mono ?_
  rintro _ w' ⟨inodes, state, same⟩
  obtain ⟨data, dirty, eq⟩ := same ptr
  rw [state]
  change (inodes ptr).size = _
  rw [eq]

/-- A call that returns 0 has set the length exactly where it could be set. -/
theorem truncateInode_sets (file : MountedFile disk view w ptr) : After disk (truncateInode ptr length)
    (fun r w' => r = .ok () → (LengthSet w w' ptr length ↔ Settable disk view w ptr length)) w := by
  unfold truncateInode
  refine meets_bind.mpr ((meets_inode file.valid.live).mpr ?_)
  split
  · exact meets_pure.mpr fun returned => by cases returned
  split
  · rename_i same
    refine meets_pure.mpr fun _ => iff_of_true ⟨same.symm, fun _ _ _ => rfl, fun p behind before => ?_⟩ (.inl same)
    omega
  rename_i other
  split
  · rename_i longer
    refine (punchHole_keeps_size _).mono fun r w' kept _ => iff_of_false (fun set => ?_) (fun settable => ?_)
    · exact other (kept ▸ set.size).symm
    · rcases settable with same | ⟨shorter, -⟩ <;> omega
  · rename_i low
    have shorter : (length : Int) < (w.state.inodes ptr).size := by omega
    refine meets_bind.mpr ((truncate_shortens file shorter).mono fun _ w' set => meets_pure.mpr fun _ => ?_)
    rw [set, Settable]
    exact ⟨fun zeroes => .inr ⟨shorter, zeroes⟩, fun settable => (settable.resolve_left other).2⟩

/-- Giving up a reference leaves the file. -/
theorem LengthSet.put {w₀ : World Fs} : After disk (Inode.put ptr) (fun _ w' =>
    (LengthSet w₀ w' ptr length ↔ LengthSet w₀ w ptr length)) w := by
  have same : ∀ s' : Fs, s'.geometry = w.state.geometry → (s'.inodes ptr).size = (w.state.inodes ptr).size →
      (s'.inodes ptr).data = (w.state.inodes ptr).data →
        (LengthSet w₀ ⟨s', w.device⟩ ptr length ↔ LengthSet w₀ w ptr length) := by
    intro s' geometry size data
    have bytes : ∀ p, fileByte ⟨s', w.device⟩ ptr p = fileByte w ptr p := by
      intro p
      have count : s'.indirCount = w.state.indirCount := congrArg Geometry.indirCount geometry
      have blocksize : s'.blocksize = w.state.blocksize := congrArg Geometry.blocksize geometry
      unfold fileByte byteAt zoneAt
      rw [count, blocksize, data]
    exact ⟨fun set => ⟨size ▸ set.size, fun p low high => bytes p ▸ set.kept p low high,
      fun p low high => bytes p ▸ set.grown p low high⟩, fun set => ⟨size ▸ set.size, fun p low high =>
        (bytes p).trans (set.kept p low high), fun p low high => (bytes p).trans (set.grown p low high)⟩⟩
  unfold Inode.put
  by_cases live : (w.state.inodes ptr).deleted = false
  · refine meets_bind.mpr ((meets_inode live).mpr ?_)
    split
    · refine meets_bind.mpr (meets_modify.mpr ((meets_setInode (by exact live)).mpr ?_))
      exact same _ rfl (by simp [Fs.setInode]) (by simp [Fs.setInode])
    · exact Iff.rfl
  · refine meets_bind.mpr (meets_bind.mpr (meets_get.mpr ?_))
    rw [if_pos (by simpa using live)]
    exact meets_fault.mpr trivial

/-- For every inode that the path leads to or the descriptor stands for. -/
theorem length_set_iff (disk : Disk Errno) (view : Nat → Bytes) (w w' : World Fs) (length : Nat) :
    (∀ path ptr w₁, (pathwalkStep123 path true).run disk w = .ok (.ok ptr, w₁) → MountedFile disk view w₁ ptr →
      (truncate path length).run disk w = .ok (.ok (), w') →
        (LengthSet w₁ w' ptr length ↔ Settable disk view w₁ ptr length)) ∧
    ∀ fd file, w.state.fdTable.getFile fd = some file → MountedFile disk view w file.inode →
      (ftruncate fd length).run disk w = .ok (.ok (), w') →
        (LengthSet w w' file.inode length ↔ Settable disk view w file.inode length) := by
  constructor
  · intro path ptr w₁ walked file returned
    unfold truncate at returned
    rw [run_bind_of walked] at returned
    obtain ⟨r, w₂, truncated, returned⟩ := run_bind_ok returned
    obtain ⟨_, w₃, put, returned⟩ := run_bind_ok returned
    obtain ⟨rfl, rfl⟩ : r = .ok () ∧ w₃ = w' := by
      cases returned
      exact ⟨rfl, rfl⟩
    rw [Meets.of_run LengthSet.put put]
    exact Meets.of_run (truncateInode_sets file) truncated rfl
  · intro fd file known mounted returned
    have gets : (getFile fd).run disk w = .ok (some file, w) := by
      change Except.ok (w.state.fdTable.getFile fd, w) = _
      rw [known]
    unfold ftruncate at returned
    rw [run_bind_of gets] at returned
    dsimp only at returned
    split at returned
    · cases returned
    · exact Meets.of_run (truncateInode_sets mounted) returned rfl

section Images

open SmallImage

/-- The root directory holds the file `f`, which has three bytes. -/
def withBytes : Nat → Bytes :=
  image (imap 7) (zmap 7) (record 2 fileMode 1 3 7 (record 1 dirMode 2 192 6 zeroes)) (Minix.writeDirent rootEntries 2 2 nameF)

theorem zones_withBytes :
    zones 256 (mountedView super withBytes) (loadedInode (mountedView super withBytes) ⟨super, 10⟩ 2).data = {7} := by
  decide +kernel

/-- The file is open as descriptor 0. -/
def openedAs (o : Nat) (s : Fs) : Fs := { s with fdTable := ⟨fun _ => 1, fun _ => [⟨0, Flags.rdwr, o, 0⟩]⟩ }

/-- The file `f` is cut to a byte. -/
def cutFile : FsM (Except Errno Unit) := do
  match ← iget 2 with
  | .error e => Pure.pure (.error e)
  | .ok o => do
    modify (openedAs o)
    ftruncate 0 1

theorem length_set_small : ∃ view w w' ptr, MountedFile ⟨true, neverFails⟩ view w ptr ∧
    (w.state.inodes ptr).size = 3 ∧ (ftruncate 0 1).run ⟨true, neverFails⟩ w = .ok (.ok (), w') ∧ LengthSet w w' ptr 1 := by
  obtain ⟨w, r, w', mounted, cut, checked⟩ := AllocatorOp.mount_and_call withBytes cutFile
    (fun r w _ => r.toOption.isSome && (w.state.numInodes == 1 && w.state.rootInode == 0 && w.state.allocated == 1 &&
      (w.state.inodes 0).ino == 1)) (by decide +kernel)
  obtain ⟨returned, checked⟩ := Bool.and_eq_true_iff.mp checked
  simp only [Bool.and_eq_true, beq_iff_eq] at checked
  obtain ⟨⟨⟨few, first⟩, allocated⟩, number⟩ := checked
  obtain rfl := returned_ok returned
  have is := Meets.of_run (mount_mounts 10 .all (fun _ _ => rfl) rfl (Device.holds_new _ _) (Nat.le_refl 10)
    readSuper_small (Nat.succ_ne_zero 15)) mounted rfl
  have geometry : w.state.geometry = ⟨super, 10⟩ := by
    rw [Fs.geometry, is.super, is.blocksizeBits]
  have root := is.root
  have icache := is.icache
  rw [first] at root icache
  have misses : Misses w 2 := by
    refine ⟨.inr (by rw [few]; decide), fun o member => ?_, fun o member => ?_⟩
    all_goals
      rw [icache] at member
      obtain rfl := List.mem_singleton.mp member
    · refine ⟨by omega, ?_, by omega⟩
      rw [root]
      rfl
    · omega
  obtain ⟨loaded, w₁, loads, cut⟩ := run_bind_ok cut
  have loading : Meets _ (fun _ => True) _ _ _ := iget_loads (fun _ _ => rfl) (by rw [geometry]; decide) misses is.stored
  obtain ⟨o, rfl, stored, geometry₁, -, isLoaded⟩ := Meets.of_run loading loads
  rw [geometry] at geometry₁ isLoaded
  obtain ⟨_, w₂, opens, cut⟩ := run_bind_ok cut
  obtain rfl : w₂ = ⟨openedAs o w₁.state, w₁.device⟩ := by
    cases opens
    rfl
  have size : (w₁.state.inodes o).size = 3 := by
    rw [isLoaded]
    decide +kernel
  have file : MountedFile ⟨true, neverFails⟩ (mountedView super withBytes) ⟨openedAs o w₁.state, w₁.device⟩ o := by
    refine ⟨stored.follow rfl rfl rfl (.refl _) stored.holds, ?_, ?_, ?_, ?_, ?_, ?_⟩
    · change w₁.state.geometry.Layout
      rw [geometry₁]
      exact ⟨by decide, by decide, by decide⟩
    · change Tree w₁.state.geometry _ (w₁.state.inodes o).data
      rw [geometry₁, isLoaded]
      have zones : zones (Geometry.indirCount ⟨super, 10⟩) (mountedView super withBytes)
        (loadedInode (mountedView super withBytes) ⟨super, 10⟩ 2).data = {7} := zones_withBytes
      refine ⟨by rw [zones]; decide, fun z member => ?_, by rw [zones]; decide +kernel⟩
      rw [zones] at member
      obtain rfl := Multiset.mem_singleton.mp member
      exact ⟨by decide, by decide, by decide⟩
    · change (w₁.state.inodes o).deleted = false
      rw [isLoaded]
      rfl
    · have bits : w₁.state.blocksizeBits = 10 := congrArg Geometry.blocksizeBits geometry₁
      change 9 ≤ w₁.state.blocksizeBits ∧ w₁.state.blocksizeBits ≤ 12
      rw [bits]
      decide
    · change 0 ≤ (w₁.state.inodes o).size
      omega
    · change (w₁.state.inodes o).size ≤ (addressable w₁.state.geometry.indirCount * w₁.state.geometry.blocksize : Nat)
      rw [size, geometry₁]
      decide
  refine ⟨_, _, w', o, file, size, cut, ?_⟩
  refine ((length_set_iff _ _ _ w' 1).2 0 ⟨0, Flags.rdwr, o, 0⟩ rfl file cut).mpr (.inr ⟨?_, ?_⟩)
  · change 1 < (w₁.state.inodes o).size
    rw [size]
    decide
  · exact fun p _ isLost => absurd isLost (not_broken_of_reliable fun _ _ => rfl)

/-- The empty file is not extended. -/
theorem ftruncate_leaves_size : ∃ w w' file,
    (calls [.mount 10 .all, .open nameF Flags.rdwr]).run ⟨true, neverFails⟩ (.initial withFile) =
      .ok ([.ok .done, .ok (.number 0)], w) ∧
    w.state.fdTable.getFile 0 = some file ∧ Mode.isDir (w.state.inodes file.inode).mode = false ∧
    (w.state.inodes file.inode).size = 0 ∧ (ftruncate 0 1).run ⟨true, neverFails⟩ w = .ok (.ok (), w') ∧
    (w'.state.inodes file.inode).size = 0 ∧ ¬ LengthSet w w' file.inode 1 := by
  obtain ⟨results, w, opened, checked⟩ := ran_of_any ⟨true, neverFails⟩ (calls [.mount 10 .all, .open nameF Flags.rdwr])
    (.initial withFile) (fun results w => results == [.ok .done, .ok (.number 0)] &&
      ((w.state.fdTable.getFile 0).any fun file => !Mode.isDir (w.state.inodes file.inode).mode &&
        (w.state.inodes file.inode).size == 0 && ((ftruncate 0 1).run ⟨true, neverFails⟩ w).toOption.any fun r =>
          r.1.toOption.isSome && (r.2.state.inodes file.inode).size == 0)) (by decide +kernel)
  obtain ⟨same, known⟩ := Bool.and_eq_true_iff.mp checked
  obtain rfl := beq_iff_eq.mp same
  cases found : w.state.fdTable.getFile 0 with
  | none =>
    rw [found] at known
    cases known
  | some file =>
    rw [found, Option.any_some] at known
    obtain ⟨is, cut⟩ := Bool.and_eq_true_iff.mp known
    obtain ⟨regular, empty⟩ := Bool.and_eq_true_iff.mp is
    obtain ⟨r, w', ran, checked⟩ := ran_of_any _ _ _ (fun (r : Except Errno Unit) (w' : World Fs) =>
      r.toOption.isSome && (w'.state.inodes file.inode).size == 0) cut
    obtain ⟨returned, size⟩ := Bool.and_eq_true_iff.mp checked
    obtain rfl := returned_ok returned
    have size := beq_iff_eq.mp size
    refine ⟨w, w', file, opened, found, by simpa using regular, beq_iff_eq.mp empty, ran, size, fun set => ?_⟩
    have longer := set.size
    rw [size] at longer
    cases longer

end Images

end MPStuBS.VFS
