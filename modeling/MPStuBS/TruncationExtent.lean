import MPStuBS.MountedVolume
import MPStuBS.Truncation
import MPStuBS.AllocatorRuns

/-! At which lengths `truncate` is exact: behind the last block that a tree can address its path
leaves the triple indirect block. -/
namespace MPStuBS.Minix

open Prog FsM Device HeapTree

variable {disk : Disk Errno} {allowed : FsFault → Prop} {ptr length : Nat} {g : Geometry} {view : Nat → Bytes}
  {w : World Fs}

theorem blockToPath_addressable {m : Nat} (positive : 0 < m) : blockToPath m (addressable m) = [9, m, 0, 0] := by
  have beyond : addressable m - 7 - m - m * m = m * m * m := by
    unfold addressable
    omega
  unfold blockToPath
  rw [if_neg (by unfold addressable; omega), if_neg (by unfold addressable; omega),
    if_neg (by unfold addressable; omega)]
  simp only [beyond]
  rw [Nat.mul_div_cancel _ positive, Nat.mul_div_cancel _ positive, Nat.mul_mod_left, Nat.mul_mod_left]

theorem offsets_addressable {m : Nat} (positive : 0 < m) (small : m < 2147483648) :
    offsets m (addressable m) = [9, m, 0, 0] := by
  rw [offsets, blockToPath_addressable positive]
  simp only [List.map_cons, List.map_nil, toInt_of_lt small, toInt_of_lt (by decide : 9 < 2147483648),
    toInt_of_lt (by decide : 0 < 2147483648)]

theorem dropZeroes_beyond {m : Nat} (positive : 0 < m) : dropZeroes [9, m, 0, 0] = [9, m] := by
  simp [dropZeroes, Nat.ne_of_gt positive]

section Sharing

variable (live : (w.state.inodes ptr).deleted = false)
include live

/-- The walk behind the last block ends at the inode, unless it reads past the end of a block. -/
theorem getBranch_beyond (layout : w.state.geometry.Layout) (tree : Tree w.state.geometry view (w.state.inodes ptr).data)
    (stored : Stored disk w [] [] view) (lenient : (w.state.inodes ptr).data 9 ≠ 0 →
      answer disk w.device.clock view (w.state.inodes ptr).data [9] = none → allowed .outOfBounds) :
    Meets disk allowed (getBranch ptr [9, w.state.indirCount]) (fun b w' =>
      b.chain = [⟨.inode, 9, (w.state.inodes ptr).data 9⟩] ∧ Works disk w w' [] [] view ∧
        ((w.state.inodes ptr).data 9 = 0 ∨ answer disk w.device.clock view (w.state.inodes ptr).data [9] ≠ none)) w := by
  unfold getBranch
  refine meets_bind.mpr ((readEntry_inode live (by omega : 9 < 10)).mpr ?_)
  unfold followBranch
  split
  · rename_i zero
    exact meets_pure.mpr ⟨rfl, .refl stored, .inl zero⟩
  rename_i nonzero
  have isPath : IsPath w.state.geometry.indirCount [9] := ⟨by omega, by simp, by simp⟩
  have zone := tree.zone _ (zoneOf_mem isPath nonzero)
  have held := works_fix stored (Nat.le_trans layout.table zone.first) (by simp)
  refine meets_bind.mpr (meets_fix (fun fixed => ?_) fun e failure => ?_)
  · refine meets_bind.mpr (meets_bind.mpr (Iff.mpr (readEntry_inode (by exact live) (show 9 < 10 by omega)) ?_))
    rw [if_pos rfl]
    refine meets_pure.mpr ?_
    rw [if_pos rfl]
    refine meets_bind.mpr (meets_bind.mpr (meets_get.mpr ?_))
    refine meets_bind.mpr ((meets_load (held.stored.load (by simp))).mpr ?_)
    rw [if_neg (Nat.lt_irrefl _)]
    exact lenient nonzero fixed
  · refine meets_pure.mpr ⟨rfl, works_tick stored, .inr fun fixed => ?_⟩
    have failure : answer disk w.device.clock view (w.state.inodes ptr).data [9] = some e := failure
    rw [fixed] at failure
    cases failure

/-- Everything below the last entry of the inode is cut off, if anything is there. -/
theorem findShared_beyond (layout : w.state.geometry.Layout) (tree : Tree w.state.geometry view (w.state.inodes ptr).data)
    (stored : Stored disk w [] [] view) (lenient : (w.state.inodes ptr).data 9 ≠ 0 →
      answer disk w.device.clock view (w.state.inodes ptr).data [9] = none → allowed .outOfBounds) :
    Spends (releases w.state.zoneMaps) disk allowed (findShared ptr [9, w.state.indirCount, 0, 0]) (fun r n w' =>
      n = 0 ∧ ∃ view₁ data₁, EndsAt disk ptr w.state.indirCount view (w.state.inodes ptr).data [9, w.state.indirCount, 0, 0]
        w r.1 r.2 w' [9] view₁ data₁) w := by
  have inside : 9 < 10 := by omega
  have positive : 0 < w.state.indirCount := layout.entries.2
  have isPath : IsPath w.state.indirCount [9] := ⟨by omega, by simp, by simp⟩
  unfold findShared
  dsimp only
  rw [dropZeroes_beyond positive]
  refine spends_first (free_getBranch _ _) ((getBranch_beyond live layout tree stored lenient).mono ?_)
  rintro b ⟨s₁, d₁⟩ ⟨chain, works, ended⟩
  obtain rfl : s₁ = w.state := works.state
  rw [chain]
  refine spends_first (free_readEntry _ _ _) (Iff.mpr (readEntry_inode (by exact live) inside) ?_)
  rw [if_neg fun both => both.2 both.1]
  refine spends_first (free_rise _ _ _) (meets_pure.mpr ?_)
  dsimp only
  rw [if_neg (by simp)]
  refine spends_first (free_readEntry _ _ _) (Iff.mpr (readEntry_inode (by exact live) inside) ?_)
  refine spends_first (free_writeEntry _ (show Area.Off _ .inode from trivial) _ _) ?_
  refine (writeEntry_leads (by exact live) works.stored .inode isPath (by omega)).mono ?_
  rintro _ w₂ ⟨view₁, data₁, edits, written⟩
  refine spends_first (free_unfixAll _) (meets_pure.mpr (spends_pure.mpr ⟨rfl, view₁, data₁, ?_⟩))
  have unread : (w.state.inodes ptr).data 9 = 0 ∨
      Unread disk w.device.clock view (w.state.inodes ptr).data [9, w.state.indirCount] [9] :=
    or_iff_not_imp_left.mpr fun nonzero => ⟨⟨[w.state.indirCount], rfl, by simp⟩, by simp, nonzero,
      readable_root, ended.resolve_left nonzero⟩
  refine ⟨⟨_, rfl⟩, works.edits.trans edits, written, rfl, .root inside, fun q isQ below _ => ?_, fun q broken => ?_⟩
  · rcases unread with zero | unread
    · exact .inl (zoneOf_upper isQ (by simp) below zero)
    · refine .inr ⟨[9], ?_, below⟩
      rwa [dropZeroes_beyond positive]
  · obtain ⟨R, unread, below⟩ := broken
    rw [dropZeroes_beyond positive] at unread
    obtain ⟨rest, whole, more⟩ := unread.above
    obtain _ | ⟨o, R⟩ := R
    · exact absurd rfl unread.nonempty
    obtain ⟨rfl, -⟩ := List.cons.inj whole
    exact List.IsPrefix.trans ⟨R, rfl⟩ below

/-- A tree below the last entry of the inode is read past the end of its block. -/
theorem findShared_faults (reliable : Reliable disk) (layout : w.state.geometry.Layout)
    (tree : Tree w.state.geometry view (w.state.inodes ptr).data) (stored : Stored disk w [] [] view)
    (nonzero : (w.state.inodes ptr).data 9 ≠ 0) :
    Meets disk (· = .outOfBounds) (findShared ptr [9, w.state.indirCount, 0, 0]) (fun _ _ => False) w := by
  unfold findShared
  dsimp only
  rw [dropZeroes_beyond (show 0 < w.state.indirCount from layout.entries.2)]
  have ends : Meets disk (· = .outOfBounds) (getBranch ptr [9, w.state.indirCount]) _ w :=
    getBranch_beyond live layout tree stored fun _ _ => rfl
  refine meets_bind.mpr (ends.mono ?_)
  rintro b w' ⟨-, -, zero | failed⟩
  · exact absurd zero nonzero
  · exact absurd (reliable _ _) failed

end Sharing

theorem path_beyond {s : Fs} (layout : s.geometry.Layout) (last : blocksOf s.geometry length = addressable s.indirCount) :
    offsets s.indirCount (blocksOf s.geometry length) = [9, s.indirCount, 0, 0] := by
  rw [last]
  exact offsets_addressable layout.entries.2 layout.small

/-- `truncate` behind the last block that a tree can address. -/
theorem truncate_beyond (layout : g.Layout) (small : length < 9223372036854775808)
    (last : blocksOf g length = addressable g.indirCount) (prunable : Prunable disk g ptr [] [] [] view w)
    (lenient : (w.state.inodes ptr).data 9 ≠ 0 →
      answer disk w.device.clock view (w.state.inodes ptr).data [9] = none → allowed .outOfBounds) :
    Spends (releases w.state.zoneMaps) disk allowed (truncate ptr length) (fun _ n w' => Truncated disk g ptr length view w n w') w := by
  have here := prunable.geometry
  subst here
  have prunable₁ := prunable.resize length
  have isPath : IsPath w.state.geometry.indirCount [9] := ⟨by omega, by simp, by simp⟩
  unfold truncate Truncated
  refine spends_first free_setInode ((meets_setInode prunable.live).mpr ?_)
  refine spends_first free_setInode ((meets_setInode (by simpa using prunable.live)).mpr ?_)
  refine spends_first free_get (meets_get.mpr ?_)
  dsimp only
  rw [setInode_setInode, truncate_block small]
  generalize eq : offsets _ _ = path
  obtain rfl : path = [9, w.state.geometry.indirCount, 0, 0] := eq.symm.trans (path_beyond layout last)
  rw [last, blockToPath_addressable layout.entries.2, ← resize_data w.state ptr length]
  refine spends_bind.mpr ((findShared_beyond prunable₁.live layout prunable₁.tree prunable₁.stored (by
    rwa [resize_data])).mono ?_)
  rintro ⟨shared, top⟩ n w₁ ⟨rfl, view₁, data₁, ends⟩
  refine (clearFrom_prunes layout isPath (by omega) rfl prunable₁ ends).mono fun _ m w' pruned => ?_
  rw [Nat.zero_add]
  exact ⟨_, cutsFrom_at ends.path ends.empty ends.broken, pruned⟩

/-- `truncate` at any length that the tree can address. -/
theorem truncate_truncates (layout : g.Layout) (small : length < 9223372036854775808)
    (bound : blocksOf g length ≤ addressable g.indirCount) (prunable : Prunable disk g ptr [] [] [] view w)
    (lenient : blocksOf g length = addressable g.indirCount → (w.state.inodes ptr).data 9 ≠ 0 →
      answer disk w.device.clock view (w.state.inodes ptr).data [9] = none → allowed .outOfBounds) :
    Spends (releases w.state.zoneMaps) disk allowed (truncate ptr length)
      (fun _ n w' => Truncated disk g ptr length view w n w') w := by
  rcases Nat.lt_or_eq_of_le bound with less | last
  · exact truncate_prunes layout small less prunable
  · exact truncate_beyond layout small last prunable (lenient last)

theorem truncate_faults (reliable : Reliable disk) (layout : g.Layout) (small : length < 9223372036854775808)
    (last : blocksOf g length = addressable g.indirCount) (nonzero : (w.state.inodes ptr).data 9 ≠ 0)
    (prunable : Prunable disk g ptr [] [] [] view w) :
    Meets disk (· = .outOfBounds) (truncate ptr length) (fun _ _ => False) w := by
  have here := prunable.geometry
  subst here
  have prunable₁ := prunable.resize length
  unfold truncate
  refine meets_bind.mpr ((meets_setInode prunable.live).mpr ?_)
  refine meets_bind.mpr ((meets_setInode (by simpa using prunable.live)).mpr ?_)
  refine meets_bind.mpr (meets_get.mpr ?_)
  dsimp only
  rw [setInode_setInode, truncate_block small]
  generalize eq : offsets _ _ = path
  rw [show path = [9, w.state.indirCount, 0, 0] from eq.symm.trans (path_beyond layout last)]
  exact meets_bind.mpr ((findShared_faults prunable₁.live reliable layout prunable₁.tree prunable₁.stored
    (by rwa [resize_data])).mono fun _ _ => False.elim)

/-- `truncate` is exact, with one release for each zone that the tree has lost. -/
def TruncatesExactly (disk : Disk Errno) (g : Geometry) (ptr length : Nat) (view : Nat → Bytes) (w : World Fs) : Prop :=
  Spends (releases w.state.zoneMaps) disk (fun _ => False) (truncate ptr length) (fun _ n w' => ∃ view' data' freed,
    n = freed.card ∧ CutOff disk g ptr length view w freed w' view' data') w

theorem truncates_exactly_iff (reliable : Reliable disk) (layout : g.Layout) (small : length < 9223372036854775808)
    (bound : blocksOf g length ≤ addressable g.indirCount) (prunable : Prunable disk g ptr [] [] [] view w) :
    TruncatesExactly disk g ptr length view w ↔
      blocksOf g length < addressable g.indirCount ∨ (w.state.inodes ptr).data 9 = 0 := by
  constructor
  · intro exactly
    by_contra other
    rw [not_or, Nat.not_lt] at other
    have faults := truncate_faults reliable layout small (Nat.le_antisymm bound other.1) other.2 prunable
    unfold TruncatesExactly Spends at exactly
    unfold Meets at faults
    split at exactly
    · rename_i ran
      rwa [ran] at faults
    · exact exactly
  · intro inside
    refine (truncate_truncates layout small bound prunable fun last nonzero => ?_).mono fun _ _ _ truncated =>
      truncated.cutOff reliable layout.entries.2 prunable.tree
    exact absurd (inside.resolve_left (by omega)) nonzero

section Images

open SmallImage

/-- The root inode names an empty triple indirect block. -/
def deep : Nat → Bytes :=
  image (imap 7) (zmap 7) ((record 1 dirMode 2 192 6 zeroes).setU32 60 7) rootEntries

theorem zones_deep : zones 256 (mountedView super deep) (loadedInode (mountedView super deep) ⟨super, 10⟩ rootIno).data =
    {6, 7} := by
  decide +kernel

theorem deep_mounted : ∃ w : World Fs, Prunable ⟨true, VFS.neverFails⟩ ⟨super, 10⟩ w.state.rootInode [] [] []
    (mountedView super deep) w ∧ (w.state.inodes w.state.rootInode).data 9 = 7 := by
  obtain ⟨r, w, mounted, returned⟩ := ran_of_any ⟨true, VFS.neverFails⟩ (mount 10 .all) (.initial deep)
    (fun r _ => r.toOption.isSome) (by decide +kernel)
  obtain rfl : r = .ok () := by
    cases r with
    | error e => cases returned
    | ok _ => rfl
  have is := Meets.of_run (mount_mounts 10 .all (fun _ _ => rfl) rfl (Device.holds_new _ _) (Nat.le_refl 10)
    readSuper_small (Nat.succ_ne_zero 15)) mounted rfl
  have geometry : w.state.geometry = ⟨super, 10⟩ := by
    rw [Fs.geometry, is.super, is.blocksizeBits]
  have root := is.root
  rw [geometry] at root
  refine ⟨w, ⟨geometry, ?_, is.stored, ?_, by simp [OnSpine]⟩, ?_⟩
  · rw [root]
    rfl
  · rw [root]
    have zones : zones (Geometry.indirCount ⟨super, 10⟩) (mountedView super deep)
      (loadedInode (mountedView super deep) ⟨super, 10⟩ rootIno).data = {6, 7} := zones_deep
    refine ⟨?_, ?_, ?_⟩
    all_goals rw [zones]
    · decide
    · intro z member
      rcases Multiset.mem_cons.mp member with rfl | member
      · exact ⟨by decide, by decide, by decide⟩
      · obtain rfl := Multiset.mem_singleton.mp member
        exact ⟨by decide, by decide, by decide⟩
    · decide +kernel
  · rw [root]
    decide +kernel

theorem truncates_exactly_deep : ∃ w : World Fs, TruncatesExactly ⟨true, VFS.neverFails⟩ ⟨super, 10⟩ w.state.rootInode 512
    (mountedView super deep) w := by
  obtain ⟨w, prunable, _⟩ := deep_mounted
  exact ⟨w, (truncates_exactly_iff (fun _ _ => rfl) ⟨by decide, by decide, by decide⟩ (by decide) (by decide)
    prunable).mpr (.inl (by decide))⟩

/-- A file that is as long as the tree can address is truncated to its own length. -/
theorem truncate_longest_faults : ∃ w : World Fs,
    Prunable ⟨true, VFS.neverFails⟩ ⟨super, 10⟩ w.state.rootInode [] [] [] (mountedView super deep) w ∧
    blocksOf ⟨super, 10⟩ 17247247360 = addressable (Geometry.indirCount ⟨super, 10⟩) ∧
    (truncate w.state.rootInode 17247247360).run ⟨true, VFS.neverFails⟩ w = .error .outOfBounds ∧
    ¬ TruncatesExactly ⟨true, VFS.neverFails⟩ ⟨super, 10⟩ w.state.rootInode 17247247360 (mountedView super deep) w := by
  obtain ⟨w, prunable, seven⟩ := deep_mounted
  have faults : Meets _ _ (truncate w.state.rootInode (17247247360 : Nat)) _ w :=
    truncate_faults (fun _ _ => rfl) ⟨by decide, by decide, by decide⟩ (by decide) (by decide) (by omega) prunable
  have ran : (truncate w.state.rootInode 17247247360).run ⟨true, VFS.neverFails⟩ w = .error .outOfBounds := by
    unfold Meets at faults
    split at faults
    · exact faults.elim
    · rename_i f ran
      exact faults ▸ ran
  refine ⟨w, prunable, by decide, ran, fun exactly => ?_⟩
  unfold TruncatesExactly Spends at exactly
  simp only [Nat.cast_ofNat, ran] at exactly

end Images

end MPStuBS.Minix
