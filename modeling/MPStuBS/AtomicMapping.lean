import MPStuBS.AllocatorRuns
import MPStuBS.BlockMapping
import MPStuBS.TreeSharing

/-! `get_block` with allocation maps one block, or leaves all trees and the zone bitmap. -/
namespace MPStuBS.Minix

open Prog FsM Device HeapTree

/-- A zone has been linked for a block of the tree, and whatever else was mapped still is. -/
structure MapsBlock (g : Geometry) (block : Nat) (view : Nat → Bytes) (data : Nat → Nat) (z : Nat)
    (view' : Nat → Bytes) (data' : Nat → Nat) : Prop where
  here : zoneOf view' data' (blockToPath g.indirCount block) = z
  old : zoneOf view data (blockToPath g.indirCount block) ≠ 0 → z = zoneOf view data (blockToPath g.indirCount block)
  new : zoneOf view data (blockToPath g.indirCount block) = 0 → g.IsZone z ∧ g.marked view z = false
  linked : ∀ q, IsPath g.indirCount q → zoneOf view data q = 0 → zoneOf view' data' q ≠ 0 →
    q <+: blockToPath g.indirCount block
  blocks : ∀ b < addressable g.indirCount, b ≠ block →
    zoneOf view' data' (blockToPath g.indirCount b) = zoneOf view data (blockToPath g.indirCount b)
  kept : ∀ q, IsPath g.indirCount q → zoneOf view data q ≠ 0 → zoneOf view' data' q = zoneOf view data q
  others : ∀ other, Tree g view other → Disjoint (arrays g.indirCount view other) (arrays g.indirCount view data) →
    ∀ q, IsPath g.indirCount q → zoneOf view' other q = zoneOf view other q

/-- The zone bitmap and all trees are as before. -/
structure Refuses (g : Geometry) (view : Nat → Bytes) (data : Nat → Nat) (view' : Nat → Bytes) (data' : Nat → Nat) :
    Prop where
  data : data' = data
  bits : g.usedBits view' = g.usedBits view
  trees : ∀ other, Tree g view other → ∀ q, IsPath g.indirCount q → zoneOf view' other q = zoneOf view other q

/-- Mapping a block is atomic. -/
def MapsAtomically (disk : Disk Errno) (ptr block : Nat) (view : Nat → Bytes) (w : World Fs) : Prop :=
  Returns disk (getBlock ptr block true) (fun r w' => ∃ view' data', Edits disk ptr w w' [] [] view' data' ∧
    match r with
    | .ok z => MapsBlock w.state.geometry block view (w.state.inodes ptr).data z view' data'
    | .error e => e = .enospc ∧ Refuses w.state.geometry view (w.state.inodes ptr).data view' data') w

/-- How many zones have to be taken to map a path. -/
def missing (view : Nat → Bytes) (data : Nat → Nat) (path : List Nat) : Nat :=
  (List.range path.length).countP fun n => zoneOf view data (path.take (n + 1)) = 0

variable {disk : Disk Errno} {ptr : Nat} {w : World Fs} {view view' : Nat → Bytes} {data data' : Nat → Nat}

theorem Chain.upper_nonzero {m : Nat} {d : Device} {chain : List Indirect} {pre upper lower : List Nat}
    (is : Chain m d view data chain pre) (isPath : IsPath m pre) (split : pre = upper ++ lower) (some : upper ≠ [])
    (more : lower ≠ []) : zoneOf view data upper ≠ 0 := by
  cases is with
  | root bound =>
    obtain _ | ⟨o', upper⟩ := upper
    · exact absurd rfl some
    · obtain ⟨-, rest⟩ := List.cons.inj split
      exact absurd (List.append_eq_nil_iff.mp rest.symm).2 more
  | @step p chain path h k above nonzero number inside =>
    intro free
    obtain ⟨lower, last, rfl⟩ := List.eq_nil_or_concat lower |>.resolve_left more
    rw [List.concat_eq_append, ← List.append_assoc] at split
    obtain ⟨rfl, -⟩ := List.append_inj' split rfl
    rw [above.key] at nonzero
    exact nonzero (zoneOf_upper (isPath.upper above.nonempty) some (List.prefix_append _ _) free)

/-- What is missing is what comes after the chain. -/
theorem missing_append {m : Nat} {d : Device} {chain : List Indirect} {pre rest : List Nat}
    (is : Chain m d view data chain pre) (isPath : IsPath m (pre ++ rest)) (free : zoneOf view data pre = 0) :
    missing view data (pre ++ rest) = rest.length + 1 := by
  have some := List.length_pos_iff.mpr is.nonempty
  have isPre := isPath.upper is.nonempty
  have length : (pre ++ rest).length = pre.length - 1 + (rest.length + 1) := by
    rw [List.length_append]
    omega
  have upper : ∀ n ∈ List.range (pre.length - 1), ¬ zoneOf view data ((pre ++ rest).take (n + 1)) = 0 := by
    intro n early
    rw [List.mem_range] at early
    rw [List.take_append_of_le_length (by omega)]
    refine is.upper_nonzero isPre (List.take_append_drop (n + 1) pre).symm (fun empty => ?_) fun empty => ?_
    · have length := congrArg List.length empty
      rw [List.length_take, List.length_nil] at length
      omega
    · have length := congrArg List.length empty
      rw [List.length_drop, List.length_nil] at length
      omega
  have lower : ∀ n ∈ List.range (rest.length + 1),
      zoneOf view data ((pre ++ rest).take (pre.length - 1 + n + 1)) = 0 := by
    intro n _
    have behind : pre <+: (pre ++ rest).take (pre.length - 1 + n + 1) :=
      List.prefix_take_iff.mpr ⟨List.prefix_append _ _, by omega⟩
    have isPart : IsPath m ((pre ++ rest).take (pre.length - 1 + n + 1) ++
        (pre ++ rest).drop (pre.length - 1 + n + 1)) := by rwa [List.take_append_drop]
    exact zoneOf_upper (isPart.upper fun empty => is.nonempty (List.prefix_nil.mp (empty ▸ behind))) is.nonempty behind free
  unfold missing
  rw [length, List.range_add, List.countP_append, List.countP_eq_zero.mpr (by simpa using upper), List.countP_map,
    List.countP_eq_length.mpr (by simpa using lower), List.length_range, Nat.zero_add]

theorem missing_eq_zero {m : Nat} {path : List Nat} (isPath : IsPath m path) (nonzero : zoneOf view data path ≠ 0) :
    missing view data path = 0 := by
  refine List.countP_eq_zero.mpr fun n early free => ?_
  have isPart : IsPath m (path.take (n + 1) ++ path.drop (n + 1)) := by rwa [List.take_append_drop]
  have some : path.take (n + 1) ≠ [] := by
    obtain _ | ⟨o, path⟩ := path
    · exact isPath.elim
    · simp
  exact nonzero (zoneOf_upper isPath some (List.take_prefix _ _) (by simpa using free))

/-- What `get_block` does with a path on a device that never fails. -/
theorem getBlockLoop_links {path : List Nat} (reliable : Reliable disk) (layout : w.state.geometry.Layout)
    (isPath : IsPath w.state.geometry.indirCount path) (full : level path = 0) (fuel : Nat)
    (live : (w.state.inodes ptr).deleted = false) (tree : Tree w.state.geometry view (w.state.inodes ptr).data)
    (stored : Stored disk w [] [] view) : Returns disk (getBlockLoop ptr path true (fuel + 1)) (fun r w' =>
      (zoneOf view (w.state.inodes ptr).data path ≠ 0 ∧ r = .ok (zoneOf view (w.state.inodes ptr).data path) ∧
        Works disk w w' [] [] view) ∨
      (zoneOf view (w.state.inodes ptr).data path = 0 ∧ ∃ view' data' taken, Edits disk ptr w w' [] [] view' data' ∧
        Grows disk w.state.geometry view (w.state.inodes ptr).data view' data' taken ∧
        Maps w.state.indirCount view (w.state.inodes ptr).data view' data' taken path r ∧
        Links w.state.geometry view (w.state.inodes ptr).data path (missing view (w.state.inodes ptr).data path)
          view' data' taken r)) w := by
  simp only [getBlockLoop, meets_bind]
  refine (getBranch_along live layout tree isPath stored).mono ?_
  rintro (chain | ⟨chain, rest⟩ | ⟨chain, rest, e⟩) ⟨s, d⟩ ⟨works, along⟩
  · obtain ⟨is, nonzero, -⟩ := along
    obtain _ | ⟨p, above⟩ := chain
    · cases is
    have held : Stored disk ⟨s, d⟩ (handles (p :: above) ++ []) [] view := by
      rw [List.append_nil]
      exact works.stored
    refine (finish_returns p above held).mono ?_
    rintro _ w2 ⟨rfl, works2⟩
    exact .inl ⟨nonzero, congrArg _ is.key, works.trans works2⟩
  · obtain rfl : s = w.state := works.state
    obtain ⟨pre, rfl, is, free, -⟩ := along
    obtain _ | ⟨p, above⟩ := chain
    · cases is
    simp only [if_true]
    refine (allocate_links (w := ⟨w.state, d⟩) layout (.inl reliable) live tree is isPath full works.stored
      (is.key.trans free)).mono ?_
    rintro r w2 ⟨view2, data2, taken2, edits, grows, maps, links⟩
    refine .inr ⟨zoneOf_upper isPath is.nonempty (List.prefix_append _ _) free, view2, data2, taken2,
      works.edits.trans edits, grows, maps, ?_⟩
    rw [missing_append is isPath free]
    exact links
  · obtain ⟨pre, -, -, -, -, -, failure⟩ := along
    rw [answer, reliable] at failure
    cases failure

/-- The bits of the bitmap are those that the held blocks show. -/
theorem usedBits_unique {w' : World Fs} {kept pinned kept' pinned' : List Nat} (stored : Stored disk w' kept pinned view)
    (stored' : Stored disk w' kept' pinned' view') :
    w'.state.geometry.usedBits view' = w'.state.geometry.usedBits view := by
  refine Geometry.usedBits_congr fun n inMap => ?_
  obtain ⟨i, rfl⟩ := Nat.exists_eq_add_of_le inMap.1
  have bound : i < w'.state.super.zmapBlocks := by
    have below := inMap.2
    simp only [Geometry.inodeStart, Geometry.super_geometry] at below
    omega
  exact Option.some.inj ((stored'.load_zmap bound).symm.trans (stored.load_zmap bound))

theorem Tree.mapsBlock {g : Geometry} {block z : Nat} {taken : Multiset Nat} {n : Nat} (layout : g.Layout)
    (grows : Grows disk g view data view' data' taken)
    (maps : Maps g.indirCount view data view' data' taken (blockToPath g.indirCount block) (.ok z))
    (links : Links g view data (blockToPath g.indirCount block) n view' data' taken (.ok z))
    (free : zoneOf view data (blockToPath g.indirCount block) = 0) : MapsBlock g block view data z view' data' := by
  obtain ⟨new, serves, only⟩ := links
  obtain ⟨nonzero, here, others⟩ := maps
  refine ⟨here, absurd free, fun _ => grows.fresh z new, only, fun b inside apart => ?_, grows.mapped,
    fun other tree disjoint q isPath => ?_⟩
  · obtain ⟨isPath, full⟩ := blockToPath_isPath layout.entries.2 inside
    refine others _ isPath full fun same => ?_
    rcases Nat.lt_or_gt_of_ne apart with less | more
    · exact not_precedes_self _ (same ▸ blockToPath_precedes less)
    · exact not_precedes_self _ (same ▸ blockToPath_precedes more)
  · exact zoneOf_congr_arrays isPath fun n member =>
      grows.rest n (tree.firm_arrays layout member) (Multiset.disjoint_left.mp disjoint member)

theorem mapsBlock_refl {g : Geometry} {block : Nat}
    (nonzero : zoneOf view data (blockToPath g.indirCount block) ≠ 0) :
    MapsBlock g block view data (zoneOf view data (blockToPath g.indirCount block)) view data :=
  ⟨rfl, fun _ => rfl, fun free => absurd free nonzero, fun _ _ before after => absurd before after, fun _ _ _ => rfl,
    fun _ _ _ => rfl, fun _ _ _ _ _ => rfl⟩

/-- Mapping a block is atomic exactly if no clear bit that stands for no zone comes among the first that it needs. -/
theorem mapsAtomically_iff {block : Nat} (reliable : Reliable disk) (layout : w.state.geometry.Layout)
    (live : (w.state.inodes ptr).deleted = false) (addressed : block < addressable w.state.geometry.indirCount)
    (tree : Tree w.state.geometry view (w.state.inodes ptr).data) (stored : Stored disk w [] [] view) :
    MapsAtomically disk ptr block view w ↔ w.state.geometry.Serves view
      (missing view (w.state.inodes ptr).data (blockToPath w.state.geometry.indirCount block)) := by
  obtain ⟨isPath, full⟩ := blockToPath_isPath layout.entries.2 addressed
  obtain ⟨r, w', ran, done⟩ := (getBlockLoop_links reliable layout isPath full
    (w.state.super.zmapBlocks * w.state.bitsPerBlock + 1) live tree stored).run
  rw [← offsets_eq layout.entries.2 layout.small.le addressed] at ran
  refine (meets_bind.trans (meets_get.trans (meets_of_run ran))).trans ?_
  obtain ⟨nonzero, rfl, works⟩ | ⟨free, view₁, data₁, taken, edits, grows, maps, links⟩ := done
  · refine iff_of_true ⟨view, _, works.edits, mapsBlock_refl nonzero⟩ ?_
    rw [missing_eq_zero isPath nonzero]
    exact fun _ _ _ _ => Nat.zero_le _
  · cases links with
    | linked new serves only =>
      exact iff_of_true ⟨view₁, data₁, edits, Tree.mapsBlock layout grows maps (.linked new serves only) free⟩ serves
    | refused same spares undone =>
      rw [← undone]
      constructor
      · rintro ⟨view₂, data₂, edits₂, -, refuses⟩
        have unique := usedBits_unique edits₂.stored edits.stored
        rw [edits.geometry] at unique
        exact unique.trans refuses.bits
      · intro bits
        exact ⟨view₁, data₁, edits, rfl, same, bits, fun other tree q isPath => tree.zoneOf_spares layout spares isPath⟩

section Images

open SmallImage

/-- All zones are taken, and the bit behind the last one is clear. -/
def fullMap : Bytes := fun i => if i = 1 then 127 else 255

/-- The root directory has one block. -/
def rootOn (zmap : Bytes) : Nat → Bytes := image (imap 7) zmap (record 1 dirMode 2 192 6 zeroes) rootEntries

/-- The tree of the root directory after the mount. -/
structure RootMounted (zmap : Bytes) (w : World Fs) : Prop where
  geometry : w.state.geometry = ⟨super, 10⟩
  live : (w.state.inodes w.state.rootInode).deleted = false
  tree : Tree w.state.geometry (mountedView super (rootOn zmap)) (w.state.inodes w.state.rootInode).data
  stored : Stored ⟨true, VFS.neverFails⟩ w [] [] (mountedView super (rootOn zmap))
  data : (w.state.inodes w.state.rootInode).data = (loadedInode (mountedView super (rootOn zmap)) ⟨super, 10⟩ rootIno).data

theorem RootMounted.layout {zmap : Bytes} (is : RootMounted zmap w) : w.state.geometry.Layout := by
  rw [is.geometry]
  exact ⟨by decide, by decide, by decide⟩

theorem root_mounted {zmap : Bytes} (mounted : (mount 10 .all).run ⟨true, VFS.neverFails⟩ (.initial (rootOn zmap)) = .ok (.ok (), w))
    (whole : zones 256 (mountedView super (rootOn zmap)) (loadedInode (mountedView super (rootOn zmap)) ⟨super, 10⟩ rootIno).data = {6})
    (marked : Geometry.marked ⟨super, 10⟩ (mountedView super (rootOn zmap)) 6 = true) : RootMounted zmap w := by
  have is := Meets.of_run (mount_mounts 10 .all (fun _ _ => rfl) rfl (Device.holds_new _ _) (Nat.le_refl 10)
    readSuper_small (Nat.succ_ne_zero 15)) mounted rfl
  have geometry : w.state.geometry = ⟨super, 10⟩ := by
    rw [Fs.geometry, is.super, is.blocksizeBits]
  have root := is.root
  rw [geometry] at root
  have whole : zones (Geometry.indirCount ⟨super, 10⟩) (mountedView super (rootOn zmap))
    (loadedInode (mountedView super (rootOn zmap)) ⟨super, 10⟩ rootIno).data = {6} := whole
  refine ⟨geometry, ?_, ?_, is.stored, congrArg Inode.data root⟩
  · rw [root]
    rfl
  · rw [geometry, root]
    refine ⟨by rw [whole]; decide, fun z member => ?_, fun z member => ?_⟩ <;> rw [whole] at member <;>
      obtain rfl := Multiset.mem_singleton.mp member
    · exact ⟨by decide, by decide, by decide⟩
    · exact marked

/-- The bits that are clear are among the first 16, and stand for zones. -/
theorem free_bits_valid : ∀ k < 8192,
    BlockBitmap.bitAt (mountedView super (rootOn (zmap 3))) 3 8192 k = true ∨ Geometry.zoneOfBit ⟨super, 10⟩ k ≠ 0 := by
  have words : ∀ i < 512, i = 0 ∨ (mountedView super (rootOn (zmap 3)) 3).u16 (2 * i) = 65535 := by
    decide +kernel
  have first : ∀ k < 16,
      (mountedView super (rootOn (zmap 3)) 3).bit k = true ∨ Geometry.zoneOfBit ⟨super, 10⟩ k ≠ 0 := by
    decide +kernel
  intro k inside
  unfold BlockBitmap.bitAt
  rw [Nat.div_eq_of_lt inside, Nat.mod_eq_of_lt inside]
  rcases words (k / 16) (by omega) with zero | full
  · exact first k (by omega)
  · left
    have ones : ∀ j < 16, Nat.testBit 65535 j = true := by decide
    unfold Bytes.bit
    rw [full]
    exact ones _ (Nat.mod_lt k (by omega))

theorem mapsAtomically_small : ∃ w : World Fs,
    MapsAtomically ⟨true, VFS.neverFails⟩ w.state.rootInode 1 (mountedView super (rootOn (zmap 3))) w := by
  obtain ⟨r, w, mounted, returned⟩ := ran_of_any ⟨true, VFS.neverFails⟩ (mount 10 .all) (.initial (rootOn (zmap 3)))
    (fun r _ => r.toOption.isSome) (by decide +kernel)
  obtain rfl : r = .ok () := by
    cases r with
    | error e => cases returned
    | ok _ => rfl
  have is := root_mounted mounted (by decide +kernel) (by decide +kernel)
  refine ⟨w, (mapsAtomically_iff (fun _ _ => rfl) is.layout is.live (by rw [is.geometry]; decide) is.tree is.stored).mpr ?_⟩
  rw [is.geometry]
  intro k inside free other
  exact absurd (free_bits_valid k inside) (not_or.mpr ⟨fun set => free ⟨inside, set⟩, other⟩)

/-- A block of the root directory is not mapped, and a bit of the zone bitmap stays set. -/
theorem getBlock_sets_padding : ∃ w : World Fs, RootMounted fullMap w ∧
    (∃ w', (getBlock w.state.rootInode 1 true).run ⟨true, VFS.neverFails⟩ w = .ok (.error .enospc, w')) ∧
    ¬ MapsAtomically ⟨true, VFS.neverFails⟩ w.state.rootInode 1 (mountedView super (rootOn fullMap)) w := by
  obtain ⟨r, w, mounted, checked⟩ := ran_of_any ⟨true, VFS.neverFails⟩ (mount 10 .all) (.initial (rootOn fullMap))
    (fun r w => r.toOption.isSome && ((getBlock w.state.rootInode 1 true).run ⟨true, VFS.neverFails⟩ w).toOption.any fun r' =>
      r'.1 == .error .enospc && (r'.2.device.load ⟨true, VFS.neverFails⟩ (r'.2.state.zmap 0)).any fun bytes => bytes.bit 15)
    (by decide +kernel)
  obtain ⟨returned, called⟩ := Bool.and_eq_true_iff.mp checked
  obtain rfl : r = .ok () := by
    cases r with
    | error e => cases returned
    | ok _ => rfl
  obtain ⟨r, w', ran, checked⟩ := ran_of_any _ _ _ (fun (r : Except Errno Nat) (w' : World Fs) => r == .error .enospc &&
    (w'.device.load ⟨true, VFS.neverFails⟩ (w'.state.zmap 0)).any fun bytes => bytes.bit 15) called
  obtain ⟨failed, set⟩ := Bool.and_eq_true_iff.mp checked
  obtain rfl := beq_iff_eq.mp failed
  have is := root_mounted mounted (by decide +kernel) (by decide +kernel)
  refine ⟨w, is, ⟨w', ran⟩, fun atomic => ?_⟩
  obtain ⟨view', data', edits, -, refuses⟩ := Meets.of_run atomic ran
  have geometry := edits.geometry.trans is.geometry
  have blocks : w'.state.super.zmapBlocks = 1 := congrArg (fun g : Geometry => g.super.zmapBlocks) geometry
  have loads := edits.stored.load_zmap (i := 0) (by rw [blocks]; decide)
  rw [loads, Option.any_some] at set
  have super : w'.state.super.imapBlocks = 1 := congrArg (fun g : Geometry => g.super.imapBlocks) geometry
  rw [super] at set
  have bits := refuses.bits
  rw [is.geometry] at bits
  have after : 15 ∈ Geometry.usedBits ⟨SmallImage.super, 10⟩ view' := ⟨by decide, set⟩
  rw [bits] at after
  have clear : (mountedView SmallImage.super (rootOn fullMap) 3).bit 15 = false := by
    decide +kernel
  exact Bool.false_ne_true (clear.symm.trans after.2)

end Images

end MPStuBS.Minix
