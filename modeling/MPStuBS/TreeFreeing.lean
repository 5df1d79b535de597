import MPStuBS.TreePruning

/-! Freeing the whole block tree of an inode, as `truncate` does it for the length zero. -/
namespace MPStuBS.Minix

open Prog FsM Device HeapTree

variable {disk : Disk Errno} {allowed : FsFault → Prop} {ptr : Nat} {g : Geometry}
  {kept pinned : List Nat}

section Cutting

variable {view view₁ view₂ : Nat → Bytes} {data data₁ : Nat → Nat} {path : List Nat}

theorem Tree.array (tree : Tree g view data) {n : Nat} (member : n ∈ arrays g.indirCount view data) :
    g.IsZone n :=
  tree.zone n (Multiset.mem_of_le arrays_le_zones member)

theorem Tree.arrays_nodup (tree : Tree g view data) : (arrays g.indirCount view data).Nodup :=
  Multiset.nodup_of_le arrays_le_zones tree.nodup

/-- Clearing an entry leaves the zone bitmap. -/
theorem Cuts.frees (layout : g.Layout) (tree : Tree g view data)
    (cuts : Cuts g view data view₁ data₁ path) : g.Frees view view₁ 0 := by
  refine ⟨fun z zone => ?_⟩
  rw [Geometry.marked_congr zone fun n inMap =>
    cuts.rest n fun member => (tree.array member).offMap layout inMap]
  simp

/-- An entry is cleared and what was below it is freed. -/
theorem Cuts.prunes (layout : g.Layout) (tree : Tree g view data)
    (cuts : Cuts g view data view₁ data₁ path) {freed : Multiset Nat}
    (part : Part disk freed (nodes g.indirCount (entry view) (level path) (zoneOf view data path)))
    (frees : g.Frees view₁ view₂ freed)
    (touches : g.Touches view₁ view₂
      (HeapTree.inner g.indirCount (entry view) (level path) (zoneOf view data path))) :
    Prunes disk g view data view₂ data₁
      (nodes g.indirCount (entry view) (level path) (zoneOf view data path)) freed (path <+: ·) := by
  have whole := tree.arrays_nodup
  rw [← cuts.inner] at whole
  have member : ∀ {n}, n ∈ arrays g.indirCount view₁ data₁ → n ∈ arrays g.indirCount view data :=
    fun inTree => cuts.inner ▸ Multiset.mem_add.mpr (.inl inTree)
  have same : ∀ n ∈ arrays g.indirCount view₁ data₁, view₂ n = view₁ n := fun n inTree =>
    touches.rest n ((tree.array (member inTree)).offMap layout)
      (Multiset.disjoint_left.mp (Multiset.nodup_add.mp whole).2.2 inTree)
  have marks := (cuts.frees layout tree).trans frees
  rw [zero_add] at marks
  refine ⟨?_, part, marks, fun n offMap absent => ?_, fun n inTree => ?_, fun q isPath other => ?_,
    fun q isPath below => ?_⟩
  · rw [zones, gather_congr same]
    exact cuts.total
  · rw [touches.rest n offMap fun inBranch => absent (cuts.inner ▸ Multiset.mem_add.mpr (.inr inBranch)),
      cuts.rest n absent]
  · rw [arrays, gather_congr same] at inTree
    exact member inTree
  · rw [zoneOf_congr_arrays isPath same, cuts.kept q isPath other]
  · rw [zoneOf_congr_arrays isPath same, cuts.gone q isPath below]

end Cutting

/-- The tree of the inode has been pruned of these paths with as many releases, and nothing else
was changed. -/
def Pruned (disk : Disk Errno) (g : Geometry) (ptr : Nat) (kept pinned : List Nat) (view : Nat → Bytes)
    (w : World Fs) (cut : List Nat → Prop) (n : Nat) (w' : World Fs) : Prop :=
  ∃ view' data' lost freed, n = freed.card ∧ Edits disk ptr w w' kept pinned view' data' ∧
    Prunes disk g view (w.state.inodes ptr).data view' data' lost freed cut

/-- The blocks of the tree that are held are on the way along the spine. -/
def OnSpine (g : Geometry) (view : Nat → Bytes) (data : Nat → Nat) (numbers spine : List Nat) : Prop :=
  ∀ n ∈ arrays g.indirCount view data, n ∈ numbers →
    ∃ pre, pre <+: spine ∧ IsPath g.indirCount pre ∧ 0 < level pre ∧ zoneOf view data pre = n

/-- A mounted inode with its tree, of which only blocks along the spine are held. -/
structure Prunable (disk : Disk Errno) (g : Geometry) (ptr : Nat) (kept pinned spine : List Nat)
    (view : Nat → Bytes) (w : World Fs) : Prop where
  geometry : w.state.geometry = g
  live : (w.state.inodes ptr).deleted = false
  stored : Stored disk w kept pinned view
  tree : Tree g view (w.state.inodes ptr).data
  held : OnSpine g view (w.state.inodes ptr).data ((kept ++ pinned).map w.device.number) spine

theorem exists_range_succ {P : Nat → Prop} {offset count : Nat} :
    (∃ k, offset ≤ k ∧ k < offset + (count + 1) ∧ P k) ↔
      (P offset ∨ ∃ k, offset + 1 ≤ k ∧ k < offset + 1 + count ∧ P k) := by
  constructor
  · rintro ⟨k, low, high, holds⟩
    rcases Nat.eq_or_lt_of_le low with rfl | above
    · exact .inl holds
    · exact .inr ⟨k, above, by omega, holds⟩
  · rintro (holds | ⟨k, low, high, holds⟩)
    · exact ⟨offset, Nat.le_refl _, by omega, holds⟩
    · exact ⟨k, by omega, by omega, holds⟩

section Steps

variable {view view' : Nat → Bytes} {w w' : World Fs} {cut cut' : List Nat → Prop} {spine : List Nat} {n : Nat}

theorem Pruned.refl (stored : Stored disk w kept pinned view) :
    Pruned disk g ptr kept pinned view w (fun _ => False) 0 w :=
  ⟨view, _, 0, 0, rfl, .refl stored, .refl _ _ _ _⟩

theorem Prunable.after (prunable : Prunable disk g ptr kept pinned spine view w) {data' : Nat → Nat}
    {lost freed : Multiset Nat} (edits : Edits disk ptr w w' kept pinned view' data')
    (prunes : Prunes disk g view (w.state.inodes ptr).data view' data' lost freed cut)
    (clear : ∀ pre, pre <+: spine → ¬ cut pre) : Prunable disk g ptr kept pinned spine view' w' := by
  refine ⟨edits.geometry.trans prunable.geometry, edits.deleted.trans prunable.live, edits.stored, ?_,
    fun n member inHeld => ?_⟩
  · rw [edits.data]
    exact prunes.tree prunable.tree
  · rw [edits.data] at member ⊢
    rw [edits.numbers prunable.stored] at inHeld
    obtain ⟨pre, onSpine, isPath, deep, eq⟩ := prunable.held n (prunes.inner n member) inHeld
    exact ⟨pre, onSpine, isPath, deep, (prunes.kept pre isPath (clear pre onSpine)).trans eq⟩

/-- More paths are pruned by what comes next. -/
theorem Edits.prunes_then {data' : Nat → Nat} {lost freed : Multiset Nat}
    (edits : Edits disk ptr w w' kept pinned view' data')
    (prunes : Prunes disk g view (w.state.inodes ptr).data view' data' lost freed cut) {p : FsM Unit} {kept' pinned' : List Nat}
    (next : Spends (releases w'.state.zoneMaps) disk allowed p
      (fun _ m w'' => Pruned disk g ptr kept' pinned' view' w' cut' m w'') w') :
    Spends (releases w.state.zoneMaps) disk allowed p
      (fun _ m w'' => Pruned disk g ptr kept' pinned' view w (fun q => cut q ∨ cut' q) (freed.card + m) w'') w' := by
  rw [← edits.zoneMaps]
  refine next.mono ?_
  rintro _ m w'' ⟨view'', data'', lost', freed', rfl, edits', prunes'⟩
  rw [edits.data] at prunes'
  exact ⟨view'', data'', _, _, (Multiset.card_add _ _).symm, edits.trans edits', prunes.trans prunes'⟩

theorem Pruned.congr (pruned : Pruned disk g ptr kept pinned view w cut n w')
    (same : ∀ q, IsPath g.indirCount q → (cut' q ↔ cut q)) : Pruned disk g ptr kept pinned view w cut' n w' := by
  obtain ⟨view', data', lost, freed, count, edits, prunes⟩ := pruned
  exact ⟨view', data', lost, freed, count, edits, prunes.congr same⟩

/-- Nothing that is below an entry off the spine is held. -/
theorem OnSpine.detached {view₁ : Nat → Bytes} {data data₁ : Nat → Nat} {numbers path : List Nat} (tree : Tree g view data)
    (on : OnSpine g view data numbers spine) (off : ¬ path <+: spine) (cuts : Cuts g view data view₁ data₁ path) :
    Detached g view numbers (nodes g.indirCount (entry view) (level path) (zoneOf view data path))
      (inner g.indirCount (entry view) (level path) (zoneOf view data path)) := by
  have part : nodes g.indirCount (entry view) (level path) (zoneOf view data path) ≤ zones g.indirCount view data :=
    cuts.total ▸ Multiset.le_add_left _ _
  refine ⟨Multiset.nodup_of_le part tree.nodup, fun z member => tree.zone z (Multiset.mem_of_le part member),
    fun n member inHeld => ?_⟩
  have inTree : n ∈ arrays g.indirCount view data := cuts.inner ▸ Multiset.mem_add.mpr (.inr member)
  obtain ⟨pre, onSpine, isPath, deep, eq⟩ := on n inTree inHeld
  have aside : zoneOf view₁ data₁ pre = n := (cuts.kept pre isPath fun below => off (below.trans onSpine)).trans eq
  have nonzero : n ≠ 0 := by
    rintro rfl
    exact zero_notMem_nodes (Multiset.mem_of_le inner_le_nodes member)
  have other : n ∈ arrays g.indirCount view₁ data₁ := aside ▸ zoneOf_mem_arrays isPath deep (aside ▸ nonzero)
  have whole := tree.arrays_nodup
  rw [← cuts.inner] at whole
  exact Multiset.disjoint_left.mp (Multiset.nodup_add.mp whole).2.2 other member

variable (layout : g.Layout)
include layout

/-- What is below an entry that has been cleared is freed, with the inode marked before it or not. -/
theorem freeBranch_prunes (geometry : w.state.geometry = g) (live : (w.state.inodes ptr).deleted = false)
    (tree : Tree g view (w.state.inodes ptr).data) {path : List Nat} (isPath : IsPath g.indirCount path)
    (off : ¬ path <+: spine) (nonzero : zoneOf view (w.state.inodes ptr).data path ≠ 0) {view₁ : Nat → Bytes}
    {data₁ : Nat → Nat} (edits : Edits disk ptr w w' kept pinned view₁ data₁)
    (written : Written view (w.state.inodes ptr).data path 0 view₁ data₁)
    (on : OnSpine g view (w.state.inodes ptr).data ((kept ++ pinned).map w'.device.number) spine) :
    Spends (releases w.state.zoneMaps) disk allowed
      (freeBranch ptr (level path) (zoneOf view (w.state.inodes ptr).data path))
      (fun _ n w'' => Pruned disk g ptr kept pinned view w (path <+: ·) n w'') w' := by
  have cuts := written_cuts tree isPath written
  have detached := on.detached tree off cuts
  rw [nodes, HeapTree.inner, ← cuts.below, ← cuts.below] at detached
  refine (freeBranch_frees layout (level path) (edits.geometry.trans geometry) edits.zoneMaps
    (edits.deleted.trans live) edits.stored nonzero ⟨detached.nodup, detached.zone, detached.free⟩).mono ?_
  rintro _ n w'' ⟨freed, view₂, count, part, sheds⟩
  have touches := sheds.touches
  rw [nodes, cuts.below] at part
  rw [HeapTree.inner, cuts.below] at touches
  have edits₂ := edits.trans sheds.edits
  rw [edits.data] at edits₂
  exact ⟨view₂, data₁, _, freed, count, edits₂, cuts.prunes layout tree part sheds.frees touches⟩

/-- An entry that is not zero is cleared, and what is below it is freed. -/
theorem clearEntry_prunes (prunable : Prunable disk g ptr kept pinned spine view w) {area : Area} {pre : List Nat} {k : Nat}
    (leads : area.Leads w.device pinned view (w.state.inodes ptr).data pre) (isPath : IsPath g.indirCount (pre ++ [k]))
    (off : ¬ pre ++ [k] <+: spine) (nonzero : zoneOf view (w.state.inodes ptr).data (pre ++ [k]) ≠ 0) {p : FsM Unit}
    {post : Unit → Nat → World Fs → Prop} (next : ∀ n w', Pruned disk g ptr kept pinned view w (pre ++ [k] <+: ·) n w' →
      Spends (releases w.state.zoneMaps) disk allowed p (fun _ m w'' => post () (n + m) w'') w') :
    Spends (releases w.state.zoneMaps) disk allowed (do
      writeEntry ptr area k 0
      freeBranch ptr (level (pre ++ [k])) (zoneOf view (w.state.inodes ptr).data (pre ++ [k]))
      p) post w := by
  refine spends_first (free_writeEntry _ (leads.off prunable.stored) _ _) ?_
  have here := prunable.geometry
  subst here
  refine (writeEntry_leads prunable.live prunable.stored leads isPath (by omega)).mono ?_
  rintro _ w₁ ⟨view₁, data₁, edits, written⟩
  exact spends_bind.mpr ((freeBranch_prunes layout rfl prunable.live prunable.tree isPath off nonzero edits
    written (edits.numbers prunable.stored ▸ prunable.held)).mono fun _ n w' pruned => next n w' pruned)

omit layout in
/-- The entries of an area stay where they are while others below them are pruned. -/
theorem Area.Leads.after {area : Area} {pre : List Nat} {k : Nat}
    (leads : area.Leads w.device pinned view (w.state.inodes ptr).data pre) (isPath : IsPath g.indirCount (pre ++ [k]))
    (stored : Stored disk w kept pinned view) {data' : Nat → Nat} {lost freed : Multiset Nat}
    (edits : Edits disk ptr w w' kept pinned view' data')
    (prunes : Prunes disk g view (w.state.inodes ptr).data view' data' lost freed cut) (clear : ¬ cut pre) :
    area.Leads w'.device pinned view' (w'.state.inodes ptr).data pre := by
  cases leads with
  | inode => exact .inode
  | block member nonempty number nonzero =>
    have same := prunes.kept pre (isPath.upper nonempty) clear
    rw [edits.data]
    refine .block member nonempty ?_ (same ▸ nonzero)
    rw [same, edits.follows.number _ (stored.early (by simp [member])), number]

/-- The entries of a range are cleared, and what is below them is freed. -/
theorem clearEntries_prunes {area : Area} {pre : List Nat} {depth : Nat} (count : Nat) : ∀ {offset : Nat} {w : World Fs}
    {view : Nat → Bytes}, Prunable disk g ptr kept pinned spine view w →
    area.Leads w.device pinned view (w.state.inodes ptr).data pre →
    (∀ k, offset ≤ k → k < offset + count → IsPath g.indirCount (pre ++ [k]) ∧ level (pre ++ [k]) = depth ∧
      ¬ pre ++ [k] <+: spine) →
    Spends (releases w.state.zoneMaps) disk allowed (clearEntries ptr area (freeBranch ptr depth) count offset)
      (fun _ n w' => Pruned disk g ptr kept pinned view w
        (fun q => ∃ k, offset ≤ k ∧ k < offset + count ∧ pre ++ [k] <+: q) n w') w := by
  induction count with
  | zero =>
    intro offset w view prunable _ _
    refine spends_pure.mpr ((Pruned.refl prunable.stored).congr fun q _ => ?_)
    simp only [iff_false, not_exists]
    omega
  | succ count ih =>
    intro offset w view prunable leads inside
    obtain ⟨isPath, level, off⟩ := inside offset (Nat.le_refl _) (by omega)
    have rest : ∀ n w₁, Pruned disk g ptr kept pinned view w (pre ++ [offset] <+: ·) n w₁ →
        Spends (releases w.state.zoneMaps) disk allowed (clearEntries ptr area (freeBranch ptr depth) count (offset + 1))
          (fun _ m w' => Pruned disk g ptr kept pinned view w
            (fun q => ∃ k, offset ≤ k ∧ k < offset + (count + 1) ∧ pre ++ [k] <+: q) (n + m) w') w₁ := by
      rintro n w₁ ⟨view₁, data₁, lost, freed, rfl, edits, prunes⟩
      have clear : ∀ pre', pre' <+: spine → ¬ pre ++ [offset] <+: pre' := fun pre' onSpine below =>
        off (below.trans onSpine)
      have leads₁ := leads.after isPath prunable.stored edits prunes fun below => by simpa using below.length_le
      refine (edits.prunes_then prunes (ih (prunable.after edits prunes clear) leads₁ fun k low high =>
        inside k (by omega) (by omega))).mono fun _ _ _ pruned => pruned.congr fun q _ =>
          exists_range_succ (P := (pre ++ [·] <+: q))
    simp only [clearEntries]
    have here := prunable.geometry
    subst here
    refine spends_first (free_readEntry _ _ _) ((readEntry_leads prunable.live prunable.stored leads isPath).mpr ?_)
    split
    · rename_i zero
      have nothing := rest 0 w ⟨view, _, 0, 0, rfl, .refl prunable.stored, prunes_nothing (by simp) zero⟩
      simpa only [Nat.zero_add] using nothing
    · rename_i nonzero
      rw [← level]
      exact clearEntry_prunes layout prunable leads isPath off nonzero fun n w₁ pruned =>
        level ▸ rest n w₁ pruned

/-- The entries of the inode from the first indirect one on. -/
theorem clearWhole_prunes (count : Nat) : ∀ {whole : Nat} {w : World Fs} {view : Nat → Bytes}, whole + count ≤ 3 →
    Prunable disk g ptr kept pinned spine view w → (∀ k, 7 + whole ≤ k → ¬ [k] <+: spine) →
    Spends (releases w.state.zoneMaps) disk allowed (clearWhole ptr count whole) (fun _ n w' =>
      Pruned disk g ptr kept pinned view w (fun q => ∃ k, 7 + whole ≤ k ∧ k < 7 + whole + count ∧ [k] <+: q) n w') w := by
  induction count with
  | zero =>
    intro whole w view _ prunable _
    refine spends_pure.mpr ((Pruned.refl prunable.stored).congr fun q _ => ?_)
    simp only [iff_false, not_exists]
    omega
  | succ count ih =>
    intro whole w view bound prunable inside
    have off := inside (7 + whole) (Nat.le_refl _)
    have isPath : IsPath g.indirCount [7 + whole] := ⟨by omega, by simp, by simp⟩
    have rest : ∀ n w₁, Pruned disk g ptr kept pinned view w ([7 + whole] <+: ·) n w₁ →
        Spends (releases w.state.zoneMaps) disk allowed (clearWhole ptr count (whole + 1))
          (fun _ m w' => Pruned disk g ptr kept pinned view w
            (fun q => ∃ k, 7 + whole ≤ k ∧ k < 7 + whole + (count + 1) ∧ [k] <+: q) (n + m) w') w₁ := by
      rintro n w₁ ⟨view₁, data₁, lost, freed, rfl, edits, prunes⟩
      have clear : ∀ pre', pre' <+: spine → ¬ [7 + whole] <+: pre' := fun pre' onSpine below =>
        off (below.trans onSpine)
      refine (edits.prunes_then prunes (ih (by omega) (prunable.after edits prunes clear) fun k low =>
        inside k (by omega))).mono fun _ _ _ pruned => pruned.congr fun q _ => exists_range_succ (P := ([·] <+: q))
    simp only [clearWhole]
    refine spends_first (free_readEntry _ _ _) ((readEntry_inode prunable.live (by omega)).mpr ?_)
    split
    swap
    · rename_i zero
      have nothing := rest 0 w ⟨view, _, 0, 0, rfl, .refl prunable.stored, prunes_nothing (by simp) (not_not.mp zero)⟩
      simpa only [Nat.zero_add] using nothing
    rename_i nonzero
    have level : level [7 + whole] = whole + 1 := by
      rw [level_cons, List.length_nil]
      omega
    refine spends_first (free_writeEntry _ (show Area.Off w.state.zoneMaps .inode from trivial) _ _) ?_
    have here := prunable.geometry
    subst here
    refine (writeEntry_leads prunable.live prunable.stored .inode isPath (by omega)).mono ?_
    rintro _ w₁ ⟨view₁, data₁, edits, written⟩
    refine spends_first free_setInode ((meets_setInode (edits.deleted.trans prunable.live)).mpr ?_)
    have freed : Spends _ disk allowed _ _ _ :=
      freeBranch_prunes layout rfl prunable.live prunable.tree isPath off nonzero edits.setDirty written
        (edits.numbers prunable.stored ▸ prunable.held)
    rw [level] at freed
    exact spends_bind.mpr (freed.mono fun _ n w' pruned => rest n w' pruned)

end Steps

/-- Nothing is left of a tree of which every path has been cut. -/
theorem Prunes.all {view view' : Nat → Bytes} {data data' : Nat → Nat} {lost freed : Multiset Nat}
    {cut : List Nat → Prop} (prunes : Prunes disk g view data view' data' lost freed cut)
    (whole : ∀ o < 10, cut [o]) : lost = zones g.indirCount view data ∧ ∀ o < 10, data' o = 0 := by
  have empty : ∀ o < 10, data' o = 0 := fun o bound =>
    prunes.gone [o] ⟨bound, by simp, by simp⟩ (whole o bound)
  have none : zones g.indirCount view' data' = 0 :=
    Finset.sum_eq_zero fun o inRange => by rw [empty o (Finset.mem_range.mp inRange), collect_zero]
  have total := prunes.total
  rw [none, zero_add] at total
  exact ⟨total, empty⟩

end MPStuBS.Minix
