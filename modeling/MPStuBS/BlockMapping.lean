import MPStuBS.ZoneAllocation

/-! `get_block` with allocation, on a device of which any `fix` may fail. -/
namespace MPStuBS.Minix

open Prog FsM Device HeapTree

variable {disk : Disk Errno} {allowed : FsFault → Prop} {ptr : Nat} {w : World Fs}
  {view : Nat → Bytes}

section Splicing

variable {p : Indirect} {above more : List Indirect} {pre : List Nat} {parent : Nat}

/-- The chain is still what it was read as. -/
theorem spliceBranch_checked {post : Bool → World Fs → Prop}
    (live : (w.state.inodes ptr).deleted = false)
    (stored : Stored disk w (handles more ++ handles (p :: above)) [] view)
    (chain : Chain w.state.indirCount w.device view (w.state.inodes ptr).data (p :: above) pre) :
    Meets disk allowed (spliceBranch ptr above { p with key := parent } more) post w ↔
      Meets disk allowed (if p.key = 0 then do
          writeEntry ptr p.area p.offset parent
          Indirect.markDirty { p with key := parent }
          setInode ptr .setDirty
          Pure.pure true
        else do
          forgetAll more
          Pure.pure false) post w := by
  have read : ∀ {post : Nat → World Fs → Prop},
      Meets disk allowed (readEntry ptr p.area p.offset) post w ↔ post p.key w :=
    chain.read live stored fun h member => by simp [member]
  have verified : ∀ {post : Bool → World Fs → Prop},
      Meets disk allowed (verifyChain ptr above) post w ↔ post true w := by
    intro post
    cases chain with
    | root bound => exact Iff.rfl
    | step chainAbove nonzero number inside =>
      exact verifyChain_holds chainAbove live stored fun h member => by
        rw [List.append_nil]
        exact List.mem_append_right _ (by simp [member])
  simp only [spliceBranch, meets_bind]
  rw [verified, meets_bind, read]
  simp only [true_and]

/-- The new branch is hung into a place that is free. -/
theorem spliceBranch_hangs (live : (w.state.inodes ptr).deleted = false)
    (stored : Stored disk w (handles more ++ handles (p :: above)) [] view)
    (chain : Chain w.state.indirCount w.device view (w.state.inodes ptr).data (p :: above) pre)
    (isPath : IsPath w.state.indirCount pre) (zero : p.key = 0) (small : parent < 4294967296) :
    Meets disk allowed (spliceBranch ptr above { p with key := parent } more) (fun ok w' => ok = true ∧
      ∃ view' data', Edits disk ptr w w' (handles more ++ handles (p :: above)) [] view' data' ∧
      Written view (w.state.inodes ptr).data pre parent view' data') w := by
  rw [spliceBranch_checked live stored chain, if_pos zero]
  simp only [meets_bind]
  cases chain with
  | @root o bound =>
    have isRoot : IsPath w.state.indirCount ([] ++ [o]) := isPath
    refine (writeEntry_leads live stored .inode isRoot small).mono ?_
    rintro _ w1 ⟨view', data', edits, written⟩
    simp only [Indirect.markDirty, meets_bind, meets_pure, meets_setInode (edits.deleted.trans live)]
    exact ⟨trivial, view', data', edits.setDirty, written⟩
  | @step q chain path h k chainAbove nonzero number inside =>
    have pinned : Stored disk w (handles more ++ handles (q :: chain)) [h] view :=
      (stored.perm List.perm_middle (.refl _)).pin
    refine (writeEntry_leads live pinned (.block (List.mem_singleton_self h) chainAbove.nonempty
      (number.trans chainAbove.key) (chainAbove.key ▸ nonzero)) isPath small).mono ?_
    rintro _ w1 ⟨view', data', edits, written⟩
    have marked := edits.then (works_markDirty edits.stored)
    simp only [Indirect.markDirty, meets_bind, meets_markDirty, meets_pure,
      meets_setInode (marked.deleted.trans live)]
    exact ⟨trivial, view', data', (marked.perm List.perm_middle.symm (.refl _)).setDirty, written⟩

end Splicing

theorem handles_reverse (chain : List Indirect) : (handles chain.reverse).Perm (handles chain) :=
  chain.reverse_perm.filterMap _

/-- The end of `get_block`. -/
theorem finish_returns {kept pinned : List Nat} (p : Indirect) (above : List Indirect)
    (stored : Stored disk w (handles (p :: above) ++ kept) pinned view) :
    Meets disk allowed (finish (p :: above)) (fun r w' => r = .ok p.key ∧
      Works disk w w' kept pinned view) w := by
  simp only [finish, meets_bind]
  exact (unfixAll_stored (p :: above) stored).mono fun _ w' works => meets_pure.mpr ⟨rfl, works⟩

/-- Zones have been taken for the tree of an inode, and nothing else in use has changed. -/
structure Grows (disk : Disk Errno) (g : Geometry) (view : Nat → Bytes) (data : Nat → Nat)
    (view' : Nat → Bytes) (data' : Nat → Nat) (taken : Multiset Nat) : Prop where
  total : zones g.indirCount view' data' = zones g.indirCount view data + taken
  fresh : ∀ z ∈ taken, g.IsZone z ∧ g.marked view z = false
  nodup : taken.Nodup
  marks : ∀ z, g.IsZone z → z ∈ taken ∨ g.marked view z = true → g.marked view' z = true
  exact : Reliable disk → ∀ z, g.IsZone z → g.marked view' z = true → z ∈ taken ∨ g.marked view z = true
  rest : ∀ n, g.Firm view n → n ∉ arrays g.indirCount view data → view' n = view n
  inner : ∀ n ∈ arrays g.indirCount view' data', n ∈ arrays g.indirCount view data ∨ n ∈ taken
  mapped : ∀ path, IsPath g.indirCount path → zoneOf view data path ≠ 0 →
    zoneOf view' data' path = zoneOf view data path

/-- What `get_block` returns for a full path: only this path is mapped anew. -/
inductive Maps (m : Nat) (view : Nat → Bytes) (data : Nat → Nat) (view' : Nat → Bytes)
    (data' : Nat → Nat) (taken : Multiset Nat) (path : List Nat) : Except Errno Nat → Prop
  | mapped {z : Nat} (nonzero : z ≠ 0) (here : zoneOf view' data' path = z)
      (others : ∀ q, IsPath m q → level q = 0 → q ≠ path → zoneOf view' data' q = zoneOf view data q) :
      Maps m view data view' data' taken path (.ok z)
  | failed {e : Errno} (nothing : taken = 0)
      (same : ∀ q, IsPath m q → level q = 0 → zoneOf view' data' q = zoneOf view data q) :
      Maps m view data view' data' taken path (.error e)

section Growing

variable {g : Geometry} {view' view'' : Nat → Bytes} {data data' : Nat → Nat} {taken : Multiset Nat}

theorem Tree.firm {n : Nat} (layout : g.Layout) (tree : Tree g view data)
    (member : n ∈ zones g.indirCount view data) : g.Firm view n :=
  ⟨(tree.zone n member).offMap layout, fun _ => tree.marked n member⟩

theorem Tree.firm_arrays {n : Nat} (layout : g.Layout) (tree : Tree g view data)
    (member : n ∈ arrays g.indirCount view data) : g.Firm view n :=
  tree.firm layout (Multiset.mem_of_le arrays_le_zones member)

theorem Tree.gather_spares {leaf : Nat → Multiset Nat} (layout : g.Layout) (tree : Tree g view data)
    (spares : g.Spares view view') : gather g.indirCount view' leaf data = gather g.indirCount view leaf data :=
  gather_congr fun n member => spares.rest n (tree.firm_arrays layout member)

theorem Tree.zones_spares (layout : g.Layout) (tree : Tree g view data) (spares : g.Spares view view') :
    zones g.indirCount view' data = zones g.indirCount view data := tree.gather_spares layout spares

theorem Tree.arrays_spares (layout : g.Layout) (tree : Tree g view data) (spares : g.Spares view view') :
    arrays g.indirCount view' data = arrays g.indirCount view data := tree.gather_spares layout spares

theorem Tree.zoneOf_spares {path : List Nat} (layout : g.Layout) (tree : Tree g view data)
    (spares : g.Spares view view') (isPath : IsPath g.indirCount path) :
    zoneOf view' data path = zoneOf view data path :=
  zoneOf_congr_arrays isPath fun n member => spares.rest n (tree.firm_arrays layout member)

theorem Tree.spares (layout : g.Layout) (tree : Tree g view data) (spares : g.Spares view view') :
    Tree g view' data := by
  have same := tree.zones_spares layout spares
  refine ⟨same ▸ tree.nodup, fun z member => tree.zone z (same ▸ member), fun z member => ?_⟩
  rw [same] at member
  exact spares.marks z (tree.zone z member) (tree.marked z member)

/-- Nothing has been taken for the tree. -/
theorem grows_spares (layout : g.Layout) (tree : Tree g view data) (spares : g.Spares view view')
    (exact : Reliable disk → ∀ z, g.IsZone z → g.marked view' z = true → g.marked view z = true) :
    Grows disk g view data view' data 0 where
  total := by rw [tree.zones_spares layout spares, add_zero]
  fresh := by simp
  nodup := Multiset.nodup_zero
  marks z zone marked := spares.marks z zone (by simpa using marked)
  exact reliable z zone marked := .inr (exact reliable z zone marked)
  rest n firm _ := spares.rest n firm
  inner n member := .inl (tree.arrays_spares layout spares ▸ member)
  mapped path isPath _ := tree.zoneOf_spares layout spares isPath

theorem level_full {m : Nat} {pre rest : List Nat} (isPath : IsPath m (pre ++ rest)) (nonempty : pre ≠ [])
    (full : level (pre ++ rest) = 0) : level pre = rest.length := by
  obtain _ | ⟨o, pre⟩ := pre
  · exact absurd rfl nonempty
  · have bound : (pre ++ rest).length ≤ o - 6 := isPath.2.1
    have whole : o - 6 - (pre ++ rest).length = 0 := full
    simp only [List.length_append] at bound whole
    rw [level_cons]
    omega

theorem zoneOf_upper {m : Nat} {pre q : List Nat} (isPath : IsPath m q) (nonempty : pre ≠ [])
    (below : pre <+: q) (free : zoneOf view data pre = 0) : zoneOf view data q = 0 := by
  obtain ⟨rest, rfl⟩ := below
  obtain _ | ⟨o, pre⟩ := pre
  · exact absurd rfl nonempty
  · rw [zoneOf_cons] at free
    rw [List.cons_append, zoneOf_cons, follow_append, free, follow_zero]

section Grafting

variable {pre rest : List Nat} {parent last : Nat} {data'' : Nat → Nat} (layout : g.Layout)
  (tree : Tree g view data) (isPath : IsPath g.indirCount (pre ++ rest)) (nonempty : pre ≠ [])
  (full : level (pre ++ rest) = 0) (free : zoneOf view data pre = 0)
  (takes : g.Takes view view' (parent ::ₘ taken)) (touches : g.Touches view view' (parent ::ₘ taken))
  (grafts : Grafts g view view' parent rest last taken)
  (written : Written view' data pre parent view'' data'')
include layout tree isPath nonempty full takes touches grafts written

omit written in
/-- Nothing of the new tree was in use. -/
theorem grafted_apart : ∀ n ∈ inner g.indirCount (entry view') (level pre) parent,
    n ∉ arrays g.indirCount view' data := by
  have spares := takes.spares touches
  intro n inNew inOld
  rw [tree.arrays_spares layout spares] at inOld
  have inZones := Multiset.mem_of_le arrays_le_zones inOld
  have inTaken := Multiset.mem_of_le inner_le_nodes inNew
  rw [level_full isPath nonempty full, grafts.nodes] at inTaken
  exact takes.notMem (tree.marked n inZones) inTaken

theorem grafted_zoneOf {q : List Nat} (isPathQ : IsPath g.indirCount q) : zoneOf view'' data'' q =
    if pre <+: q then follow (entry view') parent (q.drop pre.length) else zoneOf view data q := by
  have spares := takes.spares touches
  have small : parent < 4294967296 :=
    Nat.lt_of_lt_of_le (takes.zones parent (by simp)).1.last layout.last
  rw [written.zoneOf (tree.spares layout spares).nodup (isPath.upper nonempty) small
    (grafted_apart layout tree isPath nonempty full takes touches grafts) isPathQ,
    tree.zoneOf_spares layout spares isPathQ]

/-- Only the way to the new zone is mapped anew. -/
theorem grafted_only {q : List Nat} (isPathQ : IsPath g.indirCount q) (before : zoneOf view data q = 0)
    (after : zoneOf view'' data'' q ≠ 0) : q <+: pre ++ rest := by
  rw [grafted_zoneOf layout tree isPath nonempty full takes touches grafts written isPathQ] at after
  split at after
  · rename_i below
    obtain ⟨rest', rfl⟩ := below
    rw [List.drop_left] at after
    by_contra other
    refine after (grafts.others rest' ?_ ?_ fun within => other (List.prefix_append_right_inj _ |>.mpr within))
    · obtain _ | ⟨o, pre⟩ := pre
      · exact absurd rfl nonempty
      · have bound : (pre ++ rest').length ≤ o - 6 := isPathQ.2.1
        have whole : level (o :: pre) = rest.length := level_full isPath nonempty full
        simp only [List.length_append] at bound
        rw [level_cons] at whole
        omega
    · obtain _ | ⟨o, pre⟩ := pre
      · exact absurd rfl nonempty
      · exact fun a inRest => isPathQ.2.2 a (by simp [inRest])
  · exact absurd before after

include free

theorem grafted_grows : Grows disk g view data view'' data'' (parent ::ₘ taken) := by
  have spares := takes.spares touches
  have isPre := isPath.upper nonempty
  have lengths := level_full isPath nonempty full
  have tree' := tree.spares layout spares
  have small : parent < 4294967296 :=
    Nat.lt_of_lt_of_le (takes.zones parent (by simp)).1.last layout.last
  have apart := grafted_apart layout tree isPath nonempty full takes touches grafts
  have free' : zoneOf view' data pre = 0 := (tree.zoneOf_spares layout spares isPre).trans free
  have marks : ∀ z, g.IsZone z → g.marked view'' z = g.marked view' z := fun z zone =>
    Geometry.marked_congr zone fun n inMap => written.rest isPre fun member =>
      (tree'.firm_arrays layout member).offMap inMap
  refine ⟨?_, takes.zones, takes.nodup, fun z zone before => ?_, fun _ z zone after => ?_,
    fun n firm absent => ?_, fun n member => ?_, fun q isPathQ nonzero => ?_⟩
  · have total : zones g.indirCount view'' data'' +
        nodes g.indirCount (entry view') (level pre) (zoneOf view' data pre) =
        zones g.indirCount view' data + nodes g.indirCount (entry view') (level pre) parent :=
      written.gather tree'.nodup isPre small apart
    rw [free', nodes_zero, add_zero, lengths, grafts.nodes, tree.zones_spares layout spares] at total
    exact total
  · exact (marks z zone).trans ((takes.marks z zone).mpr before)
  · exact (takes.marks z zone).mp ((marks z zone).symm.trans after)
  · rw [written.rest isPre (tree.arrays_spares layout spares ▸ absent), spares.rest n firm]
  · have total : arrays g.indirCount view'' data'' +
        inner g.indirCount (entry view') (level pre) (zoneOf view' data pre) =
        arrays g.indirCount view' data + inner g.indirCount (entry view') (level pre) parent :=
      written.gather tree'.nodup isPre small apart
    rw [free', inner_zero, add_zero, lengths, tree.arrays_spares layout spares] at total
    rw [total, Multiset.mem_add] at member
    exact member.imp_right fun new => grafts.nodes ▸ Multiset.mem_of_le inner_le_nodes new
  · rw [grafted_zoneOf layout tree isPath nonempty full takes touches grafts written isPathQ, if_neg]
    exact fun below => nonzero (zoneOf_upper isPathQ nonempty below free)

theorem grafted_maps (keys : last ≠ 0) :
    Maps g.indirCount view data view'' data'' (parent ::ₘ taken) (pre ++ rest) (.ok last) := by
  have zoneOf := fun {q : List Nat} (isPathQ : IsPath g.indirCount q) =>
    grafted_zoneOf layout tree isPath nonempty full takes touches grafts written isPathQ
  refine .mapped keys ?_ fun q isPathQ fullQ other => ?_
  · rw [zoneOf isPath, if_pos (List.prefix_append _ _), List.drop_left, grafts.last]
  · rw [zoneOf isPathQ]
    split
    · rename_i below
      rw [zoneOf_upper isPathQ nonempty below free]
      obtain ⟨rest', rfl⟩ := below
      have lengths := (level_full isPath nonempty full).symm.trans (level_full isPathQ nonempty fullQ)
      rw [List.drop_left]
      refine grafts.others rest' lengths.ge (fun a inRest => ?_) fun below =>
        other (congrArg _ (below.eq_of_length lengths.symm))
      obtain _ | ⟨o, pre⟩ := pre
      · exact absurd rfl nonempty
      · exact isPathQ.2.2 a (by simp [inRest])
    · rfl

end Grafting

end Growing

/-- What `get_block` returns for a path of which so many zones were missing. -/
inductive Links (g : Geometry) (view : Nat → Bytes) (data : Nat → Nat) (path : List Nat) (missing : Nat)
    (view' : Nat → Bytes) (data' : Nat → Nat) (taken : Multiset Nat) : Except Errno Nat → Prop
  | linked {z : Nat} (new : z ∈ taken) (serves : g.Serves view missing)
      (only : ∀ q, IsPath g.indirCount q → zoneOf view data q = 0 → zoneOf view' data' q ≠ 0 → q <+: path) :
      Links g view data path missing view' data' taken (.ok z)
  | refused (same : data' = data) (spares : g.Spares view view')
      (undone : g.usedBits view' = g.usedBits view ↔ g.Serves view missing) :
      Links g view data path missing view' data' taken (.error .enospc)

section Loop

variable {p : Indirect} {above : List Indirect} {pre rest : List Nat}

/-- The blocks of a chain are in use. -/
theorem Chain.firm {chain : List Indirect} (layout : w.state.geometry.Layout)
    (tree : Tree w.state.geometry view (w.state.inodes ptr).data)
    (is : Chain w.state.indirCount w.device view (w.state.inodes ptr).data chain pre)
    (isPath : IsPath w.state.indirCount (pre ++ rest)) {h : Nat} (member : h ∈ handles chain) :
    w.state.geometry.Firm view (w.device.number h) := by
  obtain ⟨upper, lower, rfl, some, _, number, nonzero⟩ := is.number_mem member
  have isUpper : IsPath w.state.indirCount upper := (isPath.upper is.nonempty).upper some
  exact tree.firm layout (number ▸ zoneOf_mem isUpper nonzero)

theorem Chain.later {d : Device} {view' : Nat → Bytes} {chain : List Indirect} {kept pinned : List Nat}
    (layout : w.state.geometry.Layout)
    (tree : Tree w.state.geometry view (w.state.inodes ptr).data)
    (is : Chain w.state.indirCount w.device view (w.state.inodes ptr).data chain pre)
    (isPath : IsPath w.state.indirCount (pre ++ rest)) (stored : Stored disk w (handles chain) [] view)
    (works : Works disk w ⟨w.state, d⟩ kept pinned view') (spares : w.state.geometry.Spares view view') :
    Chain w.state.indirCount d view' (w.state.inodes ptr).data chain pre := by
  have numbers : ∀ h ∈ handles chain, d.number h = w.device.number h := fun h member =>
    works.follows.number h (stored.early (by simp [member]))
  exact (is.congr_view fun h member => spares.rest _ (is.firm layout tree isPath member)).congr numbers

theorem Chain.used {chain : List Indirect} (layout : w.state.geometry.Layout)
    (tree : Tree w.state.geometry view (w.state.inodes ptr).data)
    (is : Chain w.state.indirCount w.device view (w.state.inodes ptr).data chain pre)
    (isPath : IsPath w.state.indirCount (pre ++ rest)) : ∀ n ∈ (handles chain ++ []).map w.device.number,
      w.state.geometry.IsZone n → w.state.geometry.marked view n = true := by
  intro n member
  rw [List.append_nil] at member
  obtain ⟨h, inChain, rfl⟩ := List.mem_map.mp member
  exact (is.firm layout tree isPath inChain).used

/-- The rest of a path stays inside the indirect blocks. -/
theorem Chain.inside {m : Nat} {d : Device} {data : Nat → Nat} {chain : List Indirect}
    (is : Chain m d view data chain pre) (isPath : IsPath m (pre ++ rest)) : ∀ a ∈ rest, a < m := by
  obtain ⟨o, more, rfl, _, _⟩ := is.head_lt
  exact fun a inRest => isPath.2.2 a (by simp [inRest])

/-- No branch could be made, and the chain is released. -/
theorem unfixAll_fails {d : Device} {view' : Nat → Bytes} {chain : List Indirect} {e : Errno}
    (works : Works disk w ⟨w.state, d⟩ (handles chain) [] view') :
    Meets disk allowed (unfixAll chain >>= fun _ => Pure.pure (.error e : Except Errno Nat))
      (fun r w' => r = .error e ∧ Works disk w w' [] [] view') ⟨w.state, d⟩ := by
  have stored : Stored disk ⟨w.state, d⟩ (handles chain ++ []) [] view' := by
    rw [List.append_nil]
    exact works.stored
  rw [meets_bind]
  exact (unfixAll_stored chain stored).mono fun _ w2 works2 => meets_pure.mpr ⟨rfl, works.trans works2⟩

theorem maps_failed {view' : Nat → Bytes} {path : List Nat} {e : Errno} (layout : w.state.geometry.Layout)
    (tree : Tree w.state.geometry view (w.state.inodes ptr).data) (spares : w.state.geometry.Spares view view') :
    Maps w.state.indirCount view (w.state.inodes ptr).data view' (w.state.inodes ptr).data 0 path (.error e) :=
  .failed rfl fun _ isPathQ _ => tree.zoneOf_spares layout spares isPathQ

theorem allocate_links {again : FsM (Except Errno Nat)} (layout : w.state.geometry.Layout)
    (lenient : Reliable disk ∨ allowed .nullPointer) (live : (w.state.inodes ptr).deleted = false)
    (tree : Tree w.state.geometry view (w.state.inodes ptr).data)
    (is : Chain w.state.indirCount w.device view (w.state.inodes ptr).data (p :: above) pre)
    (isPath : IsPath w.state.indirCount (pre ++ rest)) (full : level (pre ++ rest) = 0)
    (stored : Stored disk w (handles (p :: above)) [] view) (zero : p.key = 0) :
    Meets disk allowed (allocate ptr (p :: above) rest again) (fun r w' => ∃ view' data' taken,
      Edits disk ptr w w' [] [] view' data' ∧
      Grows disk w.state.geometry view (w.state.inodes ptr).data view' data' taken ∧
      Maps w.state.indirCount view (w.state.inodes ptr).data view' data' taken (pre ++ rest) r ∧
      Links w.state.geometry view (w.state.inodes ptr).data (pre ++ rest) (rest.length + 1) view' data' taken r) w := by
  have nonempty := is.nonempty
  simp only [allocate, meets_bind]
  refine (allocBranch_sprouts layout lenient stored (is.used layout tree isPath) (is.inside isPath)).mono ?_
  rintro _ ⟨s, d⟩ (⟨works, marks, spares, undone⟩ | ⟨works, takes, touches, keys, numbers, serves, grafts⟩)
  · obtain rfl : s = w.state := works.state
    refine (unfixAll_fails works).mono ?_
    rintro _ w2 ⟨rfl, works2⟩
    exact ⟨_, _, 0, works2.edits, grows_spares layout tree spares
      (fun _ z zone marked => (marks z zone).symm.trans marked), maps_failed layout tree spares,
        .refused rfl spares undone⟩
  · rename_i parent more view1 taken
    obtain rfl : s = w.state := works.state
    have spares := takes.spares touches
    have zone := (takes.zones parent (by simp)).1
    simp only [meets_bind]
    refine (spliceBranch_hangs (w := ⟨w.state, d⟩) live works.stored
      (is.later (w := w) layout tree isPath stored works spares) (isPath.upper nonempty) zero
      (Nat.lt_of_lt_of_le zone.last layout.last)).mono ?_
    rintro ok w2 ⟨rfl, view2, data2, edits, written⟩
    obtain ⟨q, chain, whole, key⟩ := head_reverse more { p with key := parent } above
    have order : (handles more ++ handles (p :: above)).Perm (handles (q :: chain)) := by
      rw [← whole, handles_append]
      exact (handles_reverse more).symm.append_right _
    rw [if_pos rfl, whole]
    have held : Stored disk w2 (handles (q :: chain) ++ []) [] view2 := by
      rw [List.append_nil]
      exact edits.stored.perm order (.refl _)
    refine (finish_returns q chain held).mono ?_
    rintro _ w3 ⟨rfl, works3⟩
    have free := is.key.symm.trans zero
    have new : q.key ∈ parent ::ₘ taken := by
      rw [key, keys]
      exact lastKey_mem more parent
    have nonzero : q.key ≠ 0 := (takes.zones q.key new).1.ne_zero layout
    rw [key] at new nonzero ⊢
    exact ⟨view2, data2, parent ::ₘ taken, (works.edits.trans edits).then works3,
      grafted_grows layout tree isPath nonempty full free takes touches grafts written,
      grafted_maps layout tree isPath nonempty full free takes touches grafts written nonzero,
      .linked new serves fun q isPathQ before after =>
        grafted_only layout tree isPath nonempty full takes touches grafts written isPathQ before after⟩

end Loop

end MPStuBS.Minix
