import MPStuBS.ZoneRelease
import MPStuBS.BlockMapping

/-! Cutting subtrees off the block tree of an inode and freeing them. -/
namespace MPStuBS.Minix

open Prog FsM Device HeapTree

/-- The paths that are cut lead to nothing any more, their zones are lost and some of them freed, and
the rest of the tree is as it was. -/
structure Prunes (disk : Disk Errno) (g : Geometry) (view : Nat → Bytes) (data : Nat → Nat) (view' : Nat → Bytes)
    (data' : Nat → Nat) (lost freed : Multiset Nat) (cut : List Nat → Prop) : Prop where
  total : zones g.indirCount view' data' + lost = zones g.indirCount view data
  part : Part disk freed lost
  frees : g.Frees view view' freed
  rest : ∀ n, ¬ g.IsZmap n → n ∉ arrays g.indirCount view data → view' n = view n
  inner : ∀ n ∈ arrays g.indirCount view' data', n ∈ arrays g.indirCount view data
  kept : ∀ q, IsPath g.indirCount q → ¬ cut q → zoneOf view' data' q = zoneOf view data q
  gone : ∀ q, IsPath g.indirCount q → cut q → zoneOf view' data' q = 0

section Rules

variable {disk : Disk Errno} {g : Geometry} {view view' view'' : Nat → Bytes} {data data' data'' : Nat → Nat}
  {lost lost' freed freed' : Multiset Nat} {cut cut' : List Nat → Prop} {path : List Nat}

theorem Prunes.trans (fst : Prunes disk g view data view' data' lost freed cut)
    (snd : Prunes disk g view' data' view'' data'' lost' freed' cut') :
    Prunes disk g view data view'' data'' (lost + lost') (freed + freed') (fun q => cut q ∨ cut' q) := by
  refine ⟨?_, fst.part.add snd.part, fst.frees.trans snd.frees, fun n offMap absent => ?_, fun n member => fst.inner n (snd.inner n member),
    fun q isPath uncut => ?_, fun q isPath isCut => ?_⟩
  · rw [← fst.total, ← snd.total, add_comm lost, add_assoc]
  · rw [snd.rest n offMap fun member => absent (fst.inner n member), fst.rest n offMap absent]
  · rw [not_or] at uncut
    rw [snd.kept q isPath uncut.2, fst.kept q isPath uncut.1]
  · by_cases isCut' : cut' q
    · exact snd.gone q isPath isCut'
    · rw [snd.kept q isPath isCut', fst.gone q isPath (isCut.resolve_right isCut')]

theorem Prunes.congr (prunes : Prunes disk g view data view' data' lost freed cut)
    (same : ∀ q, IsPath g.indirCount q → (cut' q ↔ cut q)) : Prunes disk g view data view' data' lost freed cut' :=
  ⟨prunes.total, prunes.part, prunes.frees, prunes.rest, prunes.inner,
    fun q isPath uncut => prunes.kept q isPath fun isCut => uncut ((same q isPath).mpr isCut),
    fun q isPath isCut => prunes.gone q isPath ((same q isPath).mp isCut)⟩

theorem Prunes.refl (disk : Disk Errno) (g : Geometry) (view : Nat → Bytes) (data : Nat → Nat) :
    Prunes disk g view data view data 0 0 (fun _ => False) :=
  ⟨add_zero _, .refl _, .refl _ _, fun _ _ _ => rfl, fun _ member => member, fun _ _ _ => rfl, fun _ _ h => h.elim⟩

theorem prunes_nothing (nonempty : path ≠ []) (zero : zoneOf view data path = 0) :
    Prunes disk g view data view data 0 0 (path <+: ·) :=
  ⟨add_zero _, .refl _, .refl _ _, fun _ _ _ => rfl, fun _ member => member, fun _ _ _ => rfl,
    fun _ isPath below => zoneOf_upper isPath nonempty below zero⟩

theorem Prunes.tree (tree : Tree g view data) (prunes : Prunes disk g view data view' data' lost freed cut) :
    Tree g view' data' := by
  have whole := tree.nodup
  rw [← prunes.total] at whole
  have member : ∀ z ∈ zones g.indirCount view' data', z ∈ zones g.indirCount view data := fun z member =>
    prunes.total ▸ Multiset.mem_add.mpr (.inl member)
  refine ⟨(Multiset.nodup_add.mp whole).1, fun z inTree => tree.zone z (member z inTree), fun z inTree => ?_⟩
  refine (prunes.frees.marks z (tree.zone z (member z inTree))).mpr ⟨tree.marked z (member z inTree), ?_⟩
  exact fun inFreed => Multiset.disjoint_left.mp (Multiset.nodup_add.mp whole).2.2 inTree
    (Multiset.mem_of_le prunes.part.le inFreed)

end Rules

/-- An entry that is cleared cuts off what was below it. -/
structure Cuts (g : Geometry) (view : Nat → Bytes) (data : Nat → Nat) (view' : Nat → Bytes)
    (data' : Nat → Nat) (path : List Nat) : Prop where
  total : zones g.indirCount view' data' +
    nodes g.indirCount (entry view) (level path) (zoneOf view data path) = zones g.indirCount view data
  inner : arrays g.indirCount view' data' +
    HeapTree.inner g.indirCount (entry view) (level path) (zoneOf view data path) = arrays g.indirCount view data
  below : ∀ leaf, collect g.indirCount (entry view') leaf (level path) (zoneOf view data path) =
    collect g.indirCount (entry view) leaf (level path) (zoneOf view data path)
  kept : ∀ q, IsPath g.indirCount q → ¬ path <+: q → zoneOf view' data' q = zoneOf view data q
  gone : ∀ q, IsPath g.indirCount q → path <+: q → zoneOf view' data' q = 0
  rest : ∀ n, n ∉ arrays g.indirCount view data → view' n = view n

section Cutting

variable {g : Geometry} {view view' : Nat → Bytes} {data data' : Nat → Nat} {path : List Nat}

/-- What is below an entry does not hold the entry. -/
theorem written_below {m v : Nat} {leaf : Nat → Multiset Nat} (nodup : (zones m view data).Nodup)
    (isPath : IsPath m path) (small : v < 4294967296) (written : Written view data path v view' data') :
    collect m (entry view') leaf (level path) (zoneOf view data path) =
      collect m (entry view) leaf (level path) (zoneOf view data path) := by
  cases written with
  | root => rfl
  | @block o k _ pre nonzero =>
    have slot := isPath.slot nonzero
    have whole : o - 6 - pre.length - 1 + 1 = o - 6 - pre.length := by
      have depth := slot.depth
      omega
    have part : nodes m (entry view) (o - 6 - pre.length - 1 + 1) (zoneOf view data (o :: pre)) ≤
        nodes m (entry view) (o - 6) (data o) := by
      have le : nodes m (entry view) (o - 6 - pre.length - 1 + 1) (follow (entry view) (data o) pre) ≤
          nodes m (entry view) (o - 6 - pre.length - 1 + 1 + pre.length) (data o) := follow_le slot.inside
      rwa [slot.node, slot.depth] at le
    rw [slot.level, slot.target, entry_update small]
    refine collect_set_of_notMem k fun member => ?_
    exact notMem_child (Multiset.nodup_of_le part (nodes_nodup nodup isPath.1)) nonzero slot.bound
      (Multiset.mem_of_le inner_le_nodes member)

theorem written_cuts (tree : Tree g view data) (isPath : IsPath g.indirCount path)
    (written : Written view data path 0 view' data') : Cuts g view data view' data' path := by
  have apart : ∀ n ∈ inner g.indirCount (entry view) (level path) 0, n ∉ arrays g.indirCount view data := by
    simp
  have lookup := fun {q : List Nat} (isPathQ : IsPath g.indirCount q) =>
    written.zoneOf tree.nodup isPath (by omega) apart isPathQ
  refine ⟨?_, ?_, fun leaf => written_below tree.nodup isPath (by omega) written, fun q isPathQ other => ?_,
    fun q isPathQ below => ?_, fun n absent => written.rest isPath absent⟩
  · have total : zones g.indirCount view' data' +
        nodes g.indirCount (entry view) (level path) (zoneOf view data path) =
        zones g.indirCount view data + nodes g.indirCount (entry view) (level path) 0 :=
      written.gather tree.nodup isPath (by omega) apart
    rwa [nodes_zero, add_zero] at total
  · have total : arrays g.indirCount view' data' +
        inner g.indirCount (entry view) (level path) (zoneOf view data path) =
        arrays g.indirCount view data + inner g.indirCount (entry view) (level path) 0 :=
      written.gather tree.nodup isPath (by omega) apart
    rwa [inner_zero, add_zero] at total
  · rw [lookup isPathQ, if_neg other]
  · rw [lookup isPathQ, if_pos below, follow_zero]

end Cutting

end MPStuBS.Minix
