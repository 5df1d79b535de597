import MPStuBS.ZoneBitmap
import MPStuBS.TreeReading

/-! The block tree of an inode as a tree in the heap of blocks. -/
namespace MPStuBS.Minix

open Prog FsM Device HeapTree
open Finset (range)

/-- The entries of the indirect blocks. -/
def entry (view : Nat → Bytes) (n k : Nat) : Nat := (view n).u32 (4 * k)

theorem zoneVia_eq_follow (view : Nat → Bytes) (path : List Nat) :
    ∀ key, zoneVia view key path = follow (entry view) key path := by
  induction path with
  | nil => exact fun _ => rfl
  | cons k path ih =>
    intro key
    simp only [zoneVia, follow, ih]
    rfl

theorem entry_update {view : Nat → Bytes} {n k v : Nat} (small : v < 4294967296) :
    entry (Function.update view n ((view n).setU32 (4 * k) v)) = HeapTree.set (entry view) n k v := by
  funext n' k'
  unfold entry HeapTree.set
  by_cases node : n' = n
  · subst node
    rw [Function.update_self]
    by_cases slot : k' = k
    · subst slot
      simp [Nat.mod_eq_of_lt small]
    · rw [Bytes.u32_setU32_of_apart (by omega)]
      simp [slot]
  · rw [Function.update_of_ne node]
    simp [node]

/-- What the tree of an inode collects: the entry at place `o` is of depth `o - 6`. -/
def gather (m : Nat) (view : Nat → Bytes) (leaf : Nat → Multiset Nat) (data : Nat → Nat) : Multiset Nat :=
  ∑ o ∈ range 10, collect m (entry view) leaf (o - 6) (data o)

/-- All zones of an inode. -/
abbrev zones (m : Nat) (view : Nat → Bytes) (data : Nat → Nat) : Multiset Nat :=
  gather m view (fun n => {n}) data

/-- Its indirect blocks. -/
abbrev arrays (m : Nat) (view : Nat → Bytes) (data : Nat → Nat) : Multiset Nat :=
  gather m view (fun _ => 0) data

/-- An index path from the inode on. -/
def IsPath (m : Nat) : List Nat → Prop
  | [] => False
  | o :: rest => o < 10 ∧ rest.length ≤ o - 6 ∧ ∀ a ∈ rest, a < m

/-- How many levels there are below the end of a path. -/
def level : List Nat → Nat
  | [] => 0
  | o :: rest => o - 6 - rest.length

theorem level_cons (o : Nat) (rest : List Nat) : level (o :: rest) = o - 6 - rest.length := rfl

/-- The path of an addressable block is a full path. -/
theorem blockToPath_isPath {m block : Nat} (positive : 0 < m) (bound : block < addressable m) :
    IsPath m (blockToPath m block) ∧ level (blockToPath m block) = 0 := by
  obtain ⟨o, rest, path, first, inside⟩ := blockToPath_bounds positive bound
  have whole : rest.length = o - 6 := by
    unfold blockToPath at path
    split at path
    · obtain ⟨rfl, rfl⟩ := List.cons.inj path
      simp only [List.length_nil]
      omega
    split at path
    · obtain ⟨rfl, rfl⟩ := List.cons.inj path
      rfl
    split at path
    · obtain ⟨rfl, rfl⟩ := List.cons.inj path
      rfl
    · obtain ⟨rfl, rfl⟩ := List.cons.inj path
      rfl
  rw [path]
  exact ⟨⟨first, Nat.le_of_eq whole, inside⟩, by rw [level_cons]; omega⟩

variable {m : Nat} {view view' : Nat → Bytes} {data data' : Nat → Nat} {leaf : Nat → Multiset Nat}
  {path : List Nat}

theorem arrays_le_zones : arrays m view data ≤ zones m view data :=
  Finset.sum_le_sum fun _ _ => inner_le_nodes

theorem collect_le_gather {o : Nat} (bound : o < 10) :
    collect m (entry view) leaf (o - 6) (data o) ≤ gather m view leaf data :=
  le_sum (f := fun o => collect m (entry view) leaf (o - 6) (data o)) bound

theorem gather_congr (same : ∀ n ∈ arrays m view data, view' n = view n) :
    gather m view' leaf data = gather m view leaf data :=
  Finset.sum_congr rfl fun o inRange => collect_congr fun n member k _ => by
    unfold entry
    rw [same n (Multiset.mem_of_le (collect_le_gather (Finset.mem_range.mp inRange)) member)]

theorem zoneOf_cons (o : Nat) (rest : List Nat) :
    zoneOf view data (o :: rest) = follow (entry view) (data o) rest :=
  zoneVia_eq_follow _ _ _

theorem zoneOf_congr_arrays (isPath : IsPath m path)
    (same : ∀ n ∈ arrays m view data, view' n = view n) :
    zoneOf view' data path = zoneOf view data path := by
  obtain _ | ⟨o, rest⟩ := path
  · exact isPath.elim
  · rw [zoneOf_cons, zoneOf_cons]
    refine follow_congr isPath.2.1 isPath.2.2 fun n member k _ => ?_
    unfold entry
    rw [same n (Multiset.mem_of_le (collect_le_gather isPath.1) member)]

theorem zoneOf_mem (isPath : IsPath m path) (nonzero : zoneOf view data path ≠ 0) :
    zoneOf view data path ∈ zones m view data := by
  obtain _ | ⟨o, rest⟩ := path
  · exact isPath.elim
  · rw [zoneOf_cons] at nonzero ⊢
    exact Multiset.mem_of_le (collect_le_gather isPath.1)
      (follow_mem isPath.2.2 isPath.2.1 nonzero)

theorem zoneOf_mem_arrays (isPath : IsPath m path) (deep : 0 < level path)
    (nonzero : zoneOf view data path ≠ 0) : zoneOf view data path ∈ arrays m view data := by
  obtain _ | ⟨o, rest⟩ := path
  · exact isPath.elim
  · rw [zoneOf_cons] at nonzero ⊢
    exact Multiset.mem_of_le (collect_le_gather isPath.1)
      (follow_mem_inner isPath.2.2 (by rw [level_cons] at deep; omega) nonzero)

section Shapes

variable (nodup : (zones m view data).Nodup)
include nodup

theorem nodes_nodup {o : Nat} (bound : o < 10) : (nodes m (entry view) (o - 6) (data o)).Nodup :=
  nodup_of_sum (f := fun o => nodes m (entry view) (o - 6) (data o)) nodup bound

theorem nodes_disjoint {o o' : Nat} (bound : o < 10) (bound' : o' < 10) (apart : o ≠ o') :
    Disjoint (nodes m (entry view) (o - 6) (data o)) (nodes m (entry view) (o' - 6) (data o')) :=
  disjoint_of_sum (f := fun o => nodes m (entry view) (o - 6) (data o)) nodup bound bound' apart

/-- A zone of an inode is reached along one path only. -/
theorem zoneOf_inj {path' : List Nat} (isPath : IsPath m path) (isPath' : IsPath m path')
    (nonzero : zoneOf view data path ≠ 0) (same : zoneOf view data path = zoneOf view data path') :
    path = path' := by
  obtain _ | ⟨o, rest⟩ := path
  · exact isPath.elim
  obtain _ | ⟨o', rest'⟩ := path'
  · exact isPath'.elim
  rw [zoneOf_cons] at nonzero
  rw [zoneOf_cons, zoneOf_cons] at same
  by_cases here : o = o'
  · subst here
    rw [follow_inj (nodes_nodup nodup isPath.1) isPath.2.2 isPath'.2.2 isPath.2.1 isPath'.2.1 nonzero same]
  · have member := follow_mem (m := m) isPath.2.2 isPath.2.1 nonzero
    have member' := follow_mem (m := m) isPath'.2.2 isPath'.2.1 (same ▸ nonzero)
    rw [same] at member
    exact absurd member' (Multiset.disjoint_left.mp (nodes_disjoint nodup isPath.1 isPath'.1 here) member)

/-- The zone at the end of a full path is no indirect block. -/
theorem zoneOf_notMem_arrays (isPath : IsPath m path) (full : level path = 0)
    (nonzero : zoneOf view data path ≠ 0) : zoneOf view data path ∉ arrays m view data := by
  obtain _ | ⟨o, rest⟩ := path
  · exact isPath.elim
  rw [zoneOf_cons] at nonzero ⊢
  have whole : rest.length = o - 6 := by
    have bound := isPath.2.1
    rw [level_cons] at full
    omega
  intro member
  obtain ⟨o', bound, inTree⟩ := mem_sum.mp member
  by_cases here : o = o'
  · subst here
    exact follow_notMem_inner (nodes_nodup nodup isPath.1) isPath.2.2 whole nonzero inTree
  · have inOwn := follow_mem (m := m) isPath.2.2 isPath.2.1 nonzero
    exact Multiset.disjoint_left.mp (nodes_disjoint nodup isPath.1 bound here) inOwn
      (Multiset.mem_of_le inner_le_nodes inTree)

end Shapes

/-- One entry has been replaced, in the inode or in an indirect block. -/
inductive Written (view : Nat → Bytes) (data : Nat → Nat) :
    List Nat → Nat → (Nat → Bytes) → (Nat → Nat) → Prop
  | root {o v : Nat} : Written view data [o] v view (Function.update data o v)
  | block {o k v : Nat} {pre : List Nat} (nonzero : zoneOf view data (o :: pre) ≠ 0) :
      Written view data (o :: (pre ++ [k])) v
        (Function.update view (zoneOf view data (o :: pre))
          ((view (zoneOf view data (o :: pre))).setU32 (4 * k) v)) data

/-- An entry of an indirect block that a path leads to. -/
structure TreeSlot (m : Nat) (view : Nat → Bytes) (data : Nat → Nat) (o : Nat) (pre : List Nat) (k n : Nat) :
    Prop where
  inside : ∀ a ∈ pre, a < m
  bound : k < m
  level : level (o :: (pre ++ [k])) = o - 6 - pre.length - 1
  depth : o - 6 - pre.length - 1 + 1 + pre.length = o - 6
  node : follow (entry view) (data o) pre = n
  array : n ∈ arrays m view data
  own : n ∈ nodes m (entry view) (o - 6) (data o)
  target : zoneOf view data (o :: (pre ++ [k])) = entry view n k

theorem IsPath.slot {o k : Nat} {pre : List Nat} (isPath : IsPath m (o :: (pre ++ [k])))
    (nonzero : zoneOf view data (o :: pre) ≠ 0) :
    TreeSlot m view data o pre k (zoneOf view data (o :: pre)) := by
  have bound := isPath.2.1
  simp only [List.length_append, List.length_singleton] at bound
  have inside : ∀ a ∈ pre, a < m := fun a inPath => isPath.2.2 a (by simp [inPath])
  refine ⟨inside, isPath.2.2 k (by simp), ?_, by omega, (zoneOf_cons o pre).symm, ?_, ?_, ?_⟩
  · simp only [level_cons, List.length_append, List.length_singleton]
    omega
  · exact zoneOf_mem_arrays ⟨isPath.1, by omega, inside⟩ (by rw [level_cons]; omega) nonzero
  · rw [zoneOf_cons] at nonzero ⊢
    exact follow_mem inside (by omega) nonzero
  · rw [zoneOf_cons] at nonzero
    rw [zoneOf_cons, zoneOf_cons, follow_append]
    simp only [follow, if_neg nonzero]

section Writing

variable {v : Nat} (nodup : (zones m view data).Nodup) (isPath : IsPath m path) (small : v < 4294967296)
  (apart : ∀ n ∈ inner m (entry view) (level path) v, n ∉ arrays m view data)

/-- Only an indirect block changes. -/
theorem Written.rest {n : Nat} (written : Written view data path v view' data') (isPath : IsPath m path)
    (absent : n ∉ arrays m view data) : view' n = view n := by
  cases written with
  | root => rfl
  | block nonzero =>
    refine Function.update_of_ne ?_ _ _
    rintro rfl
    exact absent (isPath.slot nonzero).array

include nodup isPath small apart

theorem Written.gather (written : Written view data path v view' data') :
    gather m view' leaf data' + collect m (entry view) leaf (level path) (zoneOf view data path) =
      gather m view leaf data + collect m (entry view) leaf (level path) v := by
  cases written with
  | @root o =>
    have replaced := sum_replace (f := fun o => collect m (entry view) leaf (o - 6) (data o))
      (g := fun o' => collect m (entry view) leaf (o' - 6) (Function.update data o v o')) isPath.1
      fun o' _ other => by rw [Function.update_of_ne other]
    rw [Function.update_self] at replaced
    exact replaced
  | @block o k _ pre nonzero =>
    have slot := isPath.slot nonzero
    set n := zoneOf view data (o :: pre) with nDef
    have absent : n ∉ inner m (entry view) (o - 6 - pre.length - 1) v := fun member =>
      apart n (slot.level ▸ member) slot.array
    have below := @collect_set m (entry view) leaf (o - 6 - pre.length - 1) n v pre k slot.bound (data o)
      (slot.depth.symm ▸ nodes_nodup nodup isPath.1) slot.inside slot.node nonzero absent
    rw [slot.depth, ← entry_update small] at below
    have replaced := sum_replace (f := fun o => collect m (entry view) leaf (o - 6) (data o))
      (g := fun o' => collect m (entry (Function.update view n ((view n).setU32 (4 * k) v))) leaf (o' - 6)
        (data o')) isPath.1 fun o' bound' other => by
          rw [entry_update small]
          exact collect_set_of_notMem k fun member => Multiset.disjoint_left.mp
            (nodes_disjoint nodup isPath.1 bound' (Ne.symm other)) slot.own
            (Multiset.mem_of_le inner_le_nodes member)
    rw [slot.level, slot.target]
    unfold Minix.gather
    refine (add_left_inj (collect m (entry view) leaf (o - 6) (data o))).mp ?_
    rw [add_right_comm, replaced, add_assoc, below, add_right_comm, ← add_assoc]

theorem Written.zoneOf (written : Written view data path v view' data') {q : List Nat}
    (isPathQ : IsPath m q) : Minix.zoneOf view' data' q =
      if path <+: q then follow (entry view) v (q.drop path.length) else Minix.zoneOf view data q := by
  obtain _ | ⟨o', rest⟩ := q
  · exact isPathQ.elim
  cases written with
  | @root o =>
    rw [zoneOf_cons, zoneOf_cons]
    by_cases here : o = o'
    · subst here
      simp
    · rw [Function.update_of_ne (Ne.symm here)]
      simp [List.cons_prefix_cons, here]
  | @block o k _ pre nonzero =>
    have slot := isPath.slot nonzero
    set n := Minix.zoneOf view data (o :: pre) with nDef
    have absent : n ∉ inner m (entry view) (o - 6 - pre.length - 1) v := fun member =>
      apart n (slot.level ▸ member) slot.array
    rw [zoneOf_cons, zoneOf_cons, entry_update small]
    by_cases here : o = o'
    · subst here
      rw [follow_set (slot.depth.symm ▸ nodes_nodup nodup isPath.1) slot.inside isPathQ.2.2
        (slot.depth.symm ▸ isPathQ.2.1) slot.node nonzero absent]
      simp [List.cons_prefix_cons]
    · rw [follow_set_of_notMem k isPathQ.2.1 isPathQ.2.2 fun member => Multiset.disjoint_left.mp
        (nodes_disjoint nodup isPath.1 isPathQ.1 here) slot.own
        (Multiset.mem_of_le inner_le_nodes member)]
      simp [List.cons_prefix_cons, here]

end Writing

end MPStuBS.Minix
