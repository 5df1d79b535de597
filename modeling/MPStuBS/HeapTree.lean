import Mathlib.Algebra.Order.BigOperators.Group.Finset
import Mathlib.Algebra.Order.Group.Multiset

/-! Trees in a heap: a node is an array of keys, a key names a node or is zero, and below
depth zero nothing is followed. Nothing here names a particular program. -/
namespace MPStuBS.HeapTree

open Finset (range)

/-- What a tree collects: its arrays, and something for each node at depth zero. -/
def collect (m : Nat) (e : Nat → Nat → Nat) (leaf : Nat → Multiset Nat) : Nat → Nat → Multiset Nat
  | 0, key => if key = 0 then 0 else leaf key
  | depth + 1, key =>
    if key = 0 then 0 else key ::ₘ ∑ k ∈ range m, collect m e leaf depth (e key k)

/-- The nodes of the tree below a key. -/
abbrev nodes (m : Nat) (e : Nat → Nat → Nat) (depth key : Nat) : Multiset Nat :=
  collect m e (fun n => {n}) depth key

/-- The nodes that are arrays themselves. -/
abbrev inner (m : Nat) (e : Nat → Nat → Nat) (depth key : Nat) : Multiset Nat :=
  collect m e (fun _ => 0) depth key

/-- The key at the end of a path, zero from the first zero key on. -/
def follow (e : Nat → Nat → Nat) (key : Nat) : List Nat → Nat
  | [] => key
  | k :: path => if key = 0 then 0 else follow e (e key k) path

/-- The heap with one key replaced. -/
def set (e : Nat → Nat → Nat) (n k z : Nat) : Nat → Nat → Nat :=
  fun n' k' => if n' = n ∧ k' = k then z else e n' k'

variable {m : Nat} {e e' : Nat → Nat → Nat}

section Sums

variable {f g : Nat → Multiset Nat} {i j : Nat}

theorem add_le_sum (iLt : i < m) (jLt : j < m) (apart : i ≠ j) : f i + f j ≤ ∑ k ∈ range m, f k := by
  rw [← Finset.sum_pair apart]
  refine Finset.sum_le_sum_of_subset fun k inPair => ?_
  rcases Finset.mem_insert.mp inPair with rfl | isJ
  · exact Finset.mem_range.mpr iLt
  · exact Finset.mem_range.mpr (Finset.mem_singleton.mp isJ ▸ jLt)

theorem le_sum (iLt : i < m) : f i ≤ ∑ k ∈ range m, f k :=
  Finset.single_le_sum (fun _ _ => Multiset.zero_le _) (Finset.mem_range.mpr iLt)

theorem disjoint_of_sum (nodup : (∑ k ∈ range m, f k).Nodup) (iLt : i < m) (jLt : j < m)
    (apart : i ≠ j) : Disjoint (f i) (f j) :=
  (Multiset.nodup_add.mp (Multiset.nodup_of_le (add_le_sum iLt jLt apart) nodup)).2.2

theorem nodup_of_sum (nodup : (∑ k ∈ range m, f k).Nodup) (iLt : i < m) : (f i).Nodup :=
  Multiset.nodup_of_le (le_sum iLt) nodup

theorem mem_sum {n : Nat} : n ∈ ∑ k ∈ range m, f k ↔ ∃ k < m, n ∈ f k := by
  simp [Multiset.mem_sum]

/-- A sum in which one summand is replaced. -/
theorem sum_replace (iLt : i < m) (same : ∀ k < m, k ≠ i → g k = f k) :
    ∑ k ∈ range m, g k + f i = ∑ k ∈ range m, f k + g i := by
  have member : i ∈ range m := Finset.mem_range.mpr iLt
  have rest : ∑ k ∈ (range m).erase i, g k = ∑ k ∈ (range m).erase i, f k :=
    Finset.sum_congr rfl fun k inRest =>
      same k (Finset.mem_range.mp (Finset.mem_of_mem_erase inRest)) (Finset.ne_of_mem_erase inRest)
  rw [← Finset.add_sum_erase _ g member, ← Finset.add_sum_erase _ f member, rest, add_right_comm,
    add_comm (g i), add_right_comm]

end Sums

variable {leaf : Nat → Multiset Nat} {depth key : Nat}

@[simp] theorem collect_zero (depth : Nat) : collect m e leaf depth 0 = 0 := by
  cases depth <;> rfl

@[simp] theorem nodes_zero (depth : Nat) : nodes m e depth 0 = 0 := collect_zero depth

@[simp] theorem inner_zero (depth : Nat) : inner m e depth 0 = 0 := collect_zero depth

@[simp] theorem follow_zero (path : List Nat) : follow e 0 path = 0 := by
  cases path <;> rfl

theorem collect_succ (nonzero : key ≠ 0) :
    collect m e leaf (depth + 1) key = key ::ₘ ∑ k ∈ range m, collect m e leaf depth (e key k) := by
  simp only [collect, if_neg nonzero]

theorem self_mem_nodes (nonzero : key ≠ 0) : key ∈ nodes m e depth key := by
  cases depth with
  | zero => simp [collect, nonzero]
  | succ depth => simp [collect_succ nonzero]

theorem inner_le_nodes : ∀ {depth key : Nat}, inner m e depth key ≤ nodes m e depth key := by
  intro depth
  induction depth with
  | zero =>
    intro key
    by_cases zero : key = 0
    · simp [zero]
    · simp [collect]
  | succ depth ih =>
    intro key
    by_cases zero : key = 0
    · simp [zero]
    · rw [inner, nodes, collect_succ zero, collect_succ zero]
      exact (Multiset.cons_le_cons_iff _).mpr (Finset.sum_le_sum fun k _ => ih)

theorem zero_notMem_nodes : ∀ {depth key : Nat}, 0 ∉ nodes m e depth key := by
  intro depth
  induction depth with
  | zero =>
    intro key
    by_cases zero : key = 0
    · simp [zero]
    · simpa [collect, zero] using Ne.symm zero
  | succ depth ih =>
    intro key
    by_cases zero : key = 0
    · simp [zero]
    · rw [nodes, collect_succ zero, Multiset.mem_cons, mem_sum, not_or]
      exact ⟨Ne.symm zero, fun ⟨k, _, member⟩ => ih member⟩

section Children

variable {j k : Nat}

theorem child_le (nonzero : key ≠ 0) (kLt : k < m) :
    collect m e leaf depth (e key k) ≤ collect m e leaf (depth + 1) key := by
  rw [collect_succ nonzero]
  exact (le_sum (f := fun k => collect m e leaf depth (e key k)) kLt).trans (Multiset.le_cons_self _ _)

theorem child_nodup (nodup : (nodes m e (depth + 1) key).Nodup) (nonzero : key ≠ 0) (kLt : k < m) :
    (nodes m e depth (e key k)).Nodup :=
  Multiset.nodup_of_le (child_le nonzero kLt) nodup

theorem notMem_child (nodup : (nodes m e (depth + 1) key).Nodup) (nonzero : key ≠ 0) (kLt : k < m) :
    key ∉ nodes m e depth (e key k) := by
  rw [nodes, collect_succ nonzero] at nodup
  exact fun member => (Multiset.nodup_cons.mp nodup).1
    (Multiset.mem_of_le (le_sum (f := fun k => nodes m e depth (e key k)) kLt) member)

theorem children_disjoint (nodup : (nodes m e (depth + 1) key).Nodup) (nonzero : key ≠ 0)
    (jLt : j < m) (kLt : k < m) (apart : j ≠ k) :
    Disjoint (nodes m e depth (e key j)) (nodes m e depth (e key k)) := by
  rw [nodes, collect_succ nonzero] at nodup
  exact disjoint_of_sum (f := fun k => nodes m e depth (e key k)) (Multiset.nodup_cons.mp nodup).2
    jLt kLt apart

end Children

/-- Only the arrays of a tree matter for it. -/
theorem collect_congr : ∀ {depth key : Nat}, (∀ n ∈ inner m e depth key, ∀ k < m, e' n k = e n k) →
    collect m e' leaf depth key = collect m e leaf depth key := by
  intro depth
  induction depth with
  | zero => exact fun {key} _ => rfl
  | succ depth ih =>
    intro key same
    by_cases zero : key = 0
    · simp [zero]
    · rw [collect_succ zero, collect_succ zero]
      refine congrArg _ (Finset.sum_congr rfl fun k inRange => ?_)
      have kLt := Finset.mem_range.mp inRange
      rw [same key (by simp [collect_succ zero]) k kLt]
      exact ih fun n member => same n (Multiset.mem_of_le (child_le zero kLt) member)

theorem follow_congr {path : List Nat} : ∀ {depth key : Nat}, path.length ≤ depth →
    (∀ a ∈ path, a < m) → (∀ n ∈ inner m e depth key, ∀ k < m, e' n k = e n k) →
    follow e' key path = follow e key path := by
  induction path with
  | nil => exact fun {depth key} _ _ _ => rfl
  | cons k path ih =>
    intro depth key short inside same
    obtain _ | depth := depth
    · simp at short
    by_cases zero : key = 0
    · simp [zero]
    · have kLt : k < m := inside k (by simp)
      simp only [follow, if_neg zero]
      rw [same key (by simp [collect_succ zero]) k kLt]
      exact ih (by simpa using short) (fun a inPath => inside a (by simp [inPath]))
        fun n member => same n (Multiset.mem_of_le (child_le zero kLt) member)

/-- The tree at the end of a path is part of the whole one. -/
theorem follow_le {path : List Nat} : ∀ {key : Nat}, (∀ a ∈ path, a < m) →
    collect m e leaf depth (follow e key path) ≤ collect m e leaf (depth + path.length) key := by
  induction path with
  | nil => exact fun {key} _ => le_refl _
  | cons k path ih =>
    intro key inside
    by_cases zero : key = 0
    · simp [zero]
    · have part : collect m e leaf (depth + path.length) (e key k) ≤
          collect m e leaf (depth + path.length + 1) key := child_le zero (inside k (by simp))
      simp only [follow, if_neg zero]
      exact (ih fun a inPath => inside a (by simp [inPath])).trans part

theorem follow_append (path rest : List Nat) :
    ∀ {key : Nat}, follow e key (path ++ rest) = follow e (follow e key path) rest := by
  induction path with
  | nil => exact fun {key} => rfl
  | cons k path ih =>
    intro key
    by_cases zero : key = 0
    · simp [zero]
    · simp only [List.cons_append, follow, if_neg zero]
      exact ih

theorem follow_mem {path : List Nat} (inside : ∀ a ∈ path, a < m) (short : path.length ≤ depth)
    (nonzero : follow e key path ≠ 0) : follow e key path ∈ nodes m e depth key := by
  have member : follow e key path ∈ nodes m e (depth - path.length + path.length) key :=
    Multiset.mem_of_le (follow_le inside) (self_mem_nodes nonzero)
  rwa [Nat.sub_add_cancel short] at member

theorem follow_mem_inner {path : List Nat} (inside : ∀ a ∈ path, a < m) (short : path.length < depth)
    (nonzero : follow e key path ≠ 0) : follow e key path ∈ inner m e depth key := by
  have member : follow e key path ∈ inner m e (depth - path.length - 1 + 1) (follow e key path) := by
    simp [collect_succ nonzero]
  have part := Multiset.mem_of_le (follow_le inside) member
  rwa [show depth - path.length - 1 + 1 + path.length = depth by omega] at part

/-- In a tree without sharing a node is reached along one path only. -/
theorem follow_inj {path : List Nat} : ∀ {depth key : Nat} {path' : List Nat},
    (nodes m e depth key).Nodup → (∀ a ∈ path, a < m) → (∀ a ∈ path', a < m) →
    path.length ≤ depth → path'.length ≤ depth → follow e key path ≠ 0 →
    follow e key path = follow e key path' → path = path' := by
  induction path with
  | nil =>
    intro depth key path' nodup _ inside' _ short' nonzero same
    cases path' with
    | nil => rfl
    | cons k path' =>
      obtain _ | depth := depth
      · simp at short'
      have nonzero : key ≠ 0 := nonzero
      simp only [follow, if_neg nonzero] at same
      have member : follow e (e key k) path' ∈ nodes m e depth (e key k) :=
        follow_mem (fun a inPath => inside' a (by simp [inPath])) (by simpa using short') (same ▸ nonzero)
      rw [← same] at member
      exact absurd member (notMem_child nodup nonzero (inside' k (by simp)))
  | cons j path ih =>
    intro depth key path' nodup inside inside' short short' nonzero same
    obtain _ | depth := depth
    · simp at short
    have keyNonzero : key ≠ 0 := by
      rintro rfl
      exact nonzero (follow_zero _)
    have jLt := inside j (by simp)
    simp only [follow, if_neg keyNonzero] at nonzero
    have member : follow e (e key j) path ∈ nodes m e depth (e key j) :=
      follow_mem (fun a inPath => inside a (by simp [inPath])) (by simpa using short) nonzero
    cases path' with
    | nil =>
      simp only [follow, if_neg keyNonzero] at same
      rw [same] at member
      exact absurd member (notMem_child nodup keyNonzero jLt)
    | cons k path' =>
      simp only [follow, if_neg keyNonzero] at same
      have kLt := inside' k (by simp)
      have member' : follow e (e key k) path' ∈ nodes m e depth (e key k) :=
        follow_mem (fun a inPath => inside' a (by simp [inPath])) (by simpa using short') (same ▸ nonzero)
      by_cases here : j = k
      · subst here
        rw [ih (child_nodup nodup keyNonzero jLt) (fun a inPath => inside a (by simp [inPath]))
          (fun a inPath => inside' a (by simp [inPath])) (by simpa using short)
          (by simpa using short') nonzero same]
      · exact absurd (same ▸ member) (Multiset.disjoint_right.mp
          (children_disjoint nodup keyNonzero jLt kLt here) member')

/-- A node at depth zero is no array. -/
theorem follow_notMem_inner {path : List Nat} : ∀ {depth key : Nat}, (nodes m e depth key).Nodup →
    (∀ a ∈ path, a < m) → path.length = depth → follow e key path ≠ 0 →
    follow e key path ∉ inner m e depth key := by
  induction path with
  | nil =>
    intro depth key _ _ whole _
    obtain rfl : 0 = depth := whole
    simp [inner, collect]
  | cons j path ih =>
    intro depth key nodup inside whole nonzero
    obtain _ | depth := depth
    · simp at whole
    have keyNonzero : key ≠ 0 := by
      rintro rfl
      exact nonzero (follow_zero _)
    have jLt := inside j (by simp)
    simp only [follow, if_neg keyNonzero] at nonzero ⊢
    have inside : ∀ a ∈ path, a < m := fun a inPath => inside a (by simp [inPath])
    have whole : path.length = depth := by simpa using whole
    have member := follow_mem inside (Nat.le_of_eq whole) nonzero
    rw [inner, collect_succ keyNonzero, Multiset.mem_cons, mem_sum]
    rintro (same | ⟨k, kLt, inChild⟩)
    · rw [same] at member
      exact notMem_child nodup keyNonzero jLt member
    · by_cases here : j = k
      · subst here
        exact ih (child_nodup nodup keyNonzero jLt) inside whole nonzero inChild
      · exact Multiset.disjoint_left.mp (children_disjoint nodup keyNonzero jLt kLt here) member
          (Multiset.mem_of_le inner_le_nodes inChild)

section Set

variable {n z : Nat}

theorem set_self (e : Nat → Nat → Nat) (n k z : Nat) : set e n k z n k = z := by simp [set]

theorem set_of_ne_node {n' : Nat} (k z k' : Nat) (apart : n' ≠ n) : set e n k z n' k' = e n' k' := by
  simp [set, apart]

theorem set_of_ne_slot {k k' : Nat} (n z n' : Nat) (apart : k' ≠ k) :
    set e n k z n' k' = e n' k' := by
  simp [set, apart]

theorem collect_set_of_notMem (k : Nat) (absent : n ∉ inner m e depth key) :
    collect m (set e n k z) leaf depth key = collect m e leaf depth key :=
  collect_congr fun _ member _ _ => set_of_ne_node _ _ _ fun same => absent (same ▸ member)

theorem follow_set_of_notMem {path : List Nat} (k : Nat) (short : path.length ≤ depth)
    (inside : ∀ a ∈ path, a < m) (absent : n ∉ inner m e depth key) :
    follow (set e n k z) key path = follow e key path :=
  follow_congr short inside fun _ member _ _ => set_of_ne_node _ _ _ fun same => absent (same ▸ member)

/-- Replacing a key of an array replaces one subtree by another. -/
theorem collect_set {pre : List Nat} {k : Nat} (kLt : k < m) : ∀ {key : Nat},
    (nodes m e (depth + 1 + pre.length) key).Nodup → (∀ a ∈ pre, a < m) →
    follow e key pre = n → n ≠ 0 → n ∉ inner m e depth z →
    collect m (set e n k z) leaf (depth + 1 + pre.length) key + collect m e leaf depth (e n k) =
      collect m e leaf (depth + 1 + pre.length) key + collect m e leaf depth z := by
  induction pre with
  | nil =>
    intro key nodup _ isNode nonzero absent
    obtain rfl : key = n := isNode
    have same : ∀ j < m, j ≠ k → collect m (set e key k z) leaf depth (set e key k z key j)
        = collect m e leaf depth (e key j) := by
      intro j jLt apart
      rw [set_of_ne_slot _ _ _ apart]
      exact collect_set_of_notMem k fun member =>
        notMem_child nodup nonzero jLt (Multiset.mem_of_le inner_le_nodes member)
    have replaced := sum_replace (f := fun j => collect m e leaf depth (e key j))
      (g := fun j => collect m (set e key k z) leaf depth (set e key k z key j)) kLt same
    rw [set_self, collect_set_of_notMem k absent] at replaced
    simp only [List.length_nil, Nat.add_zero]
    rw [collect_succ nonzero, collect_succ nonzero, Multiset.cons_add, Multiset.cons_add, replaced]
  | cons i pre ih =>
    intro key nodup inside isNode nonzero absent
    have keyNonzero : key ≠ 0 := by
      rintro rfl
      exact nonzero (isNode ▸ follow_zero _)
    have iLt := inside i (by simp)
    simp only [follow, if_neg keyNonzero] at isNode
    have inside : ∀ a ∈ pre, a < m := fun a inPath => inside a (by simp [inPath])
    have nodup : (nodes m e (depth + 1 + pre.length + 1) key).Nodup := nodup
    have member : n ∈ nodes m e (depth + 1 + pre.length) (e key i) := by
      rw [← isNode]
      exact follow_mem inside (by omega) (isNode ▸ nonzero)
    have apart : key ≠ n := by
      rintro rfl
      exact notMem_child nodup keyNonzero iLt member
    have same : ∀ j < m, j ≠ i →
        collect m (set e n k z) leaf (depth + 1 + pre.length) (set e n k z key j)
          = collect m e leaf (depth + 1 + pre.length) (e key j) := by
      intro j jLt other
      rw [set_of_ne_node _ _ _ apart]
      exact collect_set_of_notMem k fun inChild =>
        Multiset.disjoint_left.mp (children_disjoint nodup keyNonzero iLt jLt (Ne.symm other)) member
          (Multiset.mem_of_le inner_le_nodes inChild)
    have replaced := sum_replace (f := fun j => collect m e leaf (depth + 1 + pre.length) (e key j))
      (g := fun j => collect m (set e n k z) leaf (depth + 1 + pre.length) (set e n k z key j)) iLt same
    have below := ih (child_nodup nodup keyNonzero iLt) inside isNode nonzero absent
    rw [set_of_ne_node _ _ _ apart] at replaced
    change collect m (set e n k z) leaf (depth + 1 + pre.length + 1) key + _
      = collect m e leaf (depth + 1 + pre.length + 1) key + _
    rw [collect_succ keyNonzero, collect_succ keyNonzero, Multiset.cons_add, Multiset.cons_add]
    refine congrArg _ ?_
    refine (add_left_inj (collect m e leaf (depth + 1 + pre.length) (e key i))).mp ?_
    rw [add_right_comm, replaced, add_assoc, below, add_right_comm, ← add_assoc]
    exact add_right_comm _ _ _

theorem follow_set {pre : List Nat} {k : Nat} : ∀ {key : Nat} {path : List Nat},
    (nodes m e (depth + 1 + pre.length) key).Nodup → (∀ a ∈ pre, a < m) → (∀ a ∈ path, a < m) →
    path.length ≤ depth + 1 + pre.length → follow e key pre = n → n ≠ 0 → n ∉ inner m e depth z →
    follow (set e n k z) key path =
      if pre ++ [k] <+: path then follow e z (path.drop (pre.length + 1)) else follow e key path := by
  induction pre with
  | nil =>
    intro key path nodup _ inside short isNode nonzero absent
    obtain rfl : key = n := isNode
    cases path with
    | nil => simp [follow]
    | cons j path =>
      have shortRest : path.length ≤ depth := by simpa using short
      have jLt := inside j (by simp)
      have insideRest : ∀ a ∈ path, a < m := fun a inPath => inside a (by simp [inPath])
      simp only [follow, if_neg nonzero, List.nil_append, List.cons_prefix_cons, List.nil_prefix,
        and_true, List.length_nil, Nat.zero_add, List.drop_succ_cons, List.drop_zero]
      split
      · rename_i here
        subst here
        rw [set_self]
        exact follow_set_of_notMem k shortRest insideRest absent
      · rename_i other
        rw [set_of_ne_slot _ _ _ (Ne.symm other)]
        exact follow_set_of_notMem k shortRest insideRest fun member =>
          notMem_child nodup nonzero jLt (Multiset.mem_of_le inner_le_nodes member)
  | cons i pre ih =>
    intro key path nodup insidePre inside short isNode nonzero absent
    have keyNonzero : key ≠ 0 := by
      rintro rfl
      exact nonzero (isNode ▸ follow_zero _)
    have iLt := insidePre i (by simp)
    simp only [follow, if_neg keyNonzero] at isNode
    have insidePre : ∀ a ∈ pre, a < m := fun a inPath => insidePre a (by simp [inPath])
    have nodup : (nodes m e (depth + 1 + pre.length + 1) key).Nodup := nodup
    have member : n ∈ nodes m e (depth + 1 + pre.length) (e key i) := by
      rw [← isNode]
      exact follow_mem insidePre (by omega) (isNode ▸ nonzero)
    have apart : key ≠ n := by
      rintro rfl
      exact notMem_child nodup keyNonzero iLt member
    cases path with
    | nil => simp [follow]
    | cons j path =>
      have shortRest : path.length ≤ depth + 1 + pre.length := by
        simp only [List.length_cons] at short
        omega
      have jLt := inside j (by simp)
      have insideRest : ∀ a ∈ path, a < m := fun a inPath => inside a (by simp [inPath])
      simp only [follow, if_neg keyNonzero, List.cons_append, List.cons_prefix_cons, List.length_cons,
        List.drop_succ_cons]
      rw [set_of_ne_node _ _ _ apart]
      by_cases here : i = j
      · subst here
        simp only [true_and]
        exact ih (child_nodup nodup keyNonzero iLt) insidePre insideRest shortRest isNode nonzero absent
      · simp only [here, false_and, if_false]
        exact follow_set_of_notMem k shortRest insideRest fun inChild =>
          Multiset.disjoint_left.mp (children_disjoint nodup keyNonzero iLt jLt here) member
            (Multiset.mem_of_le inner_le_nodes inChild)

end Set

end MPStuBS.HeapTree
