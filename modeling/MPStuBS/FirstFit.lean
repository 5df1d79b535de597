import Mathlib.Data.Set.Card

/-! Numbers that are drawn one after the other, always the first that is free. -/
namespace MPStuBS.FirstFit

/-- The first number that is free. -/
structure IsFirst (size : Nat) (used : Set Nat) (k : Nat) : Prop where
  inside : k < size
  free : k ∉ used
  before : ∀ j < k, j ∈ used

/-- So many numbers are drawn, until none is free or one is not valid; that one stays in use. -/
inductive Draws (valid : Set Nat) (size : Nat) : Set Nat → Nat → List Nat → Set Nat → Bool → Prop
  | done (used : Set Nat) : Draws valid size used 0 [] used true
  | full {used : Set Nat} {n : Nat} (all : ∀ k < size, k ∈ used) : Draws valid size used (n + 1) [] used false
  | invalid {used : Set Nat} {n k : Nat} (first : IsFirst size used k) (other : k ∉ valid) :
      Draws valid size used (n + 1) [] (insert k used) false
  | next {used used' : Set Nat} {n k : Nat} {ks : List Nat} {whole : Bool} (first : IsFirst size used k)
      (is : k ∈ valid) (rest : Draws valid size (insert k used) n ks used' whole) :
      Draws valid size used (n + 1) (k :: ks) used' whole

/-- Before each free number that is not valid there are so many that are free. -/
def Serves (valid : Set Nat) (size : Nat) (used : Set Nat) (n : Nat) : Prop :=
  ∀ k < size, k ∉ used → k ∉ valid → n ≤ {j | j < k ∧ j ∉ used}.ncard

variable {valid used used' : Set Nat} {size n k : Nat} {ks : List Nat} {whole : Bool}

theorem not_serves_invalid (first : IsFirst size used k) (other : k ∉ valid) : ¬ Serves valid size used (n + 1) := by
  intro serves
  have many := serves k first.inside first.free other
  have none : {j | j < k ∧ j ∉ used} = ∅ := Set.eq_empty_of_forall_notMem fun j free => free.2 (first.before j free.1)
  rw [none, Set.ncard_empty] at many
  omega

/-- Behind the first free number there is one less. -/
theorem ncard_insert_first (first : IsFirst size used k) {k' : Nat} (behind : k < k') :
    {j | j < k' ∧ j ∉ insert k used}.ncard + 1 = {j | j < k' ∧ j ∉ used}.ncard := by
  have without : {j | j < k' ∧ j ∉ insert k used} = {j | j < k' ∧ j ∉ used} \ {k} := by
    ext j
    simp only [Set.mem_insert_iff, Set.mem_sdiff, Set.mem_ofPred_eq, Set.mem_singleton_iff]
    tauto
  rw [without]
  exact Set.ncard_sdiff_singleton_add_one ⟨behind, first.free⟩ ((Set.finite_lt_nat k').subset fun j free => free.1)

theorem serves_insert_iff (first : IsFirst size used k) (is : k ∈ valid) :
    Serves valid size (insert k used) n ↔ Serves valid size used (n + 1) := by
  constructor
  · intro serves k' inside free other
    have apart : k' ≠ k := by
      rintro rfl
      exact other is
    have behind : k < k' := lt_of_le_of_ne (not_lt.mp fun before => free (first.before k' before)) apart.symm
    have enough := serves k' inside (by simp [apart, free]) other
    have one := ncard_insert_first first behind
    omega
  · intro serves k' inside free other
    rw [Set.mem_insert_iff, not_or] at free
    have behind : k < k' :=
      lt_of_le_of_ne (not_lt.mp fun before => free.2 (first.before k' before)) (Ne.symm free.1)
    have enough := serves k' inside free.2 other
    have one := ncard_insert_first first behind
    omega

namespace Draws

theorem subset (draws : Draws valid size used n ks used' whole) : used ⊆ used' := by
  induction draws with
  | done => exact subset_rfl
  | full => exact subset_rfl
  | invalid => exact Set.subset_insert _ _
  | next _ _ _ ih => exact (Set.subset_insert _ _).trans ih

theorem fresh (draws : Draws valid size used n ks used' whole) : ∀ j ∈ ks, j ∉ used := by
  induction draws with
  | done => simp
  | full => simp
  | invalid => simp
  | next first _ _ ih =>
    intro j member
    rcases List.mem_cons.mp member with rfl | later
    · exact first.free
    · exact fun old => ih j later (.inr old)

theorem serves (draws : Draws valid size used n ks used' true) : Serves valid size used n := by
  generalize complete : true = whole at draws
  induction draws with
  | done => exact fun _ _ _ _ => Nat.zero_le _
  | full => cases complete
  | invalid => cases complete
  | next first is _ ih => exact (serves_insert_iff first is).mp (ih complete)

/-- When what has been drawn is given back, only an invalid number is left. -/
theorem undone_iff (draws : Draws valid size used n ks used' false) :
    used' \ {k | k ∈ ks} = used ↔ Serves valid size used n := by
  generalize incomplete : false = whole at draws
  induction draws with
  | done => cases incomplete
  | full all => exact iff_of_true (by simp) fun k inside free => absurd (all k inside) free
  | @invalid used n k first other =>
    refine iff_of_false (fun same => first.free ?_) (not_serves_invalid first other)
    rw [← same]
    simp
  | @next used used' n k ks whole first is rest ih =>
    rw [← serves_insert_iff first is, ← ih incomplete]
    have taken : k ∈ used' := rest.subset (Set.mem_insert _ _)
    have once : k ∉ ks := fun member => rest.fresh k member (Set.mem_insert _ _)
    constructor
    · intro same
      rw [← same]
      ext j
      simp only [Set.mem_sdiff, Set.mem_ofPred_eq, List.mem_cons, Set.mem_insert_iff]
      by_cases here : j = k
      · simp [here, taken, once]
      · simp [here]
    · intro same
      ext j
      have here : j ∈ used' \ {j | j ∈ ks} ↔ j ∈ insert k used := by rw [same]
      simp only [Set.mem_sdiff, Set.mem_ofPred_eq, List.mem_cons, Set.mem_insert_iff] at here ⊢
      by_cases isFirst : j = k
      · simp [isFirst, first.free]
      · simpa [isFirst] using here

end Draws

end MPStuBS.FirstFit
