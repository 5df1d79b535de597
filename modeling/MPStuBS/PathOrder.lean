import Mathlib.Data.List.Basic
import Mathlib.Order.Lattice

/-! The order of the paths of a tree: one path comes before another if it leads to an earlier child
where they part. Nothing here names a particular program. -/
namespace MPStuBS

variable {α : Type}

/-- The paths part, and the first one with the smaller entry. -/
def Precedes [LT α] : List α → List α → Prop
  | a :: p, b :: q => a < b ∨ a = b ∧ Precedes p q
  | _, _ => False

section Rules

variable [LT α] {p q : List α}

@[simp] theorem not_precedes_nil_left : ¬ Precedes [] q := by
  cases q <;> exact not_false

@[simp] theorem not_precedes_nil_right : ¬ Precedes p [] := by
  cases p <;> exact not_false

@[simp] theorem precedes_cons {a b : α} : Precedes (a :: p) (b :: q) ↔ a < b ∨ a = b ∧ Precedes p q := Iff.rfl

/-- What extends the first path comes before the second as well. -/
theorem Precedes.extend : ∀ {p q : List α} (rest : List α), Precedes p q → Precedes (p ++ rest) q
  | _ :: _, _ :: _, _, .inl less => .inl less
  | _ :: _, _ :: _, rest, .inr ⟨same, before⟩ => .inr ⟨same, before.extend rest⟩

theorem prefix_or_precedes : ∀ {p q rest : List α}, Precedes (p ++ rest) q → p <+: q ∨ Precedes p q
  | [], _, _, _ => .inl List.nil_prefix
  | _ :: _, _ :: _, _, .inl less => .inr (.inl less)
  | _ :: _, _ :: _, _, .inr ⟨same, before⟩ => by
    subst same
    rcases prefix_or_precedes before with starts | before
    · exact .inl ((List.prefix_cons_inj _).mpr starts)
    · exact .inr (.inr ⟨rfl, before⟩)

theorem prefix_or_precedes_right : ∀ {p q rest : List α}, Precedes q (p ++ rest) → p <+: q ∨ Precedes q p
  | [], _, _, _ => .inl List.nil_prefix
  | _ :: _, _ :: _, _, .inl less => .inr (.inl less)
  | _ :: _, _ :: _, _, .inr ⟨same, before⟩ => by
    subst same
    rcases prefix_or_precedes_right before with starts | before
    · exact .inl ((List.prefix_cons_inj _).mpr starts)
    · exact .inr (.inr ⟨rfl, before⟩)

/-- A path is followed by what branches off it to later children. -/
theorem precedes_snoc {a : α} : ∀ {p q : List α}, Precedes (p ++ [a]) q ↔ Precedes p q ∨ ∃ b, a < b ∧ p ++ [b] <+: q
  | [], [] => by simp
  | [], b :: q => by simp [List.cons_prefix_cons]
  | _ :: _, [] => by simp
  | c :: p, d :: q => by
    simp only [List.cons_append, precedes_cons, precedes_snoc, List.cons_prefix_cons]
    constructor
    · rintro (less | ⟨rfl, before | ⟨b, less, starts⟩⟩)
      · exact .inl (.inl less)
      · exact .inl (.inr ⟨rfl, before⟩)
      · exact .inr ⟨b, less, rfl, starts⟩
    · rintro ((less | ⟨rfl, before⟩) | ⟨b, less, rfl, starts⟩)
      · exact .inl less
      · exact .inr ⟨rfl, .inl before⟩
      · exact .inr ⟨rfl, .inr ⟨b, less, starts⟩⟩

end Rules

variable [LinearOrder α]

@[simp] theorem precedes_append_left {p q : List α} : ∀ (l : List α), Precedes (l ++ p) (l ++ q) ↔ Precedes p q
  | [] => Iff.rfl
  | a :: l => by simp [precedes_append_left l]

theorem Precedes.asymm : ∀ {p q : List α}, Precedes p q → ¬ Precedes q p
  | _ :: _, _ :: _, .inl less, .inl greater => lt_asymm less greater
  | _ :: _, _ :: _, .inl less, .inr ⟨same, _⟩ => lt_irrefl _ (same ▸ less)
  | _ :: _, _ :: _, .inr ⟨same, _⟩, .inl less => lt_irrefl _ (same ▸ less)
  | _ :: _, _ :: _, .inr ⟨_, before⟩, .inr ⟨_, after⟩ => before.asymm after

theorem not_precedes_self (p : List α) : ¬ Precedes p p := fun before => before.asymm before

/-- Nothing comes before the first children all the way down. -/
theorem not_precedes_of_least {bot : α} (least : ∀ a, bot ≤ a) : ∀ {q zeros : List α}, (∀ z ∈ zeros, z = bot) →
    ¬ Precedes q zeros
  | [], _, _ => not_precedes_nil_left
  | _ :: _, [], _ => not_precedes_nil_right
  | a :: _, z :: _, all => by
    rintro (less | ⟨-, before⟩)
    · exact absurd (all z (.head _) ▸ least a) (not_le_of_gt less)
    · exact not_precedes_of_least least (fun z member => all z (.tail _ member)) before

end MPStuBS
