import Mathlib.Logic.Function.Basic

/-! Loops that set one cell of a store after the other, where what is set may depend on the cells before. -/
namespace MPStuBS

/-- A store of cells: only the cell that is set changes. -/
structure Cells (σ α : Type) where
  get : σ → Nat → α
  set : σ → Nat → α → σ
  get_set : ∀ s i a j, get (set s i a) j = if j = i then a else get s j

namespace Cells

variable {σ α : Type} (cells : Cells σ α) {s₀ s : σ} {base n : Nat} {content : Nat → α}

/-- The values from the `i`-th on are stored at `base`, `n` of them. -/
def fill (value : σ → Nat → α) (base : Nat) : Nat → Nat → σ → σ
  | 0, _, s => s
  | n + 1, i, s => fill value base n (i + 1) (cells.set s (base + i) (value s i))

/-- Whatever is stored. -/
theorem fill_others (value : σ → Nat → α) (n : Nat) : ∀ {i s j}, j < base + i ∨ base + i + n ≤ j →
    cells.get (cells.fill value base n i s) j = cells.get s j := by
  induction n with
  | zero => exact fun {_ _ _} _ => rfl
  | succ n ih =>
    intro i s j outside
    rw [fill, ih (by omega), cells.get_set, if_neg (by omega)]

/-- So many cells have this content, and the others are what they were. -/
structure Filled (s₀ : σ) (base : Nat) (content : Nat → α) (n : Nat) (s : σ) : Prop where
  content : ∀ k < n, cells.get s (base + k) = content k
  others : ∀ j, j < base ∨ base + n ≤ j → cells.get s j = cells.get s₀ j

theorem Filled.start (s : σ) (base : Nat) (content : Nat → α) : cells.Filled s base content 0 s :=
  ⟨fun _ none => absurd none (Nat.not_lt_zero _), fun _ _ => rfl⟩

variable {cells}

theorem Filled.next (filled : cells.Filled s₀ base content n s) :
    cells.Filled s₀ base content (n + 1) (cells.set s (base + n) (content n)) := by
  refine ⟨fun k inside => ?_, fun j outside => ?_⟩
  · rw [cells.get_set]
    split
    · rw [show k = n by omega]
    · exact filled.content k (by omega)
  · rw [cells.get_set, if_neg (by omega)]
    exact filled.others j (by omega)

/-- Each value is that of its cell while the cells before are filled. -/
theorem Filled.fill {value : σ → Nat → α} {count : Nat}
    (is : ∀ i s, n ≤ i → i < n + count → cells.Filled s₀ base content i s → value s i = content i)
    (filled : cells.Filled s₀ base content n s) : cells.Filled s₀ base content (n + count) (cells.fill value base count n s) := by
  induction count generalizing n s with
  | zero => exact filled
  | succ count ih =>
    have here := is n s (Nat.le_refl n) (by omega) filled
    rw [Cells.fill, here, ← Nat.add_assoc, Nat.add_right_comm]
    exact ih (fun i s least most => is i s (by omega) (by omega)) filled.next

/-- Two stores one after the other, of what belongs together. -/
theorem Filled.append {content' : Nat → α} {n' : Nat} {s' : σ} (filled : cells.Filled s₀ base content n s)
    (filled' : cells.Filled s (base + n) content' n' s') :
    cells.Filled s₀ base (fun k => if k < n then content k else content' (k - n)) (n + n') s' := by
  refine ⟨fun k inside => ?_, fun j outside => ?_⟩
  · split
    · rw [filled'.others _ (by omega)]
      exact filled.content k ‹_›
    · have second := filled'.content (k - n) (by omega)
      rwa [show base + n + (k - n) = base + k by omega] at second
  · rw [filled'.others _ (by omega)]
    exact filled.others j (by omega)

theorem Filled.congr {content' : Nat → α} (filled : cells.Filled s₀ base content n s)
    (same : ∀ k < n, content k = content' k) : cells.Filled s₀ base content' n s :=
  ⟨fun k inside => (filled.content k inside).trans (same k inside), filled.others⟩

end Cells

/-- The cells of a function. -/
def functionCells (α : Type) : Cells (Nat → α) α where
  get := fun s i => s i
  set := Function.update
  get_set := fun s i a j => by rw [Function.update_apply]

end MPStuBS
