import Mathlib.Init

/-! Conversions to `unsigned` and to `int`, and loops over numbers. -/
namespace MPStuBS

/-- The `unsigned` that a number is converted to. -/
def u32 (x : Int) : Nat := (x % 4294967296).toNat

/-- The `int` that a number is converted to. -/
def i32 (x : Int) : Int := (x + 2147483648) % 4294967296 - 2147483648

/-- The numbers of a loop from one number to another. -/
def upTo (low high : Nat) : List Nat := List.range' low (high - low)

theorem u32_lt (x : Int) : u32 x < 4294967296 := by
  unfold u32
  omega

theorem u32_of_lt {n : Nat} (small : n < 4294967296) : u32 n = n := by
  unfold u32
  omega

theorem u32_of_nonneg {x : Int} (nonneg : 0 ≤ x) (small : x < 4294967296) : u32 x = x.toNat := by
  unfold u32
  omega

theorem u32_sub {n m : Nat} (le : m ≤ n) (small : n < 4294967296) : u32 (n - m) = n - m := by
  unfold u32
  omega

theorem i32_of_lt {x : Int} (low : -2147483648 ≤ x) (high : x < 2147483648) : i32 x = x := by
  unfold i32
  omega

theorem i32_add (x y : Int) : i32 (i32 x + y) = i32 (x + y) := by
  unfold i32
  omega

theorem u32_i32_add (x y : Int) : u32 (i32 x + y) = u32 (x + y) := by
  unfold u32 i32
  omega

/-- What one turn of a loop carries on, the loop carries to its end. -/
theorem upTo_carries {σ : Type} {f : σ → Nat → σ} (P : Nat → σ → Prop) {low high : Nat} (le : low ≤ high)
    (step : ∀ i s, low ≤ i → i < high → P i s → P (i + 1) (f s i)) {s : σ} (start : P low s) :
    P high ((upTo low high).foldl f s) := by
  obtain ⟨n, rfl⟩ := Nat.exists_eq_add_of_le le
  unfold upTo
  rw [Nat.add_sub_cancel_left]
  clear le
  induction n generalizing low s with
  | zero => exact start
  | succ n ih =>
    rw [List.range'_succ, List.foldl_cons, show low + (n + 1) = low + 1 + n by omega]
    exact ih (step low s (Nat.le_refl _) (by omega) start) fun i s above below => step i s (by omega) (by omega)

end MPStuBS
