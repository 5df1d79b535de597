import MPStuBS.TreeSharing
import Mathlib.Data.Set.Function

/-! The paths of the logical blocks of a file: `block_to_path` numbers the slots of the tree. -/
namespace MPStuBS.Minix

/-- A path to a slot for data, with the number of entries of a block. -/
def ValidPath (count : Nat) : List Nat → Prop
  | [i] => i < 7
  | [top, i] => top = 7 ∧ i < count
  | [top, i, j] => top = 8 ∧ i < count ∧ j < count
  | [top, i, j, k] => top = 9 ∧ i < count ∧ j < count ∧ k < count
  | _ => False

variable {count block : Nat}

theorem blockToPath_valid (bound : block < addressable count) : ValidPath count (blockToPath count block) := by
  unfold addressable at bound
  unfold blockToPath
  split
  · assumption
  split
  · exact ⟨rfl, by assumption⟩
  have positive : 0 < count := by
    rcases Nat.eq_zero_or_pos count with rfl | positive
    · omega
    · exact positive
  split
  · rename_i double
    exact ⟨rfl, Nat.div_lt_of_lt_mul double, Nat.mod_lt _ positive⟩
  · have triple : (block - 7 - count - count * count) / count < count * count := Nat.div_lt_of_lt_mul (by
      rw [← Nat.mul_assoc]
      omega)
    exact ⟨rfl, Nat.div_lt_of_lt_mul triple, Nat.mod_lt _ positive, Nat.mod_lt _ positive⟩

/-- An index in front of another one, as a number. -/
theorem pair_lt {i j n : Nat} (first : i < n) (second : j < count) : i * count + j < n * count :=
  calc i * count + j < i * count + count := Nat.add_lt_add_left second _
    _ = (i + 1) * count := (Nat.succ_mul i count).symm
    _ ≤ n * count := Nat.mul_le_mul_right count first

theorem pair_div {i j : Nat} (second : j < count) : (i * count + j) / count = i := by
  rw [Nat.add_comm, Nat.add_mul_div_right _ _ (Nat.zero_lt_of_lt second), Nat.div_eq_of_lt second, Nat.zero_add]

theorem pair_mod {i j : Nat} (second : j < count) : (i * count + j) % count = j := by
  rw [Nat.add_comm, Nat.add_mul_mod_self_right, Nat.mod_eq_of_lt second]

/-- Every slot has a block. -/
theorem blockToPath_reaches {path : List Nat} (valid : ValidPath count path) :
    ∃ block, block < addressable count ∧ blockToPath count block = path := by
  unfold addressable
  match path, valid with
  | [i], direct => exact ⟨i, by unfold ValidPath at direct; omega, if_pos direct⟩
  | [_, i], ⟨rfl, first⟩ =>
    refine ⟨7 + i, by omega, ?_⟩
    unfold blockToPath
    rw [Nat.add_sub_cancel_left, if_neg (by omega), if_pos first]
  | [_, i, j], ⟨rfl, first, second⟩ =>
    have inside := pair_lt first second
    refine ⟨7 + count + (i * count + j), by omega, ?_⟩
    unfold blockToPath
    rw [Nat.add_assoc, Nat.add_sub_cancel_left, Nat.add_sub_cancel_left, if_neg (by omega), if_neg (by omega), if_pos inside,
      pair_div second, pair_mod second]
  | [_, i, j, k], ⟨rfl, first, second, third⟩ =>
    have inside := pair_lt (pair_lt first second) third
    refine ⟨7 + count + count * count + ((i * count + j) * count + k), by omega, ?_⟩
    unfold blockToPath
    rw [Nat.add_assoc 7, Nat.add_assoc 7, Nat.add_sub_cancel_left, Nat.add_assoc count, Nat.add_sub_cancel_left,
      Nat.add_sub_cancel_left, if_neg (by omega), if_neg (by omega), if_neg (by omega)]
    dsimp only
    rw [pair_div third, pair_mod third, pair_div second, pair_mod second]

/-- Blocks and slots correspond to each other, in their order: a path comes before another one when it
is smaller where they first differ. -/
theorem blockToPath_bijOn (count : Nat) :
    Set.BijOn (blockToPath count) {block | block < 7 + count + count ^ 2 + count ^ 3} {path | ValidPath count path} ∧
    ∀ block block', block < block' ↔ Precedes (blockToPath count block) (blockToPath count block') := by
  have size : 7 + count + count ^ 2 + count ^ 3 = addressable count := by
    rw [Nat.pow_succ (n := count) (m := 2), Nat.pow_two]
    rfl
  rw [size]
  refine ⟨⟨fun block => blockToPath_valid, ?_, fun path => blockToPath_reaches⟩, fun _ _ => blockToPath_precedes_iff.symm⟩
  intro block _ block' _ same
  rcases Nat.lt_trichotomy block block' with less | equal | more
  · exact absurd (same ▸ blockToPath_precedes less) (not_precedes_self _)
  · exact equal
  · exact absurd (same ▸ blockToPath_precedes more) (not_precedes_self _)

end MPStuBS.Minix
