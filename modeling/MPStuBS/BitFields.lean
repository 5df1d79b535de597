import Mathlib.Data.BitVec

/-! Fields of consecutive bits in a word, read and written like the bit fields of a structure. -/
namespace MPStuBS

structure BitField (w : Nat) where
  offset : Nat
  width : Nat
  fits : offset + width ≤ w

namespace BitField

variable {w : Nat} (f g : BitField w)

def mask : BitVec w := (BitVec.allOnes f.width).setWidth w <<< f.offset

def get (v : BitVec w) : BitVec f.width := v.extractLsb' f.offset f.width

def set (x : BitVec f.width) (v : BitVec w) : BitVec w := v &&& ~~~f.mask ||| x.setWidth w <<< f.offset

/-- No bit is in both fields. -/
def Apart : Prop := f.offset + f.width ≤ g.offset ∨ g.offset + g.width ≤ f.offset

instance : Decidable (Apart f g) := inferInstanceAs (Decidable (_ ∨ _))

variable {f g}

theorem getLsbD_get (v : BitVec w) (i : Nat) :
    (f.get v).getLsbD i = (decide (i < f.width) && v.getLsbD (f.offset + i)) := BitVec.getLsbD_extractLsb' ..

theorem getLsbD_mask (i : Nat) :
    f.mask.getLsbD i = decide (f.offset ≤ i ∧ i < f.offset + f.width) := by
  have fits := f.fits
  unfold mask
  rw [BitVec.getLsbD_shiftLeft, BitVec.getLsbD_setWidth, BitVec.getLsbD_allOnes, Bool.eq_iff_iff]
  simp only [Bool.and_eq_true, decide_eq_true_eq, Bool.not_eq_true', decide_eq_false_iff_not]
  omega

theorem getLsbD_set (x : BitVec f.width) (v : BitVec w) (i : Nat) :
    (f.set x v).getLsbD i =
      if f.offset ≤ i ∧ i < f.offset + f.width then x.getLsbD (i - f.offset) else v.getLsbD i := by
  have fits := f.fits
  unfold set
  rw [BitVec.getLsbD_or, BitVec.getLsbD_and, BitVec.getLsbD_not, getLsbD_mask, BitVec.getLsbD_shiftLeft,
    BitVec.getLsbD_setWidth]
  split
  · rename_i inside
    have word : i < w := by omega
    have above : i - f.offset < w := by omega
    simp [inside.1, inside.2, word, above]
  · rename_i outside
    have same : (decide (i < w) && !decide (i < f.offset) &&
        (decide (i - f.offset < w) && x.getLsbD (i - f.offset))) = false := by
      by_cases before : i < f.offset
      · simp [before]
      · have behind : f.width ≤ i - f.offset := by omega
        rw [BitVec.getLsbD_of_ge x _ behind]
        simp
    rw [same, Bool.or_false, decide_eq_false outside, Bool.not_false, Bool.and_true]
    by_cases word : i < w
    · rw [decide_eq_true word, Bool.and_true]
    · rw [BitVec.getLsbD_of_ge v _ (Nat.le_of_not_lt word), Bool.false_and]

theorem get_set (x : BitVec f.width) (v : BitVec w) : f.get (f.set x v) = x := by
  refine BitVec.eq_of_getLsbD_eq fun i inside => ?_
  rw [getLsbD_get, getLsbD_set, decide_eq_true inside, Bool.true_and, if_pos ⟨Nat.le_add_right .., by omega⟩,
    Nat.add_sub_cancel_left]

theorem get_set_apart (apart : Apart f g) (x : BitVec g.width) (v : BitVec w) : f.get (g.set x v) = f.get v := by
  refine BitVec.eq_of_getLsbD_eq fun i inside => ?_
  have outside : ¬(g.offset ≤ f.offset + i ∧ f.offset + i < g.offset + g.width) := by
    unfold Apart at apart
    omega
  rw [getLsbD_get, getLsbD_get, getLsbD_set, if_neg outside]

theorem set_set (x y : BitVec f.width) (v : BitVec w) : f.set x (f.set y v) = f.set x v := by
  refine BitVec.eq_of_getLsbD_eq fun i _ => ?_
  rw [getLsbD_set, getLsbD_set, getLsbD_set]
  split
  · rfl
  · rfl

theorem set_comm (apart : Apart f g) (x : BitVec f.width) (y : BitVec g.width) (v : BitVec w) :
    f.set x (g.set y v) = g.set y (f.set x v) := by
  refine BitVec.eq_of_getLsbD_eq fun i _ => ?_
  rw [getLsbD_set, getLsbD_set, getLsbD_set, getLsbD_set]
  unfold Apart at apart
  split
  · rw [if_neg (by omega)]
  · rfl

variable {m n : Nat}

/-- A field of the lower one of two words. -/
theorem set_append (h : BitField n) (x : BitVec h.width) (upper : BitVec m) (lower : BitVec n) :
    (⟨h.offset, h.width, Nat.le_trans h.fits (Nat.le_add_left ..)⟩ : BitField (m + n)).set x (upper ++ lower) =
      upper ++ h.set x lower := by
  have fits := h.fits
  refine BitVec.eq_of_getLsbD_eq fun i _ => ?_
  rw [getLsbD_set, BitVec.getLsbD_append, BitVec.getLsbD_append]
  dsimp only
  by_cases inside : i < n
  · rw [if_pos inside, if_pos inside, getLsbD_set]
  · rw [if_neg inside, if_neg inside, if_neg (by omega)]

end BitField

end MPStuBS
