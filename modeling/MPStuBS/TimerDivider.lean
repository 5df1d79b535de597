import Mathlib.Order.Bounds.Defs
import Mathlib.Tactic.IntervalCases

/-! The divider of the LAPIC timer: `windup` of `device/watch.cc` and `getClockDiv` of
`machine/lapic_timer.cc`. The entry of the watch in the plugbox is left out, and `ticks` is what
`LAPIC::Timer::ticks` returns. -/
namespace MPStuBS

structure Watch where
  ival : BitVec 32
  divide : BitVec 8
  counter : BitVec 32
  deriving DecidableEq, Repr

namespace Watch

/-- The loop of `windup`. Without fuel the search does not end. -/
def findDivider (u : BitVec 64) : Nat → BitVec 16 → Option (BitVec 16)
  | 0, _ => none
  | fuel + 1, div =>
    if div < 255 then
      let divisorLong := u / div.setWidth 64
      let divisor : BitVec 32 := (u / div.setWidth 64).setWidth 32
      if divisorLong = divisor.setWidth 64 then some div else findDivider u fuel (div * 2)
    else some div

def windup (fuel : Nat) (ticks us : BitVec 32) (w : Watch) : Option (Bool × Watch) := do
  let u := us.setWidth 64 * ticks.setWidth 64 / 1000
  let div ← findDivider u fuel 1
  if div ≥ 255 then some (false, w)
  else
    let divide : BitVec 8 := div.setWidth 8
    some (true, ⟨us, divide, (u / divide.setWidth 64).setWidth 32⟩)

end Watch

namespace Timer

def invalidDiv : BitVec 32 := 0xff

def divMasks : List (BitVec 32) := [0xb, 0x0, 0x1, 0x2, 0x3, 0x8, 0x9, 0xa]

/-- `__builtin_ctz`, of a number that is not zero. -/
def ctz (div : BitVec 8) : Nat := div.ctz.toNat

def getClockDiv (div : BitVec 8) : BitVec 32 :=
  if div = 0 ∨ div &&& (div - 1) ≠ 0 then invalidDiv
  else if 7 < ctz div then invalidDiv
  else divMasks.getD (ctz div) invalidDiv

end Timer

namespace Watch

variable {u : BitVec 64} {div : BitVec 16} {k : Nat}

/-- The two quotients are equal exactly if the quotient fits the counter. -/
theorem divisor_eq_iff (small : div.toNat = 2 ^ k) :
    u / div.setWidth 64 = ((u / div.setWidth 64).setWidth 32 : BitVec 32).setWidth 64 ↔ u.toNat / 2 ^ k < 2 ^ 32 := by
  have quotient : (u / div.setWidth 64).toNat = u.toNat / 2 ^ k := by
    have bound := div.isLt
    rw [BitVec.toNat_udiv, BitVec.toNat_setWidth, Nat.mod_eq_of_lt (by omega), small]
  rw [← BitVec.toNat_inj, BitVec.toNat_setWidth, BitVec.toNat_setWidth, quotient]
  have bound := Nat.mod_lt (u.toNat / 2 ^ k) (show 0 < 2 ^ 32 by decide)
  omega

theorem findDivider_finds (n : Nat) : ∀ k div, k + n = 8 → BitVec.toNat div = 2 ^ k →
    (∀ j < k, 2 ^ 32 ≤ u.toNat / 2 ^ j) → ∃ d, findDivider u (n + 1) div = some d ∧ ∃ j ≤ 8, d.toNat = 2 ^ j ∧
      (∀ i < j, 2 ^ 32 ≤ u.toNat / 2 ^ i) ∧ (j < 8 → u.toNat / 2 ^ j < 2 ^ 32) := by
  induction n with
  | zero =>
    intro k div whole power above
    obtain rfl : k = 8 := whole
    have last : ¬ div < 255 := by
      rw [BitVec.lt_def, power]
      decide
    exact ⟨div, by rw [findDivider, if_neg last], 8, Nat.le_refl 8, power, above, fun inside => absurd inside (by decide)⟩
  | succ n ih =>
    intro k div whole power above
    have step : 2 ^ k ≤ 2 ^ 7 := Nat.pow_le_pow_right (by decide) (by omega)
    have more : div < 255 := by
      rw [BitVec.lt_def, power]
      exact Nat.lt_of_le_of_lt step (by decide)
    rw [findDivider, if_pos more]
    dsimp only
    by_cases fits : u.toNat / 2 ^ k < 2 ^ 32
    · rw [if_pos ((divisor_eq_iff power).mpr fits)]
      exact ⟨div, rfl, k, by omega, power, above, fun _ => fits⟩
    · rw [if_neg fun same => fits ((divisor_eq_iff power).mp same)]
      refine ih (k + 1) (div * 2) (by omega) ?_ fun j below => ?_
      · rw [BitVec.toNat_mul, power, Nat.pow_succ]
        exact Nat.mod_eq_of_lt (by
          have := Nat.mul_le_mul_right 2 step
          exact Nat.lt_of_le_of_lt this (by decide))
      · rcases Nat.lt_or_eq_of_le (Nat.le_of_lt_succ below) with earlier | rfl
        · exact above j earlier
        · exact Nat.le_of_not_lt fits

/-- What `windup` does: the first power of two that keeps the counter from overflowing is set. -/
theorem windup_cases (us ticks : BitVec 32) (w : Watch) : ∃ j ≤ 8,
    (∀ i < j, 2 ^ 32 ≤ us.toNat * ticks.toNat / 1000 / 2 ^ i) ∧
    (j = 8 → w.windup 9 ticks us = some (false, w)) ∧
    (j < 8 → us.toNat * ticks.toNat / 1000 / 2 ^ j < 2 ^ 32 ∧ ∃ w', w.windup 9 ticks us = some (true, w') ∧
      w'.ival = us ∧ w'.divide.toNat = 2 ^ j ∧ w'.counter.toNat = us.toNat * ticks.toNat / 1000 / 2 ^ j) := by
  set u := us.setWidth 64 * ticks.setWidth 64 / 1000 with uDef
  have whole : u.toNat = us.toNat * ticks.toNat / 1000 := by
    have product : us.toNat * ticks.toNat < 2 ^ 32 * 2 ^ 32 := Nat.mul_lt_mul'' us.isLt ticks.isLt
    have left := us.isLt
    have right := ticks.isLt
    rw [uDef, BitVec.toNat_udiv, BitVec.toNat_mul, BitVec.toNat_setWidth, BitVec.toNat_setWidth,
      Nat.mod_eq_of_lt (show us.toNat < 2 ^ 64 by omega), Nat.mod_eq_of_lt (show ticks.toNat < 2 ^ 64 by omega),
      Nat.mod_eq_of_lt (by omega)]
    rfl
  obtain ⟨d, found, j, le, power, above, fits⟩ := findDivider_finds (u := u) 8 0 1 rfl rfl (by simp)
  rw [← whole]
  have ran : w.windup 9 ticks us = if d ≥ 255 then some (false, w) else
      some (true, ⟨us, d.setWidth 8, (u / (d.setWidth 8 : BitVec 8).setWidth 64).setWidth 32⟩) := by
    unfold windup
    rw [← uDef]
    simp only [found, Option.bind_eq_bind, Option.bind_some]
  refine ⟨j, le, above, fun last => ?_, fun inside => ⟨fits inside, ?_⟩⟩
  · rw [ran, if_pos]
    rw [ge_iff_le, BitVec.le_def, power, last]
    decide
  · have small : 2 ^ j ≤ 2 ^ 7 := Nat.pow_le_pow_right (by decide) (by omega)
    have divide : (d.setWidth 8 : BitVec 8).toNat = 2 ^ j := by
      rw [BitVec.toNat_setWidth, power]
      exact Nat.mod_eq_of_lt (Nat.lt_of_le_of_lt small (by decide))
    refine ⟨_, ran.trans (if_neg ?_), rfl, divide, ?_⟩
    · rw [ge_iff_le, BitVec.le_def, power, Nat.not_le]
      exact Nat.lt_of_le_of_lt small (by decide)
    · rw [BitVec.toNat_setWidth, BitVec.toNat_udiv, BitVec.toNat_setWidth, divide,
        Nat.mod_eq_of_lt (show 2 ^ j < 2 ^ 64 by omega), Nat.mod_eq_of_lt (fits inside)]

/-- The dividers that keep the counter from overflowing. -/
def Dividers (u : Nat) : Set Nat := {d | (∃ k ≤ 7, d = 2 ^ k) ∧ u / d < 2 ^ 32}

/-- The interval is set exactly if the largest divider keeps the counter from overflowing, with
the least divider that does, and otherwise the watch stays as it was. -/
theorem windup_divides (us ticks : BitVec 32) (w : Watch) : ∃ r w', w.windup 9 ticks us = some (r, w') ∧
    (r = true ↔ us.toNat * ticks.toNat / 1000 / 128 < 2 ^ 32) ∧
    (r = true → IsLeast (Dividers (us.toNat * ticks.toNat / 1000)) w'.divide.toNat ∧
      w'.counter.toNat * w'.divide.toNat ≤ us.toNat * ticks.toNat / 1000 ∧
      us.toNat * ticks.toNat / 1000 < (w'.counter.toNat + 1) * w'.divide.toNat ∧ w'.ival = us) ∧
    (r = false → w' = w) := by
  obtain ⟨j, le, above, overflows, fits⟩ := windup_cases us ticks w
  rcases Nat.lt_or_eq_of_le le with inside | last
  · obtain ⟨fits, w', ran, ival, divide, counter⟩ := fits inside
    have positive : 0 < 2 ^ j := Nat.two_pow_pos j
    have small : 2 ^ j ≤ 2 ^ 7 := Nat.pow_le_pow_right (by decide) (by omega)
    refine ⟨true, w', ran, ⟨fun _ => ?_, fun _ => rfl⟩, fun _ => ⟨⟨?_, ?_⟩, ?_, ?_, ival⟩, by simp⟩
    · exact Nat.lt_of_le_of_lt (Nat.div_le_div_left (by omega) positive) fits
    · rw [divide]
      exact ⟨⟨j, by omega, rfl⟩, fits⟩
    · rintro other ⟨⟨k, -, rfl⟩, fits'⟩
      rw [divide]
      refine Nat.pow_le_pow_right (by decide) (Nat.le_of_not_lt fun below => ?_)
      exact absurd fits' (Nat.not_lt.mpr (above k below))
    · rw [divide, counter]
      exact Nat.div_mul_le_self _ _
    · rw [divide, counter, Nat.add_mul, Nat.one_mul]
      exact Nat.lt_div_mul_add positive
  · refine ⟨false, w, overflows last, ⟨by simp, fun below => ?_⟩, by simp, fun _ => rfl⟩
    exact absurd below (Nat.not_lt.mpr (above 7 (by omega)))

/-- A divider that was set is one that the timer knows, so that `LAPIC::Timer::set` takes it. -/
theorem getClockDiv_windup {us ticks : BitVec 32} {w w' : Watch} (set_ : w.windup 9 ticks us = some (true, w')) :
    Timer.getClockDiv w'.divide ≠ Timer.invalidDiv := by
  obtain ⟨j, le, -, overflows, fits⟩ := windup_cases us ticks w
  rcases Nat.lt_or_eq_of_le le with inside | last
  · obtain ⟨-, w'', ran, -, divide, -⟩ := fits inside
    cases set_.symm.trans ran
    have power : w'.divide = BitVec.ofNat 8 (2 ^ j) := by
      rw [← divide, BitVec.ofNat_toNat, BitVec.setWidth_eq]
    rw [power]
    interval_cases j <;> decide
  · cases set_.symm.trans (overflows last)

end Watch
end MPStuBS
