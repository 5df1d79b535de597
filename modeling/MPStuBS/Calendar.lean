import Mathlib.Order.Monotone.Basic

/-! The Gregorian calendar, one day after the other. -/
namespace MPStuBS

structure Date where
  year : Nat
  month : Nat
  day : Nat
  deriving DecidableEq, Repr

namespace Date

def IsLeap (year : Nat) : Prop := year % 4 = 0 ∧ (year % 100 ≠ 0 ∨ year % 400 = 0)

instance (year : Nat) : Decidable (IsLeap year) := inferInstanceAs (Decidable (_ ∧ _))

/-- The number of days of a month. -/
def daysIn (year month : Nat) : Nat :=
  if month = 2 then if IsLeap year then 29 else 28
  else if month = 4 ∨ month = 6 ∨ month = 9 ∨ month = 11 then 30
  else 31

structure Valid (d : Date) : Prop where
  month : 1 ≤ d.month ∧ d.month ≤ 12
  day : 1 ≤ d.day ∧ d.day ≤ daysIn d.year d.month

def next (d : Date) : Date :=
  if d.day < daysIn d.year d.month then { d with day := d.day + 1 }
  else if d.month < 12 then ⟨d.year, d.month + 1, 1⟩
  else ⟨d.year + 1, 1, 1⟩

def after (d : Date) : Nat → Date
  | 0 => d
  | n + 1 => (d.after n).next

/-- The days of the week from 1 to 7. -/
def weekdayAfter (first : Nat) : Nat → Nat
  | 0 => first
  | n + 1 => weekdayAfter first n % 7 + 1

theorem weekdayAfter_eq (first n : Nat) (day : 1 ≤ first ∧ first ≤ 7) : weekdayAfter first n = (first - 1 + n) % 7 + 1 := by
  induction n with
  | zero =>
    unfold weekdayAfter
    omega
  | succ n ih =>
    unfold weekdayAfter
    omega

theorem daysIn_pos (year month : Nat) : 28 ≤ daysIn year month := by
  unfold daysIn
  split
  · split <;> decide
  · split <;> decide

theorem daysIn_le (year month : Nat) : daysIn year month ≤ 31 := by
  unfold daysIn
  split
  · split <;> decide
  · split <;> decide

theorem Valid.next {d : Date} (valid : d.Valid) : d.next.Valid := by
  have month := valid.month
  have day := valid.day
  unfold Date.next
  split
  · rename_i more
    exact ⟨month, Nat.succ_le_succ (Nat.zero_le _), more⟩
  · split
    · rename_i more
      exact ⟨⟨Nat.succ_le_succ (Nat.zero_le _), more⟩, Nat.le_refl 1,
        Nat.le_trans (show 1 ≤ 28 by decide) (daysIn_pos _ _)⟩
    · exact ⟨⟨Nat.le_refl 1, show 1 ≤ 12 by decide⟩, Nat.le_refl 1, Nat.le_trans (show 1 ≤ 28 by decide) (daysIn_pos _ _)⟩

theorem Valid.after {d : Date} (valid : d.Valid) (n : Nat) : (d.after n).Valid := by
  induction n with
  | zero => exact valid
  | succ n ih => exact ih.next

/-- Dates in the order of time. -/
def rank (d : Date) : Nat := (d.year * 12 + d.month) * 31 + d.day

theorem rank_next {d : Date} (valid : d.Valid) : d.rank < d.next.rank := by
  have month := valid.month
  have day := valid.day
  have most := daysIn_le d.year d.month
  unfold Date.next rank
  split
  · dsimp only
    omega
  · split
    · dsimp only
      omega
    · dsimp only
      omega

/-- No date comes twice. -/
theorem after_inj {d : Date} (valid : d.Valid) {n m : Nat} : d.after n = d.after m ↔ n = m := by
  have rises : StrictMono fun n => (d.after n).rank := strictMono_nat_of_lt_succ fun n => rank_next (valid.after n)
  exact ⟨fun same => rises.injective (congrArg rank same), fun same => by rw [same]⟩

/-- Four years later. -/
def later (cycles : Nat) (d : Date) : Date := { d with year := d.year + 4 * cycles }

/-- In the years around 2000, every fourth one is a leap year. -/
theorem isLeap_iff {year : Nat} (start : 1901 ≤ year) (bound : year < 2100) : IsLeap year ↔ year % 4 = 0 := by
  unfold IsLeap
  omega

theorem daysIn_later {year : Nat} (cycles : Nat) (start : 1901 ≤ year) (bound : year + 4 * cycles < 2100) (month : Nat) :
    daysIn (year + 4 * cycles) month = daysIn year month := by
  have leap : IsLeap (year + 4 * cycles) ↔ IsLeap year := by
    rw [isLeap_iff (by omega) bound, isLeap_iff start (by omega), Nat.add_mul_mod_self_left]
  unfold daysIn
  rw [if_congr leap rfl rfl]

theorem next_later {d : Date} (cycles : Nat) (start : 1901 ≤ d.year) (bound : d.year + 4 * cycles < 2100) :
    (d.later cycles).next = d.next.later cycles := by
  have days := daysIn_later cycles start bound d.month
  unfold next later
  dsimp only
  rw [days]
  split
  · rfl
  · split
    · rfl
    · rw [Nat.add_right_comm]

end Date
end MPStuBS
