import MPStuBS.Calendar
import MPStuBS.MachineWords

/-! Dates and times: `object/time.cc`. One entry of the table of days is wrong, so that exactly the
days of every fourth July are converted to others. -/
namespace MPStuBS

structure DateTime where
  second : Nat
  minute : Nat
  hour : Nat
  weekday : Nat
  day : Nat
  month : Nat
  year : Nat
  deriving DecidableEq, Repr

namespace DateTime

/-- The days of four years before each of their months. -/
def days : List (List Nat) := [
  [0, 31, 59, 90, 120, 151, 181, 212, 243, 273, 304, 334],
  [365, 396, 424, 455, 485, 516, 547, 577, 608, 638, 669, 699],
  [730, 761, 790, 821, 851, 882, 912, 943, 974, 1004, 1035, 1065],
  [1096, 1127, 1155, 1186, 1216, 1247, 1277, 1308, 1339, 1369, 1400, 1430]]

def days4y : Nat := 365 * 4 + 1

def entry (days : List (List Nat)) (year month : Nat) : Nat := (days.getD year []).getD month 0

/-- The search from the back of a row for the last entry that is at most `epoch`. -/
def lastEntry (row : Nat → Nat) (epoch : Nat) : Nat → Nat
  | 0 => 0
  | i + 1 => if epoch < row (i + 1) then lastEntry row epoch i else i + 1

/-- The year, the month and the day in four years. -/
def locate (days : List (List Nat)) (epoch : Nat) : Nat × Nat × Nat :=
  let year := lastEntry (fun year => entry days year 0) epoch 3
  let month := lastEntry (entry days year) epoch 11
  (year, month, epoch - entry days year month + 1)

def construct (epoch : Nat) : DateTime :=
  let second := epoch % 60
  let epoch := epoch / 60
  let minute := epoch % 60
  let epoch := epoch / 60
  let hour := epoch % 24
  let epoch := epoch / 24
  let weekday := (epoch + 4) % 7 + 1
  let y := 1970 + epoch / days4y * 4
  let epoch := epoch % days4y
  let (year, month, day) := locate days epoch
  ⟨second, minute, hour, weekday, day % 256, month + 1, (year + y) % 65536⟩

/-- A month outside of the table is an error. -/
def toTimestamp (t : DateTime) : Option Nat :=
  let y := u32 (t.year - 1970)
  let m := u32 (t.month - 1)
  if m < 12 then
    let d := u32 (y / 4 * days4y + entry days (y % 4) m + t.day - 1)
    some (u32 (((d * 24 + t.hour) * 60 + t.minute) * 60 + t.second))
  else none

section Search

theorem lastEntry_eq {row : Nat → Nat} {epoch i : Nat} : ∀ {k}, i ≤ k → row i ≤ epoch →
    (∀ j, i < j → j ≤ k → epoch < row j) → lastEntry row epoch k = i := by
  intro k
  induction k with
  | zero => exact fun le _ _ => (Nat.le_zero.mp le).symm
  | succ k ih =>
    intro le low high
    unfold lastEntry
    rcases Nat.lt_or_eq_of_le le with less | rfl
    · rw [if_pos (high (k + 1) less (Nat.le_refl _))]
      exact ih (Nat.le_of_lt_succ less) low fun j above below => high j above (Nat.le_succ_of_le below)
    · rw [if_neg (Nat.not_lt.mpr low)]

/-- The months of four years from 0 to 47, and the end of the last one. -/
def start (d : List (List Nat)) (k : Nat) : Nat := if k < 48 then entry d (k / 12) (k % 12) else days4y

/-- Months do not start before earlier ones. -/
def Sorted (d : List (List Nat)) : Prop := ∀ k < 48, start d k ≤ start d (k + 1)

variable {d : List (List Nat)} {epoch : Nat}

theorem Sorted.le (sorted : Sorted d) {a b : Nat} (le : a ≤ b) (bound : b ≤ 48) : start d a ≤ start d b := by
  induction b, le using Nat.le_induction with
  | base => exact Nat.le_refl _
  | succ b _ ih => exact Nat.le_trans (ih (Nat.le_of_succ_le bound)) (sorted b bound)

theorem start_entry {year month : Nat} (years : year < 4) (months : month < 12) :
    start d (12 * year + month) = entry d year month := by
  unfold start
  rw [if_pos (by omega), show (12 * year + month) / 12 = year by omega, show (12 * year + month) % 12 = month by omega]

/-- The search finds the month of a day. -/
theorem locate_eq (sorted : Sorted d) {year month : Nat} (years : year < 4) (months : month < 12)
    (low : entry d year month ≤ epoch) (high : epoch < start d (12 * year + month + 1)) :
    locate d epoch = (year, month, epoch - entry d year month + 1) := by
  have here := start_entry (d := d) years months
  have first : lastEntry (fun year => entry d year 0) epoch 3 = year := by
    refine lastEntry_eq (Nat.le_of_lt_succ years) ?_ fun j above below => ?_
    · rw [← start_entry years (by decide)]
      exact Nat.le_trans (sorted.le (by omega) (by omega)) (Nat.le_trans (Nat.le_of_eq here) low)
    · rw [← start_entry (by omega) (by decide)]
      exact Nat.lt_of_lt_of_le high (sorted.le (by omega) (by omega))
  have second : lastEntry (entry d year) epoch 11 = month := by
    refine lastEntry_eq (Nat.le_of_lt_succ months) low fun j above below => ?_
    rw [← start_entry years (by omega)]
    exact Nat.lt_of_lt_of_le high (sorted.le (by omega) (by omega))
  unfold locate
  rw [first]
  dsimp only
  rw [second]

/-- Every day of the four years is in one of their months. -/
theorem exists_month (zero : start d 0 = 0) (bound : epoch < days4y) : ∃ year < 4, ∃ month < 12,
    entry d year month ≤ epoch ∧ epoch < start d (12 * year + month + 1) := by
  have search : ∀ k, epoch < start d k → ∃ i < k, start d i ≤ epoch ∧ epoch < start d (i + 1) := by
    intro k
    induction k with
    | zero => exact fun below => absurd below (by rw [zero]; exact Nat.not_lt_zero _)
    | succ k ih =>
      intro below
      rcases Nat.lt_or_ge epoch (start d k) with before | behind
      · obtain ⟨i, less, here⟩ := ih before
        exact ⟨i, Nat.lt_succ_of_lt less, here⟩
      · exact ⟨k, Nat.lt_succ_self k, behind, below⟩
  obtain ⟨k, less, low, high⟩ := search 48 bound
  refine ⟨k / 12, by omega, k % 12, by omega, ?_, ?_⟩
  · rw [start, if_pos less] at low
    exact low
  · rwa [Nat.div_add_mod]

end Search

section Tables

/-- The table with the day on which the second July starts. -/
def gregorianDays : List (List Nat) := days.set 1 ((days.getD 1 []).set 6 546)

theorem sorted_days : Sorted days := by
  unfold Sorted
  decide

theorem sorted_gregorianDays : Sorted gregorianDays := by
  unfold Sorted
  decide

/-- The months of the years from 1970 to 1973 have their lengths. -/
theorem month_length : ∀ year < 4, ∀ month < 12,
    entry gregorianDays year month + Date.daysIn (1970 + year) (month + 1) = start gregorianDays (12 * year + month + 1) := by
  decide

/-- The tables differ in one entry. -/
theorem entry_days : ∀ year < 4, ∀ month < 12,
    entry days year month = entry gregorianDays year month + if year = 1 ∧ month = 6 then 1 else 0 := by
  decide

theorem start_le : ∀ k ≤ 48, start gregorianDays k ≤ start days k := by
  decide

end Tables

section Days

/-- The day from which the time is counted. -/
def epochDate : Date := ⟨1970, 1, 1⟩

/-- The date on a day of the first four years. -/
def dateIn (epoch : Nat) : Date :=
  let (year, month, day) := locate gregorianDays epoch
  ⟨1970 + year, month + 1, day⟩

theorem dateIn_eq {epoch year month : Nat} (years : year < 4) (months : month < 12)
    (low : entry gregorianDays year month ≤ epoch) (high : epoch < start gregorianDays (12 * year + month + 1)) :
    dateIn epoch = ⟨1970 + year, month + 1, epoch - entry gregorianDays year month + 1⟩ := by
  unfold dateIn
  rw [locate_eq sorted_gregorianDays years months low high]

theorem dateIn_entry {year month : Nat} (years : year < 4) (months : month < 12) :
    dateIn (entry gregorianDays year month) = ⟨1970 + year, month + 1, 1⟩ := by
  have length := month_length year years month months
  have some := Date.daysIn_pos (1970 + year) (month + 1)
  rw [dateIn_eq years months (Nat.le_refl _) (by omega), Nat.sub_self]

theorem dateIn_next {epoch : Nat} (bound : epoch + 1 < days4y) : (dateIn epoch).next = dateIn (epoch + 1) := by
  obtain ⟨year, years, month, months, low, high⟩ := exists_month (show start gregorianDays 0 = 0 from rfl)
    (Nat.lt_of_succ_lt bound)
  have length := month_length year years month months
  rw [dateIn_eq years months low high]
  unfold Date.next
  dsimp only
  by_cases more : epoch + 1 < start gregorianDays (12 * year + month + 1)
  · rw [if_pos (by omega), dateIn_eq years months (Nat.le_succ_of_le low) more]
    exact congrArg (Date.mk _ _) (by omega)
  · have last : epoch + 1 = start gregorianDays (12 * year + month + 1) := by omega
    rw [if_neg (by omega)]
    by_cases later : month + 1 < 12
    · have here := start_entry (d := gregorianDays) years later
      rw [if_pos later, last, Nat.add_assoc (12 * year), here, dateIn_entry years later]
    · obtain rfl : month = 11 := by omega
      have years' : year + 1 < 4 := by
        by_contra final
        obtain rfl : year = 3 := by omega
        exact absurd bound (by rw [last]; decide)
      have here := start_entry (d := gregorianDays) years' (show 0 < 12 by decide)
      rw [if_neg later, last, show 12 * year + 11 + 1 = 12 * (year + 1) + 0 by omega, here,
        dateIn_entry years' (by decide)]
      rfl

theorem dateIn_year {epoch : Nat} (bound : epoch < days4y) : 1970 ≤ (dateIn epoch).year ∧ (dateIn epoch).year < 1974 ∧
    (epoch < 730 → (dateIn epoch).year < 1972) := by
  obtain ⟨year, years, month, months, low, high⟩ := exists_month (show start gregorianDays 0 = 0 from rfl) bound
  rw [dateIn_eq years months low high]
  dsimp only
  refine ⟨by omega, by omega, fun early => ?_⟩
  by_contra late
  have third : start gregorianDays 24 = 730 := rfl
  have := sorted_gregorianDays.le (show 24 ≤ 12 * year + month by omega) (by omega)
  rw [start_entry years months] at this
  omega

/-- The dates of the days up to the end of 2099. -/
theorem after_eq {n : Nat} (bound : n < 47482) : epochDate.after n = (dateIn (n % 1461)).later (n / 1461) ∧
    (dateIn (n % 1461)).year + 4 * (n / 1461) < 2100 := by
  have years : ∀ n, 1970 ≤ (dateIn (n % 1461)).year ∧ (dateIn (n % 1461)).year < 1974 ∧
      (n % 1461 < 730 → (dateIn (n % 1461)).year < 1972) := fun n => dateIn_year (Nat.mod_lt n (by decide))
  refine ⟨?_, by have := years n; omega⟩
  induction n with
  | zero => rfl
  | succ n ih =>
    have before := years n
    rw [Date.after, ih (by omega), Date.next_later _ (by omega) (by omega)]
    by_cases more : n % 1461 + 1 < 1461
    · rw [dateIn_next more, show (n + 1) % 1461 = n % 1461 + 1 by omega, show (n + 1) / 1461 = n / 1461 by omega]
    · rw [show n % 1461 = 1460 by omega, show (n + 1) % 1461 = 0 by omega, show (n + 1) / 1461 = n / 1461 + 1 by omega]
      exact congrArg (fun year => Date.mk year 1 1) (show 1974 + 4 * (n / 1461) = 1970 + 4 * (n / 1461 + 1) by omega)

end Days

/-- The date of the fields. -/
def date (t : DateTime) : Date := ⟨t.year, t.month, t.day⟩

/-- The fields are those of the number of seconds. The first day was a Thursday. -/
structure Gregorian (epoch : Nat) (t : DateTime) : Prop where
  date : t.date = epochDate.after (epoch / 86400)
  weekday : t.weekday = Date.weekdayAfter 5 (epoch / 86400)
  time : t.hour < 24 ∧ t.minute < 60 ∧ t.second < 60
  seconds : (t.hour * 60 + t.minute) * 60 + t.second = epoch % 86400

/-- A date and time of the years from 1970 to 2099. -/
structure Valid (t : DateTime) : Prop where
  date : t.date.Valid
  years : 1970 ≤ t.year ∧ t.year < 2100
  weekday : ∃ n, t.date = epochDate.after n ∧ t.weekday = Date.weekdayAfter 5 n
  time : t.hour < 24 ∧ t.minute < 60 ∧ t.second < 60

/-- A July whose start is wrong in the table. -/
def InLateJuly (d : Date) : Prop := d.month = 7 ∧ d.year % 4 = 3

section Conversions

variable {epoch q year month day : Nat} {t : DateTime}

theorem construct_eq (small : epoch < 4294967296) (located : locate days (epoch / 86400 % 1461) = (year, month, day))
    (years : year < 4) (short : day < 256) : construct epoch =
      ⟨epoch % 60, epoch / 60 % 60, epoch / 60 / 60 % 24, (epoch / 86400 + 4) % 7 + 1, day, month + 1,
        1970 + 4 * (epoch / 86400 / 1461) + year⟩ := by
  have whole : epoch / 60 / 60 / 24 = epoch / 86400 := by omega
  unfold construct
  dsimp only
  rw [whole, show days4y = 1461 from rfl, located]
  dsimp only
  rw [Nat.mod_eq_of_lt short, show (year + (1970 + epoch / 86400 / 1461 * 4)) % 65536 =
    1970 + 4 * (epoch / 86400 / 1461) + year by omega]

/-- The parts of a date of the years from 1970 to 2099. -/
structure Parts (t : DateTime) (q year month : Nat) : Prop where
  year_eq : t.year = 1970 + 4 * q + year
  month_eq : t.month = month + 1
  years : year < 4
  months : month < 12
  cycles : q < 33
  day : 1 ≤ t.day ∧ t.day ≤ 31
  time : t.hour < 24 ∧ t.minute < 60 ∧ t.second < 60

theorem entry_small : ∀ year < 4, ∀ month < 12, entry days year month < 1431 := by
  decide

theorem toTimestamp_eq (parts : t.Parts q year month) : t.toTimestamp =
    some ((((1461 * q + entry days year month + t.day - 1) * 24 + t.hour) * 60 + t.minute) * 60 + t.second) := by
  obtain ⟨year_eq, month_eq, years, months, cycles, day, time⟩ := parts
  have small := entry_small year years month months
  have y : u32 ((t.year : Int) - 1970) = 4 * q + year := by unfold u32; omega
  have m : u32 ((t.month : Int) - 1) = month := by unfold u32; omega
  unfold toTimestamp
  rw [y, m, if_pos months]
  dsimp only
  have cycle : (4 * q + year) % 4 = year := by omega
  have d : u32 (((4 * q + year : Nat) : Int) / 4 * days4y + entry days year month + t.day - 1) =
      1461 * q + entry days year month + t.day - 1 := by
    rw [show days4y = 1461 from rfl]
    unfold u32
    omega
  rw [cycle, d]
  refine congrArg some ?_
  unfold u32
  omega

/-- The day and the month of the parts, counted from the first day. -/
theorem Parts.after (parts : t.Parts q year month) (valid : t.date.Valid) (bound : t.year < 2100) :
    entry gregorianDays year month + (t.day - 1) < start gregorianDays (12 * year + month + 1) ∧
      1461 * q + entry gregorianDays year month + (t.day - 1) < 47482 ∧
      t.date = epochDate.after (1461 * q + entry gregorianDays year month + (t.day - 1)) := by
  obtain ⟨year_eq, month_eq, years, months, cycles, day, -⟩ := parts
  have length := month_length year years month months
  have days := valid.day
  unfold DateTime.date at days
  dsimp only at days
  rw [year_eq, Nat.add_right_comm, Date.daysIn_later q (by omega) (by omega), month_eq] at days
  have early : q = 32 → start gregorianDays (12 * year + month + 1) ≤ 730 := fun last => by
    refine Nat.le_trans (sorted_gregorianDays.le (show 12 * year + month + 1 ≤ 24 by omega) (by decide)) ?_
    decide
  have late : start gregorianDays (12 * year + month + 1) ≤ 1461 := by
    refine Nat.le_trans (sorted_gregorianDays.le (show 12 * year + month + 1 ≤ 48 by omega) (Nat.le_refl _)) ?_
    decide
  have bound' : 1461 * q + entry gregorianDays year month + (t.day - 1) < 47482 := by omega
  refine ⟨by omega, bound', ?_⟩
  rw [(after_eq bound').1, show (1461 * q + entry gregorianDays year month + (t.day - 1)) % 1461 =
    entry gregorianDays year month + (t.day - 1) by omega,
    show (1461 * q + entry gregorianDays year month + (t.day - 1)) / 1461 = q by omega,
    dateIn_eq years months (Nat.le_add_right _ _) (by omega)]
  unfold DateTime.date Date.later
  dsimp only
  rw [year_eq, month_eq, Nat.add_sub_cancel_left, Nat.sub_add_cancel day.1, Nat.add_right_comm]

theorem Parts.weekday (parts : t.Parts q year month) (valid : t.Valid) :
    t.weekday = (1461 * q + entry gregorianDays year month + (t.day - 1) + 4) % 7 + 1 := by
  obtain ⟨-, -, after⟩ := parts.after valid.date valid.years.2
  obtain ⟨n, date, weekday⟩ := valid.weekday
  have first : epochDate.Valid := ⟨by decide, by decide⟩
  obtain rfl : n = _ := (Date.after_inj first).mp (date.symm.trans after)
  rw [weekday, Date.weekdayAfter_eq 5 _ (by decide)]
  omega

theorem Parts.inLateJuly_iff (parts : t.Parts q year month) : InLateJuly t.date ↔ year = 1 ∧ month = 6 := by
  obtain ⟨year_eq, month_eq, years, months, -, -, -⟩ := parts
  unfold InLateJuly DateTime.date
  dsimp only
  omega

theorem Valid.parts (valid : t.Valid) : ∃ q year month, t.Parts q year month := by
  have years := valid.years
  have month := valid.date.month
  have day := valid.date.day
  have most := Date.daysIn_le t.date.year t.date.month
  unfold DateTime.date at month day most
  dsimp only at month day most
  exact ⟨(t.year - 1970) / 4, (t.year - 1970) % 4, t.month - 1, by omega, by omega, by omega, by omega, by omega,
    by omega, valid.time⟩

theorem locate_days (years : year < 4) (months : month < 12) (right : ¬ (year = 1 ∧ month = 6))
    (low : entry gregorianDays year month ≤ epoch) (high : epoch < start gregorianDays (12 * year + month + 1)) :
    locate days epoch = (year, month, epoch - entry gregorianDays year month + 1) := by
  have same := entry_days year years month months
  rw [if_neg right, Nat.add_zero] at same
  have later := start_le (12 * year + month + 1) (by omega)
  rw [locate_eq sorted_days years months (by omega) (by omega), same]

/-- The first day of the July is the 31st of June, and the others come a day late. -/
theorem locate_july (low : 546 ≤ epoch) (high : epoch < 577) :
    locate days epoch = if epoch = 546 then (1, 5, 31) else (1, 6, epoch - 546) := by
  split
  · rename_i first
    rw [first]
    decide
  · rename_i other
    have june : entry days 1 6 = 547 := rfl
    have august : start days (12 * 1 + 6 + 1) = 577 := rfl
    rw [locate_eq sorted_days (by decide) (by decide) (show entry days 1 6 ≤ epoch by omega) (by omega), june]
    exact congrArg (fun day => (1, 6, day)) (by omega)

/-- The constructor is right exactly outside of the wrong months. -/
theorem gregorian_iff (small : epoch < 4102444800) : Gregorian epoch (construct epoch) ∧
    (construct epoch).toTimestamp = some epoch ↔ ¬ InLateJuly (epochDate.after (epoch / 86400)) := by
  have days : epoch / 86400 < 47482 := by omega
  obtain ⟨year, years, month, months, low, high⟩ := exists_month (show start gregorianDays 0 = 0 from rfl)
    (show epoch / 86400 % 1461 < days4y from Nat.mod_lt _ (by decide))
  have length := month_length year years month months
  have most := Date.daysIn_le (1970 + year) (month + 1)
  obtain ⟨after, bound⟩ := after_eq days
  rw [dateIn_eq years months low high] at after bound
  unfold Date.later at after
  dsimp only at after bound
  have july : InLateJuly (epochDate.after (epoch / 86400)) ↔ year = 1 ∧ month = 6 := by
    rw [after]
    unfold InLateJuly
    dsimp only
    omega
  rw [july]
  constructor
  · rintro ⟨gregorian, -⟩ ⟨rfl, rfl⟩
    have july' := locate_july low high
    have date := gregorian.date
    have july₀ : entry gregorianDays 1 6 = 546 := rfl
    by_cases first : epoch / 86400 % 1461 = 546
    · rw [if_pos first] at july'
      rw [construct_eq (by omega) july' (by decide) (by decide), after] at date
      exact absurd (congrArg Date.month date) (show ¬ 6 = 7 by decide)
    · rw [if_neg first] at july'
      rw [construct_eq (by omega) july' (by decide) (by omega), after] at date
      have day := congrArg Date.day date
      unfold DateTime.date at day
      dsimp only at day
      omega
  · intro right
    have same := entry_days year years month months
    rw [if_neg right, Nat.add_zero] at same
    rw [construct_eq (by omega) (locate_days years months right low high) years (by omega)]
    refine ⟨⟨?_, ?_, ?_, ?_⟩, ?_⟩
    · rw [after]
      unfold DateTime.date
      dsimp only
      rw [Nat.add_right_comm]
    · rw [Date.weekdayAfter_eq 5 _ (by decide)]
      dsimp only
      omega
    · exact ⟨Nat.mod_lt _ (by decide), Nat.mod_lt _ (by decide), Nat.mod_lt _ (by decide)⟩
    · dsimp only
      omega
    · rw [toTimestamp_eq (q := epoch / 86400 / 1461) ⟨rfl, rfl, years, months, by omega, by dsimp only; omega,
        Nat.mod_lt _ (by decide), Nat.mod_lt _ (by decide), Nat.mod_lt _ (by decide)⟩, same]
      refine congrArg some ?_
      dsimp only
      omega

theorem construct_day {n y m d : Nat} (small : n < 49710) (time : t.hour < 24 ∧ t.minute < 60 ∧ t.second < 60)
    (located : locate days (n % 1461) = (y, m, d)) (years : y < 4) (short : d < 256) :
    construct (((n * 24 + t.hour) * 60 + t.minute) * 60 + t.second) =
      ⟨t.second, t.minute, t.hour, (n + 4) % 7 + 1, d, m + 1, 1970 + 4 * (n / 1461) + y⟩ := by
  have days : (((n * 24 + t.hour) * 60 + t.minute) * 60 + t.second) / 86400 = n := by omega
  rw [construct_eq (by omega) (days.symm ▸ located) years short, days]
  congr 1
  · omega
  · omega
  · omega

/-- The fields are the same, the weekday apart. -/
structure SameTime (t t' : DateTime) : Prop where
  date : t.date = t'.date
  hour : t.hour = t'.hour
  minute : t.minute = t'.minute
  second : t.second = t'.second

/-- Outside of the wrong months the fields come back from their number of seconds. -/
theorem construct_other (valid : t.Valid) (other : ¬ InLateJuly t.date) :
    ∃ epoch, t.toTimestamp = some epoch ∧ construct epoch = t := by
  obtain ⟨q, year, month, parts⟩ := valid.parts
  obtain ⟨inside, bound, -⟩ := parts.after valid.date valid.years.2
  have weekday := parts.weekday valid
  have right := mt parts.inLateJuly_iff.mpr other
  have whole := toTimestamp_eq parts
  obtain ⟨year_eq, month_eq, years, months, cycles, day, time⟩ := parts
  have same := entry_days year years month months
  rw [if_neg right, Nat.add_zero] at same
  have located := locate_days years months right (Nat.le_add_right _ _) inside
  have number : 1461 * q + entry days year month + t.day - 1 =
      1461 * q + entry gregorianDays year month + (t.day - 1) := by omega
  have late : start gregorianDays (12 * year + month + 1) ≤ 1461 :=
    sorted_gregorianDays.le (show 12 * year + month + 1 ≤ 48 by omega) (Nat.le_refl _)
  refine ⟨_, whole, ?_⟩
  rw [number, construct_day (by omega) time (by rw [← located]; congr 1; omega) years (by omega)]
  change _ = (⟨t.second, t.minute, t.hour, t.weekday, t.day, t.month, t.year⟩ : DateTime)
  rw [weekday, month_eq, year_eq]
  congr 1
  · omega
  · omega

/-- In a wrong month they come back from the number of a day later. -/
theorem construct_july (valid : t.Valid) (july : InLateJuly t.date) : ∃ epoch, t.toTimestamp = some epoch ∧
    (construct epoch).weekday ≠ t.weekday ∧ ((construct epoch).SameTime t ↔ t.day ≠ 31) := by
  obtain ⟨q, year, month, parts⟩ := valid.parts
  have weekday := parts.weekday valid
  obtain ⟨rfl, rfl⟩ := parts.inLateJuly_iff.mp july
  have whole := toTimestamp_eq parts
  obtain ⟨year_eq, month_eq, -, -, cycles, day, time⟩ := parts
  have july₀ : entry gregorianDays 1 6 = 546 := rfl
  have july₁ : entry days 1 6 = 547 := rfl
  rw [july₁] at whole
  rw [july₀] at weekday
  have place : (1461 * q + 547 + t.day - 1) % 1461 = 546 + t.day := by omega
  refine ⟨_, whole, ?_⟩
  by_cases last : t.day = 31
  · rw [construct_day (by omega) time (y := 1) (m := 7) (d := 1) (by rw [place, last]; decide) (by decide) (by decide)]
    refine ⟨by dsimp only; omega, fun same => ?_, fun early => absurd last early⟩
    have := congrArg Date.month same.date
    unfold DateTime.date at this
    dsimp only at this
    omega
  · have located := locate_july (show 546 ≤ 546 + t.day by omega) (by omega)
    rw [if_neg (by omega), Nat.add_sub_cancel_left] at located
    rw [construct_day (by omega) time (by rw [place, located]) (by decide) (by omega)]
    refine ⟨by dsimp only; omega, fun _ => last, fun _ => ⟨?_, rfl, rfl, rfl⟩⟩
    unfold DateTime.date
    dsimp only
    rw [month_eq, year_eq, show (1461 * q + 547 + t.day - 1) / 1461 = q by omega]

/-- The fields come back from their number of seconds exactly outside of the wrong months. -/
theorem construct_iff (valid : t.Valid) :
    ((∃ epoch, t.toTimestamp = some epoch ∧ construct epoch = t) ↔ ¬ InLateJuly t.date) ∧
    ((∃ epoch, t.toTimestamp = some epoch ∧ (construct epoch).SameTime t) ↔ ¬ (InLateJuly t.date ∧ t.day = 31)) := by
  by_cases july : InLateJuly t.date
  · obtain ⟨epoch, whole, weekday, same⟩ := construct_july valid july
    refine ⟨⟨?_, fun other => absurd july other⟩, ⟨?_, fun early => ⟨epoch, whole, same.mpr fun last => early ⟨july, last⟩⟩⟩⟩
    · rintro ⟨_, whole', back⟩
      obtain rfl := Option.some.inj (whole.symm.trans whole')
      exact absurd (congrArg DateTime.weekday back) weekday
    · rintro ⟨_, whole', back⟩ late
      obtain rfl := Option.some.inj (whole.symm.trans whole')
      exact same.mp back late.2
  · obtain ⟨epoch, whole, back⟩ := construct_other valid july
    refine ⟨iff_of_true ⟨epoch, whole, back⟩ july, iff_of_true ⟨epoch, whole, ?_⟩ fun late => july late.1⟩
    rw [back]
    exact ⟨rfl, rfl, rfl, rfl⟩

/-- Both conversions are right exactly outside of the Julys of the years before a leap year, where the
table is one day late. If the weekday does not matter, only the last
day of such a July does not come back. -/
theorem calendar_iff (epoch : Nat) (small : epoch < 4102444800) (t : DateTime) (valid : t.Valid) :
    (Gregorian epoch (construct epoch) ∧ (construct epoch).toTimestamp = some epoch ↔
      ¬ InLateJuly (epochDate.after (epoch / 86400))) ∧
    ((∃ epoch, t.toTimestamp = some epoch ∧ construct epoch = t) ↔ ¬ InLateJuly t.date) ∧
    ((∃ epoch, t.toTimestamp = some epoch ∧ (construct epoch).SameTime t) ↔ ¬ (InLateJuly t.date ∧ t.day = 31)) :=
  ⟨gregorian_iff small, construct_iff valid⟩

/-- Friday, the second day. -/
def friday : DateTime := ⟨6, 5, 4, 6, 2, 1, 1970⟩

theorem calendar_friday :
    (Gregorian 101106 (construct 101106) ∧ (construct 101106).toTimestamp = some 101106 ↔
      ¬ InLateJuly (epochDate.after (101106 / 86400))) ∧
    ((∃ epoch, friday.toTimestamp = some epoch ∧ construct epoch = friday) ↔ ¬ InLateJuly friday.date) ∧
    ((∃ epoch, friday.toTimestamp = some epoch ∧ (construct epoch).SameTime friday) ↔
      ¬ (InLateJuly friday.date ∧ friday.day = 31)) :=
  calendar_iff 101106 (by decide) friday ⟨⟨by decide, by decide⟩, by decide, ⟨1, by decide, by decide⟩, by decide⟩

/-- The first of July 1971 is converted to the 31st of June. -/
theorem july_is_june : construct 47174400 = ⟨0, 0, 0, 5, 31, 6, 1971⟩ ∧ ¬ Gregorian 47174400 (construct 47174400) := by
  refine ⟨by decide, fun gregorian => ?_⟩
  have first : epochDate.Valid := ⟨by decide, by decide⟩
  have valid : (construct 47174400).date.Valid := gregorian.date ▸ first.after _
  exact absurd valid.day.2 (by decide)

end Conversions

end DateTime
end MPStuBS
