import MPStuBS.Framebuffer
import Mathlib.Algebra.Order.Field.Basic
import Mathlib.Algebra.Order.Field.Rat
import Mathlib.Tactic.FieldSimp
import Mathlib.Tactic.Linarith
import Mathlib.Tactic.Ring

/-! Lines on the screen: `line` of `graphics/printer.h`. Its arithmetic is checked: there is no result
when an `int` overflows. -/
namespace MPStuBS.GraphicsPrinter

/-- The size of the visible screen. -/
structure Screen where
  width : Nat
  height : Nat
  deriving DecidableEq, Repr

/-- The result of an operation on `int`. -/
def int (x : Int) : Option Int := if -2147483648 ≤ x ∧ x < 2147483648 then some x else none

/-- `Math::abs`. -/
def abs (a : Int) : Option Int := if 0 ≤ a then some a else int (-a)

structure Increments where
  de : Int
  dne : Int
  xi1 : Int
  xi2 : Int
  yi1 : Int
  yi2 : Int
  deriving DecidableEq, Repr

/-- The variables of the loop. -/
structure Pen where
  d : Int
  x : Int
  y : Int
  deriving DecidableEq, Repr

def Screen.shows (screen : Screen) (x y : Int) : Bool :=
  0 ≤ x && 0 ≤ y && x < i32 screen.width && y < i32 screen.height

/-- The end of a turn. -/
def advance (inc : Increments) (pen : Pen) : Option Pen :=
  if pen.d < 0 then do
    let d ← int (pen.d + inc.de)
    let x ← int (pen.x + inc.xi1)
    let y ← int (pen.y + inc.yi1)
    some ⟨d, x, y⟩
  else do
    let d ← int (pen.d + inc.dne)
    let x ← int (pen.x + inc.xi2)
    let y ← int (pen.y + inc.yi2)
    some ⟨d, x, y⟩

/-- The loop: the points that it visits, and whether they are set. -/
def walk (screen : Screen) (inc : Increments) : Nat → Pen → Option (List (Point × Bool))
  | 0, _ => some []
  | steps + 1, pen => do
    let next ← advance inc pen
    let rest ← walk screen inc steps next
    some ((⟨pen.x, pen.y⟩, screen.shows pen.x pen.y) :: rest)

def line (screen : Screen) (start stop : Point) : Option (List (Point × Bool)) := do
  let dx ← int (stop.x - start.x)
  let dx ← abs dx
  let dy ← int (stop.y - start.y)
  let dy ← abs dy
  let steps ← if dx < dy then int (dy + 1) else int (dx + 1)
  let less ← if dx < dy then int (dx - dy) else int (dy - dx)
  let d ← int (2 * less)
  let de ← if dx < dy then int (dx * 2) else int (dy * 2)
  let dne ← int (less * 2)
  let xi1 := if dx < dy then 0 else 1
  let xi2 := 1
  let yi1 := if dx < dy then 1 else 0
  let yi2 := 1
  let (xi1, xi2) := if stop.x < start.x then (-xi1, -xi2) else (xi1, xi2)
  let (yi1, yi2) := if stop.y < start.y then (-yi1, -yi2) else (yi1, yi2)
  walk screen ⟨de, dne, xi1, xi2, yi1, yi2⟩ steps.toNat ⟨d, start.x, start.y⟩

section Multiples

variable {k a b : Nat}

/-- The next multiple, while the remainder does not reach the divisor. -/
theorem next_multiple_below (less : k * a % b + a < b) : (k + 1) * a / b = k * a / b ∧ (k + 1) * a % b = k * a % b + a := by
  have whole := Nat.mod_add_div (k * a) b
  rw [Nat.div_mod_unique (by omega), Nat.succ_mul]
  omega

/-- The next multiple, when the remainder reaches the divisor. -/
theorem next_multiple_carries (reaches : b ≤ k * a % b + a) (le : a ≤ b) (positive : 0 < b) :
    (k + 1) * a / b = k * a / b + 1 ∧ (k + 1) * a % b = k * a % b + a - b := by
  have whole := Nat.mod_add_div (k * a) b
  have less := Nat.mod_lt (k * a) positive
  rw [Nat.div_mod_unique positive, Nat.succ_mul, Nat.mul_add, Nat.mul_one]
  omega

theorem multiple_div_le (le : a ≤ b) : k * a / b ≤ k := by
  rcases Nat.eq_zero_or_pos b with rfl | positive
  · rw [Nat.div_zero]
    exact Nat.zero_le k
  · exact (Nat.div_le_iff_le_mul_add_pred positive).mpr (by
      have := Nat.mul_le_mul_left k le
      rw [Nat.mul_comm b]
      omega)

end Multiples

section Course

/-- Where a coordinate is after some steps along a line with so many steps across and along: a coordinate
along the line moves in every step, one across it when a multiple of the slope is passed. -/
def place (across along : Nat) (isLong : Bool) (start direction : Int) (k : Nat) : Int :=
  start + direction * (if isLong then k else k * across / along : Nat)

variable {across along k : Nat} {isLong : Bool} {start direction : Int}

theorem place_zero : place across along isLong start direction 0 = start := by
  unfold place
  cases isLong <;> simp

/-- A coordinate in one step that stays in its row, and in one that does not. -/
theorem place_succ (isLong : Bool) (start direction : Int) (k : Nat) (le : across ≤ along) (positive : 0 < along) :
    place across along isLong start direction (k + 1) =
      place across along isLong start direction k +
        if k * across % along + across < along then (if isLong then direction else 0) else direction := by
  unfold place
  by_cases below : k * across % along + across < along
  · rw [if_pos below, (next_multiple_below below).1]
    cases isLong
    · simp
    · simp [mul_add, add_assoc]
  · rw [if_neg below, (next_multiple_carries (Nat.le_of_not_lt below) le positive).1]
    cases isLong <;> simp [mul_add, add_assoc]

theorem place_near (isLong : Bool) (start : Int) (k : Nat) (le : across ≤ along) (unit : direction = 1 ∨ direction = -1) :
    start - k ≤ place across along isLong start direction k ∧ place across along isLong start direction k ≤ start + k := by
  have part := multiple_div_le (k := k) le
  unfold place
  generalize k * across / along = crossed at part ⊢
  cases isLong <;> rcases unit with rfl | rfl <;> simp only [if_true, Bool.false_eq_true, if_false] <;> omega

/-- The decision variable after some steps. -/
def decision (across along k : Nat) : Int := 2 * (across - along + (k * across % along : Nat))

theorem decision_neg : decision across along k < 0 ↔ k * across % along + across < along := by
  unfold decision
  omega

theorem decision_succ (le : across ≤ along) (positive : 0 < along) : decision across along (k + 1) = decision across along k +
    if k * across % along + across < along then 2 * (across : Int) else 2 * (across - along) := by
  unfold decision
  by_cases below : k * across % along + across < along
  · rw [if_pos below, (next_multiple_below below).2]
    omega
  · rw [if_neg below, (next_multiple_carries (Nat.le_of_not_lt below) le positive).2]
    omega

theorem int_of {x : Int} (low : -2147483648 ≤ x) (high : x < 2147483648) : int x = some x := if_pos ⟨low, high⟩

/-- The way of a line: the steps across and along, which coordinate is along, where it starts and in which directions it goes. -/
structure Course where
  across : Nat
  along : Nat
  longX : Bool
  start : Point
  dx : Int
  dy : Int

def Course.point (c : Course) (k : Nat) : Point :=
  ⟨place c.across c.along c.longX c.start.x c.dx k, place c.across c.along (!c.longX) c.start.y c.dy k⟩

def Course.pen (c : Course) (k : Nat) : Pen := ⟨decision c.across c.along k, (c.point k).x, (c.point k).y⟩

def Course.increments (c : Course) : Increments :=
  ⟨2 * c.across, 2 * (c.across - c.along), if c.longX then c.dx else 0, c.dx, if !c.longX then c.dy else 0, c.dy⟩

/-- A course whose numbers are small. -/
structure Course.Small (c : Course) : Prop where
  le : c.across ≤ c.along
  length : c.along ≤ 536870912
  x : -268435456 < c.start.x ∧ c.start.x < 268435456
  y : -268435456 < c.start.y ∧ c.start.y < 268435456
  unitX : c.dx = 1 ∨ c.dx = -1
  unitY : c.dy = 1 ∨ c.dy = -1

variable {c : Course}

theorem pen_zero (c : Course) : c.pen 0 = ⟨2 * (c.across - c.along), c.start.x, c.start.y⟩ := by
  unfold Course.pen Course.point decision
  rw [place_zero, place_zero, Nat.zero_mul, Nat.zero_mod, Int.natCast_zero, Int.add_zero]

/-- A turn leads to the next point of the course. -/
theorem advance_course (small : c.Small) (positive : 0 < c.along) (inside : k ≤ c.along) :
    advance c.increments (c.pen k) = some (c.pen (k + 1)) := by
  have ⟨le, length, startX, startY, unitX, unitY⟩ := small
  have x := place_succ c.longX c.start.x c.dx k le positive
  have y := place_succ (!c.longX) c.start.y c.dy k le positive
  have d := decision_succ (k := k) le positive
  have nearX := place_near c.longX c.start.x (k + 1) le unitX
  have nearY := place_near (!c.longX) c.start.y (k + 1) le unitY
  have less := Nat.mod_lt ((k + 1) * c.across) positive
  have range : -2147483648 ≤ decision c.across c.along (k + 1) ∧ decision c.across c.along (k + 1) < 2147483648 := by
    unfold decision
    omega
  unfold advance Course.pen Course.increments Course.point
  dsimp only
  by_cases below : k * c.across % c.along + c.across < c.along
  · rw [if_pos below] at x y d
    rw [if_pos (decision_neg.mpr below), ← x, ← y, ← d, int_of range.1 range.2, int_of (by omega) (by omega),
      int_of (by omega) (by omega)]
    rfl
  · rw [if_neg below] at x y d
    rw [if_neg (decision_neg.not.mpr below), ← x, ← y, ← d, int_of range.1 range.2, int_of (by omega) (by omega),
      int_of (by omega) (by omega)]
    rfl

/-- The loop visits the points of the course one after another. -/
theorem walk_course (screen : Screen) (small : c.Small) (positive : 0 < c.along) {steps : Nat} (inside : k + steps ≤ c.along + 1) :
    walk screen c.increments steps (c.pen k) =
      some ((List.range' k steps).map fun i => (c.point i, screen.shows (c.point i).x (c.point i).y)) := by
  induction steps generalizing k with
  | zero => rfl
  | succ steps ih =>
    unfold walk
    rw [advance_course small positive (by omega), List.range'_succ, List.map_cons]
    dsimp only [Option.bind_eq_bind, Option.bind_some]
    rw [ih (by omega)]
    rfl

/-- A line of one point; the turn after it moves on, but does not visit. -/
theorem walk_point (screen : Screen) (small : c.Small) (empty : c.along = 0) :
    walk screen c.increments 1 (c.pen 0) = some [(c.point 0, screen.shows (c.point 0).x (c.point 0).y)] := by
  obtain ⟨le, -, startX, startY, unitX, unitY⟩ := small
  have flat : c.across = 0 := by omega
  have advances : advance c.increments (c.pen 0) = some ⟨0, c.start.x + c.dx, c.start.y + c.dy⟩ := by
    unfold advance Course.pen Course.increments Course.point
    dsimp only
    rw [place_zero, place_zero, flat, empty, if_neg (by decide), int_of (by decide) (by decide), int_of (by omega) (by omega),
      int_of (by omega) (by omega)]
    rfl
  unfold walk
  rw [advances]
  rfl

end Course

section Lines

/-- The direction from one coordinate to another. -/
def direction (start stop : Int) : Int := if stop < start then -1 else 1

theorem direction_unit (start stop : Int) : direction start stop = 1 ∨ direction start stop = -1 := by
  unfold direction
  split
  · exact Or.inr rfl
  · exact Or.inl rfl

theorem direction_mul (start stop : Int) : direction start stop * (stop - start).natAbs = stop - start := by
  unfold direction
  split <;> omega

/-- The course of a line. -/
def course (start stop : Point) : Course :=
  let dx := (stop.x - start.x).natAbs
  let dy := (stop.y - start.y).natAbs
  if dx < dy then ⟨dx, dy, false, start, direction start.x stop.x, direction start.y stop.y⟩
  else ⟨dy, dx, true, start, direction start.x stop.x, direction start.y stop.y⟩

/-- A coordinate of magnitude below 2^28. -/
def Near (x : Int) : Prop := -268435456 < x ∧ x < 268435456

structure Point.Near (p : Point) : Prop where
  x : GraphicsPrinter.Near p.x
  y : GraphicsPrinter.Near p.y

variable {start stop : Point}

theorem abs_of {x : Int} (low : -2147483648 < x) (high : x < 2147483648) : abs x = some (x.natAbs : Int) := by
  unfold abs
  split
  · rename_i nonneg
    rw [Int.natAbs_of_nonneg nonneg]
  · rename_i neg
    rw [int_of (by omega) (by omega), Int.ofNat_natAbs_of_nonpos (by omega)]

theorem course_small (near : start.Near) (near' : stop.Near) : (course start stop).Small := by
  obtain ⟨x, y⟩ := near
  obtain ⟨x', y'⟩ := near'
  unfold Near at x y x' y'
  unfold course
  dsimp only
  split
  all_goals exact ⟨by dsimp only; omega, by dsimp only; omega, x, y, direction_unit _ _, direction_unit _ _⟩

theorem line_eq (screen : Screen) (near : start.Near) (near' : stop.Near) : line screen start stop =
    walk screen (course start stop).increments ((course start stop).along + 1) ((course start stop).pen 0) := by
  obtain ⟨x, y⟩ := near
  obtain ⟨x', y'⟩ := near'
  unfold Near at x y x' y'
  unfold line
  unfold course
  dsimp only [Option.bind_eq_bind]
  rw [int_of (by omega) (by omega), Option.bind_some, abs_of (by omega) (by omega), Option.bind_some,
    int_of (by omega) (by omega), Option.bind_some, abs_of (by omega) (by omega), Option.bind_some]
  have boundX : (stop.x - start.x).natAbs < 536870912 := by omega
  have boundY : (stop.y - start.y).natAbs < 536870912 := by omega
  generalize (stop.x - start.x).natAbs = dx at boundX ⊢
  generalize (stop.y - start.y).natAbs = dy at boundY ⊢
  by_cases less : dx < dy
  · simp only [if_pos (Int.ofNat_lt.mpr less), if_pos less]
    rw [int_of (by omega) (by omega), Option.bind_some, int_of (by omega) (by omega), Option.bind_some,
      int_of (by omega) (by omega), Option.bind_some, int_of (by omega) (by omega), Option.bind_some,
      int_of (by omega) (by omega), Option.bind_some, pen_zero, Int.mul_comm dx, Int.mul_comm (dx - dy),
      show (dy + 1 : Int).toNat = dy + 1 by omega]
    unfold Course.increments direction
    by_cases left : stop.x < start.x <;> by_cases up : stop.y < start.y <;> simp [left, up]
  · have more : ¬ (dx : Int) < dy := fun h => less (Int.ofNat_lt.mp h)
    simp only [if_neg more, if_neg less]
    rw [int_of (by omega) (by omega), Option.bind_some, int_of (by omega) (by omega), Option.bind_some,
      int_of (by omega) (by omega), Option.bind_some, int_of (by omega) (by omega), Option.bind_some,
      int_of (by omega) (by omega), Option.bind_some, pen_zero, Int.mul_comm dy, Int.mul_comm (dy - dx),
      show (dx + 1 : Int).toNat = dx + 1 by omega]
    unfold Course.increments direction
    by_cases left : stop.x < start.x <;> by_cases up : stop.y < start.y <;> simp [left, up]

/-- The coordinate along the line. -/
def major (start stop p : Point) : Int := if (stop.x - start.x).natAbs < (stop.y - start.y).natAbs then p.y else p.x

/-- The coordinate across the line. -/
def minor (start stop p : Point) : Int := if (stop.x - start.x).natAbs < (stop.y - start.y).natAbs then p.x else p.y

/-- How far a point is from the line, measured along the minor coordinate. -/
def deviation (start stop p : Point) : Rat :=
  (minor start stop p - minor start stop start : Int) - (major start stop p - major start stop start : Int) *
    (minor start stop stop - minor start stop start : Int) / (major start stop stop - major start stop start : Int)

/-- A step from one point to the next one. -/
structure Step (start stop p q : Point) : Prop where
  along : major start stop q = major start stop p + (major start stop stop - major start stop start).sign
  across : minor start stop q = minor start stop p ∨
    minor start stop q = minor start stop p + (minor start stop stop - minor start stop start).sign

/-- The points are a line from the start to the stop, of which the visible points are set. -/
structure Draws (screen : Screen) (start stop : Point) (visits : List (Point × Bool)) : Prop where
  length : visits.length = max (stop.x - start.x).natAbs (stop.y - start.y).natAbs + 1
  first : visits.head?.map Prod.fst = some start
  last : visits.getLast?.map Prod.fst = some stop
  steps : ∀ k (less : k + 1 < visits.length), Step start stop visits[k].1 visits[k + 1].1
  near : ∀ v ∈ visits, |deviation start stop v.1| < 1
  set : ∀ v ∈ visits, v.2 = true ↔ (0 ≤ v.1.x ∧ v.1.x < screen.width) ∧ 0 ≤ v.1.y ∧ v.1.y < screen.height

theorem course_along (start stop : Point) :
    (course start stop).along = (major start stop stop - major start stop start).natAbs := by
  unfold course major
  dsimp only
  split <;> rfl

theorem course_across (start stop : Point) :
    (course start stop).across = (minor start stop stop - minor start stop start).natAbs := by
  unfold course minor
  dsimp only
  split <;> rfl

theorem major_point (start stop : Point) (k : Nat) : major start stop ((course start stop).point k) =
    major start stop start + direction (major start stop start) (major start stop stop) * k := by
  unfold course major Course.point
  dsimp only
  split <;> rfl

theorem minor_point (start stop : Point) (k : Nat) : minor start stop ((course start stop).point k) =
    minor start stop start + direction (minor start stop start) (minor start stop stop) *
      (k * (course start stop).across / (course start stop).along : Nat) := by
  unfold course minor Course.point
  dsimp only
  split <;> rfl

theorem direction_sign {a b : Int} (apart : (b - a).natAbs ≠ 0) : direction a b = (b - a).sign := by
  unfold direction
  split
  · rw [Int.sign_eq_neg_one_of_neg (by omega)]
  · rw [Int.sign_eq_one_of_pos (by omega)]

theorem point_zero (c : Course) : c.point 0 = c.start := by
  unfold Course.point
  rw [place_zero, place_zero]

theorem point_along (start stop : Point) : (course start stop).point (course start stop).along = stop := by
  unfold course
  dsimp only
  have x := direction_mul start.x stop.x
  have y := direction_mul start.y stop.y
  split
  · rename_i steep
    unfold Course.point place
    dsimp only
    rw [Nat.mul_div_cancel_left _ (Nat.zero_lt_of_lt steep)]
    simp only [Bool.not_false, if_true, Bool.false_eq_true, if_false]
    rw [x, y, add_sub_cancel, add_sub_cancel]
  · rename_i flat
    have across : (stop.x - start.x).natAbs * (stop.y - start.y).natAbs / (stop.x - start.x).natAbs = (stop.y - start.y).natAbs := by
      rcases Nat.eq_zero_or_pos (stop.x - start.x).natAbs with zero | positive
      · rw [zero, Nat.div_zero]
        omega
      · exact Nat.mul_div_cancel_left _ positive
    unfold Course.point place
    dsimp only
    rw [across]
    simp only [Bool.not_true, if_true, Bool.false_eq_true, if_false]
    rw [x, y, add_sub_cancel, add_sub_cancel]

/-- The points of a course step from one to the next. -/
theorem course_step (start stop : Point) {k : Nat} (less : k < (course start stop).along) :
    Step start stop ((course start stop).point k) ((course start stop).point (k + 1)) := by
  have le : (course start stop).across ≤ (course start stop).along := by
    unfold course
    dsimp only
    split <;> dsimp only <;> omega
  constructor
  · rw [major_point, major_point, ← direction_sign (by rw [← course_along]; omega)]
    push_cast
    ring
  · rw [minor_point, minor_point]
    by_cases below : k * (course start stop).across % (course start stop).along + (course start stop).across <
        (course start stop).along
    · rw [(next_multiple_below below).1]
      exact Or.inl rfl
    · rw [(next_multiple_carries (Nat.le_of_not_lt below) le (Nat.zero_lt_of_lt less)).1]
      have moves : (course start stop).across ≠ 0 := by
        have := Nat.mod_lt (k * (course start stop).across) (Nat.zero_lt_of_lt less)
        omega
      rw [← direction_sign (by rw [← course_across]; exact moves)]
      refine Or.inr ?_
      push_cast
      ring

/-- What is left of a multiple by a division is less than one of its steps. -/
theorem slope_deviation {s t : Int} (unit : s = 1 ∨ s = -1) (unit' : t = 1 ∨ t = -1) (k across along : Nat) (positive : 0 < along) :
    |((t * (k * across / along : Nat) : Int) : Rat) - (s * k : Int) * (t * across : Int) / (s * along : Int)| < 1 := by
  have whole : ((along * (k * across / along) + k * across % along : Nat) : Rat) = (k * across : Nat) :=
    congrArg Nat.cast (Nat.div_add_mod (k * across) along)
  have less : ((k * across % along : Nat) : Rat) < along := Nat.cast_lt.mpr (Nat.mod_lt _ positive)
  generalize k * across / along = quotient at whole ⊢
  generalize k * across % along = remainder at whole less
  have wide : (0 : Rat) < along := Nat.cast_pos.mpr positive
  have rest : (quotient : Rat) - k * across / along = -(remainder / along) := by
    push_cast at whole
    field_simp
    linarith
  have sign : ∀ {u : Int}, u = 1 ∨ u = -1 → |(u : Rat)| = 1 := by
    rintro u (rfl | rfl) <;> norm_num
  have nonzero : (s : Rat) ≠ 0 := abs_ne_zero.mp (by rw [sign unit]; exact one_ne_zero)
  calc |((t * quotient : Int) : Rat) - (s * k : Int) * (t * across : Int) / (s * along : Int)|
      = |(t : Rat) * (quotient - k * across / along)| := by
        push_cast
        field_simp
    _ = remainder / along := by
        rw [abs_mul, sign unit', one_mul, rest, abs_neg, abs_of_nonneg (div_nonneg (Nat.cast_nonneg _) wide.le)]
    _ < 1 := (div_lt_one wide).mpr less

theorem course_near (start stop : Point) {k : Nat} (inside : k ≤ (course start stop).along) :
    |deviation start stop ((course start stop).point k)| < 1 := by
  unfold deviation
  rw [major_point, minor_point, add_sub_cancel_left, add_sub_cancel_left]
  rcases Nat.eq_zero_or_pos (course start stop).along with empty | positive
  · obtain rfl : k = 0 := by omega
    simp
  · have major := direction_mul (major start stop start) (major start stop stop)
    have minor := direction_mul (minor start stop start) (minor start stop stop)
    rw [← course_along] at major
    rw [← course_across] at minor
    rw [← major, ← minor]
    exact slope_deviation (direction_unit _ _) (direction_unit _ _) k _ _ positive

/-- The loop visits the whole course, also one of a single point. -/
theorem line_course (screen : Screen) (near : start.Near) (near' : stop.Near) : line screen start stop =
    some ((List.range' 0 ((course start stop).along + 1)).map fun i =>
      ((course start stop).point i, screen.shows ((course start stop).point i).x ((course start stop).point i).y)) := by
  have small := course_small near near'
  rw [line_eq screen near near']
  rcases Nat.eq_zero_or_pos (course start stop).along with empty | positive
  · rw [empty]
    exact walk_point screen small empty
  · exact walk_course screen small positive (Nat.le_of_eq (Nat.zero_add _))

/-- Without an overflow, a line visits exactly its points and sets those that are visible. The sizes of a screen
are `int`s. -/
theorem line_draws (screen : Screen) (start stop : Point) (near : start.Near) (near' : stop.Near)
    (fits : screen.width < 2147483648 ∧ screen.height < 2147483648) :
    ∃ visits, line screen start stop = some visits ∧ Draws screen start stop visits := by
  refine ⟨_, line_course screen near near', ?_⟩
  have length : (course start stop).along = max (stop.x - start.x).natAbs (stop.y - start.y).natAbs := by
    unfold course
    dsimp only
    split <;> dsimp only <;> omega
  refine ⟨?_, ?_, ?_, ?_, ?_, ?_⟩
  · rw [List.length_map, List.length_range', length]
  · rw [List.range'_succ, List.map_cons, List.head?_cons, Option.map_some, point_zero]
    unfold course
    dsimp only
    split <;> rfl
  · rw [List.range'_concat, List.map_append, List.map_singleton, List.getLast?_concat, Option.map_some, Nat.one_mul, Nat.zero_add,
      point_along]
  · intro k less
    rw [List.length_map, List.length_range'] at less
    rw [List.getElem_map, List.getElem_map, List.getElem_range', List.getElem_range', Nat.one_mul, Nat.one_mul, Nat.zero_add,
      Nat.zero_add]
    exact course_step start stop (Nat.lt_of_succ_lt_succ less)
  · intro v member
    obtain ⟨k, inside, rfl⟩ := List.mem_map.mp member
    exact course_near start stop (by have := List.mem_range'_1.mp inside; omega)
  · intro v member
    obtain ⟨k, -, rfl⟩ := List.mem_map.mp member
    unfold Screen.shows
    rw [i32_of_lt (by omega) (by omega), i32_of_lt (by omega) (by omega)]
    simp only [Bool.and_eq_true, decide_eq_true_eq]
    omega

/-- A line up and to the right, half of it beyond the border of the screen. -/
theorem line_draws_steep : (∃ visits, line ⟨4, 8⟩ ⟨2, 7⟩ ⟨5, 1⟩ = some visits ∧ Draws ⟨4, 8⟩ ⟨2, 7⟩ ⟨5, 1⟩ visits) ∧
    line ⟨4, 8⟩ ⟨2, 7⟩ ⟨5, 1⟩ = some [(⟨2, 7⟩, true), (⟨2, 6⟩, true), (⟨3, 5⟩, true), (⟨3, 4⟩, true), (⟨4, 3⟩, false),
      (⟨4, 2⟩, false), (⟨5, 1⟩, false)] :=
  ⟨line_draws ⟨4, 8⟩ ⟨2, 7⟩ ⟨5, 1⟩ ⟨by unfold Near; decide, by unfold Near; decide⟩ ⟨by unfold Near; decide, by unfold Near; decide⟩
    (by decide), by decide⟩

end Lines

end MPStuBS.GraphicsPrinter
