import MPStuBS.MachineWords

/-! Details of images on the screen: `sprite` of `graphics/printer.h`. What it does with the pixels
is the list of its assignments. -/
namespace MPStuBS.GraphicsPrinter

/-- A pixel of the screen is assigned an element of the image. -/
structure Assignment where
  x : Nat
  y : Nat
  element : Nat
  deriving DecidableEq, Repr

/-- What is done for a negative coordinate of the point, with the size and the offset there. The sum of the
two `int`s wraps around where it would overflow, for a size of `2^31` and more. -/
def shift (p : Int) (size offset : Nat) : Option (Int × Nat × Nat) :=
  if p < 0 then
    let offset := u32 (offset - p)
    if size < offset ∨ i32 (i32 size + p) < 0 then none else some (0, u32 (size + p), offset)
  else some (p, size, offset)

/-- The size up to the border of the screen. -/
def bound (p : Int) (size screen : Nat) : Nat := if screen ≤ u32 (p + size) then u32 (screen - p) else size

/-- The inner loop, from the pixel at a position on. -/
def row (imageWidth y : Nat) : List Nat → Nat → Nat → List Assignment
  | [], _, _ => []
  | x :: xs, posX, posY => ⟨posX, posY, u32 (y * imageWidth + x)⟩ :: row imageWidth y xs (posX + 1) posY

/-- The outer loop, from a point on. -/
def rows (imageWidth : Nat) (columns : List Nat) : List Nat → Int → Int → List Assignment
  | [], _, _ => []
  | y :: ys, px, py => row imageWidth y columns (u32 px) (u32 py) ++ rows imageWidth columns ys px (i32 (py + 1))

/-- The arguments of `sprite`, the height of the image, and the size of the screen. -/
structure Call where
  px : Int
  py : Int
  width : Nat
  height : Nat
  imageWidth : Nat
  imageHeight : Nat
  offsetX : Nat
  offsetY : Nat
  screenWidth : Nat
  screenHeight : Nat
  deriving DecidableEq, Repr

def sprite (c : Call) : List Assignment :=
  match shift c.px c.width c.offsetX with
  | none => []
  | some (px, width, offsetX) =>
    match shift c.py c.height c.offsetY with
    | none => []
    | some (py, height, offsetY) =>
      if i32 c.screenWidth ≤ px ∨ i32 c.screenHeight ≤ py then []
      else
        let width := bound px width c.screenWidth
        let height := bound py height c.screenHeight
        rows c.imageWidth (upTo offsetX (u32 (offsetX + width))) (upTo offsetY (u32 (offsetY + height))) px py

section Axes

/-- Where a detail starts on the screen, how far it goes and where it starts in the image. -/
def axis (p : Int) (size offset screen : Nat) : Option (Nat × Nat × Nat) :=
  match shift p size offset with
  | none => none
  | some (p, size, offset) => if i32 screen ≤ p then none else some (p.toNat, bound p size screen, offset)

/-- A coordinate that belongs to the detail and to the screen. -/
structure Shown (p : Int) (size screen x : Nat) : Prop where
  low : p ≤ x
  high : (x : Int) < p + size
  inside : x < screen

/-- The numbers are in their types, and the detail ends in the image. -/
structure Typed (p : Int) (size offset screen : Nat) : Prop where
  point : -2147483648 ≤ p ∧ p < 2147483648
  detail : offset + size < 4294967296
  screen : screen < 4294967296

/-- A detail that starts before the screen must have its visible part in its first columns, counted
from the start of the image. -/
structure Fits (p : Int) (size offset screen : Nat) : Prop where
  screen : screen < 2147483648
  before : p < 0 → offset - p ≤ size ∧ size + p < 2147483648
  behind : 0 ≤ p → p + size < 4294967296

/-- The part of an axis is what is shown of the detail. -/
structure Covers (p : Int) (size offset screen start count first : Nat) : Prop where
  shown : ∀ x, Shown p size screen x ↔ start ≤ x ∧ x < start + count
  begins : (first : Int) = offset + start - p
  ends : first + count ≤ offset + size
  inside : start + count ≤ screen

variable {p : Int} {size offset screen : Nat}

theorem shift_of_nonneg (nonneg : 0 ≤ p) : shift p size offset = some (p, size, offset) := by
  unfold shift
  rw [if_neg (Int.not_lt.mpr nonneg)]

theorem axis_of_nonneg (nonneg : 0 ≤ p) : axis p size offset screen =
    if i32 screen ≤ p then none else some (p.toNat, bound p size screen, offset) := by
  unfold axis
  rw [shift_of_nonneg nonneg]

theorem axis_of_neg (neg : p < 0) : axis p size offset screen =
    if size < u32 (offset - p) ∨ i32 (i32 size + p) < 0 then none
    else if i32 screen ≤ 0 then none else some (0, bound 0 (u32 (size + p)) screen, u32 (offset - p)) := by
  unfold axis shift
  dsimp only
  rw [if_pos neg]
  by_cases returns : size < u32 (offset - p) ∨ i32 (i32 size + p) < 0
  · rw [if_pos returns, if_pos returns]
  · rw [if_neg returns, if_neg returns]
    rfl

theorem axis_hidden (typed : Typed p size offset screen) (hidden : ∀ x, ¬ Shown p size screen x) :
    axis p size offset screen = none ∨ ∃ x offset', offset' < 4294967296 ∧ axis p size offset screen = some (x, 0, offset') := by
  obtain ⟨point, detail, small⟩ := typed
  by_cases nonneg : 0 ≤ p
  · have apart : size = 0 ∨ screen ≤ p := by
      by_cases inside : p < screen
      · refine Or.inl (Nat.eq_zero_of_not_pos fun positive => hidden p.toNat ⟨?_, ?_, ?_⟩) <;> omega
      · exact Or.inr (Int.not_lt.mp inside)
    rw [axis_of_nonneg nonneg]
    by_cases outside : i32 screen ≤ p
    · exact Or.inl (if_pos outside)
    · refine Or.inr ⟨p.toNat, offset, by omega, ?_⟩
      rw [if_neg outside]
      have empty : size = 0 := by
        unfold i32 at outside
        omega
      subst empty
      have short : ¬ screen ≤ u32 (p + (0 : Nat)) := by
        unfold i32 at outside
        unfold u32
        omega
      unfold bound
      rw [if_neg short]
  · have apart : screen = 0 ∨ size + p ≤ 0 := by
      by_cases empty : screen = 0
      · exact Or.inl empty
      · refine Or.inr (Int.not_lt.mp fun positive => hidden 0 ⟨?_, ?_, ?_⟩) <;> omega
    rw [axis_of_neg (Int.not_le.mp nonneg)]
    split
    · exact Or.inl rfl
    split
    · exact Or.inl rfl
    · rename_i returns inside
      refine Or.inr ⟨0, u32 (offset - p), u32_lt _, ?_⟩
      have signed := (not_or.mp returns).2
      have empty : u32 (size + p) = 0 := by
        unfold i32 at signed inside
        unfold u32
        omega
      have short : ¬ screen ≤ u32 (0 + (0 : Nat)) := by
        unfold i32 at inside
        unfold u32
        omega
      unfold bound
      rw [empty, if_neg short]

theorem axis_fits (typed : Typed p size offset screen) (fits : Fits p size offset screen) {x : Nat}
    (shown : Shown p size screen x) :
    ∃ start count first, axis p size offset screen = some (start, count, first) ∧ Covers p size offset screen start count first := by
  obtain ⟨point, detail, -⟩ := typed
  obtain ⟨small, before, behind⟩ := fits
  obtain ⟨low, high, inside⟩ := shown
  by_cases nonneg : 0 ≤ p
  · have behind := behind nonneg
    have visible : ¬ i32 screen ≤ p := by
      rw [i32_of_lt (by omega) (by omega)]
      omega
    rw [axis_of_nonneg nonneg, if_neg visible]
    refine ⟨_, _, _, rfl, ?_⟩
    unfold bound
    rw [u32_of_nonneg (by omega) behind, u32_of_nonneg (by omega) (by omega)]
    split
    · exact ⟨fun z => ⟨fun ⟨_, _, _⟩ => by omega, fun _ => ⟨by omega, by omega, by omega⟩⟩, by omega, by omega, by omega⟩
    · exact ⟨fun z => ⟨fun ⟨_, _, _⟩ => by omega, fun _ => ⟨by omega, by omega, by omega⟩⟩, by omega, by omega, by omega⟩
  · have neg : p < 0 := Int.not_le.mp nonneg
    obtain ⟨room, short⟩ := before neg
    have visible : ¬ i32 screen ≤ 0 := by
      rw [i32_of_lt (by omega) (by omega)]
      omega
    rw [axis_of_neg neg, if_neg visible, i32_add, i32_of_lt (by omega) short, u32_of_nonneg (by omega) (by omega),
      u32_of_nonneg (by omega) (by omega), if_neg (by omega)]
    refine ⟨_, _, _, rfl, ?_⟩
    unfold bound
    rw [u32_of_nonneg (by omega) (by omega), u32_of_nonneg (by omega) (by omega)]
    split
    · exact ⟨fun z => ⟨fun ⟨_, _, _⟩ => by omega, fun _ => ⟨by omega, by omega, by omega⟩⟩, by omega, by omega, by omega⟩
    · exact ⟨fun z => ⟨fun ⟨_, _, _⟩ => by omega, fun _ => ⟨by omega, by omega, by omega⟩⟩, by omega, by omega, by omega⟩

theorem axis_unfit (typed : Typed p size offset screen) (unfit : ¬ Fits p size offset screen) {x : Nat}
    (shown : Shown p size screen x) :
    axis p size offset screen = none ∨ ∃ start count first, axis p size offset screen = some (start, count, first) ∧
      start ≤ screen ∧ screen < start + count ∧ first + count < 4294967296 ∧ screen < 2147483648 := by
  obtain ⟨point, detail, below⟩ := typed
  obtain ⟨low, high, inside⟩ := shown
  by_cases small : screen < 2147483648
  · have signed : i32 screen = screen := i32_of_lt (by omega) (by omega)
    by_cases nonneg : 0 ≤ p
    · have wraps : 4294967296 ≤ p + size := Int.not_lt.mp fun fine =>
        unfit ⟨small, fun neg => absurd nonneg (Int.not_le.mpr neg), fun _ => fine⟩
      have stop : ¬ screen ≤ u32 (p + size) := by
        unfold u32
        omega
      refine Or.inr ⟨p.toNat, size, offset, ?_, by omega, by omega, detail, small⟩
      rw [axis_of_nonneg nonneg, if_neg (by omega)]
      unfold bound
      rw [if_neg stop]
    · have neg : p < 0 := Int.not_le.mp nonneg
      have returns : size < u32 (offset - p) ∨ i32 (i32 size + p) < 0 := by
        refine Decidable.byContradiction fun fine => unfit ⟨small, fun _ => ?_, fun nonneg => absurd nonneg (Int.not_le.mpr neg)⟩
        unfold u32 i32 at fine
        omega
      rw [axis_of_neg neg, if_pos returns]
      exact Or.inl rfl
  · have outside : i32 screen < 0 := by
      unfold i32
      omega
    refine Or.inl ?_
    by_cases nonneg : 0 ≤ p
    · rw [axis_of_nonneg nonneg, if_pos (by omega)]
    · rw [axis_of_neg (Int.not_le.mp nonneg)]
      split
      · rfl
      · exact if_pos (Int.le_of_lt outside)

end Axes

section Loops

variable {imageWidth : Nat} {a : Assignment}

theorem mem_row {y x count posX posY : Nat} : a ∈ row imageWidth y (List.range' x count) posX posY ↔
    ∃ k, k < count ∧ a = ⟨posX + k, posY, u32 (y * imageWidth + (x + k : Nat))⟩ := by
  induction count generalizing x posX with
  | zero => exact ⟨(nomatch ·), fun ⟨_, less, _⟩ => absurd less (Nat.not_lt_zero _)⟩
  | succ count ih =>
    rw [List.range'_succ, row, List.mem_cons, ih, Nat.exists_lt_succ_left]
    refine or_congr Iff.rfl (exists_congr fun k => and_congr_right fun _ => ?_)
    rw [Nat.add_right_comm, Nat.add_assoc posX, Nat.add_right_comm x 1, Nat.add_assoc x]

theorem mem_rows {columns : List Nat} {y count : Nat} {px py : Int} :
    a ∈ rows imageWidth columns (List.range' y count) px py ↔
      ∃ k, k < count ∧ a ∈ row imageWidth (y + k) columns (u32 px) (u32 (py + k)) := by
  induction count generalizing y py with
  | zero => exact ⟨(nomatch ·), fun ⟨_, less, _⟩ => absurd less (Nat.not_lt_zero _)⟩
  | succ count ih =>
    have turn : ∀ k : Nat, u32 (i32 (py + 1) + k) = u32 (py + (k + 1 : Nat)) := fun k => by
      rw [u32_i32_add, Int.natCast_add, Int.add_assoc, Int.add_comm 1]
      rfl
    rw [List.range'_succ, rows, List.mem_append, ih, Nat.exists_lt_succ_left, Int.natCast_zero, Int.add_zero]
    refine or_congr Iff.rfl (exists_congr fun k => and_congr_right fun _ => ?_)
    rw [turn, Nat.add_assoc, Nat.add_comm 1]

theorem rows_empty {lines : List Nat} {px py : Int} : rows imageWidth [] lines px py = [] := by
  induction lines generalizing py with
  | nil => rfl
  | cons y ys ih => exact ih

/-- The pixel that is assigned. -/
def Assignment.pixel (a : Assignment) : Nat × Nat := (a.x, a.y)

theorem row_once {y x count posX posY : Nat} :
    ((row imageWidth y (List.range' x count) posX posY).map Assignment.pixel).Nodup := by
  induction count generalizing x posX with
  | zero => exact List.nodup_nil
  | succ count ih =>
    rw [List.range'_succ]
    unfold row
    rw [List.map_cons, List.nodup_cons]
    refine ⟨fun again => ?_, ih⟩
    obtain ⟨b, there, same⟩ := List.mem_map.mp again
    obtain ⟨k, -, rfl⟩ := mem_row.mp there
    have := congrArg Prod.fst same
    dsimp only [Assignment.pixel] at this
    omega

theorem rows_once {y count x columns : Nat} {px py : Int} (nonneg : 0 ≤ py) (small : py + count < 2147483648) :
    ((rows imageWidth (List.range' x columns) (List.range' y count) px py).map Assignment.pixel).Nodup := by
  induction count generalizing y py with
  | zero => exact List.nodup_nil
  | succ count ih =>
    rw [List.range'_succ]
    unfold rows
    rw [i32_of_lt (by omega) (by omega), List.map_append, List.nodup_append]
    refine ⟨row_once, ih (by omega) (by omega), fun _ first _ rest same => ?_⟩
    obtain ⟨b, now, rfl⟩ := List.mem_map.mp first
    obtain ⟨c, later, rfl⟩ := List.mem_map.mp rest
    obtain ⟨k, less, later⟩ := mem_rows.mp later
    obtain ⟨_, -, rfl⟩ := mem_row.mp now
    obtain ⟨_, -, rfl⟩ := mem_row.mp later
    have := congrArg Prod.snd same
    dsimp only [Assignment.pixel] at this
    rw [u32_of_nonneg nonneg (by omega), u32_of_nonneg (by omega) (by omega)] at this
    omega

end Loops

section Drawing

/-- The promises of a caller: the detail is a part of the image. -/
structure Call.InImage (c : Call) : Prop where
  left : -2147483648 ≤ c.px ∧ c.px < 2147483648
  top : -2147483648 ≤ c.py ∧ c.py < 2147483648
  columns : c.offsetX + c.width ≤ c.imageWidth ∧ c.imageWidth < 4294967296
  lines : c.offsetY + c.height ≤ c.imageHeight ∧ c.imageHeight < 4294967296
  screen : c.screenWidth < 4294967296 ∧ c.screenHeight < 4294967296

/-- A pixel of the screen that the detail covers. -/
def Call.Visible (c : Call) (x y : Nat) : Prop :=
  Shown c.px c.width c.screenWidth x ∧ Shown c.py c.height c.screenHeight y

/-- The element of the image that belongs to a pixel. -/
def Call.source (c : Call) (x y : Nat) : Int := (c.offsetY + y - c.py) * c.imageWidth + (c.offsetX + x - c.px)

/-- Every visible pixel is assigned its element once, and nothing else is assigned. -/
structure Call.Draws (c : Call) (assigned : List Assignment) : Prop where
  exact : ∀ x y element : Nat, ⟨x, y, element⟩ ∈ assigned ↔ c.Visible x y ∧ (element : Int) = c.source x y
  once : (assigned.map Assignment.pixel).Nodup

/-- Nothing is visible, or the detail fits along both axes and the elements have numbers. -/
def Call.Drawn (c : Call) : Prop :=
  (∀ x y, ¬ c.Visible x y) ∨ Fits c.px c.width c.offsetX c.screenWidth ∧ Fits c.py c.height c.offsetY c.screenHeight ∧
    ∀ x y, c.Visible x y → c.source x y < 4294967296

theorem shift_nonneg {p p' : Int} {size offset size' offset' : Nat} (shifts : shift p size offset = some (p', size', offset')) :
    0 ≤ p' := by
  unfold shift at shifts
  split at shifts
  · dsimp only at shifts
    split at shifts
    · exact nomatch shifts
    · cases shifts
      exact Int.le_refl 0
  · rename_i nonneg
    cases shifts
    exact Int.not_lt.mp nonneg

variable {c : Call}

theorem Call.InImage.typedX (inImage : c.InImage) : Typed c.px c.width c.offsetX c.screenWidth :=
  ⟨inImage.left, Nat.lt_of_le_of_lt inImage.columns.1 inImage.columns.2, inImage.screen.1⟩

theorem Call.InImage.typedY (inImage : c.InImage) : Typed c.py c.height c.offsetY c.screenHeight :=
  ⟨inImage.top, Nat.lt_of_le_of_lt inImage.lines.1 inImage.lines.2, inImage.screen.2⟩

theorem sprite_eq (c : Call) : sprite c =
    match axis c.px c.width c.offsetX c.screenWidth with
    | none => []
    | some (x, width, offsetX) =>
      match axis c.py c.height c.offsetY c.screenHeight with
      | none => []
      | some (y, height, offsetY) =>
        rows c.imageWidth (upTo offsetX (u32 (offsetX + width))) (upTo offsetY (u32 (offsetY + height))) x y := by
  unfold sprite axis
  rcases shiftX : shift c.px c.width c.offsetX with _ | ⟨px, width, offsetX⟩
  · rfl
  rcases shiftY : shift c.py c.height c.offsetY with _ | ⟨py, height, offsetY⟩
  · dsimp only
    split <;> rfl
  dsimp only
  have left := shift_nonneg shiftX
  have top := shift_nonneg shiftY
  by_cases beyond : i32 c.screenWidth ≤ px
  · rw [if_pos (Or.inl beyond), if_pos beyond]
  by_cases below : i32 c.screenHeight ≤ py
  · rw [if_pos (Or.inr below), if_neg beyond, if_pos below]
  · rw [if_neg (not_or.mpr ⟨beyond, below⟩), if_neg beyond, if_neg below, ← Int.toNat_of_nonneg left, ← Int.toNat_of_nonneg top]
    rfl

theorem sprite_left_none (none : axis c.px c.width c.offsetX c.screenWidth = none) : sprite c = [] := by
  rw [sprite_eq, none]

theorem sprite_top_none (none : axis c.py c.height c.offsetY c.screenHeight = none) : sprite c = [] := by
  rw [sprite_eq, none]
  split <;> rfl

theorem mem_sprite {x width offsetX y height offsetY : Nat}
    (left : axis c.px c.width c.offsetX c.screenWidth = some (x, width, offsetX))
    (top : axis c.py c.height c.offsetY c.screenHeight = some (y, height, offsetY))
    (columns : offsetX + width < 4294967296) (lines : offsetY + height < 4294967296) {a : Assignment} :
    a ∈ sprite c ↔ ∃ k, k < height ∧ ∃ j, j < width ∧
      a = ⟨u32 x + j, u32 (y + k), u32 ((offsetY + k : Nat) * c.imageWidth + (offsetX + j : Nat))⟩ := by
  rw [sprite_eq, left, top]
  dsimp only
  unfold upTo
  rw [← Int.natCast_add, ← Int.natCast_add, u32_of_lt columns, u32_of_lt lines, Nat.add_sub_cancel_left, Nat.add_sub_cancel_left,
    mem_rows]
  exact exists_congr fun k => and_congr_right fun _ => mem_row

theorem sprite_hidden (inImage : c.InImage) (hidden : ∀ x y, ¬ c.Visible x y) : sprite c = [] := by
  by_cases left : ∀ x, ¬ Shown c.px c.width c.screenWidth x
  · rcases axis_hidden inImage.typedX left with none | ⟨x, offsetX, small, some⟩
    · exact sprite_left_none none
    rcases top : axis c.py c.height c.offsetY c.screenHeight with _ | ⟨y, height, offsetY⟩
    · exact sprite_top_none top
    · rw [sprite_eq, some, top]
      dsimp only
      unfold upTo
      rw [Int.natCast_zero, Int.add_zero, u32_of_lt small, Nat.sub_self, List.range'_zero]
      exact rows_empty
  · obtain ⟨x, shown⟩ := Classical.not_forall_not.mp left
    have top : ∀ y, ¬ Shown c.py c.height c.screenHeight y := fun y also => hidden x y ⟨shown, also⟩
    rcases axis_hidden inImage.typedY top with none | ⟨y, offsetY, small, some⟩
    · exact sprite_top_none none
    rcases part : axis c.px c.width c.offsetX c.screenWidth with _ | ⟨x, width, offsetX⟩
    · exact sprite_left_none part
    · rw [sprite_eq, part, some]
      dsimp only
      unfold upTo
      rw [Int.natCast_zero, Int.add_zero, u32_of_lt small, Nat.sub_self, List.range'_zero]
      rfl

/-- The part of an axis has a length when something of it is shown. -/
theorem axis_positive {p : Int} {size offset screen x : Nat} (typed : Typed p size offset screen) (shown : Shown p size screen x) :
    axis p size offset screen = none ∨ ∃ start count first, axis p size offset screen = some (start, count, first) ∧
      0 < count ∧ start < 2147483648 ∧ first + count < 4294967296 := by
  by_cases fits : Fits p size offset screen
  · obtain ⟨start, count, first, some, covers⟩ := axis_fits typed fits shown
    have part := (covers.shown x).mp shown
    have small := fits.screen
    have inside := covers.inside
    have ends := covers.ends
    have detail := typed.detail
    exact Or.inr ⟨start, count, first, some, by omega, by omega, by omega⟩
  · rcases axis_unfit typed fits shown with none | ⟨start, count, first, some, before, behind, small, screen⟩
    · exact Or.inl none
    · exact Or.inr ⟨start, count, first, some, by omega, by omega, small⟩

theorem source_of_visible (x y : Nat) (visible : c.Visible x y) : 0 ≤ c.source x y := by
  have right := visible.1.low
  have below := visible.2.low
  unfold Call.source
  have product := Int.mul_nonneg (show 0 ≤ c.offsetY + y - c.py by omega) (Int.natCast_nonneg c.imageWidth)
  omega

/-- A visible pixel is among the assignments of a detail that is drawn. -/
theorem Call.Draws.assigns {assigned : List Assignment} (draws : c.Draws assigned) {x y : Nat} (visible : c.Visible x y) :
    ⟨x, y, (c.source x y).toNat⟩ ∈ assigned :=
  (draws.exact x y _).mpr ⟨visible, Int.toNat_of_nonneg (source_of_visible x y visible)⟩

theorem Call.Draws.not_empty {assigned : List Assignment} (draws : c.Draws assigned) {x y : Nat} (visible : c.Visible x y) :
    assigned ≠ [] :=
  List.ne_nil_of_mem (draws.assigns visible)

theorem sprite_draws (inImage : c.InImage) (fitsX : Fits c.px c.width c.offsetX c.screenWidth)
    (fitsY : Fits c.py c.height c.offsetY c.screenHeight) (numbered : ∀ x y, c.Visible x y → c.source x y < 4294967296)
    {x y : Nat} (visible : c.Visible x y) : c.Draws (sprite c) := by
  obtain ⟨startX, width, offsetX, left, shownX, beginsX, endsX, insideX⟩ := axis_fits inImage.typedX fitsX visible.1
  obtain ⟨startY, height, offsetY, top, shownY, beginsY, endsY, insideY⟩ := axis_fits inImage.typedY fitsY visible.2
  have partX := (shownX x).mp visible.1
  have smallX := fitsX.screen
  have smallY := fitsY.screen
  have columns : offsetX + width < 4294967296 := Nat.lt_of_le_of_lt endsX inImage.typedX.detail
  have lines : offsetY + height < 4294967296 := Nat.lt_of_le_of_lt endsY inImage.typedY.detail
  have number : ∀ j k : Nat, ((offsetY + k : Nat) : Int) * c.imageWidth + (offsetX + j : Nat) = c.source (startX + j) (startY + k) := by
    intro j k
    unfold Call.source
    rw [show ((offsetY + k : Nat) : Int) = c.offsetY + (startY + k : Nat) - c.py by omega]
    omega
  constructor
  · intro x y element
    rw [mem_sprite left top columns lines]
    constructor
    · rintro ⟨k, lower, j, righter, same⟩
      obtain ⟨rfl, rfl, rfl⟩ := Assignment.mk.inj same
      rw [u32_of_lt (by omega), ← Int.natCast_add, u32_of_lt (by omega), number]
      have there : c.Visible (startX + j) (startY + k) := ⟨(shownX _).mpr (by omega), (shownY _).mpr (by omega)⟩
      rw [u32_of_nonneg (source_of_visible _ _ there) (numbered _ _ there)]
      exact ⟨there, Int.toNat_of_nonneg (source_of_visible _ _ there)⟩
    · rintro ⟨there, same⟩
      have inX := (shownX x).mp there.1
      have inY := (shownY y).mp there.2
      refine ⟨y - startY, by omega, x - startX, by omega, ?_⟩
      rw [number, Nat.add_sub_cancel' inX.1, Nat.add_sub_cancel' inY.1, ← same, u32_of_lt (by omega), ← Int.natCast_add,
        Nat.add_sub_cancel' inX.1, Nat.add_sub_cancel' inY.1, u32_of_lt (by omega), u32_of_lt]
      have := numbered x y there
      omega
  · rw [sprite_eq, left, top]
    dsimp only
    unfold upTo
    rw [← Int.natCast_add, ← Int.natCast_add, u32_of_lt columns, u32_of_lt lines, Nat.add_sub_cancel_left,
      Nat.add_sub_cancel_left]
    exact rows_once (Int.natCast_nonneg _) (by omega)

/-- A detail that does not fit along an axis is missing, or it runs over the border of the screen. -/
theorem fits_of_draws (inImage : c.InImage) (draws : c.Draws (sprite c)) {x y : Nat} (visible : c.Visible x y) :
    Fits c.px c.width c.offsetX c.screenWidth ∧ Fits c.py c.height c.offsetY c.screenHeight := by
  rcases axis_positive inImage.typedX visible.1 with none | ⟨startX, width, offsetX, left, wide, smallX, columns⟩
  · exact absurd (sprite_left_none none) (draws.not_empty visible)
  rcases axis_positive inImage.typedY visible.2 with none | ⟨startY, height, offsetY, top, high, smallY, lines⟩
  · exact absurd (sprite_top_none none) (draws.not_empty visible)
  constructor
  · refine Classical.byContradiction fun unfit => ?_
    rcases axis_unfit inImage.typedX unfit visible.1 with none | ⟨start, count, first, some, before, behind, -, -⟩
    · exact absurd (sprite_left_none none) (draws.not_empty visible)
    · cases left.symm.trans some
      have stray := (mem_sprite left top columns lines).mpr ⟨0, high, c.screenWidth - startX, by omega, rfl⟩
      have inside := ((draws.exact _ _ _).mp stray).1.1.inside
      rw [u32_of_lt (by omega), Nat.add_sub_cancel' before] at inside
      exact Nat.lt_irrefl _ inside
  · refine Classical.byContradiction fun unfit => ?_
    rcases axis_unfit inImage.typedY unfit visible.2 with none | ⟨start, count, first, some, before, behind, -, small⟩
    · exact absurd (sprite_top_none none) (draws.not_empty visible)
    · cases top.symm.trans some
      have stray := (mem_sprite left top columns lines).mpr ⟨c.screenHeight - startY, by omega, 0, wide, rfl⟩
      have inside := ((draws.exact _ _ _).mp stray).1.2.inside
      rw [← Int.natCast_add, Nat.add_sub_cancel' before, u32_of_lt (by omega)] at inside
      exact Nat.lt_irrefl _ inside

theorem numbered_of_draws (inImage : c.InImage) (draws : c.Draws (sprite c)) (x y : Nat) (visible : c.Visible x y) :
    c.source x y < 4294967296 := by
  rcases axis_positive inImage.typedX visible.1 with none | ⟨startX, width, offsetX, left, wide, smallX, columns⟩
  · exact absurd (sprite_left_none none) (draws.not_empty visible)
  rcases axis_positive inImage.typedY visible.2 with none | ⟨startY, height, offsetY, top, high, smallY, lines⟩
  · exact absurd (sprite_top_none none) (draws.not_empty visible)
  obtain ⟨k, -, j, -, same⟩ := (mem_sprite left top columns lines).mp (draws.assigns visible)
  obtain ⟨-, -, number⟩ := Assignment.mk.inj same
  have small := u32_lt ((offsetY + k : Nat) * c.imageWidth + (offsetX + j : Nat))
  omega

theorem draws_hidden (inImage : c.InImage) (hidden : ∀ x y, ¬ c.Visible x y) : c.Draws (sprite c) := by
  rw [sprite_hidden inImage hidden]
  exact ⟨fun x y _ => ⟨(nomatch ·), fun ⟨visible, _⟩ => absurd visible (hidden x y)⟩, List.nodup_nil⟩

theorem sprite_iff (c : Call) (inImage : c.InImage) : c.Draws (sprite c) ↔ c.Drawn := by
  by_cases hidden : ∀ x y, ¬ c.Visible x y
  · exact iff_of_true (draws_hidden inImage hidden) (Or.inl hidden)
  · obtain ⟨x, there⟩ := Classical.not_forall.mp hidden
    obtain ⟨y, visible⟩ := Classical.not_forall_not.mp there
    constructor
    · intro draws
      obtain ⟨fitsX, fitsY⟩ := fits_of_draws inImage draws visible
      exact Or.inr ⟨fitsX, fitsY, numbered_of_draws inImage draws⟩
    · rintro (nowhere | ⟨fitsX, fitsY, numbered⟩)
      · exact absurd nowhere hidden
      · exact sprite_draws inImage fitsX fitsY numbered visible

/-- Half of a detail that begins in the middle of its image, before the left border of the screen. -/
def beforeBorder : Call := ⟨-1, 0, 10, 1, 100, 1, 20, 0, 640, 480⟩

theorem beforeBorder_inImage : beforeBorder.InImage := by
  constructor <;> decide

theorem offset_hides_detail : beforeBorder.InImage ∧ beforeBorder.Visible 0 0 ∧ sprite beforeBorder = [] ∧
    ¬ beforeBorder.Draws (sprite beforeBorder) := by
  have visible : beforeBorder.Visible 0 0 := by
    constructor <;> constructor <;> decide
  exact ⟨beforeBorder_inImage, visible, rfl, fun draws => draws.not_empty visible rfl⟩

/-- A detail from the start of its image, of which the right and the lower part are on the screen. -/
def overBorder : Call := ⟨-3, -1, 10, 4, 100, 30, 0, 0, 640, 480⟩

theorem sprite_over_border : overBorder.Draws (sprite overBorder) ∧ (sprite overBorder).length = 21 := by
  have inImage : overBorder.InImage := by
    constructor <;> decide
  refine ⟨(sprite_iff overBorder inImage).mpr (.inr ⟨?_, ?_, fun x y visible => ?_⟩), rfl⟩
  · exact ⟨by decide, fun _ => ⟨by decide, by decide⟩, fun nonneg => absurd nonneg (by decide)⟩
  · exact ⟨by decide, fun _ => ⟨by decide, by decide⟩, fun nonneg => absurd nonneg (by decide)⟩
  · obtain ⟨⟨_, right, _⟩, _, lower, _⟩ := visible
    unfold Call.source
    change (0 + (y : Int) - -1) * 100 + (0 + (x : Int) - -3) < 4294967296
    change (x : Int) < -3 + 10 at right
    change (y : Int) < -1 + 4 at lower
    omega

end Drawing

end MPStuBS.GraphicsPrinter
