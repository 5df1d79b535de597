import Mathlib.Data.List.Basic
import MPStuBS.GraphicsStream

/-! Where the cursor of a graphics stream goes: into the row below the last one exactly when it is
set there. -/
namespace MPStuBS.GraphicsStream

/-- The rows and the columns are numbers of type `int`, and there are some. -/
structure Sized (g : GraphicsStream) : Prop where
  rows : 0 < g.rows ∧ g.rows < 2147483648
  columns : 0 < g.columns ∧ g.columns < 2147483648

structure Inside (g : GraphicsStream) : Prop where
  col : g.x < g.columns
  row : g.y < g.rows

/-- At most the cells differ. -/
def Drawn (g g' : GraphicsStream) : Prop := ∃ cell, g' = { g with cell := cell }

/-- The window is the same. -/
structure SameSize (g g' : GraphicsStream) : Prop where
  rows : g'.rows = g.rows
  columns : g'.columns = g.columns

variable {g g' g'' : GraphicsStream} {color : Color} {c : UInt8}

theorem Drawn.refl (g : GraphicsStream) : g.Drawn g := ⟨g.cell, rfl⟩

theorem Drawn.trans (fst : g.Drawn g') (snd : g'.Drawn g'') : g.Drawn g'' := by
  obtain ⟨cell, rfl⟩ := fst
  obtain ⟨cell', rfl⟩ := snd
  exact ⟨cell', rfl⟩

theorem Drawn.sameSize (drawn : g.Drawn g') : g.SameSize g' := by
  obtain ⟨cell, rfl⟩ := drawn
  exact ⟨rfl, rfl⟩

theorem SameSize.trans (fst : g.SameSize g') (snd : g'.SameSize g'') : g.SameSize g'' :=
  ⟨snd.rows.trans fst.rows, snd.columns.trans fst.columns⟩

theorem Sized.same (sized : g.Sized) (same : g.SameSize g') : g'.Sized := by
  obtain ⟨rows, columns⟩ := same
  exact ⟨rows ▸ sized.rows, columns ▸ sized.columns⟩

section Drawing

theorem drawn_show (x y : Int) (character : UInt8) (color : Color) (g : GraphicsStream) :
    g.Drawn (g.show x y character color) := by
  unfold «show»
  dsimp only
  split
  · exact ⟨_, rfl⟩
  · exact .refl g

/-- What every turn of a loop only draws is only drawn by the loop. -/
theorem foldl_drawn {f : GraphicsStream → Nat → GraphicsStream} (draws : ∀ (g : GraphicsStream) i, g.Drawn (f g i)) (l : List Nat) :
    ∀ g : GraphicsStream, g.Drawn (l.foldl f g) := by
  induction l with
  | nil => exact .refl
  | cons i l ih => exact fun g => (draws g i).trans (ih (f g i))

theorem drawn_clear (low : Nat) (color : Color) (g : GraphicsStream) : g.Drawn (g.clear low color) :=
  foldl_drawn (fun g' i => drawn_show (i32 i) (i32 g.y) blank color g') _ g

/-- In the window a character is stored in its cell. -/
theorem show_of_inside (sized : g.Sized) {x y : Nat} (col : x < g.columns) (row : y < g.rows) (character : UInt8)
    (color : Color) : g.show (i32 x) (i32 y) character color =
      { g with cell := fun i => if i = g.index x y then ⟨character, color⟩ else g.cell i } := by
  have wide := sized.columns
  have tall := sized.rows
  have x32 : counted (i32 x) g.columns = x := by unfold counted i32; omega
  have y32 : counted (i32 y) g.rows = y := by unfold counted i32; omega
  unfold «show»
  rw [x32, y32]
  dsimp only
  rw [u32_of_lt (by omega), u32_of_lt (by omega),
    if_pos ⟨Int.natCast_nonneg x, col, Int.natCast_nonneg y, row⟩]

end Drawing

section Moving

/-- The number after the cursor's column or row stays in the type. -/
theorem u32_next {n size : Nat} (below : n < size) (small : size < 2147483648) : u32 ((n : Int) + 1) = n + 1 := by
  unfold u32
  omega

theorem place_newline (sized : g.Sized) (inside : g.Inside) (color : Color) : g.place color newline =
    { g with cell := (g.clear g.x color).cell, x := 0, y := g.y + 1 } := by
  obtain ⟨cell, cleared⟩ := drawn_clear g.x color g
  unfold place
  rw [if_pos rfl, cleared]
  dsimp only
  rw [u32_next inside.row sized.rows.2]

theorem place_char (sized : g.Sized) (inside : g.Inside) (color : Color) (other : c ≠ newline) : g.place color c =
    if g.columns ≤ g.x + 1 then { g with cell := (g.show (i32 g.x) (i32 g.y) c color).cell, x := 0, y := g.y + 1 }
    else { g with cell := (g.show (i32 g.x) (i32 g.y) c color).cell, x := g.x + 1 } := by
  obtain ⟨cell, shown⟩ := drawn_show (i32 g.x) (i32 g.y) c color g
  unfold place
  rw [if_neg other, shown]
  dsimp only
  rw [u32_next inside.col sized.columns.2, u32_next inside.row sized.rows.2]

/-- A cursor behind the last row goes back to it. -/
theorem scroll_inside (sized : g.Sized) (col : g.x < g.columns) (row : g.y ≤ g.rows) (color : Color) :
    (g.scroll color).Inside ∧ g.SameSize (g.scroll color) := by
  unfold scroll
  split
  · rename_i behind
    obtain ⟨cell, cleared⟩ := drawn_clear 0 color { g with offset := u32 (g.offset + 1) % g.rows, y := u32 (g.y - 1) }
    have back : u32 ((g.y : Int) - 1) < g.rows := by
      have := sized.rows
      unfold u32
      omega
    rw [cleared]
    exact ⟨⟨col, back⟩, rfl, rfl⟩
  · rename_i before
    exact ⟨⟨col, Nat.lt_of_not_le before⟩, rfl, rfl⟩

/-- After a case of the `switch` the cursor is at most one row too low. -/
theorem place_bounds (sized : g.Sized) (inside : g.Inside) (color : Color) (c : UInt8) :
    (g.place color c).x < g.columns ∧ (g.place color c).y ≤ g.rows ∧ g.SameSize (g.place color c) := by
  have col := inside.col
  have row := inside.row
  by_cases isNewline : c = newline
  · rw [isNewline, place_newline sized inside]
    exact ⟨sized.columns.1, row, rfl, rfl⟩
  · rw [place_char sized inside color isNewline]
    split
    · exact ⟨sized.columns.1, row, rfl, rfl⟩
    · rename_i room
      exact ⟨Nat.lt_of_not_le room, Nat.le_of_lt row, rfl, rfl⟩

theorem printChar_inside (sized : g.Sized) (inside : g.Inside) (color : Color) (c : UInt8) :
    (g.printChar color c).Inside ∧ g.SameSize (g.printChar color c) := by
  obtain ⟨col, row, same⟩ := place_bounds sized inside color c
  obtain ⟨inside', same'⟩ := scroll_inside (sized.same same) (same.columns ▸ col) (same.rows ▸ row) color
  exact ⟨inside', same.trans same'⟩

theorem print_inside (str : List UInt8) (color : Color) : ∀ {g : GraphicsStream}, g.Sized → g.Inside →
    (g.print str color).Inside ∧ g.SameSize (g.print str color) := by
  induction str with
  | nil => exact fun _ inside => ⟨inside, rfl, rfl⟩
  | cons c str ih =>
    intro g sized inside
    obtain ⟨inside', same⟩ := printChar_inside sized inside color c
    obtain ⟨inside'', same'⟩ := ih (sized.same same) inside'
    exact ⟨inside'', same.trans same'⟩

theorem counted_lt {x : Int} {size : Nat} (int : -2147483648 ≤ x ∧ x < 2147483648) (small : size < 2147483648) :
    0 ≤ counted x size ∧ u32 (counted x size) < size ↔ -size ≤ x ∧ x < size := by
  unfold counted i32 u32
  split <;> omega

/-- A coordinate may be the size itself only where it is accepted. -/
theorem counted_le {x : Int} {size : Nat} (int : -2147483648 ≤ x ∧ x < 2147483648) (small : size < 2147483648) :
    0 ≤ counted x size ∧ u32 (counted x size) ≤ size ↔
      0 ≤ counted x size ∧ u32 (counted x size) < size ∨ x = size := by
  unfold counted i32 u32
  split <;> omega

theorem u32_counted {size : Nat} (small : size < 2147483648) : u32 (counted size size) = size := by
  unfold counted u32
  omega

/-- The row behind the last one is accepted as well. -/
theorem setPos_inside_iff (sized : g.Sized) (inside : g.Inside) {x y : Int} (x_int : -2147483648 ≤ x ∧ x < 2147483648)
    (y_int : -2147483648 ≤ y ∧ y < 2147483648) :
    (g.setPos x y).Inside ↔ ¬ (y = g.rows ∧ -g.columns ≤ x ∧ x < g.columns) := by
  have col := counted_lt x_int sized.columns.2
  have row := counted_le y_int sized.rows.2
  unfold setPos
  dsimp only
  by_cases accepted : 0 ≤ counted x g.columns ∧ u32 (counted x g.columns) < g.columns ∧
      0 ≤ counted y g.rows ∧ u32 (counted y g.rows) ≤ g.rows
  · rw [if_pos accepted]
    obtain ⟨left, right, top, bottom⟩ := accepted
    have inRow := col.mp ⟨left, right⟩
    rcases row.mp ⟨top, bottom⟩ with ⟨-, below⟩ | rfl
    · refine ⟨fun _ beyond => ?_, fun _ => ⟨right, below⟩⟩
      rw [beyond.1, u32_counted sized.rows.2] at below
      exact Nat.lt_irrefl _ below
    · refine ⟨fun inside' => ?_, fun bounded => absurd ⟨rfl, inRow⟩ bounded⟩
      have below := inside'.row
      dsimp only at below
      rw [u32_counted sized.rows.2] at below
      exact absurd below (Nat.lt_irrefl _)
  · rw [if_neg accepted]
    refine ⟨fun _ beyond => accepted ?_, fun _ => inside⟩
    have inRow := col.mpr beyond.2
    have inCol := row.mpr (.inr beyond.1)
    exact ⟨inRow.1, inRow.2, inCol⟩

theorem setPos_sameSize (x y : Int) (g : GraphicsStream) : g.SameSize (g.setPos x y) := by
  unfold setPos
  dsimp only
  split <;> exact ⟨rfl, rfl⟩

theorem setPos_zero (sized : g.Sized) : g.setPos 0 0 = { g with x := 0, y := 0 } := by
  have zero : ∀ {size : Nat}, 0 ≤ counted 0 size ∧ u32 (counted 0 size) = 0 := ⟨Int.le_refl 0, rfl⟩
  unfold setPos
  dsimp only
  rw [zero.2, zero.2, if_pos ⟨zero.1, sized.columns.1, zero.1, Nat.zero_le _⟩]

/-- All cells of the window are drawn, and the cursor goes to the first one. -/
theorem reset_eq (sized : g.Sized) (character : UInt8) (color : Color) : ∃ cell,
    (upTo 0 g.rows).foldl (fun g (y : Nat) =>
      (upTo 0 g.columns).foldl (fun g (x : Nat) => g.show (i32 x) (i32 y) character color) g) g = { g with cell := cell } ∧
    g.reset character color = { g with cell := cell, x := 0, y := 0 } := by
  obtain ⟨cell, filled⟩ := foldl_drawn (f := fun g (y : Nat) =>
    (upTo 0 g.columns).foldl (fun g (x : Nat) => g.show (i32 x) (i32 y) character color) g)
    (fun g y => foldl_drawn (fun g x => drawn_show (i32 x) (i32 y) character color g) _ g) (upTo 0 g.rows) g
  refine ⟨cell, filled, ?_⟩
  unfold reset
  dsimp only
  rw [filled]
  exact setPos_zero (g := { g with cell := cell }) ⟨sized.rows, sized.columns⟩

end Moving

section Calls

/-- A call, with coordinates of the type `int`. -/
inductive Call where
  | setPos (x y : Int32)
  | print (str : List UInt8) (color : Color)
  | reset (character : UInt8) (color : Color)
  deriving DecidableEq, Repr

def Call.run : Call → GraphicsStream → GraphicsStream
  | .setPos x y, g => g.setPos x.toInt y.toInt
  | .print str color, g => g.print str color
  | .reset character color, g => g.reset character color

def runs (calls : List Call) (g : GraphicsStream) : GraphicsStream := calls.foldl (fun g call => call.run g) g

/-- The character is stored in the cell under the cursor. -/
def Stores (g : GraphicsStream) (color : Color) (c : UInt8) : Prop :=
  g.show (i32 g.x) (i32 g.y) c color = { g with cell := fun i => if i = g.index g.x g.y then ⟨c, color⟩ else g.cell i }

/-- The call leaves the cursor in the window, and drops no character. -/
structure Good (g : GraphicsStream) (call : Call) : Prop where
  cursor : (call.run g).Inside
  stored : ∀ str color, call = .print str color → ∀ a c b, str = a ++ c :: b → c ≠ newline →
    (g.print a color).Stores color c

/-- The call does not set the cursor to the row behind the last one. -/
def Call.Bounded (call : Call) (g : GraphicsStream) : Prop :=
  ∀ x y, call = .setPos x y → ¬ (y.toInt = g.rows ∧ -g.columns ≤ x.toInt ∧ x.toInt < g.columns)

theorem Call.run_sameSize (call : Call) (sized : g.Sized) (inside : g.Inside) : g.SameSize (call.run g) := by
  cases call with
  | setPos x y => exact setPos_sameSize _ _ g
  | print str color => exact (print_inside str color sized inside).2
  | reset character color =>
    obtain ⟨cell, -, whole⟩ := reset_eq sized character color
    rw [Call.run, whole]
    exact ⟨rfl, rfl⟩

/-- One call is good exactly if it is bounded. -/
theorem good_iff (sized : g.Sized) (inside : g.Inside) (call : Call) : g.Good call ↔ call.Bounded g := by
  cases call with
  | setPos x y =>
    have set := setPos_inside_iff sized inside ⟨x.le_toInt, x.toInt_lt⟩ ⟨y.le_toInt, y.toInt_lt⟩
    constructor
    · rintro good _ _ ⟨⟩
      exact set.mp good.cursor
    · exact fun bounded => ⟨set.mpr (bounded x y rfl), fun _ _ other => by cases other⟩
  | print str color =>
    refine ⟨fun _ _ _ other => (by cases other), fun _ => ⟨(print_inside str color sized inside).1, ?_⟩⟩
    rintro _ _ ⟨⟩ a c b - -
    obtain ⟨inside', same⟩ := print_inside a color sized inside
    exact show_of_inside (sized.same same) inside'.col inside'.row c color
  | reset character color =>
    refine ⟨fun _ _ _ other => (by cases other), fun _ => ⟨?_, fun _ _ other => by cases other⟩⟩
    obtain ⟨cell, -, whole⟩ := reset_eq sized character color
    rw [Call.run, whole]
    exact ⟨sized.columns.1, sized.rows.1⟩

theorem Call.bounded_iff (same : g.SameSize g') (call : Call) : call.Bounded g' ↔ call.Bounded g := by
  unfold Call.Bounded
  rw [same.rows, same.columns]

theorem runs_good_iff (calls : List Call) : ∀ {g : GraphicsStream}, g.Sized → g.Inside →
    ((∀ a call b, calls = a ++ call :: b → (runs a g).Good call) ↔ ∀ call ∈ calls, call.Bounded g) := by
  induction calls with
  | nil =>
    refine fun _ _ => ⟨fun _ _ member => absurd member List.not_mem_nil, fun _ a other b split => ?_⟩
    exact absurd split.symm (by simp)
  | cons call calls ih =>
    intro g sized inside
    have same := call.run_sameSize sized inside
    constructor
    · intro good
      have fst : g.Good call := good [] call calls rfl
      have rest := (ih (sized.same same) fst.cursor).mp fun a other b split => good (call :: a) other b (by rw [split]; rfl)
      intro other member
      rcases List.mem_cons.mp member with rfl | member
      · exact (good_iff sized inside _).mp fst
      · exact (other.bounded_iff same).mp (rest other member)
    · intro bounded a other b split
      have fst := (good_iff sized inside call).mpr (bounded call List.mem_cons_self)
      cases a with
      | nil =>
        obtain ⟨rfl, rfl⟩ := List.cons.inj split
        exact fst
      | cons _ a =>
        obtain ⟨rfl, rfl⟩ := List.cons.inj split
        refine (ih (sized.same same) fst.cursor).mpr (fun other member => ?_) a other b rfl
        exact (other.bounded_iff same).mpr (bounded other (List.mem_cons_of_mem _ member))

/-- With at least one row and column, and no more of them than an `int` counts, every call of a run
leaves the cursor in the window and stores its characters exactly if no call sets the cursor to the row
behind the last one. -/
theorem cursor_stays_iff (width height fontWidth fontHeight : Nat)
    (rows : 0 < height / fontHeight ∧ height / fontHeight < 2147483648)
    (columns : 0 < width / fontWidth ∧ width / fontWidth < 2147483648) (calls : List Call) :
    (∀ a call b, calls = a ++ call :: b → (runs a (construct width height fontWidth fontHeight)).Good call) ↔
      ∀ call ∈ calls, call.Bounded (construct width height fontWidth fontHeight) :=
  runs_good_iff calls ⟨rows, columns⟩ ⟨columns.1, rows.1⟩

/-- The window of the program that counts frames, with 22 columns and 2 rows. -/
theorem cursor_stays_in_counter : (∀ a call b, [Call.setPos (-1) 1, .print [65, 66] ⟨0xaa, 0xaa, 0xaa⟩] = a ++ call :: b →
    (runs a (construct 180 36 8 16)).Good call) ↔
      ∀ call ∈ [Call.setPos (-1) 1, .print [65, 66] ⟨0xaa, 0xaa, 0xaa⟩], call.Bounded (construct 180 36 8 16) :=
  cursor_stays_iff 180 36 8 16 (by decide) (by decide) _

/-- In that window a cursor in row 2 is accepted, and a character that is printed there is stored
nowhere. -/
theorem row_behind_is_accepted : ¬ (∀ a call b, [Call.setPos 0 2] = a ++ call :: b →
    (runs a (construct 180 36 8 16)).Good call) ∧
    (∀ i, (((construct 180 36 8 16).setPos 0 2).place ⟨0xaa, 0xaa, 0xaa⟩ 65).cell i ≠ ⟨65, ⟨0xaa, 0xaa, 0xaa⟩⟩) ∧
    ¬ ((construct 180 36 8 16).setPos 0 2).Stores ⟨0xaa, 0xaa, 0xaa⟩ 65 := by
  refine ⟨fun good => ?_, fun i stored => ?_, fun stores => ?_⟩
  · exact absurd (good [] (.setPos 0 2) [] rfl).cursor.row (by decide)
  · have kept : (((construct 180 36 8 16).setPos 0 2).place ⟨0xaa, 0xaa, 0xaa⟩ 65).cell i = ⟨0, ⟨0, 0, 0⟩⟩ := rfl
    rw [kept] at stored
    exact absurd stored (by decide)
  · exact absurd (congrArg (fun g => g.cell 0) stores) (by decide)

end Calls

end MPStuBS.GraphicsStream
