import Mathlib.Data.Nat.ModEq
import MPStuBS.GraphicsCursor
import MPStuBS.TextConsole

/-! The graphics stream shows what the text window shows. -/
namespace MPStuBS.GraphicsStream

open TextWindow (layout)

/-- The first row is one of the rows, and there is a number for every cell. -/
structure Ring (g : GraphicsStream) : Prop extends Sized g where
  offset : g.offset < g.rows
  cells : g.rows * g.columns ≤ 4294967296

/-- What is in a row, counted from the first one. -/
def logical (x y : Nat) (g : GraphicsStream) : Cell := g.cell (g.index x y)

variable {g g' : GraphicsStream} {color : Color} {c : UInt8} {x y x' y' : Nat} {l : Layout UInt8}

section Cells

theorem index_eq (ring : g.Ring) (col : x < g.columns) (row : y < g.rows) :
    g.index x y = (g.offset + y) % g.rows * g.columns + x := by
  have small := ring.rows
  have first := ring.offset
  have last : (g.offset + y) % g.rows + 1 ≤ g.rows := Nat.mod_lt _ small.1
  have bound := Nat.le_trans (Nat.mul_le_mul_right g.columns last) ring.cells
  rw [Nat.succ_mul] at bound
  have whole : u32 ((g.offset : Int) + (y : Int)) = g.offset + y := by
    unfold u32
    omega
  unfold index
  rw [whole]
  exact u32_of_lt (n := (g.offset + y) % g.rows * g.columns + x) (by omega)

/-- Different cells have different indices. -/
theorem index_inj (ring : g.Ring) (col : x < g.columns) (row : y < g.rows) (col' : x' < g.columns) (row' : y' < g.rows) :
    g.index x y = g.index x' y' ↔ x = x' ∧ y = y' := by
  refine ⟨fun same => ?_, fun same => by rw [same.1, same.2]⟩
  rw [index_eq ring col row, index_eq ring col' row'] at same
  have column : x = x' := by
    have rest := congrArg (· % g.columns) same
    rwa [Nat.mul_add_mod', Nat.mul_add_mod', Nat.mod_eq_of_lt col, Nat.mod_eq_of_lt col'] at rest
  subst column
  have place : (g.offset + y) % g.rows = (g.offset + y') % g.rows :=
    Nat.eq_of_mul_eq_mul_right ring.columns.1 (Nat.add_right_cancel same)
  exact ⟨rfl, Nat.ModEq.eq_of_lt_of_lt (Nat.ModEq.add_left_cancel' g.offset place) row row'⟩

theorem logical_show (ring : g.Ring) (col : x < g.columns) (row : y < g.rows) (col' : x' < g.columns) (row' : y' < g.rows)
    (c : UInt8) (color : Color) : (g.show (i32 x) (i32 y) c color).logical x' y' =
      if x' = x ∧ y' = y then ⟨c, color⟩ else g.logical x' y' := by
  have same := index_inj ring col' row' col row
  rw [show_of_inside ring.toSized col row]
  exact if_congr same rfl rfl

theorem Ring.drawn (ring : g.Ring) (drawn : g.Drawn g') : g'.Ring := by
  obtain ⟨cell, rfl⟩ := drawn
  exact ⟨⟨ring.rows, ring.columns⟩, ring.offset, ring.cells⟩

/-- One turn of a loop that shows a character in every cell of a row. -/
theorem Drawn.logical_show (drawn : g.Drawn g') (ring : g.Ring) (col : x < g.columns) (row : y < g.rows)
    (col' : x' < g.columns) (row' : y' < g.rows) (c : UInt8) (color : Color) :
    (g'.show (i32 x) (i32 y) c color).logical x' y' = if x' = x ∧ y' = y then ⟨c, color⟩ else g'.logical x' y' := by
  have ring' := ring.drawn drawn
  obtain ⟨cell, rfl⟩ := drawn
  exact GraphicsStream.logical_show ring' col row col' row' c color

theorem logical_row (ring : g.Ring) (row : y < g.rows) {low : Nat} (le : low ≤ g.columns) (c : UInt8) (color : Color) :
    ∀ x' y', x' < g.columns → y' < g.rows →
      ((upTo low g.columns).foldl (fun g (x : Nat) => g.show (i32 x) (i32 y) c color) g).logical x' y' =
        if y' = y ∧ low ≤ x' then ⟨c, color⟩ else g.logical x' y' := by
  have whole := upTo_carries (f := fun g (x : Nat) => g.show (i32 x) (i32 y) c color)
    (fun i g' => g.Drawn g' ∧ ∀ x' y', x' < g.columns → y' < g.rows →
      g'.logical x' y' = if y' = y ∧ low ≤ x' ∧ x' < i then ⟨c, color⟩ else g.logical x' y') le
    (fun x g' above below ⟨drawn, written⟩ => by
      refine ⟨drawn.trans (drawn_show _ _ _ _ _), fun x' y' col' row' => ?_⟩
      rw [drawn.logical_show ring below row col' row', written x' y' col' row']
      by_cases here : x' = x ∧ y' = y
      · rw [if_pos here, if_pos (by omega)]
      · rw [if_neg here]
        refine if_congr ?_ rfl rfl
        omega)
    (s := g) ⟨.refl g, fun x' y' _ _ => by rw [if_neg (by omega)]⟩
  intro x' y' col' row'
  rw [whole.2 x' y' col' row']
  refine if_congr ?_ rfl rfl
  omega

theorem logical_clear (ring : g.Ring) (row : g.y < g.rows) {low : Nat} (le : low ≤ g.columns) (color : Color) :
    ∀ x' y', x' < g.columns → y' < g.rows → (g.clear low color).logical x' y' =
      if y' = g.y ∧ low ≤ x' then ⟨blank, color⟩ else g.logical x' y' :=
  logical_row ring row le blank color

/-- All cells get the character. -/
theorem logical_rows (ring : g.Ring) (c : UInt8) (color : Color) (col : x < g.columns) (row : y < g.rows) :
    ((upTo 0 g.rows).foldl (fun g (y : Nat) =>
      (upTo 0 g.columns).foldl (fun g (x : Nat) => g.show (i32 x) (i32 y) c color) g) g).logical x y = ⟨c, color⟩ := by
  have whole := upTo_carries (f := fun g (y : Nat) =>
      (upTo 0 g.columns).foldl (fun g (x : Nat) => g.show (i32 x) (i32 y) c color) g)
    (fun i g' => g.Drawn g' ∧ ∀ x y, x < g.columns → y < i → g'.logical x y = ⟨c, color⟩) (Nat.zero_le g.rows)
    (fun y g' _ below ⟨drawn, written⟩ => by
      refine ⟨drawn.trans (foldl_drawn (fun g x => drawn_show _ _ c color g) _ g'), fun x' y' col' row' => ?_⟩
      have ring' := ring.drawn drawn
      obtain ⟨cell, rfl⟩ := drawn
      rw [logical_row ring' below (Nat.zero_le _) c color x' y' col' (Nat.lt_of_lt_of_le row' below)]
      split
      · rfl
      · exact written x' y' col' (by omega))
    (s := g) ⟨.refl g, fun _ _ _ none => absurd none (Nat.not_lt_zero _)⟩
  exact whole.2 x y col row

end Cells

section Showing

/-- The characters in the rows are those of the layout. -/
def Contents (g : GraphicsStream) (l : Layout UInt8) : Prop :=
  ∀ x y, x < g.columns → y < g.rows → (g.logical x y).character = l.cell blank g.rows y x

structure Shows (g : GraphicsStream) (l : Layout UInt8) : Prop extends Ring g where
  contents : g.Contents l
  col : g.x = l.current.length
  row : g.y = l.row g.rows
  room : l.current.length < g.columns

theorem Shows.inside (shows : g.Shows l) : g.Inside :=
  ⟨shows.col ▸ shows.room, shows.row ▸ Layout.row_lt shows.rows.1 l⟩

/-- The ring after its first row has become the last one. -/
def turned (g : GraphicsStream) : GraphicsStream := { g with offset := (g.offset + 1) % g.rows, y := g.rows - 1 }

theorem Ring.turned (ring : g.Ring) : g.turned.Ring :=
  ⟨⟨ring.rows, ring.columns⟩, Nat.mod_lt _ ring.rows.1, ring.cells⟩

theorem logical_turned (ring : g.Ring) (col : x < g.columns) (row : y + 1 < g.rows) :
    g.turned.logical x y = g.logical x (y + 1) := by
  have place : g.turned.index x y = g.index x (y + 1 : Nat) := by
    rw [index_eq ring.turned col (Nat.lt_of_succ_lt row), index_eq ring col row]
    unfold GraphicsStream.turned
    dsimp only
    rw [Nat.mod_add_mod, Nat.add_assoc, Nat.add_comm 1 y]
  exact congrArg g.cell place

/-- In the row behind a text, the ring is turned if there is no such row. -/
theorem scroll_shows (ring : g.Ring) (contents : g.Contents l) (col : g.x = 0) (row : g.y = l.row g.rows + 1)
    (color : Color) : (g.scroll color).Shows l.endRow := by
  have rows := ring.rows
  have ends := Layout.row_endRow rows.1 l
  have less := Layout.row_lt rows.1 l
  have value := Layout.row_eq g.rows l
  unfold scroll
  by_cases full : g.rows ≤ g.y
  · have last : g.y = g.rows := by omega
    have turned : ({ g with offset := u32 (g.offset + 1) % g.rows, y := u32 (g.y - 1) } : GraphicsStream) = g.turned := by
      rw [u32_next ring.offset rows.2, last, show u32 ((g.rows : Int) - 1) = g.rows - 1 by unfold u32; omega]
      rfl
    have logical := logical_clear ring.turned (Nat.sub_lt rows.1 Nat.one_pos) (Nat.zero_le _) color
    have ring' := ring.turned.drawn (drawn_clear 0 color _)
    obtain ⟨cell, cleared⟩ := drawn_clear 0 color g.turned
    rw [if_pos full, turned]
    rw [cleared] at logical ring' ⊢
    refine ⟨ring', fun x y right below => ?_, col, ?_, ring.columns.1⟩
    · have shown : l.endRow.cell blank g.rows y x = _ :=
        Layout.cell_endRow_of_le (show g.rows ≤ l.done.length + 1 by omega) below x
      rw [logical x y right below]
      refine Eq.trans ?_ shown.symm
      by_cases more : y + 1 < g.rows
      · rw [if_pos more, if_neg (by unfold GraphicsStream.turned; dsimp only; omega), logical_turned ring right more]
        exact contents x (y + 1) right more
      · rw [if_neg more, if_pos ⟨Nat.eq_sub_of_add_eq (Nat.le_antisymm below (Nat.le_of_not_lt more)), Nat.zero_le x⟩]
    · refine Eq.trans ?_ ends.symm
      rw [if_neg (by omega)]
      rfl
  · rw [if_neg full]
    refine ⟨ring, fun x y right below => ?_, col, ?_, ring.columns.1⟩
    · rw [Layout.cell_endRow_of_lt (by omega)]
      exact contents x y right below
    · rw [ends, if_pos (by omega), row]

/-- The rest of the row is blank already. -/
theorem Shows.clear (shows : g.Shows l) (color : Color) : (g.clear g.x color).Contents l := by
  have inside := shows.inside
  have logical := logical_clear shows.toRing inside.row (Nat.le_of_lt inside.col) color
  obtain ⟨cell, cleared⟩ := drawn_clear g.x color g
  rw [cleared] at logical ⊢
  intro x y right below
  rw [logical x y right below]
  by_cases here : y = g.y ∧ g.x ≤ x
  · have behind := here.2
    rw [shows.col] at behind
    rw [if_pos here, here.1, shows.row]
    exact (Layout.cell_of_le shows.rows.1 behind).symm
  · rw [if_neg here]
    exact shows.contents x y right below

theorem Shows.put (shows : g.Shows l) (color : Color) (c : UInt8) :
    (g.show (i32 g.x) (i32 g.y) c color).Contents (l.put c) := by
  have inside := shows.inside
  have logical : ∀ x' y', x' < g.columns → y' < g.rows → (g.show (i32 g.x) (i32 g.y) c color).logical x' y' =
      if x' = g.x ∧ y' = g.y then ⟨c, color⟩ else g.logical x' y' := fun x' y' col' row' =>
    logical_show shows.toRing inside.col inside.row col' row' c color
  obtain ⟨cell, shown⟩ := drawn_show (i32 g.x) (i32 g.y) c color g
  rw [shown] at logical ⊢
  intro x y right below
  rw [logical x y right below]
  refine Eq.trans ?_ (Layout.cell_put shows.rows.1 l c y x).symm
  by_cases here : x = g.x ∧ y = g.y
  · rw [if_pos here, if_pos ⟨here.2.trans shows.row, here.1.trans shows.col⟩]
  · rw [if_neg here, if_neg fun there => here ⟨there.2.trans shows.col.symm, there.1.trans shows.row.symm⟩]
    exact shows.contents x y right below

/-- What was drawn, with the cursor elsewhere. -/
theorem Ring.moved (ring : g.Ring) (cell : Nat → Cell) (x y : Nat) : Ring { g with cell := cell, x := x, y := y } :=
  ⟨⟨ring.rows, ring.columns⟩, ring.offset, ring.cells⟩

theorem Shows.printChar (shows : g.Shows l) (color : Color) (c : UInt8) :
    (g.printChar color c).Shows (l.feed (· = newline) g.columns c) := by
  have inside := shows.inside
  unfold GraphicsStream.printChar Layout.feed
  by_cases isNewline : c = newline
  · have contents := shows.clear color
    obtain ⟨cell, cleared⟩ := drawn_clear g.x color g
    rw [cleared] at contents
    rw [isNewline, place_newline shows.toSized inside, if_pos rfl, cleared]
    exact scroll_shows (shows.toRing.moved cell 0 (g.y + 1)) contents rfl (congrArg (· + 1) shows.row) color
  · have contents := shows.put color c
    obtain ⟨cell, shown⟩ := drawn_show (i32 g.x) (i32 g.y) c color g
    rw [shown] at contents
    rw [if_neg isNewline, place_char shows.toSized inside color isNewline, shown]
    have col := shows.col
    have length : (l.put c).current.length = l.current.length + 1 := List.length_append
    have row : g.y = (l.put c).row g.rows := shows.row.trans (Layout.row_put g.rows l c).symm
    rw [length]
    by_cases full : g.columns ≤ g.x + 1
    · rw [if_pos full, if_pos (by omega)]
      exact scroll_shows (shows.toRing.moved cell 0 (g.y + 1)) contents rfl (congrArg (· + 1) row) color
    · rw [if_neg full, if_neg (by omega)]
      unfold scroll
      rw [if_neg (Nat.not_le.mpr inside.row)]
      exact ⟨shows.toRing.moved cell (g.x + 1) g.y, contents, by rw [length, ← col], row, by rw [length]; dsimp only; omega⟩

theorem Shows.print (str : List UInt8) (color : Color) : ∀ {g : GraphicsStream} {l : Layout UInt8}, g.Shows l →
    (g.print str color).Shows (str.foldl (Layout.feed (· = newline) g.columns) l) := by
  induction str with
  | nil => exact fun shows => shows
  | cons c str ih =>
    intro g l shows
    have step := shows.printChar color c
    have same := (printChar_inside shows.toSized shows.inside color c).2
    have rest := ih step
    rw [same.columns] at rest
    exact rest

theorem shows_reset (ring : g.Ring) (color : Color) : (g.reset blank color).Shows .empty := by
  have logical := fun x y => logical_rows (x := x) (y := y) ring blank color
  obtain ⟨cell, filled, whole⟩ := reset_eq ring.toSized blank color
  rw [filled] at logical
  rw [whole]
  refine ⟨ring.moved cell 0 0, fun x y right below => ?_, rfl, ?_, ring.columns.1⟩
  · refine Eq.trans ?_ (Layout.cell_empty g.rows y x).symm
    exact congrArg Cell.character (logical x y right below)
  · rw [Layout.row_eq]
    have := ring.rows
    unfold Layout.empty
    dsimp only [List.length_nil]
    omega

end Showing

section Calls

theorem place_ring (ring : g.Ring) (color : Color) (c : UInt8) :
    (g.place color c).Ring ∧ g.SameSize (g.place color c) := by
  unfold place
  by_cases isNewline : c = newline
  · obtain ⟨cell, cleared⟩ := drawn_clear g.x color g
    rw [if_pos isNewline, cleared]
    exact ⟨ring.moved cell _ _, rfl, rfl⟩
  · obtain ⟨cell, shown⟩ := drawn_show (i32 g.x) (i32 g.y) c color g
    rw [if_neg isNewline, shown]
    dsimp only
    split
    · exact ⟨ring.moved cell _ _, rfl, rfl⟩
    · exact ⟨ring.moved cell _ _, rfl, rfl⟩

theorem scroll_ring (ring : g.Ring) (color : Color) : (g.scroll color).Ring ∧ g.SameSize (g.scroll color) := by
  unfold scroll
  split
  · have drawn := drawn_clear 0 color { g with offset := u32 (g.offset + 1) % g.rows, y := u32 (g.y - 1) }
    have ring' : Ring { g with offset := u32 (g.offset + 1) % g.rows, y := u32 (g.y - 1) } :=
      ⟨⟨ring.rows, ring.columns⟩, Nat.mod_lt _ ring.rows.1, ring.cells⟩
    exact ⟨ring'.drawn drawn, drawn.sameSize.rows, drawn.sameSize.columns⟩
  · exact ⟨ring, rfl, rfl⟩

theorem print_ring (str : List UInt8) (color : Color) : ∀ {g : GraphicsStream}, g.Ring →
    (g.print str color).Ring ∧ g.SameSize (g.print str color) := by
  induction str with
  | nil => exact fun ring => ⟨ring, rfl, rfl⟩
  | cons c str ih =>
    intro g ring
    obtain ⟨placed, size⟩ := place_ring ring color c
    obtain ⟨scrolled, size'⟩ := scroll_ring placed color
    obtain ⟨rest, size''⟩ := ih scrolled
    exact ⟨rest, (size.trans size').trans size''⟩

/-- The offset stays in the window, wherever the cursor is set. -/
theorem call_ring (call : Call) (ring : g.Ring) : (call.run g).Ring ∧ g.SameSize (call.run g) := by
  cases call with
  | setPos x y =>
    unfold Call.run setPos
    dsimp only
    split
    · exact ⟨ring.moved g.cell _ _, rfl, rfl⟩
    · exact ⟨ring, rfl, rfl⟩
  | print str color => exact print_ring str color ring
  | reset character color =>
    obtain ⟨cell, -, whole⟩ := reset_eq ring.toSized character color
    rw [Call.run, whole]
    exact ⟨ring.moved cell 0 0, rfl, rfl⟩

theorem runs_ring (calls : List Call) : ∀ {g : GraphicsStream}, g.Ring → (runs calls g).Ring ∧ g.SameSize (runs calls g) := by
  induction calls with
  | nil => exact fun ring => ⟨ring, rfl, rfl⟩
  | cons call calls ih =>
    intro g ring
    obtain ⟨step, size⟩ := call_ring call ring
    obtain ⟨rest, size'⟩ := ih step
    exact ⟨rest, size.trans size'⟩

/-- Texts and their colors. -/
def prints (texts : List (List UInt8 × Color)) (g : GraphicsStream) : GraphicsStream :=
  texts.foldl (fun g text => g.print text.1 text.2) g

theorem Shows.prints (texts : List (List UInt8 × Color)) : ∀ {g : GraphicsStream} {l : Layout UInt8}, g.Shows l →
    (g.prints texts).Shows ((texts.flatMap (·.1)).foldl (Layout.feed (· = newline) g.columns) l) ∧
      g.SameSize (g.prints texts) := by
  induction texts with
  | nil => exact fun shows => ⟨shows, rfl, rfl⟩
  | cons text texts ih =>
    intro g l shows
    have same := (print_ring text.1 text.2 shows.toRing).2
    obtain ⟨rest, same'⟩ := ih (shows.print text.1 text.2)
    rw [same.columns] at rest
    rw [List.flatMap_cons, List.foldl_append]
    exact ⟨rest, same.trans same'⟩

theorem shows_texts (ring : g.Ring) (color : Color) (texts : List (List UInt8 × Color)) :
    ((g.reset blank color).prints texts).Shows (layout g.columns (texts.flatMap (·.1))) ∧
      g.SameSize ((g.reset blank color).prints texts) := by
  have cleared : g.SameSize (g.reset blank color) := (call_ring (.reset blank color) ring).2
  obtain ⟨shown, size⟩ := (shows_reset ring color).prints texts
  rw [cleared.columns] at shown
  exact ⟨shown, cleared.trans size⟩

end Calls

theorem ring_construct {w : TextWindow} {width height fontWidth fontHeight : Nat} (onScreen : w.OnScreen)
    (cells : ¬ w.Empty) (columns : width / fontWidth = w.width) (rows : height / fontHeight = w.height) :
    (construct width height fontWidth fontHeight).Ring := by
  have right := onScreen.right
  have bottom := onScreen.bottom
  unfold TextWindow.Empty at cells
  have wide : 0 < w.width ∧ w.width ≤ 80 := by unfold TextWindow.width; omega
  have tall : 0 < w.height ∧ w.height ≤ 25 := by unfold TextWindow.height; omega
  unfold construct
  rw [columns, rows]
  have all := Nat.mul_le_mul tall.2 wide.2
  exact ⟨⟨⟨tall.1, by dsimp only; omega⟩, wide.1, by dsimp only; omega⟩, tall.1, Nat.le_trans all (by decide)⟩

/-- After both were cleared, a graphics stream of the size of a text window shows the same characters
in its rows as the window, and has its cursor at the same place. -/
theorem graphics_shows_text (w : TextWindow) (onScreen : w.OnScreen) (cells : ¬ w.Empty)
    (width height fontWidth fontHeight : Nat) (columns : width / fontWidth = w.width) (rows : height / fontHeight = w.height)
    (before : List Call) (attrib : UInt8) (color : Color) (calls : List TextWindow.PrintCall)
    (texts : List (List UInt8 × Color)) (same : calls.flatMap (·.string) = texts.flatMap (·.1)) (s : Screen) :
    let (u, s') := TextWindow.prints calls (w.reset blank attrib s)
    let g := ((runs before (construct width height fontWidth fontHeight)).reset blank color).prints texts
    (∀ x y, x < w.width → y < w.height → (g.cell ((g.offset + y) % g.rows * g.columns + x)).character =
      (s'.memory (w.fromCol + x + (w.fromRow + y) * 80)).character) ∧
    (g.x, g.y) = (u.getPos s').1 := by
  obtain ⟨moved, shows⟩ := TextWindow.shows_prints onScreen cells attrib calls s
  obtain ⟨ring, size⟩ := runs_ring before (ring_construct onScreen cells columns rows)
  obtain ⟨shown, size'⟩ := shows_texts ring color texts
  generalize ((runs before (construct width height fontWidth fontHeight)).reset blank color).prints texts = g at *
  have columns' : g.columns = w.width := (size'.columns.trans size.columns).trans columns
  have rows' : g.rows = w.height := (size'.rows.trans size.rows).trans rows
  rw [size.columns, show (construct width height fontWidth fontHeight).columns = w.width from columns, ← same] at shown
  refine ⟨fun x y right below => ?_, ?_⟩
  · have here := shown.contents x y (columns' ▸ right) (rows' ▸ below)
    unfold logical at here
    rw [index_eq shown.toRing (columns' ▸ right) (rows' ▸ below), rows'] at here
    rw [rows', here]
    exact (shows.cells x y right below).symm
  · refine Eq.trans ?_ (shows.getPos onScreen cells moved).symm
    rw [shown.col, shown.row, rows']

/-- Three rows of five characters. -/
def smallWindow : TextWindow := .construct 7 12 4 7 true 0 0

theorem small_graphics_shows_text :
    let (u, s') := TextWindow.prints [⟨0, [97, 98, 99, 100, 101, 102], 15⟩, ⟨1, [10, 10, 103, 10], 14⟩]
      (smallWindow.reset blank 15 ⟨fun _ => ⟨0, 0⟩, 0, fun _ => 0⟩)
    let g := ((runs [.setPos 0 3, .print [120] ⟨0, 0, 0⟩] (construct 47 48 8 16)).reset blank ⟨0xaa, 0xaa, 0xaa⟩).prints
      [([97, 98, 99], ⟨0, 0, 0⟩), ([100, 101, 102, 10, 10, 103, 10], ⟨0xaa, 0, 0⟩)]
    (∀ x y, x < smallWindow.width → y < smallWindow.height → (g.cell ((g.offset + y) % g.rows * g.columns + x)).character =
      (s'.memory (smallWindow.fromCol + x + (smallWindow.fromRow + y) * 80)).character) ∧
    (g.x, g.y) = (u.getPos s').1 :=
  graphics_shows_text smallWindow ⟨by decide, by decide, by decide, by decide⟩
    (by unfold TextWindow.Empty; decide) 47 48 8 16 (by decide) (by decide) [.setPos 0 3, .print [120] ⟨0, 0, 0⟩] 15
    ⟨0xaa, 0xaa, 0xaa⟩ [⟨0, [97, 98, 99, 100, 101, 102], 15⟩, ⟨1, [10, 10, 103, 10], 14⟩]
    [([97, 98, 99], ⟨0, 0, 0⟩), ([100, 101, 102, 10, 10, 103, 10], ⟨0xaa, 0, 0⟩)] rfl ⟨fun _ => ⟨0, 0⟩, 0, fun _ => 0⟩

end MPStuBS.GraphicsStream
