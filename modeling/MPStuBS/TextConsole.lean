import MPStuBS.TextLayout
import MPStuBS.TextStream

/-! What a text window shows: the last rows of everything that was printed since it was cleared. -/
namespace MPStuBS.TextWindow

open TextMode

def width (w : TextWindow) : Nat := w.toCol - w.fromCol

def height (w : TextWindow) : Nat := w.toRow - w.fromRow

/-- A text and its attribute, printed by a core. -/
structure PrintCall where
  core : Nat
  string : List UInt8
  attrib : UInt8

def prints (calls : List PrintCall) (p : TextWindow × Screen) : TextWindow × Screen :=
  calls.foldl (fun p call => print call.core call.string call.attrib p.1 p.2) p

/-- A text in rows of a width. -/
def layout (width : Nat) (text : List UInt8) : Layout UInt8 :=
  text.foldl (Layout.feed (· = newline) width) .empty

variable {w : TextWindow} {s s₀ : Screen} {p : Nat × Nat} {core : Nat} {attrib c : UInt8} {l : Layout UInt8}

section Loops

theorem memory_show {x y : Nat} (col : x < 80) (row : y < 25) (character attrib : UInt8) (s : Screen) (q : Nat) :
    («show» x y character attrib s).memory q = if q = x + y * 80 then ⟨character, attrib⟩ else s.memory q := by
  unfold «show» columns rows
  rw [if_neg (by omega), Nat.mod_eq_of_lt (show x + y * 80 < 65536 by omega)]

/-- A loop over a row, whose turns write what does not depend on the row. -/
theorem memory_row {f : Screen → Nat → Screen} {v : Nat → Cell} {low high y : Nat} (le : low ≤ high) (right : high ≤ 80)
    (step : ∀ s x, low ≤ x → x < high → (∀ q, q / 80 ≠ y → s.memory q = s₀.memory q) →
      ∀ q, (f s x).memory q = if q = x + y * 80 then v q else s.memory q) (q : Nat) :
    ((upTo low high).foldl f s₀).memory q =
      if q / 80 = y ∧ low ≤ q % 80 ∧ q % 80 < high then v q else s₀.memory q := by
  refine upTo_carries (fun i (s : Screen) => ∀ q, s.memory q =
    if q / 80 = y ∧ low ≤ q % 80 ∧ q % 80 < i then v q else s₀.memory q) le ?_ ?_ q
  · intro x s left below written q
    rw [step s x left below (fun q other => by rw [written, if_neg (by omega)]), written]
    by_cases here : q = x + y * 80
    · rw [if_pos here, if_pos (by omega)]
    · rw [if_neg here]
      refine if_congr ?_ rfl rfl
      omega
  · intro q
    rw [if_neg (by omega)]

variable (s₀) in
/-- A loop over rows from the top, whose turns write what does not depend on the rows before. -/
theorem memory_rows {f : Screen → Nat → Screen} {v : Nat → Cell} (low high left right : Nat) (le : low ≤ high)
    (step : ∀ s y, low ≤ y → y < high → (∀ q, y ≤ q / 80 → s.memory q = s₀.memory q) →
      ∀ q, (f s y).memory q = if q / 80 = y ∧ left ≤ q % 80 ∧ q % 80 < right then v q else s.memory q) (q : Nat) :
    ((upTo low high).foldl f s₀).memory q =
      if (low ≤ q / 80 ∧ q / 80 < high) ∧ left ≤ q % 80 ∧ q % 80 < right then v q else s₀.memory q := by
  refine upTo_carries (fun i (s : Screen) => ∀ q, s.memory q =
    if (low ≤ q / 80 ∧ q / 80 < i) ∧ left ≤ q % 80 ∧ q % 80 < right then v q else s₀.memory q) le ?_ ?_ q
  · intro y s top below written q
    rw [step s y top below (fun q other => by rw [written, if_neg (by omega)]), written]
    by_cases here : q / 80 = y ∧ left ≤ q % 80 ∧ q % 80 < right
    · rw [if_pos here, if_pos (by omega)]
    · rw [if_neg here]
      refine if_congr ?_ rfl rfl
      omega
  · intro q
    rw [if_neg (by omega)]

theorem memory_fill {y : Nat} (onScreen : w.OnScreen) (row : y < 25) (character attrib : UInt8) (s : Screen) (q : Nat) :
    ((upTo w.fromCol w.toCol).foldl (fun s x => «show» x y character attrib s) s).memory q =
      if q / 80 = y ∧ w.fromCol ≤ q % 80 ∧ q % 80 < w.toCol then ⟨character, attrib⟩ else s.memory q := by
  have right := onScreen.right
  exact memory_row (v := fun _ => ⟨character, attrib⟩) onScreen.cols right
    (fun s x _ below _ q => memory_show (by omega) row character attrib s q) q

theorem memory_copy {y : Nat} (onScreen : w.OnScreen) (row : y + 1 < 25) (s : Screen) (q : Nat) :
    ((upTo w.fromCol w.toCol).foldl (fun s x => copyCell y x s) s).memory q =
      if q / 80 = y ∧ w.fromCol ≤ q % 80 ∧ q % 80 < w.toCol then s.memory (q + 80) else s.memory q := by
  have right := onScreen.right
  refine memory_row (v := fun q => s.memory (q + 80)) onScreen.cols right (fun s' x _ below same q => ?_) q
  unfold copyCell columns
  rw [memory_show (by omega) (by omega), Nat.mod_eq_of_lt (show x + (y + 1) * 80 < 65536 by omega),
    same (x + (y + 1) * 80) (by omega)]
  split
  · rename_i here
    rw [here, show x + (y + 1) * 80 = x + y * 80 + 80 by omega]
  · rfl

/-- A position of the memory that belongs to the window. -/
def Has (w : TextWindow) (q : Nat) : Prop := (w.fromRow ≤ q / 80 ∧ q / 80 < w.toRow) ∧ w.fromCol ≤ q % 80 ∧ q % 80 < w.toCol

instance (w : TextWindow) (q : Nat) : Decidable (w.Has q) := inferInstanceAs (Decidable (_ ∧ _))

/-- In the window every row gets what the next one had, and the last one is blank. -/
theorem memory_scroll (onScreen : w.OnScreen) (cells : ¬ w.Empty) (core : Nat) (s : Screen) (q : Nat) :
    (scroll core w s).memory q = if w.Has q then
      if q / 80 + 1 < w.toRow then s.memory (q + 80) else ⟨blank, defaultAttrib core⟩
      else s.memory q := by
  have rows := onScreen.rows
  have bottom := onScreen.bottom
  unfold Empty at cells
  have last : u32 ((w.toRow : Int) - 1) = w.toRow - 1 := by unfold u32; omega
  have copied := memory_rows s (v := fun q => s.memory (q + 80))
    (f := fun s y => (upTo w.fromCol w.toCol).foldl (fun s x => copyCell y x s) s)
    w.fromRow (w.toRow - 1) w.fromCol w.toCol (by omega) (fun s' y _ below same q => by
      rw [memory_copy onScreen (by omega)]
      split
      · rw [same (q + 80) (by omega)]
      · rfl)
  unfold scroll
  rw [last, memory_fill onScreen (by omega), copied]
  by_cases inside : w.Has q
  · rw [if_pos inside]
    unfold Has at inside
    by_cases more : q / 80 + 1 < w.toRow
    · rw [if_neg (by omega), if_pos (by omega), if_pos more]
    · rw [if_pos (by omega), if_neg more]
  · rw [if_neg inside]
    unfold Has at inside
    rw [if_neg (by omega), if_neg (by omega)]

theorem alike_setPos (relX relY : Nat) (w : TextWindow) (s : Screen) : s.Alike (setPos relX relY w s).2 := by
  unfold setPos
  split
  · exact .refl s
  · split
    · exact alike_setCursor _ _ s
    · exact .refl s

theorem memory_reset (onScreen : w.OnScreen) (character attrib : UInt8) (s : Screen) (q : Nat) :
    (reset character attrib w s).2.memory q = if w.Has q then ⟨character, attrib⟩ else s.memory q := by
  have rows := onScreen.rows
  have bottom := onScreen.bottom
  have filled := memory_rows s (v := fun _ => ⟨character, attrib⟩)
    (f := fun s y => (upTo w.fromCol w.toCol).foldl (fun s x => «show» x y character attrib s) s)
    w.fromRow w.toRow w.fromCol w.toCol rows (fun s' y _ below _ q => memory_fill onScreen (by omega) character attrib s' q) q
  unfold reset
  dsimp only
  rw [← (alike_setPos 0 0 w _).memory, filled]
  rfl

end Loops

section Showing

/-- The characters in the window are those of the layout, and what is outside stays. -/
structure Contents (w : TextWindow) (s₀ s : Screen) (l : Layout UInt8) : Prop where
  cells : ∀ x y, x < w.width → y < w.height →
    (s.memory (w.fromCol + x + (w.fromRow + y) * 80)).character = l.cell blank w.height y x
  frame : ∀ q, ¬ w.Has q → s.memory q = s₀.memory q

/-- The next character has its place where the layout goes on. -/
structure Shows (w : TextWindow) (s₀ s : Screen) (p : Nat × Nat) (l : Layout UInt8) : Prop extends Contents w s₀ s l where
  col : p.1 = w.fromCol + l.current.length
  row : p.2 = w.fromRow + l.row w.height
  room : l.current.length < w.width

theorem Contents.alike {s' : Screen} (contents : w.Contents s₀ s l) (alike : s.Alike s') : w.Contents s₀ s' l :=
  ⟨fun x y right below => alike.memory ▸ contents.cells x y right below,
    fun q outside => alike.memory ▸ contents.frame q outside⟩

theorem Shows.inside (shows : w.Shows s₀ s p l) (cells : ¬ w.Empty) : w.Inside p := by
  have col := shows.col
  have row := shows.row
  have room := shows.room
  have below : 0 < w.height → _ := l.row_lt
  unfold Empty at cells
  unfold width at room
  unfold height at row below
  exact ⟨by omega, by omega, by omega, by omega⟩

theorem inside_of_lt {x y : Nat} (right : x < w.width) (below : y < w.height) :
    w.Inside (w.fromCol + x, w.fromRow + y) := by
  unfold width at right
  unfold height at below
  exact ⟨by dsimp only; omega, by dsimp only; omega, by dsimp only; omega, by dsimp only; omega⟩

theorem Inside.has (inside : w.Inside p) (onScreen : w.OnScreen) {q : Nat} (here : q = p.1 + p.2 * 80) :
    w.Has q ∧ q / 80 = p.2 := by
  obtain ⟨left, right, top, bottom⟩ := inside
  have := onScreen.right
  have row : q / 80 = p.2 := by omega
  exact ⟨⟨⟨by omega, by omega⟩, by omega, by omega⟩, row⟩

variable (onScreen : w.OnScreen) (cells : ¬ w.Empty)
include onScreen cells

theorem Contents.lineBreak (contents : w.Contents s₀ s l) {y : Nat} (row : y = w.fromRow + l.row w.height) :
    w.Shows s₀ (lineBreak core w y s).2 (lineBreak core w y s).1 l.endRow := by
  have bounds := cells
  have rows := onScreen.rows
  have bottom := onScreen.bottom
  unfold Empty at bounds
  have tall : 0 < w.height := by unfold height; omega
  have wide : 0 < w.width := by unfold width; omega
  have last : u32 ((w.toRow : Int) - 1) = w.toRow - 1 := by unfold u32; omega
  have below := l.row_lt tall
  have next : u32 ((y : Int) + 1) = y + 1 := by
    unfold height at row below
    unfold u32
    omega
  have ends := Layout.row_endRow tall l
  unfold TextWindow.lineBreak
  rw [next, last]
  dsimp only
  by_cases full : w.height ≤ l.done.length + 1
  · have at_end := Layout.row_of_full full
    rw [if_pos (by unfold height at *; omega)]
    refine ⟨⟨fun x y right below => ?_, fun q outside => ?_⟩, rfl, ?_, wide⟩
    · have here := (inside_of_lt right below).has onScreen rfl
      rw [memory_scroll onScreen cells, if_pos here.1, here.2, Layout.cell_endRow_of_le full below]
      by_cases more : y + 1 < w.height
      · have above := contents.cells x (y + 1) right more
        rw [if_pos more, if_pos (by unfold height at more; omega), ← above]
        exact congrArg (fun q => (s.memory q).character) (by omega)
      · rw [if_neg more, if_neg (by unfold height at more; omega)]
    · rw [memory_scroll onScreen cells, if_neg outside]
      exact contents.frame q outside
    · rw [ends, if_neg (by omega)]
      unfold height
      dsimp only
      omega
  · rw [if_neg (by rw [Layout.row_of_room (by omega)] at row; unfold height at *; omega)]
    refine ⟨⟨fun x y right below => ?_, contents.frame⟩, rfl, ?_, wide⟩
    · rw [Layout.cell_endRow_of_lt (by omega)]
      exact contents.cells x y right below
    · rw [ends, if_pos (by omega), row]
      rfl

theorem Shows.printChar (shows : w.Shows s₀ s p l) (c : UInt8) :
    w.Shows s₀ (printChar core attrib w (p, s) c).2 (printChar core attrib w (p, s) c).1
      (l.feed (· = newline) w.width c) := by
  have bounds := cells
  have right := onScreen.right
  have inside := shows.inside cells
  have on := inside.on onScreen
  have tall : 0 < w.height := by unfold Empty at bounds; unfold height; omega
  have next : u32 ((p.1 : Int) + 1) = p.1 + 1 := by unfold u32; omega
  have put : w.Contents s₀ («show» p.1 p.2 c attrib s) (l.put c) := by
    refine ⟨fun x y right below => ?_, fun q outside => ?_⟩
    · have := (inside_of_lt right below).on onScreen
      have col := shows.col
      have row := shows.row
      rw [memory_show on.1 on.2, Layout.cell_put tall]
      by_cases here : y = l.row w.height ∧ x = l.current.length
      · rw [if_pos here, if_pos (by omega)]
      · rw [if_neg here, if_neg (by omega)]
        exact shows.cells x y right below
    · rw [memory_show on.1 on.2, if_neg]
      · exact shows.frame q outside
      · exact fun here => outside (inside.has onScreen here).1
  unfold TextWindow.printChar Layout.feed
  dsimp only
  rw [next]
  by_cases isNewline : c = newline
  · rw [if_pos isNewline, if_pos isNewline]
    exact shows.toContents.lineBreak onScreen cells shows.row
  · have length : (l.put c).current.length = l.current.length + 1 := List.length_append
    have col := shows.col
    rw [if_neg isNewline, if_neg isNewline, length]
    by_cases full : w.toCol ≤ p.1 + 1
    · rw [if_pos full, if_pos (by unfold width; omega)]
      exact put.lineBreak onScreen cells (by rw [Layout.row_put, shows.row])
    · rw [if_neg full, if_neg (by unfold width; omega)]
      exact ⟨put, by rw [length, col]; rfl, by rw [Layout.row_put, shows.row], by rw [length]; unfold width; omega⟩

variable (core attrib) in
theorem Shows.run (string : List UInt8) : ∀ {s : Screen} {p : Nat × Nat} {l : Layout UInt8}, w.Shows s₀ s p l →
    w.Shows s₀ (run core attrib w string p s).2 (run core attrib w string p s).1
      (string.foldl (Layout.feed (· = newline) w.width) l) := by
  induction string with
  | nil => exact fun shows => shows
  | cons c string ih => exact fun shows => ih (shows.printChar onScreen cells c)

end Showing

section Calls

/-- Other members for the position. -/
def Moved (w u : TextWindow) : Prop := ∃ posX posY, u = { w with posX := posX, posY := posY }

theorem Moved.onScreen {u : TextWindow} (moved : w.Moved u) (onScreen : w.OnScreen) : u.OnScreen := by
  obtain ⟨posX, posY, rfl⟩ := moved
  exact ⟨onScreen.cols, onScreen.right, onScreen.rows, onScreen.bottom⟩

theorem Moved.shows_iff {u : TextWindow} (moved : w.Moved u) : u.Shows s₀ s p l ↔ w.Shows s₀ s p l := by
  obtain ⟨posX, posY, rfl⟩ := moved
  exact ⟨fun shows => ⟨⟨shows.cells, shows.frame⟩, shows.col, shows.row, shows.room⟩,
    fun shows => ⟨⟨shows.cells, shows.frame⟩, shows.col, shows.row, shows.room⟩⟩

theorem Moved.empty_iff {u : TextWindow} (moved : w.Moved u) : u.Empty ↔ w.Empty := by
  obtain ⟨posX, posY, rfl⟩ := moved
  rfl

theorem Moved.trans {u v : TextWindow} (fst : w.Moved u) (snd : u.Moved v) : w.Moved v := by
  obtain ⟨posX, posY, rfl⟩ := fst
  obtain ⟨posX', posY', rfl⟩ := snd
  exact ⟨posX', posY', rfl⟩

/-- The window shows the layout, and has its position where the layout goes on. -/
def Stands (s₀ : Screen) (p : TextWindow × Screen) (l : Layout UInt8) : Prop := p.1.Shows s₀ p.2 (p.1.position p.2) l

theorem Stands.formed (stands : Stands s₀ (w, s) l) (cells : ¬ w.Empty) : w.Formed := by
  intro software
  have here : w.position s = (w.posX, w.posY) := if_neg (by simp [software])
  exact .inl (here ▸ stands.inside cells)

variable (onScreen : w.OnScreen) (cells : ¬ w.Empty)
include onScreen cells

/-- A position that is set is kept with what the window shows. -/
theorem Shows.place (shows : w.Shows s₀ s p l) : w.Moved (w.place p s).1 ∧ Stands s₀ (w.place p s) l := by
  have moved : w.Moved (w.place p s).1 := place_bounds w p s
  refine ⟨moved, ?_⟩
  unfold Stands
  rw [position_place onScreen (shows.inside cells)]
  exact moved.shows_iff.mpr ⟨shows.toContents.alike (alike_place w p s), shows.col, shows.row, shows.room⟩

theorem Stands.print (stands : Stands s₀ (w, s) l) (core : Nat) (string : List UInt8) (attrib : UInt8) :
    w.Moved (print core string attrib w s).1 ∧
      Stands s₀ (print core string attrib w s) (string.foldl (Layout.feed (· = newline) w.width) l) := by
  have inside := stands.inside cells
  have reads : w.Shows s₀ (w.reads s) (w.position s) l :=
    ⟨stands.toContents.alike (alike_reads w s), stands.col, stands.row, stands.room⟩
  have shown := reads.run core attrib onScreen cells string
  rw [run_moves _ _ onScreen cells string _ (position_small onScreen (stands.formed cells) s)] at shown
  rw [print_of_inside core attrib onScreen (stands.formed cells) cells (inside.moves cells string)]
  exact shown.place onScreen cells

theorem stands_reset (attrib : UInt8) (s : Screen) :
    w.Moved (reset blank attrib w s).1 ∧ Stands s (reset blank attrib w s) .empty := by
  have bounds := cells
  unfold Empty at bounds
  have wide : 0 < w.width := by unfold width; omega
  have inside : w.Inside (w.fromCol, w.fromRow) :=
    ⟨Nat.le_refl _, by dsimp only; omega, Nat.le_refl _, by dsimp only; omega⟩
  obtain ⟨filled, whole⟩ : ∃ filled, reset blank attrib w s = w.setPos 0 0 filled := ⟨_, rfl⟩
  have set : w.setPos 0 0 filled = w.place (w.fromCol, w.fromRow) filled := by
    rw [← setPos_of_inside onScreen inside, Int.sub_self, Int.sub_self]
    rfl
  have memory : ∀ q, filled.memory q = if w.Has q then ⟨blank, attrib⟩ else s.memory q := fun q => by
    rw [← memory_reset onScreen, whole, (alike_setPos 0 0 w filled).memory]
  have shown : w.Shows s filled (w.fromCol, w.fromRow) .empty := by
    refine ⟨⟨fun x y right below => ?_, fun q outside => ?_⟩, rfl, ?_, wide⟩
    · rw [memory, if_pos ((inside_of_lt right below).has onScreen rfl).1, Layout.cell_empty]
    · rw [memory, if_neg outside]
    · rw [Layout.row_eq]
      unfold Layout.empty height
      dsimp only [List.length_nil]
      omega
  rw [whole, set]
  exact shown.place onScreen cells

theorem Stands.prints (calls : List PrintCall) : ∀ {p : TextWindow × Screen} {l : Layout UInt8}, w.Moved p.1 →
    Stands s₀ p l → w.Moved (prints calls p).1 ∧ Stands s₀ (prints calls p)
      ((calls.flatMap (·.string)).foldl (Layout.feed (· = newline) w.width) l) := by
  induction calls with
  | nil => exact fun moved stands => ⟨moved, stands⟩
  | cons call calls ih =>
    rintro ⟨u, s⟩ l moved stands
    have width : u.width = w.width := by
      obtain ⟨posX, posY, rfl⟩ := moved
      rfl
    obtain ⟨moves, step⟩ := stands.print (moved.onScreen onScreen) (mt moved.empty_iff.mp cells) call.core call.string
      call.attrib
    rw [width] at step
    rw [List.flatMap_cons, List.foldl_append]
    exact ih (moved.trans moves) step

theorem shows_prints (attrib : UInt8) (calls : List PrintCall) (s : Screen) :
    w.Moved (TextWindow.prints calls (reset blank attrib w s)).1 ∧
      w.Shows s (TextWindow.prints calls (reset blank attrib w s)).2
        ((TextWindow.prints calls (reset blank attrib w s)).1.position (TextWindow.prints calls (reset blank attrib w s)).2)
        (layout w.width (calls.flatMap (·.string))) := by
  have start := stands_reset onScreen cells attrib s
  obtain ⟨moved, stands⟩ := start.2.prints onScreen cells calls start.1
  exact ⟨moved, moved.shows_iff.mp stands⟩

theorem Shows.getPos {u : TextWindow} (shows : w.Shows s₀ s (u.position s) l) (moved : w.Moved u) :
    (u.getPos s).1 = (l.current.length, l.row w.height) := by
  have inside := shows.inside cells
  have on := inside.on onScreen
  have bounds : u.fromCol = w.fromCol ∧ u.fromRow = w.fromRow := by
    obtain ⟨posX, posY, rfl⟩ := moved
    exact ⟨rfl, rfl⟩
  rw [getPos_eq, bounds.1, bounds.2, u32_sub inside.left (by omega), u32_sub inside.top (by omega), shows.col, shows.row,
    Nat.add_sub_cancel_left, Nat.add_sub_cancel_left]

end Calls

/-- After the window was cleared and texts were printed, it shows the last rows of all of them.
The cursor is in the window where the text goes on, and no other cell has changed. -/
theorem prints_show_the_end (w : TextWindow) (onScreen : w.OnScreen) (cells : ¬ w.Empty) (attrib : UInt8)
    (calls : List PrintCall) (s : Screen) :
    let (u, s') := prints calls (reset blank attrib w s)
    let l := layout w.width (calls.flatMap (·.string))
    (∀ x y, x < w.width → y < w.height →
      (s'.memory (w.fromCol + x + (w.fromRow + y) * 80)).character = l.cell blank w.height y x) ∧
    w.Inside (u.position s') ∧ (u.getPos s').1 = (l.current.length, l.row w.height) ∧
    ∀ q, ¬ w.Has q → s'.memory q = s.memory q := by
  obtain ⟨moved, shows⟩ := shows_prints onScreen cells attrib calls s
  exact ⟨shows.cells, shows.inside cells, shows.getPos onScreen cells moved, shows.frame⟩

/-- Three columns and two rows: the first row has been scrolled away. -/
theorem small_window_shows_the_end :
    let w := construct 3 6 7 9 false 0 0
    let (u, s') := prints [⟨0, [65, 66], 15⟩, ⟨1, [67, 68, 10, 69, 70], 7⟩] (reset blank 15 w ⟨fun _ => ⟨0, 0⟩, 0, fun _ => 0⟩)
    (s'.memory (3 + 7 * 80)).character = 68 ∧ (s'.memory (3 + 8 * 80)).character = 69 ∧
      (s'.memory (5 + 8 * 80)).character = blank ∧ (u.getPos s').1 = (2, 1) ∧
      ∀ q, ¬ w.Has q → s'.memory q = (⟨0, 0⟩ : Cell) := by
  obtain ⟨cells, -, cursor, frame⟩ := prints_show_the_end (construct 3 6 7 9 false 0 0)
    ⟨by decide, by decide, by decide, by decide⟩ (by unfold Empty; decide) 15
    [⟨0, [65, 66], 15⟩, ⟨1, [67, 68, 10, 69, 70], 7⟩] ⟨fun _ => ⟨0, 0⟩, 0, fun _ => 0⟩
  exact ⟨cells 0 0 (by decide) (by decide), cells 0 1 (by decide) (by decide), cells 2 1 (by decide) (by decide),
    cursor, frame⟩

end MPStuBS.TextWindow
