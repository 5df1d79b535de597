import Mathlib.Data.List.Basic

/-! Texts in rows of a width, and windows that show the last rows of a text. -/
namespace MPStuBS

universe u

/-- The rows that have ended, and the row that the text goes on in. -/
structure Layout (α : Type u) where
  done : List (List α)
  current : List α
  deriving DecidableEq, Repr

namespace Layout

variable {α : Type u}

def empty : Layout α := ⟨[], []⟩

def rows (l : Layout α) : List (List α) := l.done ++ [l.current]

def put (l : Layout α) (c : α) : Layout α := { l with current := l.current ++ [c] }

def endRow (l : Layout α) : Layout α := ⟨l.done ++ [l.current], []⟩

/-- A row ends at a newline and when it is full. -/
def feed (newline : α → Prop) [DecidablePred newline] (width : Nat) (l : Layout α) (c : α) : Layout α :=
  if newline c then l.endRow
  else if width ≤ (l.put c).current.length then (l.put c).endRow
  else l.put c

/-- The last rows. -/
def shown (height : Nat) (l : Layout α) : List (List α) := l.rows.drop (l.rows.length - height)

/-- What a window of the height has in a cell. -/
def cell (blank : α) (height : Nat) (l : Layout α) (y x : Nat) : α := ((l.shown height).getD y []).getD x blank

/-- The row of the window that the text goes on in. -/
def row (height : Nat) (l : Layout α) : Nat := (l.shown height).length - 1

variable {newline : α → Prop} [DecidablePred newline] {width height : Nat} {blank : α} {l : Layout α}

@[simp] theorem length_rows (l : Layout α) : l.rows.length = l.done.length + 1 := by
  simp [rows]

theorem row_eq (height : Nat) (l : Layout α) : l.row height = min (l.done.length + 1) height - 1 := by
  unfold row shown
  rw [List.length_drop, length_rows]
  omega

theorem row_lt (some : 0 < height) (l : Layout α) : l.row height < height := by
  rw [row_eq]
  omega

theorem cell_eq (blank : α) (height : Nat) (l : Layout α) (y x : Nat) :
    l.cell blank height y x = (l.rows.getD (l.done.length + 1 - height + y) []).getD x blank := by
  unfold cell shown
  rw [length_rows, List.getD_eq_getElem?_getD (l := l.rows.drop _), List.getElem?_drop,
    ← List.getD_eq_getElem?_getD (l := l.rows)]

theorem getD_rows (l : Layout α) (i : Nat) :
    l.rows.getD i [] = if i = l.done.length then l.current else l.done.getD i [] := by
  unfold rows
  rw [List.getD_eq_getElem?_getD, List.getD_eq_getElem?_getD, List.getElem?_append]
  split
  · rename_i before
    rw [if_neg (Nat.ne_of_lt before)]
  · rename_i behind
    by_cases here : i = l.done.length
    · rw [if_pos here, here, Nat.sub_self]
      rfl
    · rw [if_neg here, List.getElem?_eq_none (by simp; omega), List.getElem?_eq_none (by omega)]

theorem getD_append_singleton (s : List α) (c : α) (x : Nat) :
    (s ++ [c]).getD x blank = if x = s.length then c else s.getD x blank := by
  rw [List.getD_eq_getElem?_getD, List.getD_eq_getElem?_getD, List.getElem?_append]
  split
  · rename_i before
    rw [if_neg (Nat.ne_of_lt before)]
  · rename_i behind
    by_cases here : x = s.length
    · rw [if_pos here, here, Nat.sub_self]
      rfl
    · rw [if_neg here, List.getElem?_eq_none (by simp; omega), List.getElem?_eq_none (by omega)]

/-- A character is shown where the text goes on. -/
theorem cell_put (some : 0 < height) (l : Layout α) (c : α) (y x : Nat) : (l.put c).cell blank height y x =
    if y = l.row height ∧ x = l.current.length then c else l.cell blank height y x := by
  rw [cell_eq, cell_eq, getD_rows, getD_rows, row_eq]
  unfold put
  dsimp only
  by_cases here : l.done.length + 1 - height + y = l.done.length
  · rw [if_pos here, if_pos here, getD_append_singleton]
    have row : y = min (l.done.length + 1) height - 1 := by omega
    simp only [row, true_and]
  · rw [if_neg here, if_neg here, if_neg (by omega)]

/-- While there are rows left the cells stay. -/
theorem cell_endRow_of_lt (room : l.done.length + 1 < height) (y x : Nat) :
    l.endRow.cell blank height y x = l.cell blank height y x := by
  rw [cell_eq, cell_eq, getD_rows, getD_rows]
  unfold endRow
  dsimp only
  rw [List.length_append, List.length_singleton, Nat.sub_eq_zero_of_le (by omega), Nat.sub_eq_zero_of_le (by omega)]
  have rows := getD_rows l (0 + y)
  unfold Layout.rows at rows
  rw [rows]
  split
  · rename_i here
    rw [if_neg (by omega), List.getD_eq_getElem?_getD (l := l.done), List.getElem?_eq_none (by omega)]
    rfl
  · rfl

/-- In a full window the rows go up. -/
theorem cell_endRow_of_le (full : height ≤ l.done.length + 1) {y : Nat} (inside : y < height) (x : Nat) :
    l.endRow.cell blank height y x = if y + 1 < height then l.cell blank height (y + 1) x else blank := by
  rw [cell_eq, cell_eq, getD_rows, getD_rows]
  unfold endRow
  dsimp only
  rw [List.length_append, List.length_singleton]
  have rows := getD_rows l (l.done.length + 1 + 1 - height + y)
  unfold Layout.rows at rows
  rw [rows]
  have index : l.done.length + 1 - height + (y + 1) = l.done.length + 1 + 1 - height + y := by omega
  rw [index]
  by_cases more : y + 1 < height
  · rw [if_neg (by omega), if_pos more]
  · rw [if_pos (by omega), if_neg more]
    rfl

theorem row_endRow (some : 0 < height) (l : Layout α) :
    l.endRow.row height = if l.done.length + 1 < height then l.row height + 1 else height - 1 := by
  rw [row_eq, row_eq]
  unfold endRow
  dsimp only
  rw [List.length_append, List.length_singleton]
  split <;> omega

theorem row_of_full (full : height ≤ l.done.length + 1) : l.row height = height - 1 := by
  rw [row_eq]
  omega

theorem row_of_room (room : l.done.length + 1 < height) : l.row height = l.done.length := by
  rw [row_eq]
  omega

theorem row_put (height : Nat) (l : Layout α) (c : α) : (l.put c).row height = l.row height := by
  rw [row_eq, row_eq]
  rfl

/-- Behind the text its row is blank. -/
theorem cell_of_le (some : 0 < height) {x : Nat} (behind : l.current.length ≤ x) :
    l.cell blank height (l.row height) x = blank := by
  rw [cell_eq, getD_rows, row_eq, if_pos (by omega), List.getD_eq_getElem?_getD, List.getElem?_eq_none behind]
  rfl

theorem cell_empty (height y x : Nat) : (empty : Layout α).cell blank height y x = blank := by
  rw [cell_eq, getD_rows]
  unfold empty
  split <;> rfl

end Layout
end MPStuBS
