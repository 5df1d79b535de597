import Mathlib.Data.List.Basic
import MPStuBS.TextWindow

/-! Where the cursor of a text window goes. What is printed moves it in the same way whatever the
screen shows, and only positions inside the window are kept. -/
namespace MPStuBS

/-- The screens differ at most in the register that is chosen and in the cursor. -/
structure Screen.Alike (s s' : Screen) : Prop where
  memory : s.memory = s'.memory
  data : ∀ register, register ≠ 14 → register ≠ 15 → s.data register = s'.data register

theorem Screen.Alike.refl (s : Screen) : s.Alike s := ⟨rfl, fun _ _ _ => rfl⟩

theorem Screen.Alike.trans {s s' s'' : Screen} (fst : s.Alike s') (snd : s'.Alike s'') : s.Alike s'' :=
  ⟨fst.memory.trans snd.memory, fun register high low => (fst.data register high low).trans (snd.data register high low)⟩

/-- The registers are the same. -/
structure Screen.SameRegisters (s s' : Screen) : Prop where
  index : s'.index = s.index
  data : s'.data = s.data

namespace TextMode

variable {s s' : Screen} {x y : Nat} {character attrib : UInt8}

theorem show_alike (alike : s.Alike s') (x y : Nat) (character attrib : UInt8) :
    («show» x y character attrib s).Alike («show» x y character attrib s') := by
  unfold «show»
  split
  · exact alike
  · exact ⟨by rw [alike.memory], alike.data⟩

theorem show_registers (x y : Nat) (character attrib : UInt8) (s : Screen) :
    s.SameRegisters («show» x y character attrib s) := by
  unfold «show»
  split <;> exact ⟨rfl, rfl⟩

theorem setCursor_of_lt (col : x < 80) (row : y < 25) (s : Screen) : setCursor x y s = { s with
    index := 15
    data := fun register => if register = 15 then UInt8.ofNat ((x + y * 80) % 256)
      else if register = 14 then UInt8.ofNat ((x + y * 80) / 256) else s.data register } := by
  unfold setCursor columns rows
  rw [if_neg (by omega), Nat.mod_eq_of_lt (show x + y * 80 < 65536 by omega)]
  rfl

theorem setCursor_alike (alike : s.Alike s') (col : x < 80) (row : y < 25) : setCursor x y s = setCursor x y s' := by
  rw [setCursor_of_lt col row, setCursor_of_lt col row, alike.memory]
  congr 1
  funext register
  split
  · rfl
  · rename_i low
    split
    · rfl
    · rename_i high
      exact alike.data register high low

theorem alike_setCursor (x y : Nat) (s : Screen) : s.Alike (setCursor x y s) := by
  by_cases inside : x < 80 ∧ y < 25
  · rw [setCursor_of_lt inside.1 inside.2]
    refine ⟨rfl, fun register high low => ?_⟩
    dsimp only
    rw [if_neg low, if_neg high]
  · unfold setCursor columns rows
    rw [if_pos (by omega)]
    exact .refl s

/-- The cursor is where it was set. -/
theorem getCursor_setCursor (col : x < 80) (row : y < 25) (s : Screen) :
    (getCursor (setCursor x y s)).1 = (x, y) := by
  rw [setCursor_of_lt col row]
  unfold getCursor inData outIndex columns
  dsimp only
  rw [if_neg (by decide), if_pos rfl, if_pos rfl, UInt8.toNat_ofNat', UInt8.toNat_ofNat']
  have high : (x + y * 80) / 256 % 2 ^ 8 = (x + y * 80) / 256 := Nat.mod_eq_of_lt (by omega)
  have whole : ((x + y * 80) / 256 * 256 + (x + y * 80) % 256 % 2 ^ 8) % 65536 = x + y * 80 := by omega
  rw [high, whole]
  exact Prod.ext (by dsimp only; omega) (by dsimp only; omega)

theorem getCursor_lt (s : Screen) : (getCursor s).1.1 < 80 ∧ (getCursor s).1.2 < 820 := by
  unfold getCursor columns
  dsimp only
  constructor <;> omega

end TextMode

namespace TextWindow

open TextMode

/-- The window is one that the constructor asks for, or has no cells. -/
structure OnScreen (w : TextWindow) : Prop where
  cols : w.fromCol ≤ w.toCol
  right : w.toCol ≤ 80
  rows : w.fromRow ≤ w.toRow
  bottom : w.toRow ≤ 25

def Empty (w : TextWindow) : Prop := w.toCol ≤ w.fromCol ∨ w.toRow ≤ w.fromRow

structure Inside (w : TextWindow) (p : Nat × Nat) : Prop where
  left : w.fromCol ≤ p.1
  right : p.1 < w.toCol
  top : w.fromRow ≤ p.2
  bottom : p.2 < w.toRow

/-- Where a window without the cursor of the hardware has its position. -/
def Formed (w : TextWindow) : Prop :=
  w.useCursor = false → w.Inside (w.posX, w.posY) ∨ w.Empty ∧ w.posX = w.fromCol ∧ w.posY = w.fromRow

/-- The position on the screen. -/
def position (w : TextWindow) (s : Screen) : Nat × Nat :=
  if w.useCursor then (getCursor s).1 else (w.posX, w.posY)

/-- Where the next row starts. -/
def nextRow (w : TextWindow) (y : Nat) : Nat × Nat := (w.fromCol, if w.toRow ≤ y + 1 then w.toRow - 1 else y + 1)

/-- How a character moves the position. -/
def move (w : TextWindow) (p : Nat × Nat) (c : UInt8) : Nat × Nat :=
  if c = newline ∨ w.toCol ≤ p.1 + 1 then w.nextRow p.2 else (p.1 + 1, p.2)

variable {w : TextWindow} {s s' : Screen} {p : Nat × Nat} {core : Nat} {attrib : UInt8} {c : UInt8}

theorem Inside.on (inside : w.Inside p) (onScreen : w.OnScreen) : p.1 < 80 ∧ p.2 < 25 :=
  ⟨Nat.lt_of_lt_of_le inside.right onScreen.right, Nat.lt_of_lt_of_le inside.bottom onScreen.bottom⟩

theorem Inside.not_empty (inside : w.Inside p) : ¬ w.Empty := by
  have := inside.left
  have := inside.right
  have := inside.top
  have := inside.bottom
  unfold Empty
  omega

section Setting

/-- What `setPos` does with a position on the screen. -/
def place (w : TextWindow) (p : Nat × Nat) (s : Screen) : TextWindow × Screen :=
  if w.useCursor then (w, setCursor p.1 p.2 s) else ({ w with posX := p.1, posY := p.2 }, s)

theorem setPos_of_inside (onScreen : w.OnScreen) (inside : w.Inside p) (s : Screen) :
    w.setPos (u32 (p.1 - w.fromCol)) (u32 (p.2 - w.fromRow)) s = w.place p s := by
  obtain ⟨cols, right, rows, bottom⟩ := onScreen
  obtain ⟨left, right', top, bottom'⟩ := inside
  have relX : u32 (p.1 - w.fromCol) = p.1 - w.fromCol := u32_sub left (by omega)
  have relY : u32 (p.2 - w.fromRow) = p.2 - w.fromRow := u32_sub top (by omega)
  have absX : u32 ((p.1 - w.fromCol : Nat) + w.fromCol) = p.1 := by unfold u32; omega
  have absY : u32 ((p.2 - w.fromRow : Nat) + w.fromRow) = p.2 := by unfold u32; omega
  unfold setPos place
  rw [relX, relY, absX, absY, u32_sub cols (by omega), u32_sub rows (by omega), if_neg (by omega)]

theorem setPos_of_not_inside (onScreen : w.OnScreen) (small : p.1 < 65536 ∧ p.2 < 65536) (outside : ¬ w.Inside p)
    (s : Screen) : w.setPos (u32 (p.1 - w.fromCol)) (u32 (p.2 - w.fromRow)) s = (w, s) := by
  obtain ⟨cols, right, rows, bottom⟩ := onScreen
  have apart : ¬ (w.fromCol ≤ p.1 ∧ p.1 < w.toCol ∧ w.fromRow ≤ p.2 ∧ p.2 < w.toRow) := fun inside =>
    outside ⟨inside.1, inside.2.1, inside.2.2.1, inside.2.2.2⟩
  unfold setPos u32
  rw [if_pos (by omega)]

theorem position_place (onScreen : w.OnScreen) (inside : w.Inside p) (s : Screen) :
    (w.place p s).1.position (w.place p s).2 = p := by
  unfold place position
  by_cases hardware : w.useCursor = true
  · simp only [if_pos hardware]
    exact getCursor_setCursor (inside.on onScreen).1 (inside.on onScreen).2 s
  · simp only [if_neg hardware]

/-- The bounds of the window stay, whatever is printed. -/
theorem place_bounds (w : TextWindow) (p : Nat × Nat) (s : Screen) :
    ∃ posX posY, (w.place p s).1 = { w with posX := posX, posY := posY } := by
  unfold place
  split
  · exact ⟨w.posX, w.posY, rfl⟩
  · exact ⟨_, _, rfl⟩

theorem alike_place (w : TextWindow) (p : Nat × Nat) (s : Screen) : s.Alike (w.place p s).2 := by
  unfold place
  split
  · exact alike_setCursor _ _ _
  · exact .refl s

end Setting

section Folds

/-- What every step of a loop keeps is kept by the loop. -/
theorem foldl_alike {α : Type} {f : Screen → α → Screen} (keeps : ∀ (s s' : Screen) a, s.Alike s' → (f s a).Alike (f s' a))
    (l : List α) : ∀ {s s' : Screen}, s.Alike s' → (l.foldl f s).Alike (l.foldl f s') := by
  induction l with
  | nil => exact fun alike => alike
  | cons a l ih => exact fun alike => ih (keeps _ _ a alike)

theorem foldl_registers {α : Type} {f : Screen → α → Screen} (keeps : ∀ (s : Screen) a, s.SameRegisters (f s a)) (l : List α) :
    ∀ s : Screen, s.SameRegisters (l.foldl f s) := by
  induction l with
  | nil => exact fun s => ⟨rfl, rfl⟩
  | cons a l ih =>
    intro s
    have fst := keeps s a
    have snd := ih (f s a)
    exact ⟨snd.index.trans fst.index, snd.data.trans fst.data⟩

theorem scroll_alike (alike : s.Alike s') : (scroll core w s).Alike (scroll core w s') := by
  have rows := foldl_alike (f := fun s y => (upTo w.fromCol w.toCol).foldl (fun s x => copyCell y x s) s)
    (fun s s' y alike => foldl_alike (fun s s' x alike => by
      unfold copyCell
      rw [alike.memory]
      exact show_alike alike _ _ _ _) _ alike) (upTo w.fromRow (u32 (w.toRow - 1))) alike
  exact foldl_alike (f := fun s x => «show» x (u32 (w.toRow - 1)) blank (defaultAttrib core) s)
    (fun s s' x alike => show_alike alike _ _ _ _) (upTo w.fromCol w.toCol) rows

theorem scroll_registers (core : Nat) (w : TextWindow) (s : Screen) : s.SameRegisters (scroll core w s) := by
  have rows := foldl_registers (f := fun s y => (upTo w.fromCol w.toCol).foldl (fun s x => copyCell y x s) s)
    (fun s y => foldl_registers (fun s x => show_registers _ _ _ _ _) _ s) (upTo w.fromRow (u32 (w.toRow - 1))) s
  have last := foldl_registers (f := fun s x => «show» x (u32 (w.toRow - 1)) blank (defaultAttrib core) s)
    (fun s x => show_registers _ _ _ _ _) (upTo w.fromCol w.toCol)
    ((upTo w.fromRow (u32 (w.toRow - 1))).foldl (fun s y => (upTo w.fromCol w.toCol).foldl (fun s x => copyCell y x s) s) s)
  exact ⟨last.index.trans rows.index, last.data.trans rows.data⟩

theorem lineBreak_alike (alike : s.Alike s') (y : Nat) :
    (lineBreak core w y s).1 = (lineBreak core w y s').1 ∧ (lineBreak core w y s).2.Alike (lineBreak core w y s').2 := by
  unfold lineBreak
  dsimp only
  split
  · exact ⟨rfl, scroll_alike alike⟩
  · exact ⟨rfl, alike⟩

theorem lineBreak_registers (core : Nat) (w : TextWindow) (y : Nat) (s : Screen) :
    s.SameRegisters (lineBreak core w y s).2 := by
  unfold lineBreak
  dsimp only
  split
  · exact scroll_registers core w s
  · exact ⟨rfl, rfl⟩

variable (core attrib) in
theorem printChar_alike (alike : s.Alike s') (p : Nat × Nat) (c : UInt8) :
    (printChar core attrib w (p, s) c).1 = (printChar core attrib w (p, s') c).1 ∧
      (printChar core attrib w (p, s) c).2.Alike (printChar core attrib w (p, s') c).2 := by
  have shown := show_alike alike p.1 p.2 c attrib
  unfold printChar
  dsimp only
  split
  · exact lineBreak_alike alike p.2
  · split
    · exact lineBreak_alike shown p.2
    · exact ⟨rfl, shown⟩

theorem printChar_registers (core : Nat) (attrib : UInt8) (w : TextWindow) (p : Nat × Nat) (s : Screen) (c : UInt8) :
    s.SameRegisters (printChar core attrib w (p, s) c).2 := by
  have shown := show_registers p.1 p.2 c attrib s
  have broken := lineBreak_registers core w p.2 («show» p.1 p.2 c attrib s)
  unfold printChar
  dsimp only
  split
  · exact lineBreak_registers core w p.2 s
  · split
    · exact ⟨broken.index.trans shown.index, broken.data.trans shown.data⟩
    · exact shown

end Folds

section Moving

/-- The characters one after the other, from a position on. -/
def run (core : Nat) (attrib : UInt8) (w : TextWindow) (string : List UInt8) (p : Nat × Nat) (s : Screen) :
    (Nat × Nat) × Screen :=
  string.foldl (printChar core attrib w) (p, s)

theorem run_append (a b : List UInt8) (p : Nat × Nat) (s : Screen) : run core attrib w (a ++ b) p s =
    run core attrib w b (run core attrib w a p s).1 (run core attrib w a p s).2 := List.foldl_append ..

theorem run_alike (string : List UInt8) : ∀ {p : Nat × Nat} {s s' : Screen}, s.Alike s' →
    (run core attrib w string p s).1 = (run core attrib w string p s').1 ∧
      (run core attrib w string p s).2.Alike (run core attrib w string p s').2 := by
  induction string with
  | nil => exact fun alike => ⟨rfl, alike⟩
  | cons c string ih =>
    intro p s s' alike
    have step := printChar_alike (w := w) core attrib alike p c
    have rest := ih (p := (printChar core attrib w (p, s) c).1) step.2
    unfold run at rest ⊢
    rw [List.foldl_cons, List.foldl_cons]
    rw [show printChar core attrib w (p, s') c = ((printChar core attrib w (p, s) c).1,
      (printChar core attrib w (p, s') c).2) from Prod.ext step.1.symm rfl]
    exact rest

theorem run_registers (string : List UInt8) : ∀ (p : Nat × Nat) (s : Screen),
    s.SameRegisters (run core attrib w string p s).2 := by
  induction string with
  | nil => exact fun p s => ⟨rfl, rfl⟩
  | cons c string ih =>
    intro p s
    have step := printChar_registers core attrib w p s c
    have rest := ih (printChar core attrib w (p, s) c).1 (printChar core attrib w (p, s) c).2
    exact ⟨rest.index.trans step.index, rest.data.trans step.data⟩

variable (onScreen : w.OnScreen) (cells : ¬ w.Empty)
include onScreen cells

theorem lineBreak_moves (small : p.2 < 65536) (s : Screen) : (lineBreak core w p.2 s).1 = w.nextRow p.2 := by
  obtain ⟨cols, right, rows, bottom⟩ := onScreen
  unfold Empty at cells
  have next : u32 ((p.2 : Int) + 1) = p.2 + 1 := by unfold u32; omega
  have last : u32 ((w.toRow : Int) - 1) = w.toRow - 1 := by unfold u32; omega
  unfold lineBreak nextRow
  rw [next, last]
  dsimp only
  split <;> rfl

variable (core attrib) in
theorem printChar_moves (small : p.1 < 65536 ∧ p.2 < 65536) (s : Screen) (c : UInt8) :
    (printChar core attrib w (p, s) c).1 = w.move p c := by
  have next : u32 ((p.1 : Int) + 1) = p.1 + 1 := by unfold u32; omega
  unfold printChar move
  dsimp only
  rw [next]
  by_cases isNewline : c = newline
  · rw [if_pos isNewline, if_pos (.inl isNewline)]
    exact lineBreak_moves onScreen cells small.2 s
  · rw [if_neg isNewline]
    by_cases full : w.toCol ≤ p.1 + 1
    · rw [if_pos full, if_pos (.inr full)]
      exact lineBreak_moves onScreen cells small.2 _
    · rw [if_neg full, if_neg (by simp [isNewline, full])]

theorem move_small (small : p.1 < 65536 ∧ p.2 < 65536) (c : UInt8) :
    (w.move p c).1 < 65536 ∧ (w.move p c).2 < 65536 := by
  obtain ⟨cols, right, rows, bottom⟩ := onScreen
  unfold Empty at cells
  unfold move nextRow
  split
  · dsimp only
    split <;> omega
  · rename_i plain
    rw [not_or] at plain
    dsimp only
    omega

theorem moves_small (string : List UInt8) : ∀ {p : Nat × Nat}, p.1 < 65536 ∧ p.2 < 65536 →
    (string.foldl w.move p).1 < 65536 ∧ (string.foldl w.move p).2 < 65536 := by
  induction string with
  | nil => exact fun small => small
  | cons c string ih => exact fun small => ih (move_small onScreen cells small c)

variable (core attrib) in
theorem run_moves (string : List UInt8) : ∀ {p : Nat × Nat} (s : Screen), p.1 < 65536 ∧ p.2 < 65536 →
    (run core attrib w string p s).1 = string.foldl w.move p := by
  induction string with
  | nil => exact fun s small => rfl
  | cons c string ih =>
    intro p s small
    have step := printChar_moves core attrib onScreen cells small s c
    have rest := ih (p := w.move p c) (printChar core attrib w (p, s) c).2 (move_small onScreen cells small c)
    unfold run at rest ⊢
    rw [List.foldl_cons, List.foldl_cons, ← rest, ← step]

end Moving

end TextWindow
end MPStuBS
