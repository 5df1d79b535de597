import MPStuBS.TextWindow

/-! Output in graphics mode: `device/graphicsstream.cc`. The rows of the window are a ring, and the
first row is at an offset. -/
namespace MPStuBS

structure Color where
  red : UInt8
  green : UInt8
  blue : UInt8
  deriving DecidableEq, Repr

namespace GraphicsStream

structure Cell where
  character : UInt8
  color : Color
  deriving DecidableEq, Repr

end GraphicsStream

structure GraphicsStream where
  cell : Nat → GraphicsStream.Cell
  offset : Nat
  x : Nat
  y : Nat
  rows : Nat
  columns : Nat

namespace GraphicsStream

/-- A font has the size of its characters. The memory for the cells is set to zero. -/
def construct (width height fontWidth fontHeight : Nat) : GraphicsStream :=
  ⟨fun _ => ⟨0, ⟨0, 0, 0⟩⟩, 0, 0, 0, height / fontHeight, width / fontWidth⟩

/-- A negative coordinate counts from the end. -/
def counted (x : Int) (size : Nat) : Int := if x < 0 then i32 (x + size) else x

def setPos (x y : Int) (g : GraphicsStream) : GraphicsStream :=
  let x := counted x g.columns
  let y := counted y g.rows
  if 0 ≤ x ∧ u32 x < g.columns ∧ 0 ≤ y ∧ u32 y ≤ g.rows then { g with x := u32 x, y := u32 y } else g

/-- The index of a cell. -/
def index (x y : Int) (g : GraphicsStream) : Nat := u32 (u32 (g.offset + y) % g.rows * g.columns + x)

def «show» (x y : Int) (character : UInt8) (color : Color) (g : GraphicsStream) : GraphicsStream :=
  let x := counted x g.columns
  let y := counted y g.rows
  if 0 ≤ x ∧ u32 x < g.columns ∧ 0 ≤ y ∧ u32 y < g.rows then
    { g with cell := fun i => if i = g.index x y then ⟨character, color⟩ else g.cell i }
  else g

/-- The turns of a loop over columns of the row of the cursor. -/
def clear (low : Nat) (color : Color) (g : GraphicsStream) : GraphicsStream :=
  (upTo low g.columns).foldl (fun g' (i : Nat) => g'.show (i32 i) (i32 g.y) blank color) g

/-- What follows the `switch` in the loop of `print`. -/
def scroll (color : Color) (g : GraphicsStream) : GraphicsStream :=
  if g.rows ≤ g.y then
    clear 0 color { g with offset := u32 (g.offset + 1) % g.rows, y := u32 (g.y - 1) }
  else g

/-- The cases of the `switch` in the loop of `print`. -/
def place (color : Color) (g : GraphicsStream) (c : UInt8) : GraphicsStream :=
  if c = newline then
    let g := clear g.x color g
    { g with x := 0, y := u32 (g.y + 1) }
  else
    let g := g.show (i32 g.x) (i32 g.y) c color
    let x := u32 (g.x + 1)
    if g.columns ≤ x then { g with x := 0, y := u32 (g.y + 1) } else { g with x := x }

/-- One turn of the loop of `print`. -/
def printChar (color : Color) (g : GraphicsStream) (c : UInt8) : GraphicsStream := (g.place color c).scroll color

def print (str : List UInt8) (color : Color) (g : GraphicsStream) : GraphicsStream := str.foldl (printChar color) g

def reset (character : UInt8) (color : Color) (g : GraphicsStream) : GraphicsStream :=
  let g := (upTo 0 g.rows).foldl (fun g (y : Nat) =>
    (upTo 0 g.columns).foldl (fun g (x : Nat) => g.show (i32 x) (i32 y) character color) g) g
  setPos 0 0 g

end GraphicsStream
end MPStuBS
