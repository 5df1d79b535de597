import MPStuBS.MachineWords

/-! Output in text mode: `machine/textmode.cc` and `machine/textwindow.cc`. The video memory has
one cell for each position, and the cursor is in registers of the graphics controller. -/
namespace MPStuBS

def newline : UInt8 := 10

def blank : UInt8 := 32

structure Cell where
  character : UInt8
  attrib : UInt8
  deriving DecidableEq, Repr

/-- The video memory, and the registers behind the ports 0x3d4 and 0x3d5. -/
structure Screen where
  memory : Nat → Cell
  index : UInt8
  data : UInt8 → UInt8

namespace TextMode

def rows : Nat := 25

def columns : Nat := 80

/-- The attribute that a core uses if none is given. -/
def defaultAttrib (core : Nat) : UInt8 := UInt8.ofNat ((15 - core) % 16)

def outIndex (register : UInt8) (s : Screen) : Screen := { s with index := register }

def outData (byte : UInt8) (s : Screen) : Screen :=
  { s with data := fun register => if register = s.index then byte else s.data register }

def inData (s : Screen) : UInt8 := s.data s.index

def setCursor (absX absY : Nat) (s : Screen) : Screen :=
  if columns ≤ absX ∨ rows ≤ absY then s
  else
    let position := (absX + absY * columns) % 65536
    let positionHigh := UInt8.ofNat (position / 256)
    let positionLow := UInt8.ofNat (position % 256)
    outData positionLow (outIndex 15 (outData positionHigh (outIndex 14 s)))

def getCursor (s : Screen) : (Nat × Nat) × Screen :=
  let s := outIndex 14 s
  let positionHigh := inData s
  let s := outIndex 15 s
  let positionLow := inData s
  let position := (positionHigh.toNat * 256 + positionLow.toNat) % 65536
  ((position % columns, position / columns), s)

def «show» (absX absY : Nat) (character attrib : UInt8) (s : Screen) : Screen :=
  if columns ≤ absX ∨ rows ≤ absY then s
  else
    let position := (absX + absY * columns) % 65536
    { s with memory := fun other => if other = position then ⟨character, attrib⟩ else s.memory other }

end TextMode

structure TextWindow where
  fromCol : Nat
  toCol : Nat
  fromRow : Nat
  toRow : Nat
  useCursor : Bool
  posX : Nat
  posY : Nat
  deriving DecidableEq, Repr

namespace TextWindow

/-- The members for the position are not initialised with the cursor of the hardware. -/
def construct (fromCol toCol fromRow toRow : Nat) (useCursor : Bool) (posX posY : Nat) : TextWindow :=
  if useCursor then ⟨fromCol, toCol, fromRow, toRow, true, posX, posY⟩
  else ⟨fromCol, toCol, fromRow, toRow, false, fromCol, fromRow⟩

def setPos (relX relY : Nat) (w : TextWindow) (s : Screen) : TextWindow × Screen :=
  if u32 (w.toCol - w.fromCol) ≤ relX ∨ u32 (w.toRow - w.fromRow) ≤ relY then (w, s)
  else if w.useCursor then (w, TextMode.setCursor (u32 (relX + w.fromCol)) (u32 (relY + w.fromRow)) s)
  else ({ w with posX := u32 (relX + w.fromCol), posY := u32 (relY + w.fromRow) }, s)

def getPos (w : TextWindow) (s : Screen) : (Nat × Nat) × Screen :=
  if w.useCursor then
    let ((x, y), s) := TextMode.getCursor s
    ((u32 (x - w.fromCol), u32 (y - w.fromRow)), s)
  else ((u32 (w.posX - w.fromCol), u32 (w.posY - w.fromRow)), s)

/-- One cell of the row below is shown in a row. -/
def copyCell (y x : Nat) (s : Screen) : Screen :=
  let position := (x + (y + 1) * TextMode.columns) % 65536
  TextMode.show x y (s.memory position).character (s.memory position).attrib s

/-- The lambda `helper` of `print`: the rows go up, and the last one is cleared. -/
def scroll (core : Nat) (w : TextWindow) (s : Screen) : Screen :=
  let s := (upTo w.fromRow (u32 (w.toRow - 1))).foldl (fun s y =>
    (upTo w.fromCol w.toCol).foldl (fun s x => copyCell y x s) s) s
  (upTo w.fromCol w.toCol).foldl (fun s x =>
    TextMode.show x (u32 (w.toRow - 1)) blank (TextMode.defaultAttrib core) s) s

/-- The start of the next row, for which the window may have to be scrolled. -/
def lineBreak (core : Nat) (w : TextWindow) (y : Nat) (s : Screen) : (Nat × Nat) × Screen :=
  let y := u32 (y + 1)
  if w.toRow ≤ y then ((w.fromCol, u32 (w.toRow - 1)), scroll core w s)
  else ((w.fromCol, y), s)

/-- One turn of the loop of `print`. -/
def printChar (core : Nat) (attrib : UInt8) (w : TextWindow) (p : (Nat × Nat) × Screen) (c : UInt8) :
    (Nat × Nat) × Screen :=
  let ((x, y), s) := p
  if c = newline then lineBreak core w y s
  else
    let s := TextMode.show x y c attrib s
    let x := u32 (x + 1)
    if w.toCol ≤ x then lineBreak core w y s else ((x, y), s)

def print (core : Nat) (string : List UInt8) (attrib : UInt8) (w : TextWindow) (s : Screen) : TextWindow × Screen :=
  let ((relX, relY), s) := getPos w s
  let ((x, y), s) := string.foldl (printChar core attrib w) ((u32 (relX + w.fromCol), u32 (relY + w.fromRow)), s)
  setPos (u32 (x - w.fromCol)) (u32 (y - w.fromRow)) w s

def reset (character attrib : UInt8) (w : TextWindow) (s : Screen) : TextWindow × Screen :=
  let s := (upTo w.fromRow w.toRow).foldl (fun s y =>
    (upTo w.fromCol w.toCol).foldl (fun s x => TextMode.show x y character attrib s) s) s
  setPos 0 0 w s

end TextWindow
end MPStuBS
