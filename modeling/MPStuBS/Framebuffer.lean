import MPStuBS.MachineWords

/-! The framebuffer and the fonts: `graphics/framebuffer.h` and `graphics/fonts/font.h`. Addresses
are counted from the start of the framebuffer, and of the data of a font. -/
namespace MPStuBS.GraphicsPrinter

structure Point where
  x : Int
  y : Int
  deriving DecidableEq, Repr

/-- The sizes of a framebuffer, with the size of a pixel in memory. -/
structure Framebuffer where
  pitch : Nat
  screenWidth : Nat
  screenHeight : Nat
  pixelSize : Nat
  positive : 0 < pixelSize

/-- `Framebuffer::get`. -/
def Framebuffer.get (fb : Framebuffer) (x y : Nat) : Nat := u32 (y * fb.pitch) + x * fb.pixelSize

/-- A byte of the framebuffer that belongs to a pixel of the visible screen. -/
def Framebuffer.Visible (fb : Framebuffer) (byte : Nat) : Prop :=
  ∃ x < fb.screenWidth, ∃ y < fb.screenHeight, ∃ k < fb.pixelSize, byte = fb.get x y + k

structure Font where
  data : Nat → UInt8
  width : Nat
  height : Nat

/-- `Font::size`: the bytes of a character. -/
def Font.size (f : Font) : Nat := u32 (u32 (f.width + (8 >>> 1 : Nat)) / 8 * f.height : Nat)

def Font.symbol (f : Font) (c : UInt8) : Nat := f.size * c.toNat

end MPStuBS.GraphicsPrinter
