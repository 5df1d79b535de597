import MPStuBS.Inflate
import MPStuBS.Scanlines

/-! The PNG decoder: the class `PNG` of `utils/png.cc` for a file in memory. The buffers that it allocates lie
at the addresses that `malloc` returns for its calls in turn. -/
namespace MPStuBS.PNG

inductive Format where
  | badFormat
  | rgb8
  | rgb16
  | rgba8
  | rgba16
  | luminance1
  | luminance2
  | luminance4
  | luminance8
  | luminanceAlpha1
  | luminanceAlpha2
  | luminanceAlpha4
  | luminanceAlpha8
  deriving DecidableEq, Repr

/-- No function sets the state for an error. -/
inductive State where
  | decoded
  | header
  | new
  deriving DecidableEq, Repr

def colorLum : Nat := 0
def colorRgb : Nat := 2
def colorLuma : Nat := 4
def colorRgba : Nat := 6

structure Decoder where
  width : Nat
  height : Nat
  colorType : Nat
  colorDepth : Nat
  format : Format
  buffer : Option Nat
  size : Nat
  state : State
  source : List UInt8
  error : Option Error
  deriving DecidableEq, Repr

namespace Decoder

variable (d : Decoder)

def components : Nat :=
  if d.colorType = colorLum then 1
  else if d.colorType = colorRgb then 3
  else if d.colorType = colorLuma then 2
  else if d.colorType = colorRgba then 4
  else 0

def bpp : Nat := d.colorDepth * d.components % 2 ^ 32

def determineFormat : Format :=
  if d.colorType = colorLum then
    match d.colorDepth with
    | 1 => .luminance1
    | 2 => .luminance2
    | 4 => .luminance4
    | 8 => .luminance8
    | _ => .badFormat
  else if d.colorType = colorRgb then
    match d.colorDepth with
    | 8 => .rgb8
    | 16 => .rgb16
    | _ => .badFormat
  else if d.colorType = colorLuma then
    match d.colorDepth with
    | 1 => .luminanceAlpha1
    | 2 => .luminanceAlpha2
    | 4 => .luminanceAlpha4
    | 8 => .luminanceAlpha8
    | _ => .badFormat
  else if d.colorType = colorRgba then
    match d.colorDepth with
    | 8 => .rgba8
    | 16 => .rgba16
    | _ => .badFormat
  else .badFormat

/-- `SET_ERROR`. -/
def setError (e : Error) : Decoder := { d with error := some e }

end Decoder

section Headers

/-- `MAKE_DWORD_PTR`, as an unsigned number. -/
def dword (source : List UInt8) (i : Nat) : Png Nat := do
  let a ← load source i
  let b ← load source (i + 1)
  let c ← load source (i + 2)
  let d ← load source (i + 3)
  pure (a.toNat * 2 ^ 24 + b.toNat * 2 ^ 16 + c.toNat * 2 ^ 8 + d.toNat)

def signature : List UInt8 := [137, 80, 78, 71, 13, 10, 26, 10]

def ihdr : List UInt8 := [73, 72, 68, 82]
def idat : List UInt8 := [73, 68, 65, 84]
def iend : List UInt8 := [73, 69, 78, 68]

/-- The four characters as a number. -/
def chunkId (chars : List UInt8) : Nat := chars.foldl (fun id c => id * 2 ^ 8 + c.toNat) 0

def header (d : Decoder) : Png Decoder := do
  if d.error.isSome then pure d
  else if d.state ≠ .new then pure d
  else if d.source.length < 29 then pure (d.setError .notpng)
  else if d.source.take 8 ≠ signature then pure (d.setError .notpng)
  else do
    let id ← dword d.source 12
    if id ≠ chunkId ihdr then pure (d.setError .malformed)
    else do
      let width ← dword d.source 16
      let height ← dword d.source 20
      let colorDepth ← load d.source 24
      let colorType ← load d.source 25
      let d := { d with width, height, colorDepth := colorDepth.toNat, colorType := colorType.toNat }
      let d := { d with format := d.determineFormat }
      if d.format = .badFormat then pure (d.setError .unformat)
      else do
        let compression ← load d.source 26
        let filter ← load d.source 27
        let interlace ← load d.source 28
        if compression ≠ 0 then pure (d.setError .malformed)
        else if filter ≠ 0 then pure (d.setError .malformed)
        else if interlace ≠ 0 then pure (d.setError .uninterlaced)
        else pure { d with state := .header }

/-- The constructor for a file in memory. -/
def create (source : List UInt8) : Png Decoder :=
  header ⟨0, 0, colorRgba, 8, .rgba8, none, 0, .new, source, none⟩

end Headers

section Buffers

/-- The content of a buffer. -/
def contents (m : Memory) (a n : Nat) : List UInt8 := (List.range n).map fun i => m (a + i)

def store (m : Memory) (a : Nat) (content : List UInt8) : Memory :=
  fun j => if a ≤ j then (content[j - a]?).getD (m j) else m j

end Buffers

section Chunks

/-- What is found out about the chunks: an error, or the size of all that hold data. `fuel` bounds their number. -/
def scanChunks (source : List UInt8) : Nat → Nat → Nat → Png (Except Error Nat)
  | 0, _, _ => .error .endless
  | fuel + 1, chunk, compressedSize =>
    if source.length ≤ chunk then pure (.ok compressedSize)
    else if source.length < chunk + 12 then pure (.error .malformed)
    else do
      let length ← dword source chunk
      if 2 ^ 31 - 1 < length then pure (.error .malformed)
      else if source.length < chunk + length + 12 then pure (.error .malformed)
      else do
        let type ← dword source (chunk + 4)
        let first ← load source (chunk + 4)
        if type = chunkId idat then scanChunks source fuel (chunk + (length + 12)) (compressedSize + length)
        else if type = chunkId iend then pure (.ok compressedSize)
        else if first &&& 32 = 0 then pure (.error .unsupported)
        else scanChunks source fuel (chunk + (length + 12)) compressedSize

/-- The data of the chunks is copied to the buffer, in which there are `index` bytes so far. -/
def copyChunks (source : List UInt8) (compressed : Nat) : Nat → Nat → Nat → Memory → Png Memory
  | 0, _, _, _ => .error .endless
  | fuel + 1, chunk, index, m =>
    if source.length ≤ chunk then pure m
    else do
      let length ← dword source chunk
      let type ← dword source (chunk + 4)
      if type = chunkId idat then
        if source.length < chunk + 8 + length then .error .outOfBounds
        else
          copyChunks source compressed fuel (chunk + (length + 12)) (index + length)
            (store m (compressed + index) ((source.drop (chunk + 8)).take length))
      else if type = chunkId iend then pure m
      else copyChunks source compressed fuel (chunk + (length + 12)) index m

end Chunks

section Images

def inflatedSize (width height bpp : Nat) : Nat :=
  (width * (height * bpp + 7) % 2 ^ 32 / 8 + height) % 2 ^ 32

def imageSize (width height bpp : Nat) : Nat := (height * width * bpp + 7) % 2 ^ 32 / 8

/-- The old result is released. -/
def Decoder.release (d : Decoder) : Decoder :=
  if d.buffer.isSome then { d with buffer := none, size := 0 } else d

/-- The last part of `decode`, with the inflated data. -/
def decodeLines (malloc : Nat → Nat → Option Nat) (d : Decoder) (m : Memory) (inflated : Nat) : Png (Decoder × Memory) :=
  match malloc 2 (imageSize d.width d.height d.bpp) with
  | none => .ok (Decoder.setError { d with size := 0 } .nomem, m)
  | some buffer =>
    match postProcessScanlines buffer inflated d.width d.height d.bpp m with
    | .error (.error e) => .ok (Decoder.setError { d with buffer := none, size := 0, source := [] } e, m)
    | .error stop => .error stop
    | .ok m => .ok ({ d with
        buffer := some buffer, size := imageSize d.width d.height d.bpp, state := .decoded, source := [] }, m)

/-- The part of `decode` after the data was copied. The two buffers do not overlap, so `uz_inflate` does not change
what it reads. -/
def decodeData (malloc : Nat → Nat → Option Nat) (d : Decoder) (m : Memory) (compressed compressedSize : Nat) :
    Png (Decoder × Memory) :=
  match malloc 1 (inflatedSize d.width d.height d.bpp) with
  | none => .ok (d.setError .nomem, m)
  | some inflated =>
    match uzInflate (contents m inflated (inflatedSize d.width d.height d.bpp)) (contents m compressed compressedSize) with
    | .error (.error e) => .ok (d.setError e, m)
    | .error stop => .error stop
    | .ok content => decodeLines malloc d (store m inflated content) inflated

/-- `decode`. What an error leaves in a buffer that is released again does not count. -/
def decode (malloc : Nat → Nat → Option Nat) (d : Decoder) (m : Memory) : Png (Decoder × Memory) := do
  if d.error.isSome then pure (d, m)
  else if d.state = .decoded then pure (d, m)
  else do
    let d ← header d
    if d.error.isSome then pure (d, m)
    else if d.state ≠ .header then pure (d, m)
    else do
      let d := d.release
      match ← scanChunks d.source (d.source.length + 1) 33 0 with
      | .error e => pure (d.setError e, m)
      | .ok compressedSize =>
        match if compressedSize = 0 then none else malloc 0 compressedSize with
        | none => pure (d.setError .nomem, m)
        | some compressed => do
          let m ← copyChunks d.source compressed (d.source.length + 1) 33 0 m
          decodeData malloc d m compressed compressedSize

end Images

end MPStuBS.PNG
