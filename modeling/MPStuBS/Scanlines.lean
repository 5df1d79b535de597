import MPStuBS.FillLoops
import MPStuBS.HuffmanTree

/-! The scanlines of the PNG decoder: `unfilter_scanline`, `unfilter`, `remove_padding_bits` and
`post_process_scanlines` of `utils/png.cc`. The buffers are addresses in one memory, since they may overlap. -/
namespace MPStuBS.PNG

abbrev Memory := Nat → UInt8

abbrev bytes : Cells Memory UInt8 := functionCells UInt8

section Filters

def paethPredictor (a b c : Int) : Int :=
  let p := a + b - c
  let pa := if p > a then p - a else a - p
  let pb := if p > b then p - b else b - p
  let pc := if p > c then p - c else c - p
  if pa ≤ pb ∧ pa ≤ pc then a
  else if pb ≤ pc then b
  else c

def paeth (a b c : UInt8) : UInt8 := UInt8.ofInt (paethPredictor a.toNat b.toNat c.toNat)

def average (a b : UInt8) : UInt8 := ((a.toNat + b.toNat) / 2).toUInt8

/-- `precon` is the line before, if there is one. The array of the line is filled in place where it is that of the
result. -/
def unfilterScanline (recon scanline : Nat) (precon : Option Nat) (bytewidth : Nat) (filterType : UInt8) (length : Nat)
    (m : Memory) : Png Memory :=
  let prior (m : Memory) (i : Nat) : UInt8 := match precon with
    | none => 0
    | some precon => m (precon + i)
  let start (value : Memory → Nat → UInt8) : Memory := bytes.fill value recon bytewidth 0 m
  let rest (value : Memory → Nat → UInt8) (m : Memory) : Memory := bytes.fill value recon (length - bytewidth) bytewidth m
  match filterType.toNat with
  | 0 => .ok (bytes.fill (fun m i => m (scanline + i)) recon length 0 m)
  | 1 => .ok (rest (fun m i => m (scanline + i) + m (recon + (i - bytewidth))) (start fun m i => m (scanline + i)))
  | 2 => .ok (bytes.fill (fun m i => m (scanline + i) + prior m i) recon length 0 m)
  | 3 => .ok (rest (fun m i => m (scanline + i) + average (m (recon + (i - bytewidth))) (prior m i))
      (start fun m i => m (scanline + i) + average 0 (prior m i)))
  | 4 => .ok (rest
      (fun m i => m (scanline + i) + if precon = none then paeth (m (recon + (i - bytewidth))) 0 0
        else paeth (m (recon + (i - bytewidth))) (prior m i) (prior m (i - bytewidth)))
      (start fun m i => m (scanline + i) + if precon = none then 0 else paeth 0 (prior m i) 0))
  | _ => malformed

/-- The lines from `y` on. Each is unfiltered with the result for the line before. -/
def unfilterLines (out inp bytewidth linebytes : Nat) : Nat → Nat → Option Nat → Memory → Png Memory
  | 0, _, _, m => pure m
  | h + 1, y, prevline, m => do
    let outindex := linebytes * y
    let inindex := (1 + linebytes) * y
    let filterType := m (inp + inindex)
    let m ← unfilterScanline (out + outindex) (inp + inindex + 1) prevline bytewidth filterType linebytes m
    unfilterLines out inp bytewidth linebytes h (y + 1) (some (out + outindex)) m

def lineBytes (w bpp : Nat) : Nat := (w * bpp + 7) % 2 ^ 32 / 8

def unfilter (out inp w h bpp : Nat) (m : Memory) : Png Memory :=
  unfilterLines out inp ((bpp + 7) % 2 ^ 32 / 8) (lineBytes w bpp) h 0 none m

end Filters

section Padding

/-- The bits of a byte are counted from the highest. -/
def bitAt (m : Memory) (bp : Nat) : Bool := (m (bp / 8)).toNat.testBit (7 - bp % 8)

def setBit (m : Memory) (bp : Nat) (bit : Bool) : Memory :=
  Function.update m (bp / 8)
    (if bit then m (bp / 8) ||| 1 <<< (7 - bp % 8).toUInt8 else m (bp / 8) &&& ~~~(1 <<< (7 - bp % 8).toUInt8))

/-- The bits of one line. -/
def copyBits (out inp : Nat) : Nat → Nat → Nat → Memory → Memory
  | 0, _, _, m => m
  | n + 1, obp, ibp, m => copyBits out inp n (obp + 1) (ibp + 1) (setBit m (8 * out + obp) (bitAt m (8 * inp + ibp)))

def removePaddingFrom (out inp olinebits diff : Nat) : Nat → Nat → Nat → Memory → Memory
  | 0, _, _, m => m
  | h + 1, obp, ibp, m =>
    removePaddingFrom out inp olinebits diff h (obp + olinebits) (ibp + olinebits + diff) (copyBits out inp olinebits obp ibp m)

def removePaddingBits (out inp olinebits ilinebits h : Nat) (m : Memory) : Memory :=
  removePaddingFrom out inp olinebits (sub64 ilinebits olinebits) h 0 0 m

def postProcessScanlines (out inp w h bpp : Nat) (m : Memory) : Png Memory :=
  if bpp = 0 then malformed
  else if bpp < 8 ∧ w * bpp % 2 ^ 32 ≠ lineBytes w bpp * 8 % 2 ^ 32 then do
    let m ← unfilter inp inp w h bpp m
    pure (removePaddingBits out inp (w * bpp % 2 ^ 32) (lineBytes w bpp * 8 % 2 ^ 32) h m)
  else unfilter out inp w h bpp m

end Padding

end MPStuBS.PNG
