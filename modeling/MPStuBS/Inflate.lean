import MPStuBS.HuffmanTree

/-! `uz_inflate` of `utils/png.cc`: a zlib stream is decompressed into a buffer. An array of
the function is a list, and `in` is what follows the header, while `inlength` counts the header too. -/
namespace MPStuBS.PNG

section Tables

def lengthBase : List Nat := [
  3, 4, 5, 6, 7, 8, 9, 10, 11, 13, 15, 17, 19, 23, 27, 31, 35, 43, 51, 59, 67, 83, 99, 115, 131, 163, 195, 227, 258]

def lengthExtra : List Nat := [
  0, 0, 0, 0, 0, 0, 0, 0, 1, 1, 1, 1, 2, 2, 2, 2, 3, 3, 3, 3, 4, 4, 4, 4, 5, 5, 5, 5, 0]

def distanceBase : List Nat := [
  1, 2, 3, 4, 5, 7, 9, 13, 17, 25, 33, 49, 65, 97, 129, 193, 257, 385, 513, 769, 1025, 1537, 2049, 3073, 4097, 6145,
  8193, 12289, 16385, 24577]

def distanceExtra : List Nat := [
  0, 0, 0, 0, 1, 1, 2, 2, 3, 3, 4, 4, 5, 5, 6, 6, 7, 7, 8, 8, 9, 9, 10, 10, 11, 11, 12, 12, 13, 13]

/-- The order in which the lengths of the code length code are stored. -/
def clcl : List Nat := [
  16, 17, 18, 0, 8, 7, 9, 6, 10, 5, 11, 4, 12, 3, 13, 2, 14, 1, 15]

def fixedDeflateCodeTree : List Nat := [
  289, 370, 290, 307, 546, 291, 561, 292, 293, 300, 294, 297, 295, 296, 0, 1, 2, 3, 298, 299, 4, 5, 6, 7, 301, 304,
  302, 303, 8, 9, 10, 11, 305, 306, 12, 13, 14, 15, 308, 339, 309, 324, 310, 317, 311, 314, 312, 313, 16, 17, 18, 19,
  315, 316, 20, 21, 22, 23, 318, 321, 319, 320, 24, 25, 26, 27, 322, 323, 28, 29, 30, 31, 325, 332, 326, 329, 327,
  328, 32, 33, 34, 35, 330, 331, 36, 37, 38, 39, 333, 336, 334, 335, 40, 41, 42, 43, 337, 338, 44, 45, 46, 47, 340,
  355, 341, 348, 342, 345, 343, 344, 48, 49, 50, 51, 346, 347, 52, 53, 54, 55, 349, 352, 350, 351, 56, 57, 58, 59,
  353, 354, 60, 61, 62, 63, 356, 363, 357, 360, 358, 359, 64, 65, 66, 67, 361, 362, 68, 69, 70, 71, 364, 367, 365,
  366, 72, 73, 74, 75, 368, 369, 76, 77, 78, 79, 371, 434, 372, 403, 373, 388, 374, 381, 375, 378, 376, 377, 80, 81,
  82, 83, 379, 380, 84, 85, 86, 87, 382, 385, 383, 384, 88, 89, 90, 91, 386, 387, 92, 93, 94, 95, 389, 396, 390, 393,
  391, 392, 96, 97, 98, 99, 394, 395, 100, 101, 102, 103, 397, 400, 398, 399, 104, 105, 106, 107, 401, 402, 108, 109,
  110, 111, 404, 419, 405, 412, 406, 409, 407, 408, 112, 113, 114, 115, 410, 411, 116, 117, 118, 119, 413, 416, 414,
  415, 120, 121, 122, 123, 417, 418, 124, 125, 126, 127, 420, 427, 421, 424, 422, 423, 128, 129, 130, 131, 425, 426,
  132, 133, 134, 135, 428, 431, 429, 430, 136, 137, 138, 139, 432, 433, 140, 141, 142, 143, 435, 483, 436, 452, 568,
  437, 438, 445, 439, 442, 440, 441, 144, 145, 146, 147, 443, 444, 148, 149, 150, 151, 446, 449, 447, 448, 152, 153,
  154, 155, 450, 451, 156, 157, 158, 159, 453, 468, 454, 461, 455, 458, 456, 457, 160, 161, 162, 163, 459, 460, 164,
  165, 166, 167, 462, 465, 463, 464, 168, 169, 170, 171, 466, 467, 172, 173, 174, 175, 469, 476, 470, 473, 471, 472,
  176, 177, 178, 179, 474, 475, 180, 181, 182, 183, 477, 480, 478, 479, 184, 185, 186, 187, 481, 482, 188, 189, 190,
  191, 484, 515, 485, 500, 486, 493, 487, 490, 488, 489, 192, 193, 194, 195, 491, 492, 196, 197, 198, 199, 494, 497,
  495, 496, 200, 201, 202, 203, 498, 499, 204, 205, 206, 207, 501, 508, 502, 505, 503, 504, 208, 209, 210, 211, 506,
  507, 212, 213, 214, 215, 509, 512, 510, 511, 216, 217, 218, 219, 513, 514, 220, 221, 222, 223, 516, 531, 517, 524,
  518, 521, 519, 520, 224, 225, 226, 227, 522, 523, 228, 229, 230, 231, 525, 528, 526, 527, 232, 233, 234, 235, 529,
  530, 236, 237, 238, 239, 532, 539, 533, 536, 534, 535, 240, 241, 242, 243, 537, 538, 244, 245, 246, 247, 540, 543,
  541, 542, 248, 249, 250, 251, 544, 545, 252, 253, 254, 255, 547, 554, 548, 551, 549, 550, 256, 257, 258, 259, 552,
  553, 260, 261, 262, 263, 555, 558, 556, 557, 264, 265, 266, 267, 559, 560, 268, 269, 270, 271, 562, 565, 563, 564,
  272, 273, 274, 275, 566, 567, 276, 277, 278, 279, 569, 572, 570, 571, 280, 281, 282, 283, 573, 574, 284, 285, 286,
  287, 0, 0]

def fixedDistanceTree : List Nat := [
  33, 48, 34, 41, 35, 38, 36, 37, 0, 1, 2, 3, 39, 40, 4, 5, 6, 7, 42, 45, 43, 44, 8, 9, 10, 11, 46, 47, 12, 13, 14,
  15, 49, 56, 50, 53, 51, 52, 16, 17, 18, 19, 54, 55, 20, 21, 22, 23, 57, 60, 58, 59, 24, 25, 26, 27, 61, 62, 28, 29,
  30, 31, 0, 0]

end Tables

section DynamicTrees

/-- `codelengthcode`, in the order of `clcl`. -/
def readCodeLengths (bitstream : List UInt8) (hclen : Nat) : List Nat → Nat → List Nat → Nat → Png (List Nat × Nat)
  | [], _, codelengthcode, bp => pure (codelengthcode, bp)
  | symbol :: rest, i, codelengthcode, bp =>
    if i < hclen then do
      let (l, bp) ← readBits bitstream bp 3
      readCodeLengths bitstream hclen rest (i + 1) (codelengthcode.set symbol l) bp
    else readCodeLengths bitstream hclen rest (i + 1) (codelengthcode.set symbol 0) bp

/-- The lengths of the literal and length codes and of the distance codes, of which so many are known. -/
structure Lengths where
  bitlen : List Nat
  bitlenD : List Nat
  i : Nat
  deriving DecidableEq, Repr

def Lengths.store (l : Lengths) (hlit value : Nat) : Lengths :=
  if l.i < hlit then { l with bitlen := l.bitlen.set l.i value, i := l.i + 1 }
  else { l with bitlenD := l.bitlenD.set (l.i - hlit) value, i := l.i + 1 }

/-- Before the first length the index wraps. -/
def Lengths.previous (l : Lengths) (hlit : Nat) : Png Nat :=
  if sub32 l.i 1 < hlit then load l.bitlen (sub32 l.i 1)
  else load l.bitlenD (sub32 (sub32 l.i hlit) 1)

def Lengths.repeat (hlit hdist value : Nat) : Nat → Lengths → Png Lengths
  | 0, l => pure l
  | n + 1, l =>
    if hlit + hdist ≤ l.i then malformed
    else Lengths.repeat hlit hdist value n (l.store hlit value)

/-- `fuel` bounds the codes that are read. -/
def readLengths (bitstream : List UInt8) (codelengthcodetree : HuffmanTree) (inlength hlit hdist : Nat) :
    Nat → Lengths → Nat → Png (Lengths × Nat)
  | 0, _, _ => .error .endless
  | fuel + 1, l, bp =>
    if hlit + hdist ≤ l.i then pure (l, bp)
    else do
      let (code, bp) ← decodeSymbol bitstream bp codelengthcodetree inlength
      if code ≤ 15 then
        readLengths bitstream codelengthcodetree inlength hlit hdist fuel (l.store hlit code) bp
      else if code = 16 then
        if inlength ≤ bp / 8 then malformed
        else do
          let (extra, bp) ← readBits bitstream bp 2
          let value ← l.previous hlit
          let l ← l.repeat hlit hdist value (3 + extra)
          readLengths bitstream codelengthcodetree inlength hlit hdist fuel l bp
      else if code = 17 then
        if inlength ≤ bp / 8 then malformed
        else do
          let (extra, bp) ← readBits bitstream bp 3
          let l ← l.repeat hlit hdist 0 (3 + extra)
          readLengths bitstream codelengthcodetree inlength hlit hdist fuel l bp
      else if code = 18 then
        if inlength ≤ bp / 8 then malformed
        else do
          let (extra, bp) ← readBits bitstream bp 7
          let l ← l.repeat hlit hdist 0 (11 + extra)
          readLengths bitstream codelengthcodetree inlength hlit hdist fuel l bp
      else malformed

/-- `get_tree_inflate_dynamic`. -/
def getTreeInflateDynamic (bitstream : List UInt8) (bp inlength : Nat) : Png (HuffmanTree × HuffmanTree × Nat) := do
  if sub64 inlength 2 ≤ bp / 8 then malformed
  else do
    let (hlit, bp) ← readBits bitstream bp 5
    let (hdist, bp) ← readBits bitstream bp 5
    let (hclen, bp) ← readBits bitstream bp 4
    let (codelengthcode, bp) ← readCodeLengths bitstream (hclen + 4) clcl 0 (List.replicate 19 0) bp
    let codelengthcodetree ← createLengths 7 codelengthcode
    let (l, bp) ← readLengths bitstream codelengthcodetree inlength (hlit + 257) (hdist + 1) (8 * bitstream.length + 1)
      ⟨List.replicate 288 0, List.replicate 32 0, 0⟩ bp
    if l.bitlen[256]? = some 0 then malformed
    else do
      let codetree ← createLengths 15 l.bitlen
      let codetreeD ← createLengths 15 l.bitlenD
      pure (codetree, codetreeD, bp)

end DynamicTrees

section Blocks

/-- The output, and how much of it is written. -/
structure Output where
  out : List UInt8
  pos : Nat
  deriving DecidableEq, Repr

def Output.put (o : Output) (byte : UInt8) : Png Output :=
  if o.pos < o.out.length then .ok ⟨o.out.set o.pos byte, o.pos + 1⟩
  else .error .overrun

/-- The bytes from `distance` before `start` on are repeated. -/
def copyBackward (start distance : Nat) : Nat → Nat → Output → Png Output
  | 0, _, o => pure o
  | n + 1, backward, o => do
    let byte ← load o.out backward
    let o ← o.put byte
    copyBackward start distance n (if start ≤ backward + 1 then sub64 start distance else backward + 1) o

/-- The symbols of a block up to the end code. `fuel` bounds how many there are. -/
def inflateSymbols (bitstream : List UInt8) (codetree codetreeD : HuffmanTree) (inlength : Nat) :
    Nat → Nat → Output → Png (Nat × Output)
  | 0, _, _ => .error .endless
  | fuel + 1, bp, o => do
    let (code, bp) ← decodeSymbol bitstream bp codetree inlength
    if code = 256 then pure (bp, o)
    else if code ≤ 255 then
      if o.out.length ≤ o.pos then malformed
      else do
        let o ← o.put code.toUInt8
        inflateSymbols bitstream codetree codetreeD inlength fuel bp o
    else if 257 ≤ code ∧ code ≤ 285 then do
      let length ← load lengthBase (code - 257)
      let numextrabits ← load lengthExtra (code - 257)
      if inlength ≤ bp / 8 then malformed
      else do
        let (extra, bp) ← readBits bitstream bp numextrabits
        let length := length + extra
        let (codeD, bp) ← decodeSymbol bitstream bp codetreeD inlength
        if 29 < codeD then malformed
        else do
          let distance ← load distanceBase codeD
          let numextrabitsD ← load distanceExtra codeD
          if inlength ≤ bp / 8 then malformed
          else do
            let (extraD, bp) ← readBits bitstream bp numextrabitsD
            let distance := distance + extraD
            if o.out.length ≤ o.pos + length then malformed
            else do
              let o ← copyBackward o.pos distance length (sub64 o.pos distance) o
              inflateSymbols bitstream codetree codetreeD inlength fuel bp o
    -- the two codes that are left have no meaning, and nothing is done for them
    else inflateSymbols bitstream codetree codetreeD inlength fuel bp o

/-- With the fixed trees, or with those that the block begins with. -/
def inflateHuffman (bitstream : List UInt8) (bp : Nat) (o : Output) (inlength btype : Nat) : Png (Nat × Output) := do
  let (codetree, codetreeD, bp) ←
    if btype = 1 then pure (⟨fixedDeflateCodeTree, 15, 288⟩, ⟨fixedDistanceTree, 15, 32⟩, bp)
    else getTreeInflateDynamic bitstream bp inlength
  inflateSymbols bitstream codetree codetreeD inlength (8 * bitstream.length + 1) bp o

def copyStored (bitstream : List UInt8) : Nat → Nat → Output → Png Output
  | 0, _, o => pure o
  | n + 1, p, o => do
    let byte ← load bitstream p
    let o ← o.put byte
    copyStored bitstream n (p + 1) o

def inflateUncompressed (bitstream : List UInt8) (bp : Nat) (o : Output) (inlength : Nat) : Png (Nat × Output) := do
  let p := (bp + 7) / 8
  if sub64 inlength 4 ≤ p then malformed
  else do
    let len := (← load bitstream p).toNat + 256 * (← load bitstream (p + 1)).toNat
    let nlen := (← load bitstream (p + 2)).toNat + 256 * (← load bitstream (p + 3)).toNat
    if len + nlen ≠ 65535 then malformed
    else if o.out.length ≤ o.pos + len then malformed
    else if inlength < p + 4 + len then malformed
    else do
      let o ← copyStored bitstream len (p + 4) o
      pure ((p + 4 + len) * 8, o)

end Blocks

section Streams

/-- `uz_inflate_data`. `fuel` bounds the number of the blocks. -/
def inflateData (bitstream : List UInt8) (insize : Nat) : Nat → Nat → Output → Png Output
  | 0, _, _ => .error .endless
  | fuel + 1, bp, o =>
    if insize ≤ bp / 8 then malformed
    else do
      let (done, bp) ← readBit bitstream bp
      let (low, bp) ← readBit bitstream bp
      let (high, bp) ← readBit bitstream bp
      let btype := low ||| high <<< 1
      if 3 ≤ btype then malformed
      else do
        let (bp, o) ←
          if btype = 0 then inflateUncompressed bitstream bp o insize
          else inflateHuffman bitstream bp o insize btype
        if done = 0 then inflateData bitstream insize fuel bp o
        else pure o

/-- The output is `out` with the data at its start. -/
def uzInflate (out : List UInt8) (stream : List UInt8) : Png (List UInt8) := do
  if stream.length < 2 then malformed
  else do
    let cmf ← load stream 0
    let flg ← load stream 1
    if (cmf.toNat * 256 + flg.toNat) % 31 ≠ 0 then malformed
    else if cmf.toNat &&& 15 ≠ 8 ∨ 7 < cmf.toNat >>> 4 &&& 15 then malformed
    else if flg.toNat >>> 5 &&& 1 ≠ 0 then malformed
    else do
      let o ← inflateData (stream.drop 2) stream.length (8 * stream.length) 0 ⟨out, 0⟩
      pure o.out

end Streams

end MPStuBS.PNG
