import MPStuBS.PrefixCodes

/-! The Huffman trees of the PNG decoder: `huffman_tree_create_lengths` and `huffman_decode_symbol` of
`utils/png.cc`. -/
namespace MPStuBS.PNG

inductive Error where
  | nomem
  | notfound
  | notpng
  | malformed
  | unsupported
  | uninterlaced
  | unformat
  | param
  | ioerror
  deriving DecidableEq, Repr

/-- Why a function does not come to its end: it sets an error, it leaves an array, or it writes behind the
buffer for its output. -/
inductive Stop where
  | error (e : Error)
  | outOfBounds
  | overrun
  | endless
  deriving DecidableEq, Repr

abbrev Png := Except Stop

def malformed {α : Type} : Png α := .error (.error .malformed)

def maxBitLength : Nat := 15

def maxSymbols : Nat := 288

/-- Differences of unsigned numbers. -/
def sub32 (a b : Nat) : Nat := (a + 2 ^ 32 - b) % 2 ^ 32

def sub64 (a b : Nat) : Nat := (a + 2 ^ 64 - b) % 2 ^ 64

def load {α : Type} (array : List α) (i : Nat) : Png α :=
  match array[i]? with
  | some a => .ok a
  | none => .error .outOfBounds

def readBit (bitstream : List UInt8) (bp : Nat) : Png (Nat × Nat) := do
  let byte ← load bitstream (bp / 8)
  pure (byte.toNat >>> (bp % 8) &&& 1, bp + 1)

def readBitsFrom (bitstream : List UInt8) : Nat → Nat → Nat → Nat → Png (Nat × Nat)
  | 0, _, result, bp => pure (result, bp)
  | n + 1, i, result, bp => do
    let (bit, bp) ← readBit bitstream bp
    readBitsFrom bitstream n (i + 1) (result ||| bit <<< i) bp

def readBits (bitstream : List UInt8) (bp nbits : Nat) : Png (Nat × Nat) := readBitsFrom bitstream nbits 0 0 bp

structure HuffmanTree where
  tree2d : List Nat
  maxbitlen : Nat
  numcodes : Nat
  deriving DecidableEq, Repr

/-- The mark of an entry that is not filled yet. -/
def unfilled : Nat := 32767

/-- The array of the counts has one element less than there are lengths. -/
def countLengths : List Nat → (Nat → Nat) → Png (Nat → Nat)
  | [], blcount => pure blcount
  | l :: rest, blcount =>
    if l < maxBitLength then countLengths rest (Function.update blcount l (blcount l + 1))
    else .error .outOfBounds

/-- The symbols that have no word are counted for the length 0. -/
def nextcode (blcount : Nat → Nat) : Nat → Nat
  | 0 => 0
  | bits + 1 => (nextcode blcount bits + blcount bits) * 2 % 2 ^ 32

/-- The array of the codes has one element more than that of the counts. -/
def nextcodes (maxbitlen : Nat) (blcount : Nat → Nat) : Png (Nat → Nat) :=
  if maxbitlen ≤ maxBitLength then pure fun bits => if bits ≤ maxbitlen then nextcode blcount bits else 0
  else .error .outOfBounds

/-- The codes of the symbols from `n` on. That of a symbol without a word is never read. -/
def tree1d : Nat → List Nat → (Nat → Nat) → Png (List Nat)
  | _, [], _ => pure []
  | n, l :: rest, next =>
    if l = 0 then do
      let codes ← tree1d (n + 1) rest next
      pure (0 :: codes)
    else if n < maxSymbols then do
      let codes ← tree1d (n + 1) rest (Function.update next l ((next l + 1) % 2 ^ 32))
      pure (next l :: codes)
    else .error .outOfBounds

structure Filling where
  tree2d : List Nat
  nodefilled : Nat
  treepos : Nat

def fillBits (numcodes n : Nat) : List Bool → Filling → Png Filling
  | [], f => pure f
  | bit :: rest, f =>
    if sub32 numcodes 2 < f.treepos then malformed
    else do
      let here := 2 * f.treepos + bit.toNat
      let entry ← load f.tree2d here
      if entry = unfilled then
        if rest = [] then fillBits numcodes n rest ⟨f.tree2d.set here n, f.nodefilled, 0⟩
        else
          let nodefilled := f.nodefilled + 1
          fillBits numcodes n rest ⟨f.tree2d.set here (nodefilled + numcodes), nodefilled, nodefilled⟩
      else fillBits numcodes n rest { f with treepos := sub32 entry numcodes }

/-- The lengths and codes of the symbols from `n` on. -/
def fillCodes (numcodes : Nat) : Nat → List (Nat × Nat) → Filling → Png Filling
  | _, [], f => pure f
  | n, (bitlen, code) :: rest, f => do
    let f ← fillBits numcodes n (PrefixCode.bits bitlen code) f
    fillCodes numcodes (n + 1) rest f

/-- `bitlen` has `numcodes` elements. -/
def createLengths (maxbitlen : Nat) (bitlen : List Nat) : Png HuffmanTree := do
  let numcodes := bitlen.length
  let blcount ← countLengths bitlen fun _ => 0
  let next ← nextcodes maxbitlen blcount
  let codes ← tree1d 0 bitlen next
  let f ← fillCodes numcodes 0 (bitlen.zip codes) ⟨List.replicate (2 * numcodes) unfilled, 0, 0⟩
  pure ⟨f.tree2d.map fun entry => if entry = unfilled then 0 else entry, maxbitlen, numcodes⟩

/-- `fuel` bounds the bits that are read. -/
def decodeFrom (bitstream : List UInt8) (codetree : HuffmanTree) (inlength : Nat) : Nat → Nat → Nat → Png (Nat × Nat)
  | 0, _, _ => .error .endless
  | fuel + 1, treepos, bp =>
    if bp % 8 = 0 ∧ inlength < bp / 8 then malformed
    else do
      let (bit, bp) ← readBit bitstream bp
      let ct ← load codetree.tree2d (2 * treepos + bit)
      if ct < codetree.numcodes then pure (ct, bp)
      else if codetree.numcodes ≤ ct - codetree.numcodes then malformed
      else decodeFrom bitstream codetree inlength fuel (ct - codetree.numcodes) bp

/-- The symbol, and the position behind its word. -/
def decodeSymbol (bitstream : List UInt8) (bp : Nat) (codetree : HuffmanTree) (inlength : Nat) : Png (Nat × Nat) :=
  decodeFrom bitstream codetree inlength (8 * bitstream.length + 1) 0 bp

end MPStuBS.PNG
