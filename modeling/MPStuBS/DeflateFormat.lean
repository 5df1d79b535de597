import MPStuBS.PrefixCodes

/-! The format of compressed data: blocks of bytes, and of words of prefix codes that stand for bytes
and for copies of what is before. -/
namespace MPStuBS.Deflate

open PrefixCode

section Tokens

/-- The least length of each length code, and the bits that say how much more it is. -/
def lengthBase (i : Nat) : Nat := if i < 8 then i + 3 else if i = 28 then 258 else (4 + i % 4) * 2 ^ (i / 4 - 1) + 3

def lengthBits (i : Nat) : Nat := if i < 8 ∨ i = 28 then 0 else i / 4 - 1

def distanceBase (j : Nat) : Nat := if j < 4 then j + 1 else (2 + j % 2) * 2 ^ (j / 2 - 1) + 1

def distanceBits (j : Nat) : Nat := if j < 4 then 0 else j / 2 - 1

inductive Token where
  | literal (byte : UInt8)
  | copy (lengthCode extra distanceCode extraD : Nat)
  deriving DecidableEq, Repr

def Token.length : Token → Nat
  | .literal _ => 1
  | .copy i e _ _ => lengthBase i + e

/-- What is copied may go on into the copy. -/
def copied (distance : Nat) : Nat → List UInt8 → List UInt8
  | 0, h => h
  | n + 1, h => copied distance n (h ++ [h.getD (h.length - distance) 0])

def Token.expand (h : List UInt8) : Token → List UInt8
  | .literal byte => h ++ [byte]
  | .copy i e j d => copied (distanceBase j + d) (lengthBase i + e) h

/-- The words of two codes that stand for a token. -/
def Token.bits (literals distances : Nat → List Bool) : Token → List Bool
  | .literal byte => literals byte.toNat
  | .copy i e j d => literals (257 + i) ++ low (lengthBits i) e ++ (distances j ++ low (distanceBits j) d)

/-- The codes and the bits behind them exist, and the copy does not begin before the data. -/
def Token.Valid (literals distances : Nat → Prop) (h : List UInt8) : Token → Prop
  | .literal byte => literals byte.toNat
  | .copy i e j d => i < 29 ∧ e < 2 ^ lengthBits i ∧ literals (257 + i) ∧
    j < 30 ∧ d < 2 ^ distanceBits j ∧ distances j ∧ distanceBase j + d ≤ h.length

end Tokens

section Headers

/-- How the lengths of the words of two codes are described. -/
inductive Run where
  | length (l : Nat)
  | again (n : Nat)
  | zeros (n : Nat)
  | manyZeros (n : Nat)
  deriving DecidableEq, Repr

def Run.expand (h : List Nat) : Run → List Nat
  | .length l => h ++ [l]
  | .again n => h ++ List.replicate n (h.getLast?.getD 0)
  | .zeros n => h ++ List.replicate n 0
  | .manyZeros n => h ++ List.replicate n 0

def Run.symbol : Run → Nat
  | .length l => l
  | .again _ => 16
  | .zeros _ => 17
  | .manyZeros _ => 18

def Run.bits (lengths : Nat → List Bool) (run : Run) : List Bool :=
  lengths run.symbol ++ match run with
    | .length _ => []
    | .again n => low 2 (n - 3)
    | .zeros n => low 3 (n - 3)
    | .manyZeros n => low 7 (n - 11)

/-- There is something that can be done again. -/
def Run.Valid (lengths : Nat → Prop) (h : List Nat) (run : Run) : Prop :=
  lengths run.symbol ∧ match run with
    | .length l => l ≤ 15
    | .again n => 3 ≤ n ∧ n < 7 ∧ h ≠ []
    | .zeros n => 3 ≤ n ∧ n < 11
    | .manyZeros n => 11 ≤ n ∧ n < 139

/-- The order of the lengths of the words for the descriptions. -/
def order : List Nat := [16, 17, 18, 0, 8, 7, 9, 6, 10, 5, 11, 4, 12, 3, 13, 2, 14, 1, 15]

structure Header where
  literals : Nat
  distances : Nat
  codeLengths : List Nat
  runs : List Run
  deriving DecidableEq, Repr

namespace Header

variable (header : Header)

/-- The lengths of the words for the descriptions, by symbol. -/
def runLengths : List Nat := (List.range 19).map fun symbol => header.codeLengths.getD (order.idxOf symbol) 0

def lengths : List Nat := header.runs.foldl Run.expand []

def pad (n : Nat) (lens : List Nat) : List Nat := lens ++ List.replicate (n - lens.length) 0

def literalLengths : List Nat := pad 288 (header.lengths.take header.literals)

def distanceLengths : List Nat := pad 32 (header.lengths.drop header.literals)

def bits (lengths : Nat → List Bool) : List Bool :=
  low 5 (header.literals - 257) ++ low 5 (header.distances - 1) ++ low 4 (header.codeLengths.length - 4) ++
    header.codeLengths.flatMap (low 3) ++ header.runs.flatMap (Run.bits lengths)

end Header

end Headers

section Blocks

inductive Block where
  | stored (padding : List Bool) (bytes : List UInt8)
  | fixed (tokens : List Token)
  | dynamic (header : Header) (tokens : List Token)
  deriving DecidableEq, Repr

/-- The lengths of the words of the codes that are always known. -/
def fixedLength (n : Nat) : Nat := if n < 144 then 8 else if n < 256 then 9 else if n < 280 then 7 else 8

/-- The canonical code for the lengths. -/
def wordOf (lens : List Nat) : Nat → List Bool := word (fun n => lens.getD n 0) lens.length

def fixedLiteral (n : Nat) : List Bool :=
  PrefixCode.bits (fixedLength n)
    (if n < 144 then 48 + n else if n < 256 then 400 + (n - 144) else if n < 280 then n - 256 else 192 + (n - 280))

def fixedDistance (n : Nat) : List Bool := PrefixCode.bits 5 n

def Block.expand (h : List UInt8) : Block → List UInt8
  | .stored _ bytes => h ++ bytes
  | .fixed tokens => tokens.foldl Token.expand h
  | .dynamic _ tokens => tokens.foldl Token.expand h

/-- The length of stored bytes, and its complement. -/
def storedLength (n : Nat) : List UInt8 :=
  [n.toUInt8, (n / 256).toUInt8, (255 - n % 256).toUInt8, (255 - n / 256).toUInt8]

def Block.bits : Block → List Bool
  | .stored padding bytes => [false, false] ++ (padding ++ bitsOf (storedLength bytes.length) ++ bitsOf bytes)
  | .fixed tokens => [true, false] ++ (tokens.flatMap (Token.bits fixedLiteral fixedDistance) ++ fixedLiteral 256)
  | .dynamic header tokens =>
    let literals := wordOf header.literalLengths
    let distances := wordOf header.distanceLengths
    [false, true] ++ (header.bits (wordOf header.runLengths) ++ (tokens.flatMap (Token.bits literals distances) ++ literals 256))

/-- The blocks one after the other, with a bit that marks the last. -/
def bits : List Block → List Bool
  | [] => []
  | block :: rest => rest.isEmpty :: block.bits ++ bits rest

end Blocks

end MPStuBS.Deflate
