import Gx.Text.Utf8

/-!
# White space

The characters with the Unicode property `White_Space`, and the two operations that depend on
them: cutting a text into fields and trimming it.
-/

namespace Gx

def isBlank (c : Char) : Bool :=
  let n := c.toNat
  (0x09 ≤ n && n ≤ 0x0D) || n == 0x20 || n == 0x85 || n == 0xA0 || n == 0x1680 ||
    (0x2000 ≤ n && n ≤ 0x200A) || n == 0x2028 || n == 0x2029 || n == 0x202F || n == 0x205F ||
    n == 0x3000

/-- A stray byte is never white space. -/
def Piece.isBlank : Piece → Bool
  | .char c => Gx.isBlank c
  | .stray _ => false

namespace Bytes

/-- The maximal runs of pieces that are not white space. -/
def fields (text : Bytes) : List Bytes :=
  (((pieces text).splitOnP Piece.isBlank).filter (!·.isEmpty)).map ofPieces

/-- `text` without leading and trailing white space. -/
def trimBlank (text : Bytes) : Bytes :=
  ofPieces ((((pieces text).dropWhile Piece.isBlank).reverse.dropWhile Piece.isBlank).reverse)

end Bytes

end Gx
