import Gx.Text.Numeral

/-!
# Lines and places in a text

A line ends at CR LF, at CR or at LF. A place is a byte position with the number of its line, its
column and the line itself; there only LF counts as an end, since places are reported for texts
whose lines have been joined by LF.
-/

namespace Gx

namespace Bytes

/-- Puts `b` in front of a text without CR LF pairs, unless it is the CR of such a pair. The
second component is the byte that follows. -/
def consUnlessCrLf (b : UInt8) : Bytes × Option UInt8 → Bytes × Option UInt8
  | (text, next) => (if b = 0x0D ∧ next = some 0x0A then text else b :: text, some b)

/-- Writes each CR LF as LF. -/
def joinCrLf (text : Bytes) : Bytes :=
  (text.foldr consUnlessCrLf ([], none)).1

/-- The lines of a text that may use CR LF, CR and LF. A text without any has one line. -/
def lines (text : Bytes) : List Bytes :=
  ((joinCrLf text).map fun b => if b = 0x0D then 0x0A else b).splitOn 0x0A

/-- The position behind the last `b`, or the start of a text that has none. -/
def afterLast (b : UInt8) (text : Bytes) : Nat :=
  text.length - text.reverse.idxOf b

end Bytes

/-- A place in a text. Lines and columns count from one. -/
structure Place where
  pos : Nat
  line : Nat
  column : Nat
  /-- The line, without the CRs at its end. -/
  text : Bytes
  deriving DecidableEq

namespace Place

/-- The place of byte `pos`, or of the end if the text is shorter. -/
def ofPos (text : Bytes) (pos : Nat) : Place :=
  let pos := min pos text.length
  let start := Bytes.afterLast 0x0A (text.take pos)
  let stop := pos + (text.drop pos).idxOf 0x0A
  { pos := pos
    line := 1 + (text.take start).count 0x0A
    column := 1 + pos - start
    text := Bytes.trimEnd (· == 0x0D) ((text.take stop).drop start) }

/-- Line and column with a colon between them. -/
def lineColumn (place : Place) : Bytes :=
  Text.decimal place.line ++ utf8 ":" ++ Text.decimal place.column

/-- A message about the place: where it is, what is wrong, and the line below. -/
def report (place : Place) (message : Bytes) : Bytes :=
  place.lineColumn ++ utf8 ": " ++ message ++ utf8 "\n\t" ++ place.text

end Place

end Gx
