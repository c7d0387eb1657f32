import Gx.Text.Utf8

/-!
# Numbers as text

The notations that messages and listings use: decimal, hexadecimal with a least number of digits,
and padding to a column. Hexadecimal digits are lower case.
-/

namespace Gx.Text

/-- The digits of a natural number in the given base. -/
def digits (base n : Nat) : Bytes :=
  (Nat.toDigits base n).map Char.toUInt8

def decimal (n : Nat) : Bytes := digits 10 n

/-- Decimal notation with a minus sign in front of a negative number. -/
def decimalInt : Int → Bytes
  | .ofNat n => decimal n
  | .negSucc n => ascii '-' :: decimal (n + 1)

/-- Decimal notation of what a signed word of 64 bits holds of a number. -/
def decimalWord (n : Int) : Bytes :=
  decimalInt (n.bmod 0x10000000000000000)

/-- At least `width` hexadecimal digits. -/
def hex (width n : Nat) : Bytes :=
  (digits 16 n).leftpad width (ascii '0')

/-- Hexadecimal notation of an integer. A minus sign takes the place of one of the `width`
digits. -/
def hexInt (width : Nat) : Int → Bytes
  | .ofNat n => hex width n
  | .negSucc n => ascii '-' :: hex (width - 1) (n + 1)

/-- Hexadecimal notation with the marker `0x`. -/
def hexMarked (width : Nat) (n : Nat) : Bytes :=
  utf8 "0x" ++ hex width n

/-- Hexadecimal notation of an integer with the marker `0x`, which follows the minus sign. The sign
takes the place of one of the `width` digits. -/
def hexMarkedInt (width : Nat) : Int → Bytes
  | .ofNat n => hexMarked width n
  | .negSucc n => ascii '-' :: hexMarked (width - 1) (n + 1)

/-- A position or an address: at least four digits behind the marker. -/
def address (n : Int) : Bytes := hexMarkedInt 4 n

/-- `text` followed by as many spaces as it lacks to fill `width` columns. Each character and each
stray byte takes one column. -/
def padRight (width : Nat) (text : Bytes) : Bytes :=
  text ++ List.replicate (width - (Bytes.pieces text).length) (ascii ' ')

end Gx.Text
