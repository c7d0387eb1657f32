import Gx.Text.Numeral
import Gx.Text.Printable

/-!
# Quoted text

A text between double quotes, as messages show names: printable characters stand for themselves,
everything else is written as an escape.
-/

namespace Gx.Text

/-- The letter behind the backslash for a character that has a short escape. -/
def shortEscape (c : Char) : Option Char :=
  match c.toNat with
  | 0x07 => some 'a'
  | 0x08 => some 'b'
  | 0x09 => some 't'
  | 0x0A => some 'n'
  | 0x0B => some 'v'
  | 0x0C => some 'f'
  | 0x0D => some 'r'
  | 0x22 => some '\x22'
  | 0x5C => some '\x5c'
  | _ => none

/-- How a character is written in quoted text. -/
def quotedChar (c : Char) : Bytes :=
  match shortEscape c with
  | some letter => [0x5C, ascii letter]
  | none =>
      if isPrintable c then String.utf8EncodeChar c
      else if c.toNat < 0x80 then [0x5C, ascii 'x'] ++ hex 2 c.toNat
      else if c.toNat < 0x10000 then [0x5C, ascii 'u'] ++ hex 4 c.toNat
      else [0x5C, ascii 'U'] ++ hex 8 c.toNat

/-- How a piece is written in quoted text. -/
def quotedPiece : Piece → Bytes
  | .char c => quotedChar c
  | .stray b => [0x5C, ascii 'x'] ++ hex 2 b.toNat

/-- The text between double quotes. -/
def quoted (text : Bytes) : Bytes :=
  0x22 :: (Bytes.pieces text).flatMap quotedPiece ++ [0x22]

/-- Quoted texts in brackets with a space between neighbours. -/
def quotedList (texts : List Bytes) : Bytes :=
  utf8 "[" ++ Bytes.join (utf8 " ") (texts.map quoted) ++ utf8 "]"

end Gx.Text
