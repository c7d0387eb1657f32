import Gx.Grammar.Parser
import Gx.Text.CaseFold

/-!
# Tokens

The smallest parts of a program: literal bytes, keywords, identifiers, numbers and texts, and the
blank between them.
-/

namespace Gx

/-- Bytes that separate tokens. -/
structure Spaces where
  bytes : Bytes
  deriving DecidableEq

/-- Separators are control characters, digits and the punctuation among them: bytes below 64. -/
def Spaces.ofBytes? (bytes : Bytes) : Option Spaces :=
  if bytes.all (· < 64) then some ⟨bytes⟩ else none

def Spaces.skip (s : Spaces) (c : Cursor) : Cursor := c.skipWhile (s.bytes.contains ·)

def Spaces.inLine : Spaces := ⟨[0x20, 0x09]⟩

/-- Separators, and the byte that starts a comment up to the end of the line. -/
structure Blank where
  spaces : Spaces
  comment : Option UInt8
  deriving DecidableEq

namespace Blank

/-- The blank between the tokens of a program. -/
def gap : Blank := ⟨⟨[0x20, 0x09, 0x0D, 0x0A]⟩, some (ascii ';')⟩

/-- Stays where it is and never comes to an end. -/
def endless (c : Cursor) : Cursor := endless c
partial_fixpoint

/-- Moves over comments, each with the separators behind it. When the rounds are used up, one of
them has not moved on, and so will none of the others: the line feed that starts a comment ends it
as well. -/
def skipComments (b : Blank) : Bytes → Cursor → Cursor
  | [], c => endless c
  | _ :: rounds, c =>
      if c.rest.head?.isSome ∧ c.rest.head? = b.comment then
        b.skipComments rounds (b.spaces.skip (c.skipWhile (· != 0x0A)))
      else c

def skip (b : Blank) (c : Cursor) : Cursor :=
  b.skipComments c.budget (b.spaces.skip c)

end Blank

def isNameStart (b : UInt8) : Bool :=
  (ascii 'a' ≤ b && b ≤ ascii 'z') || (ascii 'A' ≤ b && b ≤ ascii 'Z') || b == ascii '_'

def isDecimalDigit (b : UInt8) : Bool := ascii '0' ≤ b && b ≤ ascii '9'

def isNameByte (b : UInt8) : Bool := isNameStart b || isDecimalDigit b

/-- Whether a byte is a digit of the base 2, 10 or 16. -/
def isDigitOf (radix : Nat) (b : UInt8) : Bool :=
  if radix = 2 then b == ascii '0' || b == ascii '1'
  else if radix = 16 then
    isDecimalDigit b || (ascii 'a' ≤ b && b ≤ ascii 'f') || (ascii 'A' ≤ b && b ≤ ascii 'F')
  else isDecimalDigit b

namespace Parse

variable {α : Type}

/-- Applies `p` behind the blank. -/
def spaced (b : Blank) (p : Parse α) : Parse α := fun c => applyFrom p c (b.skip c)

/-- Applies `p` behind the blank that may stand between tokens. -/
def token (p : Parse α) : Parse α := spaced .gap p

def literal (bytes : Bytes) : Parse Bytes := fun c =>
  if bytes.isPrefixOf c.rest then .ok bytes (c.advance bytes.length)
  else .fail c.pos (.expected [.literal bytes])

/-- Reads a word in any case, unless an identifier goes on behind it. The value is the word as
given here. -/
def keyword (word : Bytes) : Parse Bytes := fun c =>
  let next := c.advance word.length
  if (c.rest.take word.length).length = word.length ∧
      Bytes.equalFold (c.rest.take word.length) word ∧ !next.rest.head?.any isNameByte then
    .ok word next
  else .fail c.pos (.expected [.literal word])

def identifier : Parse Bytes := fun c =>
  if c.rest.head?.any isNameStart then
    let name := c.rest.takeWhile isNameByte
    .ok name (c.advance name.length)
  else .fail c.pos (.expected [.word (utf8 "identifier")])

/-- The base of a number that starts with these bytes, and the length of its marker. -/
def radixOf : Bytes → Nat × Nat
  | zero :: marker :: _ =>
      if zero = ascii '0' then
        if marker = ascii 'x' ∨ marker = ascii 'X' then (16, 2)
        else if marker = ascii 'b' ∨ marker = ascii 'B' then (2, 2)
        else (10, 0)
      else (10, 0)
  | _ => (10, 0)

/-- Reads a decimal number, or a hexadecimal or binary one behind `0x` or `0b`. -/
def numeral : Parse Numeral := fun c =>
  if c.rest.head?.any isDecimalDigit then
    let (radix, marker) := radixOf c.rest
    let body := c.advance marker
    let digits := body.rest.takeWhile (isDigitOf radix)
    let next := body.advance digits.length
    if digits = [] then .fail next.pos .digitsMissing
    else
      match next.rest.head? with
      | some b =>
          if isNameByte b then .fail next.pos (.invalidDigit b radix)
          else .ok ⟨⟨c.pos, next.pos⟩, digits, radix⟩ next
      | none => .ok ⟨⟨c.pos, next.pos⟩, digits, radix⟩ next
  else .fail c.pos (.expected [.word (utf8 "number")])

/-- The byte that an escape letter stands for. -/
def unescape (letter : UInt8) : Option UInt8 :=
  if letter = ascii 'n' then some 0x0A
  else if letter = ascii 'r' then some 0x0D
  else if letter = ascii 't' then some 0x09
  else if letter = ascii '0' then some 0x00
  else if letter = 0x5C then some 0x5C
  else if letter = 0x22 then some 0x22
  else none

/-- Reads a text behind its opening quote. The bytes read so far are kept last first. -/
def textBody : Bytes → Nat → Bytes → Reply Bytes
  | [], pos, _ => .fail pos .unterminatedText
  | b :: rest, pos, read =>
      if b = 0x22 then .ok read.reverse ⟨pos + 1, rest⟩
      else if b = 0x0A then .fail pos .unterminatedText
      else if b = 0x5C then
        match rest with
        | [] => .fail (pos + 1) .unterminatedText
        | letter :: rest =>
            match unescape letter with
            | some byte => textBody rest (pos + 2) (byte :: read)
            | none => .fail (pos + 1) (.invalidEscape letter)
      else textBody rest (pos + 1) (b :: read)

/-- Reads a text between double quotes. -/
def quotedText : Parse Bytes := fun c =>
  match c.rest with
  | 0x22 :: rest => textBody rest (c.pos + 1) []
  | _ => .fail c.pos (.expected [.word (utf8 "string")])

end Parse

end Gx
