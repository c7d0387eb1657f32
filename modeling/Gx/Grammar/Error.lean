import Gx.Text.Lines
import Gx.Text.Quoted

/-!
# Syntax errors

Why a text is not a program. What was expected is kept as data and put into words only when the
error is shown.
-/

namespace Gx

/-- What a parser looks for, as an error names it. -/
inductive Expectation where
  /-- Something described by a word. -/
  | word (description : Bytes)
  /-- Exactly these bytes, shown in quotes. -/
  | literal (bytes : Bytes)
  deriving DecidableEq

namespace Expectation

def describe : Expectation → Bytes
  | .word description => description
  | .literal bytes => Text.quoted bytes

/-- The items after the first one, with `or` in front of the last and commas in front of the
others. -/
def describeRest : List Expectation → Bytes
  | [] => []
  | [last] => utf8 " or " ++ last.describe
  | e :: rest => utf8 ", " ++ e.describe ++ describeRest rest

def describeAll : List Expectation → Bytes
  | [] => utf8 "<none>"
  | e :: rest => e.describe ++ describeRest rest

end Expectation

inductive SyntaxError where
  /-- One of these was expected. -/
  | expected (alternatives : List Expectation)
  | digitsMissing
  | invalidDigit (digit : UInt8) (radix : Nat)
  | unterminatedText
  | invalidEscape (escape : UInt8)
  | reservedInstruction (name : Bytes)
  | unknownInstruction (name : Bytes)
  | registerMissing
  | unexpectedInput
  /-- The cause lies in operand `index` of an instruction. -/
  | inOperand (instruction : Bytes) (index : Nat) (cause : SyntaxError)
  /-- The cause lies in a statement that starts with a keyword. -/
  | inStatement (keyword : Bytes) (cause : SyntaxError)
  deriving DecidableEq

namespace SyntaxError

def message : SyntaxError → Bytes
  | .expected alternatives => Expectation.describeAll alternatives ++ utf8 " expected"
  | .digitsMissing => utf8 "digits expected after base prefix"
  | .invalidDigit digit radix =>
      utf8 "invalid digit '" ++ [digit] ++ utf8 "' in base " ++ Text.decimal radix ++
        utf8 " number"
  | .unterminatedText => utf8 "unterminated string"
  | .invalidEscape escape =>
      utf8 "invalid string escape '\\" ++ String.utf8EncodeChar (Char.ofNat escape.toNat) ++
        utf8 "'"
  | .reservedInstruction name =>
      utf8 "instruction " ++ Text.quoted name ++ utf8 " is reserved"
  | .unknownInstruction name => utf8 "unknown instruction " ++ Text.quoted name
  | .registerMissing => utf8 "register number, h or r expected after \"%\""
  | .unexpectedInput => utf8 "unexpected input"
  | .inOperand instruction index cause =>
      instruction ++ utf8 " operand " ++ Text.decimal index ++ utf8 ": " ++ cause.message
  | .inStatement keyword cause => keyword ++ utf8 ": " ++ cause.message

end SyntaxError

/-- A syntax error with its place in the text. -/
structure GrammarError where
  place : Place
  cause : SyntaxError
  deriving DecidableEq

/-- The wording of an error, with the line it is about. -/
def GrammarError.message (e : GrammarError) : Bytes :=
  e.place.report e.cause.message

end Gx
