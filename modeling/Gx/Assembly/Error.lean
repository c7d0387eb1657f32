import Gx.Image.Basic
import Gx.Symbol.Basic

/-!
# Errors of assembly

Why a program cannot be encoded. An error names its cause; the layers around it say in which
operand, statement or reference the cause lies.
-/

namespace Gx

inductive EncodeError where
  | scope (e : ScopeError)
  | image (e : ImageError)
  /-- A number is too great for its use. -/
  | outOfRange (value greatest : Nat)
  /-- Digits that are no number below 2 to the 64. -/
  | unreadable (digits : Bytes) (radix : Int)
  | noSuchRegister (number : Nat)
  | halfUsedAs (kind : Kind)
  | registerUsedAs (kind : Kind)
  | textUsedAs (kind : Kind)
  | missingOperand
  | missingStatement
  /-- An instruction has another number of operands than it declares. -/
  | operandCount (instruction : Bytes) (declared given : Nat)
  /-- The scopes are not the ones the program started with. -/
  | scopeDepth (now start : Nat)
  /-- A name that was referred to is never bound. -/
  | unresolved (name place : Bytes)
  | inData (cause : EncodeError)
  | inOperand (instruction : Bytes) (index : Nat) (cause : EncodeError)
  | inStatement (place : Bytes) (cause : EncodeError)
  | inReference (name place : Bytes) (cause : EncodeError)
  deriving DecidableEq

namespace EncodeError

def greatestWord : Nat := 0xFFFF

/-- A number and the greatest one that would do. -/
def rangeMessage (value greatest : Nat) : Bytes :=
  utf8 "number " ++ Text.decimal value ++ utf8 " (" ++ Text.hexMarked 0 value ++
    utf8 ") exceeds " ++ Text.hexMarked 0 greatest

/-- The wording of an error. Without digits there is only the number zero to show. -/
def message : EncodeError → Bytes
  | .scope e => e.message
  | .image e => e.message
  | .outOfRange value greatest => rangeMessage value greatest
  | .unreadable digits radix =>
      if digits = [] then rangeMessage 0 greatestWord
      else
        utf8 "number " ++ digits ++ utf8 " (base " ++ Text.decimalInt radix ++
          utf8 ") exceeds " ++ Text.hexMarked 0 greatestWord
  | .noSuchRegister number =>
      utf8 "register %" ++ Text.decimal number ++ utf8 " out of range 0-31"
  | .halfUsedAs kind => utf8 "lo/hi used as " ++ kind.name
  | .registerUsedAs kind => utf8 "register used as " ++ kind.name
  | .textUsedAs kind => utf8 "string used as " ++ kind.name
  | .missingOperand => utf8 "unsupported expression <nil>"
  | .missingStatement => utf8 "unsupported statement <nil>"
  | .operandCount instruction declared given =>
      instruction ++ utf8 " takes " ++ Text.decimal declared ++ utf8 " operands, got " ++
        Text.decimal given
  | .scopeDepth now start =>
      utf8 "scope depth " ++ Text.decimal now ++ utf8 " after evaluation, started with " ++
        Text.decimal start
  | .unresolved name place =>
      utf8 "label '" ++ name ++ utf8 "' referenced at " ++ place ++ utf8 " is never defined"
  | .inData cause => utf8 "dat: " ++ cause.message
  | .inOperand instruction index cause =>
      instruction ++ utf8 " operand " ++ Text.decimal index ++ utf8 ": " ++ cause.message
  | .inStatement place cause => utf8 "at " ++ place ++ utf8 ": " ++ cause.message
  | .inReference name place cause =>
      name ++ utf8 " at " ++ place ++ utf8 ": " ++ cause.message

/-- The innermost cause. -/
def root : EncodeError → EncodeError
  | .inData cause => cause.root
  | .inOperand _ _ cause => cause.root
  | .inStatement _ cause => cause.root
  | .inReference _ _ cause => cause.root
  | e => e

end EncodeError

end Gx
