import Gx.Instruction

/-!
# Programs

A program is a list of statements. Statements and operands remember the bytes of the text they
were read from. A tree that was not read from a text may have missing nodes.
-/

namespace Gx

/-- The bytes from `start` up to, and not including, `stop`. -/
structure Span where
  start : Nat := 0
  stop : Nat := 0
  deriving DecidableEq

structure Numeral where
  span : Span := {}
  digits : Bytes
  radix : Int
  deriving DecidableEq

/-- How a register is written. -/
inductive RegisterName where
  /-- The register of the high byte, `%h`. -/
  | high
  /-- The register of the remainder, `%r`. -/
  | remainder
  /-- A register given by its number. -/
  | numbered (n : Numeral)
  deriving DecidableEq

/-- One of the two bytes of an address. -/
inductive Half where
  | lo
  | hi
  deriving DecidableEq

/-- Something that has a value. -/
inductive Operand where
  | number (n : Numeral)
  | name (span : Span) (name : Bytes)
  /-- One byte of an address: `lo(x)` or `hi(x)`. -/
  | half (span : Span) (half : Half) (address : Operand)
  | text (span : Span) (value : Bytes)
  | register (span : Span) (register : RegisterName)
  /-- A register that is set to a value right before its use: `(reg:value)`. -/
  | load (span : Span) (target value : Operand)
  /-- A register that is loaded from memory right before its use: `[reg:address]`. -/
  | fetch (span : Span) (target address : Operand)
  | missing
  deriving DecidableEq

/-- Something that is evaluated for its effect. -/
inductive Statement where
  | label (span : Span) (name : Bytes)
  /-- Statements with a scope of their own. -/
  | block (span : Span) (body : List Statement)
  | instruction (span : Span) (instruction : Instruction) (operands : List Operand)
  /-- One-byte values and zero-terminated texts. -/
  | data (span : Span) (items : List Operand)
  /-- Two-byte addresses. -/
  | words (span : Span) (items : List Operand)
  | defineValue (span : Span) (name : Bytes) (value : Operand)
  | defineAddress (span : Span) (name : Bytes) (address : Operand)
  | defineRegister (span : Span) (name : Bytes) (register : Operand)
  | missing

/-- A whole source text. -/
structure Program where
  span : Span := {}
  body : List Statement

end Gx
