import Gx.Instruction
import Gx.Text.Numeral

/-!
# Symbols

A symbol is a name bound to a number of some kind.
-/

namespace Gx

structure Symbol where
  name : Bytes
  kind : Kind
  value : UInt16
  deriving DecidableEq

namespace Symbol

def describe (s : Symbol) : Bytes :=
  s.kind.name ++ utf8 " " ++ s.name ++ utf8 " = " ++ Text.hexMarked 0 s.value.toNat

end Symbol

/-- The high and the low byte of a word. -/
def wordBytes (w : UInt16) : Bytes :=
  [(w >>> 8).toUInt8, w.toUInt8]

/-- The value of a symbol in as few bytes as hold it. -/
def Symbol.bytes (s : Symbol) : Bytes :=
  if s.value < 0x100 then [s.value.toUInt8] else wordBytes s.value

inductive ScopeError where
  /-- No scope binds the name. -/
  | notFound (name : Bytes) (wanted : List Kind)
  /-- The name is bound with a kind that does not fit. -/
  | kindMismatch (name : Bytes) (bound : Kind) (wanted : List Kind)
  /-- The global scope cannot be left. -/
  | globalPop
  deriving DecidableEq

def kindNames : List Kind → Bytes
  | [] => utf8 "symbol"
  | kinds => Bytes.join (utf8 " or ") (kinds.map Kind.name)

def ScopeError.message : ScopeError → Bytes
  | .notFound name wanted => kindNames wanted ++ utf8 " '" ++ name ++ utf8 "' not found"
  | .kindMismatch name bound wanted =>
      utf8 "'" ++ name ++ utf8 "' is of type " ++ bound.name ++ utf8 ", expected " ++
        kindNames wanted
  | .globalPop => utf8 "pop of the global scope"

end Gx
