import Gx.Grammar.Token

/-!
# The grammar of operands

A register operand may set its register on the way, and the register it sets may do so too.
Parsers for such operands are indexed by the nesting they can read; every level takes at least one
byte, so as many levels as there are bytes read everything.
-/

namespace Gx.Grammar

open Parse

def name : Parser Operand :=
  ⟨.word (utf8 "parse.Ident"), spanned .name identifier⟩

def number : Parser Operand :=
  ⟨.word (utf8 "parse.Number"), do return .number (← numeral)⟩

def text : Parser Operand :=
  ⟨.word (utf8 "parse.String"), spanned .text quotedText⟩

def word (w : Bytes) : Parser Bytes :=
  ⟨.literal w, keyword w⟩

/-- An address: a number or a name. -/
def address : Parser Operand :=
  ⟨.word (utf8 "parse.Address"), named (utf8 "address") (choice [number, name])⟩

/-- One byte of an address. -/
def half : Parser Operand :=
  ⟨.word (utf8 "parse.LoHi"), spanned (fun span (half, address) => .half span half address) do
    let half ← choice [(word (utf8 "lo")).map fun _ => Half.lo,
      (word (utf8 "hi")).map fun _ => Half.hi]
    let _ ← token (literal (utf8 "("))
    let address ← token address.run
    let _ ← token (literal (utf8 ")"))
    return (half, address)⟩

/-- A value: a number, one byte of an address, or a name. -/
def value : Parser Operand :=
  ⟨.word (utf8 "parse.Value"), named (utf8 "value") (choice [number, half, name])⟩

def dataItem : Parser Operand :=
  ⟨.word (utf8 "parse.DataItem"), choice [text, value]⟩

/-- The register that a letter names, unless an identifier goes on behind it. -/
def aliasOf : Bytes → Option RegisterName
  | letter :: rest =>
      if rest.head?.any isNameByte then none
      else if letter = ascii 'h' ∨ letter = ascii 'H' then some .high
      else if letter = ascii 'r' ∨ letter = ascii 'R' then some .remainder
      else none
  | [] => none

/-- A register by its letter or its number. -/
def registerName : Parse RegisterName := fun c =>
  match aliasOf c.rest with
  | some register => .ok register (c.advance 1)
  | none => mapError (fun _ => .registerMissing) (do return .numbered (← numeral)) c

/-- A register behind its percent sign. -/
def registerLiteral : Parser Operand :=
  ⟨.word (utf8 "parse.RegLit"), spanned .register do
    let _ ← literal (utf8 "%")
    registerName⟩

/-- A register and an operand with a colon between them, in brackets. -/
def inBrackets (opening closing : Bytes) (register operand : Parse Operand) :
    Parse (Operand × Operand) := do
  let _ ← literal opening
  let target ← token register
  let _ ← token (literal (utf8 ":"))
  let operand ← token operand
  let _ ← token (literal closing)
  return (target, operand)

/-- A register that is set to a value first. -/
def loadOf (register : Parse Operand) : Parser Operand :=
  ⟨.word (utf8 "parse.RegLoad"), spanned (fun span (target, value) => .load span target value)
    (inBrackets (utf8 "(") (utf8 ")") register value.run)⟩

/-- A register that is loaded from an address first. -/
def fetchOf (register : Parse Operand) : Parser Operand :=
  ⟨.word (utf8 "parse.RegFetch"),
    spanned (fun span (target, address) => .fetch span target address)
      (inBrackets (utf8 "[") (utf8 "]") register address.run)⟩

/-- A register operand with less levels of brackets than `levels` is long. -/
def registerTo (levels : Bytes) : Parse Operand :=
  match levels with
  | [] => failure (.expected [.word (utf8 "register")])
  | _ :: levels => fun c =>
      let inner := registerTo levels
      named (utf8 "register") (choice [registerLiteral, loadOf inner, fetchOf inner, name]) c

def register : Parser Operand :=
  ⟨.word (utf8 "parse.Register"), fun c => registerTo c.budget c⟩

def load : Parser Operand := loadOf register.run

def fetch : Parser Operand := fetchOf register.run

/-- The operand of an instruction that declares this kind. -/
def operandOf : Kind → Parser Operand
  | .register => register
  | .address => address
  | _ => value

end Gx.Grammar
