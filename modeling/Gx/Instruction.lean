import Gx.Text.Utf8

/-!
# The gx instruction set

An instruction is encoded as its opcode followed by one operand per declared kind. Registers and
values take one byte, addresses two.
-/

namespace Gx

/-- The kind of an operand, and of the symbol that can stand for it. Kinds beyond the three that
have a meaning are carried along by their code. -/
inductive Kind where
  | value
  | address
  | register
  | other (code : Int)
  deriving DecidableEq

namespace Kind

/-- The kind as messages call it. -/
def name : Kind → Bytes
  | .value => utf8 "value"
  | .address => utf8 "address"
  | .register => utf8 "register"
  | .other _ => utf8 "kind(?)"

def width : Kind → Nat
  | .address => 2
  | _ => 1

end Kind

/-- An instruction: its mnemonic, its opcode and the kinds of its operands. -/
structure Instruction where
  name : Bytes
  opcode : UInt8
  operands : List Kind
  deriving DecidableEq

namespace Instruction

/-- The number of bytes that operands of these kinds take together. -/
def widths : List Kind → Nat
  | [] => 0
  | kind :: kinds => kind.width + widths kinds

/-- The encoded length. -/
def size (i : Instruction) : Nat := 1 + widths i.operands

/-- Sets a register to a value. -/
def set : Instruction := ⟨utf8 "set", 1, [.register, .value]⟩

/-- Loads a register from an address. -/
def ld : Instruction := ⟨utf8 "ld", 2, [.register, .address]⟩

/-- Three registers: the operands of arithmetic and of comparisons. -/
def threeRegisters : List Kind := [.register, .register, .register]

/-- Every instruction that can be assembled, in the order of the opcodes. -/
def table : List Instruction := [
  ⟨utf8 "nop", 0, []⟩,
  set,
  ld,
  ⟨utf8 "ldi", 3, [.register, .register]⟩,
  ⟨utf8 "st", 4, [.register, .address]⟩,
  ⟨utf8 "sti", 5, [.register, .register]⟩,
  ⟨utf8 "add", 6, threeRegisters⟩,
  ⟨utf8 "sub", 7, threeRegisters⟩,
  ⟨utf8 "mul", 8, threeRegisters⟩,
  ⟨utf8 "div", 9, threeRegisters⟩,
  ⟨utf8 "and", 10, threeRegisters⟩,
  ⟨utf8 "or", 11, threeRegisters⟩,
  ⟨utf8 "xor", 12, threeRegisters⟩,
  ⟨utf8 "eq", 13, threeRegisters⟩,
  ⟨utf8 "lt", 14, threeRegisters⟩,
  ⟨utf8 "gt", 15, threeRegisters⟩,
  ⟨utf8 "jmp", 16, [.address]⟩,
  ⟨utf8 "cj", 17, [.register, .address]⟩,
  ⟨utf8 "js", 18, [.address]⟩,
  ⟨utf8 "cjs", 19, [.register, .address]⟩,
  ⟨utf8 "ret", 20, []⟩,
  ⟨utf8 "dw", 21, [.register, .register, .register, .register]⟩,
  ⟨utf8 "at", 22, [.register, .register]⟩,
  ⟨utf8 "key", 23, [.register, .register]⟩,
  ⟨utf8 "end", 25, []⟩]

/-- The mnemonic that is set aside and cannot be assembled. -/
def reservedName : Bytes := utf8 "snd"

/-- The opcode of the reserved mnemonic. -/
def reservedOpcode : UInt8 := 24

def opcodeName (opcode : UInt8) : Bytes :=
  match table.find? (·.opcode == opcode) with
  | some i => i.name
  | none => if opcode = reservedOpcode then reservedName else utf8 "op(?)"

/-- The lower case of a character, as far as it is an ASCII letter. Outside ASCII only the Kelvin
sign and the capital I with a dot have one. -/
def lowerChar (c : Char) : Char :=
  if c.toNat = 0x212A then 'k' else if c.toNat = 0x0130 then 'i' else c.toLower

def lowerName (name : Bytes) : Bytes :=
  (Bytes.pieces name).flatMap fun
    | .char c => String.utf8EncodeChar (lowerChar c)
    | .stray b => [b]

/-- The instruction of a mnemonic in any case. -/
def find? (name : Bytes) : Option Instruction :=
  table.find? (·.name == lowerName name)

end Instruction

def maxRegister : Nat := 31

/-- The register that holds the high byte of the latest operation. -/
def highRegister : Nat := 30

/-- The register that holds the remainder of a division. Directives use it as scratch. -/
def remainderRegister : Nat := 31

def maxImage : Nat := 0xFF00

end Gx
