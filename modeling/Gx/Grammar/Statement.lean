import Gx.Grammar.Operand

/-!
# The grammar of statements

A program is a sequence of statements up to the end of the text. Blocks hold statements in turn,
and are read like nested register operands: by parsers that are indexed by the nesting.
-/

namespace Gx.Grammar

open Parse

/-- A label. Without its colon it is no label at all. -/
def label : Parser Statement :=
  ⟨.word (utf8 "parse.Label"), atomic (spanned .label do
    let name ← identifier
    let _ ← between (fun c => .ok () (Spaces.inLine.skip c)) (literal (utf8 ":")) (pure ())
    return name)⟩

/-- The operands of an instruction from operand `index` on. -/
def operandsFrom (instruction : Bytes) : Nat → List Kind → Parse (List Operand)
  | _, [] => return []
  | index, kind :: kinds => do
      let operand ← mapError (.inOperand instruction index) (token (operandOf kind).run)
      let operands ← operandsFrom instruction (index + 1) kinds
      return operand :: operands

/-- Why a name is not a mnemonic. -/
def mnemonicError (name : Bytes) : SyntaxError :=
  if Bytes.equalFold name Instruction.reservedName then .reservedInstruction name
  else .unknownInstruction name

def instruction : Parser Statement :=
  ⟨.word (utf8 "parse.Instr"),
    spanned (fun span (instruction, operands) => .instruction span instruction operands) do
      let name ← identifier
      match Instruction.find? name with
      | none => failure (mnemonicError name)
      | some instruction =>
          return (instruction, ← operandsFrom instruction.name 1 instruction.operands)⟩

/-- A keyword and one or more items with commas between them. -/
def list (word : Bytes) (item : Parse Operand) : Parse (List Operand) :=
  mapError (.inStatement word) do
    let _ ← keyword word
    let first ← token item
    let rest ← many do
      let _ ← token (literal (utf8 ","))
      token item
    return first :: rest

/-- Bytes and texts. -/
def data : Parser Statement :=
  ⟨.word (utf8 "parse.Data"), spanned .data (list (utf8 "dat") dataItem.run)⟩

/-- Addresses. -/
def words : Parser Statement :=
  ⟨.word (utf8 "parse.DataLong"), spanned .words (list (utf8 "datl") address.run)⟩

/-- A keyword, a name and what the name stands for. -/
def definition (word : Bytes) (operand : Parse Operand) : Parse (Bytes × Operand) :=
  mapError (.inStatement word) do
    let _ ← keyword word
    let name ← token identifier
    let operand ← token operand
    return (name, operand)

def valueDefinition : Parser Statement :=
  ⟨.word (utf8 "parse.ValDecl"), spanned (fun span (name, value) => .defineValue span name value)
    (definition (utf8 "val") value.run)⟩

def addressDefinition : Parser Statement :=
  ⟨.word (utf8 "parse.AddrDecl"),
    spanned (fun span (name, address) => .defineAddress span name address)
      (definition (utf8 "addr") address.run)⟩

def registerDefinition : Parser Statement :=
  ⟨.word (utf8 "parse.RegDecl"),
    spanned (fun span (name, register) => .defineRegister span name register)
      (definition (utf8 "reg") register.run)⟩

/-- Statements in braces. -/
def blockOf (statement : Parse Statement) : Parser Statement :=
  ⟨.word (utf8 "parse.Block"), spanned .block do
    let _ ← literal (utf8 "\x7b")
    let body ← many (token statement)
    let _ ← token (literal (utf8 "\x7d"))
    return body⟩

/-- A parser under a name of the grammar. -/
def under (description : String) (p : Parser Statement) : Parser Statement :=
  ⟨.word (utf8 description), named (utf8 description) p.run⟩

/-- A statement with less levels of blocks than `levels` is long. -/
def statementTo (levels : Bytes) : Parse Statement :=
  match levels with
  | [] => failure .unexpectedInput
  | _ :: levels => fun c =>
      choice [
        under "label" label,
        under "block" (blockOf (statementTo levels)),
        under "dat" data,
        under "datl" words,
        under "val" valueDefinition,
        under "addr" addressDefinition,
        under "reg" registerDefinition,
        under "instruction" instruction] c

def statement : Parser Statement :=
  ⟨.word (utf8 "parse.Stmt"), fun c => statementTo c.budget c⟩

def block : Parser Statement := blockOf statement.run

/-- The end of the text. If there is more, the error is the one of the statement that should
start here. -/
def endOfText : Parse Unit := fun c =>
  if c.rest.isEmpty then .ok () c
  else
    match statement.run c with
    | .fail _ e => .fail c.pos e
    | .ok _ _ => .fail c.pos .unexpectedInput

def program : Parser Program :=
  ⟨.word (utf8 "parse.Program"), spanned .mk do
    let body ← many (token statement.run)
    fun c => .ok () (Blank.gap.skip c)
    endOfText
    return body⟩

end Gx.Grammar

namespace Gx

/-- Reads a text as a program. -/
def Program.ofText (text : Bytes) : Except GrammarError Program :=
  match Grammar.program.run (.ofPos text 0) with
  | .ok program _ => .ok program
  | .fail pos cause => .error ⟨.ofPos text pos, cause⟩

end Gx
