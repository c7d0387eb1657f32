import Gx.Directive.Basic
import Gx.Instruction
import Gx.Path
import Gx.Text.Lines

/-!
# The standard directives

`.include FILE` stands for the lines of a file. The others stand for instructions that go through
the scratch register: `.mov`, the comparing jumps `.ltj`, `.gtj`, `.eqj` and `.keyj`, and the same
with `js` for jumps to subroutines.
-/

namespace Gx.Directive

/-- The name in an argument, which may stand between quotes. -/
def includeName (arg : Bytes) : Bytes := Bytes.trim (· == 0x22) arg

/-- Where an included file is looked for first: beside the file that includes it. -/
def includePath (line : Line) (arg : Bytes) : Bytes :=
  let name := includeName arg
  if Path.isAbsolute name ∨ line.file = [] then name
  else Path.resolve (Path.directory line.file) name

/-- Reads a file under the first name, or under the second one if there is none. Gives the name
that was read last, too. -/
def readEither (read : FileReader) (first second : Bytes) : Bytes × Except FileError Bytes :=
  match read first with
  | .error (.notFound e) =>
      if first = second then (first, .error (.notFound e)) else (second, read second)
  | result => (first, result)

def includeFile (read : FileReader) (line : Line) (arg : Bytes) :
    Except ExpandError Expansion :=
  match readEither read (includePath line arg) (includeName arg) with
  | (name, .ok text) => .ok (.ofFile name (Bytes.lines text))
  | (name, .error (.notFound _)) => .error (.fileNotFound name)
  | (name, .error e) => .error (.unreadable name e)

/-- Stands for the lines of a file. -/
def include_ : Directive where
  arity := 1
  expand read line args := includeFile read line (args.headD [])

/-- The scratch register as an operand. -/
def scratch : Bytes := utf8 "%" ++ Text.decimal remainderRegister

def instructionLine (parts : List Bytes) : Bytes := Bytes.join (utf8 " ") parts

def argument (args : List Bytes) (index : Nat) : Bytes := args.getD index []

/-- Copies a register. -/
def mov : Directive :=
  ofArguments 2 fun args => [
    instructionLine [utf8 "set", scratch, utf8 "0"],
    instructionLine [utf8 "add", argument args 0, scratch, argument args 1]]

/-- Compares two registers and jumps if the comparison holds. -/
def compareJump (comparison jump : Bytes) : Directive :=
  ofArguments 3 fun args => [
    instructionLine [comparison, argument args 0, argument args 1, scratch],
    instructionLine [jump, scratch, argument args 2]]

/-- Jumps if a key is pressed. -/
def keyJump (jump : Bytes) : Directive :=
  ofArguments 2 fun args => [
    instructionLine [utf8 "set", scratch, argument args 0],
    instructionLine [utf8 "key", scratch, scratch],
    instructionLine [jump, scratch, argument args 1]]

def standard : List (Bytes × Directive) := [
  (utf8 "include", include_),
  (utf8 "keyj", keyJump (utf8 "cj")),
  (utf8 "keyjs", keyJump (utf8 "cjs")),
  (utf8 "mov", mov),
  (utf8 "ltj", compareJump (utf8 "lt") (utf8 "cj")),
  (utf8 "ltjs", compareJump (utf8 "lt") (utf8 "cjs")),
  (utf8 "gtj", compareJump (utf8 "gt") (utf8 "cj")),
  (utf8 "gtjs", compareJump (utf8 "gt") (utf8 "cjs")),
  (utf8 "eqj", compareJump (utf8 "eq") (utf8 "cj")),
  (utf8 "eqjs", compareJump (utf8 "eq") (utf8 "cjs"))]

end Gx.Directive
