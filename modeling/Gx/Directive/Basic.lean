import Gx.Files
import Gx.Text.Blank
import Gx.Text.Quoted

/-!
# Directives

A line whose first field starts with a dot is a directive: it stands for other lines. The fields
behind the name are its arguments; a semicolon starts a comment.
-/

namespace Gx

/-- A source line with the file it belongs to, and how many directives it has come through. -/
structure Line where
  text : Bytes
  file : Bytes
  depth : Nat
  deriving DecidableEq

namespace Line

/-- The name and the arguments of a directive, if the text is one. -/
def directive? (text : Bytes) : Option (Bytes × List Bytes) :=
  match Bytes.fields (Bytes.before (ascii ';') text) with
  | (0x2E :: name) :: args => some (name, args)
  | _ => none

theorem directive?_eq_some_iff {text name : Bytes} {args : List Bytes} :
    directive? text = some (name, args) ↔
      Bytes.fields (Bytes.before (ascii ';') text) = (0x2E :: name) :: args := by
  unfold directive?
  split
  next => simp_all
  next hnone =>
    constructor
    · intro h
      contradiction
    · intro h
      exact absurd h (hnone name args)

/-- A comment does not count. -/
theorem directive?_append_comment (text comment : Bytes) :
    directive? (text ++ ascii ';' :: comment) = directive? text := by
  unfold directive?
  rw [Bytes.before_append_stop]

/-- The line as errors show it. -/
def place (l : Line) : Bytes :=
  if l.file = [] then Bytes.trimBlank l.text
  else l.file ++ utf8 ": " ++ Bytes.trimBlank l.text

end Line

inductive ExpandError where
  | unknown (name : Bytes)
  | argumentCount (name : Bytes) (wanted : Int) (given : Nat)
  | tooDeep (name : Bytes) (depth : Nat)
  | fileNotFound (path : Bytes)
  | unreadable (path : Bytes) (cause : FileError)
  deriving DecidableEq

def ExpandError.message : ExpandError → Bytes
  | .unknown name => utf8 "unknown macro ." ++ name
  | .argumentCount name wanted given =>
      utf8 "." ++ name ++ utf8 " requires " ++ Text.decimalInt wanted ++ utf8 " arguments but " ++
        Text.decimal given ++ utf8 " were given"
  | .tooDeep name depth =>
      utf8 "." ++ name ++ utf8 " nested " ++ Text.decimal depth ++
        utf8 " levels deep, include cycle?"
  | .fileNotFound path => utf8 "include file " ++ Text.quoted path ++ utf8 " not found"
  | .unreadable path cause => utf8 "include " ++ path ++ utf8 ": " ++ cause.message

/-- A line that a directive stands for, and the file it belongs to. -/
structure SourceLine where
  file : Bytes
  text : Bytes
  deriving DecidableEq

/-- The lines a directive stands for. -/
structure Expansion where
  sources : List SourceLine
  deriving DecidableEq

namespace Expansion

/-- Lines that belong to one file. -/
def ofFile (file : Bytes) (texts : List Bytes) : Expansion := ⟨texts.map (⟨file, ·⟩)⟩

/-- The lines of an expansion, one level below the directive. -/
def lines (e : Expansion) (depth : Nat) : List Line :=
  e.sources.map fun source => ⟨source.text, source.file, depth + 1⟩

end Expansion

/-- A kind of directive: how many arguments it takes and what it stands for. -/
structure Directive where
  arity : Int
  expand : FileReader → Line → List Bytes → Except ExpandError Expansion

namespace Directive

/-- A directive that stands for lines made from its arguments, in the file of the directive. -/
def ofArguments (arity : Int) (texts : List Bytes → List Bytes) : Directive where
  arity := arity
  expand _ line args := .ok (.ofFile line.file (texts args))

/-- Puts arguments into a line, from argument number `index` on. Each is put in after the ones
before it, so an argument can hold the mark of a later one. -/
def fillFrom : Nat → List Bytes → Bytes → Bytes
  | _, [], line => line
  | index, arg :: args, line =>
      fillFrom (index + 1) args
        (Bytes.replaceAll (ascii '$' :: Text.decimal index) arg line)

/-- A directive that stands for fixed lines in which `$1`, `$2` and so on mark the arguments. -/
def template (arity : Int) (lines : List Bytes) : Directive :=
  ofArguments arity fun args => lines.map (fillFrom 1 args)

end Directive

end Gx
