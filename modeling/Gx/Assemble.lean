import Gx.Assembly.Emit
import Gx.Assembly.Listing
import Gx.Assembly.Resolve
import Gx.Directive.Expand
import Gx.Grammar.Statement

/-!
# From source text to image

The whole way: directives are expanded, the lines are read as a program, the program is encoded,
the references are resolved, and the image is checked.
-/

namespace Gx

inductive AssembleError where
  | read (e : FileError)
  | expand (e : ExpandFailure)
  | grammar (e : GrammarError)
  | encode (e : EncodeError)
  | resolve (e : EncodeError)
  | image (e : ImageError)
  deriving DecidableEq

namespace AssembleError

/-- The wording of an error: the stage it belongs to, and what is wrong. -/
def message : AssembleError → Bytes
  | .read e => utf8 "read file: " ++ e.message
  | .expand e => utf8 "expand macros: " ++ e.message
  | .grammar e => utf8 "parse: " ++ e.message
  | .encode e => utf8 "evaluate: " ++ e.message
  | .resolve e => utf8 "backpatch: " ++ e.message
  | .image e => utf8 "image: " ++ e.message

/-- The file that has to be fetched before another attempt. -/
def notFetched? : AssembleError → Option Bytes
  | .read (.notFetched name) => some name
  | .expand ⟨_, .unreadable _ (.notFetched name)⟩ => some name
  | _ => none

end AssembleError

/-- An error, with the state of the assembly if it got that far. -/
structure AssembleFailure where
  error : AssembleError
  state : Option Assembly := none

def AssembleFailure.listing (f : AssembleFailure) : Bytes :=
  match f.state with
  | some s => s.listing
  | none => []

namespace Program

def assemble (p : Program) : Except AssembleFailure Image :=
  match Encode.program .refer p.body {} with
  | .error e s => .error ⟨.encode e, some s⟩
  | .ok _ s =>
      match Encode.resolve s with
      | .error e s => .error ⟨.resolve e, some s⟩
      | .ok _ s =>
          match s.image.check with
          | .error e => .error ⟨.image e, some s⟩
          | .ok _ => .ok s.image

end Program

/-- The image of the source text of a file. -/
def assemble (read : FileReader) (name text : Bytes) : Except AssembleFailure Image :=
  match ({ read } : Expander).expand name text with
  | .error e => .error { error := .expand e }
  | .ok lines =>
      match Program.ofText (Bytes.join [0x0A] lines) with
      | .error e => .error { error := .grammar e }
      | .ok p => p.assemble

/-- The image of a source file. -/
def assembleFile (read : FileReader) (name : Bytes) : Except AssembleFailure Image :=
  match read name with
  | .error e => .error { error := .read e }
  | .ok text => assemble read name text

end Gx
