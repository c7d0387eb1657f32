import Gx.Assembly.Value

/-!
# The state of an assembly

An assembly in progress has an image, the open scopes, and the references to addresses that were
not known when their bytes were due. It also remembers the latest label, by which it names
positions, and the scopes at its first failure. Every operation gives a new state, also when it
fails.
-/

namespace Gx

/-- The piece of an address that a reference needs. -/
inductive Part where
  | word
  | lo
  | hi
  deriving DecidableEq

namespace Part

def name : Part → Bytes
  | .word => utf8 "word"
  | .lo => utf8 "lo"
  | .hi => utf8 "hi"

/-- The bytes of an address that make up the part. -/
def bytes : Part → UInt16 → Bytes
  | .word, a => wordBytes a
  | .lo, a => [a.toUInt8]
  | .hi, a => [(a >>> 8).toUInt8]

def width : Part → Nat
  | .word => 2
  | _ => 1

end Part

/-- The part that holds one byte. -/
def Half.part : Half → Part
  | .lo => .lo
  | .hi => .hi

/-- Pending bytes that wait for the address of a name. -/
structure Reference where
  pos : Int
  name : Bytes
  /-- The position in words, as it was named when the reference was made. -/
  place : Bytes
  part : Part
  deriving DecidableEq

/-- The latest label and its position. -/
structure Marker where
  name : Bytes
  pos : Nat
  deriving DecidableEq

/-- The scopes that were open when an error first left a block. The lowest `stillOpen` of them
have not been left since and count as they are now. The others, outermost first, are kept as they
were when they were left. -/
structure FailedScopes where
  stillOpen : Nat
  left : List Scope
  deriving DecidableEq

structure Assembly where
  image : Image := {}
  scopes : Scopes := {}
  references : Array Reference := #[]
  marker : Option Marker := none
  failed : Option FailedScopes := none
  deriving DecidableEq

/-- An operation on an assembly. A failure keeps what was done before it. -/
abbrev Encode := EStateM EncodeError Assembly

namespace Assembly

/-- A position in words: its distance from the latest label, if there is one. -/
def place (s : Assembly) (pos : Int) : Bytes :=
  match s.marker with
  | none => Text.address pos
  | some m =>
      m.name ++ utf8 "+" ++ Text.decimalWord (pos - m.pos) ++ utf8 " (" ++ Text.address pos ++
        utf8 ")"

/-- Remembers the open scopes, unless an earlier failure has been remembered. -/
def rememberScopes (s : Assembly) : Assembly :=
  match s.failed with
  | some _ => s
  | none => { s with failed := some ⟨s.scopes.depth, []⟩ }

/-- The scopes a listing shows: those at the first failure inside a block, else the open ones. -/
def shownScopes (s : Assembly) : List Scope :=
  match s.failed with
  | none => s.scopes.levels
  | some f => s.scopes.levels.take f.stillOpen ++ f.left

end Assembly

/-- What becomes of remembered scopes when the innermost open scope is left. -/
def FailedScopes.leave (open_ : Scopes) (f : FailedScopes) : FailedScopes :=
  match open_.blocks with
  | innermost :: _ =>
      if f.stillOpen = open_.depth then ⟨f.stillOpen - 1, innermost :: f.left⟩ else f
  | [] => f

namespace Encode

/-- Changes the image by an operation that may fail. -/
@[inline]
def onImage (f : Image → Except ImageError Image) : Encode Unit
  | ⟨image, scopes, references, marker, failed⟩ =>
      match f image with
      | .ok image => .ok () ⟨image, scopes, references, marker, failed⟩
      | .error e => .error (.image e) ⟨image, scopes, references, marker, failed⟩

def push (data : Bytes) : Encode Unit :=
  onImage (·.push data)

def reserve (n : Nat) : Encode Nat
  | ⟨image, scopes, references, marker, failed⟩ =>
      match image.reserve n with
      | (image, .ok pos) => .ok pos ⟨image, scopes, references, marker, failed⟩
      | (image, .error e) => .error (.image e) ⟨image, scopes, references, marker, failed⟩

/-- Changes the scopes by an operation that may fail. -/
def onScopes (f : Scopes → Except ScopeError Scopes) : Encode Unit := fun s =>
  match f s.scopes with
  | .ok scopes => .ok () { s with scopes }
  | .error e => .error (.scope e) s

def openScope : Encode Unit :=
  onScopes fun scopes => .ok scopes.push

def leaveScope : Encode Unit := fun s =>
  match s.scopes.pop with
  | .ok scopes => .ok () { s with scopes, failed := s.failed.map (·.leave s.scopes) }
  | .error e => .error (.scope e) s

def lookup (name : Bytes) (wanted : List Kind) : Encode (Except ScopeError Symbol) := fun s =>
  .ok (s.scopes.lookup name wanted) s

def value (x : Operand) (kind : Kind) : Encode UInt16 := fun s =>
  match x.value s.scopes kind with
  | .ok v => .ok v s
  | .error e => .error e s

def mapError {α : Type} (f : Assembly → EncodeError → EncodeError) (act : Encode α) :
    Encode α := fun s =>
  match act s with
  | .ok a s => .ok a s
  | .error e s => .error (f s e) s

end Encode

end Gx
