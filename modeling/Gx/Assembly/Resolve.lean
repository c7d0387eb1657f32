import Gx.Assembly.Basic
import Gx.Assembly.Queue

/-!
# Resolving references

At the end of a pass the references are taken in the order of their names, and of their positions
for one name. Each name is looked up once, in the global scope. A reference whose bytes have been
patched is done; the others stay, and the one with the lowest position is reported.
-/

namespace Gx

/-- The order of references: by name, then by position. -/
def Reference.before (a b : Reference) : Bool :=
  if a.name = b.name then decide (a.pos < b.pos) else decide (a.name < b.name)

/-- A name with the address it has, or the reason why it has none. -/
structure KnownName where
  name : Bytes
  address : Except ScopeError UInt16

/-- Before any look-up, the empty name is taken to have address zero. -/
def KnownName.initial : KnownName := ⟨[], .ok 0⟩

/-- Looks a name up in the global scope unless it is the one looked up last. -/
def KnownName.next (scopes : Scopes) (known : KnownName) (name : Bytes) : KnownName :=
  if name = known.name then known
  else ⟨name, (scopes.lookupGlobal name [.address]).map (·.value)⟩

/-- The state of a walk over the references. -/
structure Resolution where
  image : Image
  known : KnownName := .initial
  /-- The references that could not be resolved, last first. -/
  left : List Reference := []
  /-- The reference with the lowest position among them, and what is wrong with it. -/
  reported : Option (Reference × EncodeError) := none

namespace Resolution

def keep (r : Resolution) (ref : Reference) (e : EncodeError) : Resolution :=
  { r with
    left := ref :: r.left
    reported :=
      match r.reported with
      | some (lowest, cause) =>
          if ref.pos < lowest.pos then some (ref, e) else some (lowest, cause)
      | none => some (ref, e) }

def step (scopes : Scopes) (r : Resolution) (ref : Reference) : Resolution :=
  let known := r.known.next scopes ref.name
  match known.address with
  | .error e => { r with known }.keep ref (.scope e)
  | .ok address =>
      match r.image.patch ref.pos (ref.part.bytes address) with
      | .ok image => { r with known, image }
      | .error e => { r with known }.keep ref (.image e)

/-- The error that stands for all references that are left. -/
def error? (r : Resolution) : Option EncodeError :=
  match r.reported with
  | none => none
  | some (ref, .scope (.notFound _ _)) => some (.unresolved ref.name ref.place)
  | some (ref, e) => some (.inReference ref.name ref.place e)

end Resolution

/-- Resolves the references that are taken from the assembly, in the order in which they come. -/
def Encode.resolveInOrder (taken : List Reference) : Encode Unit := fun s =>
  let r := taken.foldl (Resolution.step s.scopes) { image := s.image }
  let s := { s with image := r.image, references := r.left.reverse.toArray }
  match r.error? with
  | none => .ok () s
  | some e => .error e s

/-- Resolves all references, in the order in which a queue gives them back. -/
def Encode.resolve : Encode Unit := fun s =>
  resolveInOrder (Queue.order Reference.before s.references.toList) s

end Gx
