import Gx.Assembly.Basic

/-!
# Listings

A listing shows the state of an assembly: the bytes of the image in rows of sixteen, with `__` for
those that are pending, the symbols of every scope, and the references that are left.
-/

namespace Gx

namespace Image

def cell (img : Image) (i : Nat) : Bytes :=
  if img.pending.contains i then utf8 " __"
  else utf8 " " ++ Text.hex 2 (img.bytes.getD i 0).toNat

/-- The cells of the positions from `i` on, up to `stop` or to the end of the image. -/
def cellsFrom (img : Image) (i stop : Nat) : Bytes :=
  if i < stop ∧ i < img.size then img.cell i ++ img.cellsFrom (i + 1) stop else []
termination_by stop - i

/-- The rows of the positions from `start` on. -/
def rowsFrom (img : Image) (start : Nat) : Bytes :=
  if start < img.size then
    Text.hex 4 start ++ utf8 ":" ++ img.cellsFrom start (start + 16) ++ utf8 "\n" ++
      img.rowsFrom (start + 16)
  else []
termination_by img.size - start

def listing (img : Image) : Bytes :=
  utf8 "image: " ++ Text.decimal img.size ++ utf8 " bytes\n" ++ img.rowsFrom 0

end Image

def Symbol.listing (s : Symbol) : Bytes :=
  utf8 "\t" ++ Text.padRight 8 s.kind.name ++ utf8 " " ++ Text.padRight 16 s.name ++ utf8 " " ++
    Text.address s.value.toNat ++ utf8 "\n"

/-- The symbols of the scope at some depth. -/
def Scope.listing (scope : Scope) (depth : Nat) : Bytes :=
  utf8 "scope " ++ Text.decimal depth ++ utf8 ": " ++ Text.decimal scope.symbols.length ++
    utf8 " symbols\n" ++ scope.sorted.flatMap Symbol.listing

def Reference.listing (r : Reference) : Bytes :=
  utf8 "\t" ++ Text.hexInt 4 r.pos ++ utf8 " " ++ Text.padRight 4 r.part.name ++ utf8 " " ++
    Text.padRight 16 r.name ++ utf8 " at " ++ r.place ++ utf8 "\n"

namespace Assembly

/-- The references that are left, if any. -/
def referenceListing (s : Assembly) : Bytes :=
  if s.references.isEmpty then []
  else
    utf8 "unresolved: " ++ Text.decimal s.references.size ++ utf8 "\n" ++
      s.references.toList.flatMap Reference.listing

def listing (s : Assembly) : Bytes :=
  s.image.listing ++ s.shownScopes.zipIdx.flatMap (fun (scope, depth) => scope.listing depth) ++
    s.referenceListing

end Assembly

end Gx
