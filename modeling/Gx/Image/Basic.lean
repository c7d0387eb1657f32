import Gx.Image.Bitmap
import Gx.Instruction
import Gx.Text.Numeral

/-!
# Images

An image is the row of bytes under construction. It only grows at its end, up to a limit. A byte
whose value is not known yet is reserved: it holds the placeholder and its position is pending
until the byte is patched, once.
-/

namespace Gx

inductive ImageError where
  /-- The image would have `size` bytes, more than its limit. -/
  | tooLarge (size : Nat) (limit : Int)
  /-- A patch aims at a byte that is not pending. -/
  | noPlaceholder (pos : Int)
  /-- `count` bytes are pending, the first of them at `first`. -/
  | incomplete (count first : Nat)
  deriving DecidableEq

def ImageError.message : ImageError → Bytes
  | .tooLarge size limit =>
      utf8 "image size " ++ Text.hexMarked 0 size ++ utf8 " (" ++ Text.decimal size ++
        utf8 ") exceeds " ++ Text.hexMarkedInt 0 limit ++ utf8 " by " ++
        Text.decimalWord (size - limit) ++ utf8 " bytes"
  | .noPlaceholder pos => utf8 "no placeholder at " ++ Text.address pos
  | .incomplete count first =>
      Text.decimal count ++ utf8 " bytes from " ++ Text.address first ++
        utf8 ": unresolved placeholder bytes"

structure Image where
  bytes : Array UInt8 := #[]
  limit : Int := maxImage
  pending : Bitmap := {}
  deriving DecidableEq

namespace Image

/-- The value of a reserved byte. -/
def placeholder : UInt8 := 0xFF

def size (img : Image) : Nat := img.bytes.size

/-- Appends bytes, all of them or none. -/
@[inline]
def push (img : Image) (data : Bytes) : Except ImageError Image :=
  if (img.size + data.length : Nat) > img.limit then
    .error (.tooLarge (img.size + data.length) img.limit)
  else
    .ok { img with bytes := img.bytes ++ data }

/-- Appends `n` placeholders, one after the other, and marks each of them as pending. The result is
`start`, or the error of the first that does not fit; those in front of it stay. -/
def reserveFrom (start : Nat) : Nat → Image → Image × Except ImageError Nat
  | 0, img => (img, .ok start)
  | n + 1, img =>
      let pos := img.size
      match img.push [placeholder] with
      | .error e => (img, .error e)
      | .ok next => reserveFrom start n { next with pending := next.pending.insert pos }

/-- Reserves `n` bytes and gives the position of the first. If they do not all fit, those that do
are reserved nevertheless. -/
def reserve (img : Image) (n : Nat) : Image × Except ImageError Nat :=
  reserveFrom img.size n img

/-- Overwrites bytes from `pos` on, one after the other. -/
def overwrite (bytes : Array UInt8) : Nat → Bytes → Array UInt8
  | _, [] => bytes
  | pos, b :: rest => overwrite (bytes.setIfInBounds pos b) (pos + 1) rest

/-- Whether a byte is reserved and waits for its value. In front of the image there is none. -/
def isPending (img : Image) : Int → Bool
  | .ofNat pos => img.pending.contains pos
  | .negSucc _ => false

/-- Gives pending bytes from `pos` on their values, all of them or none. -/
@[inline]
def patch (img : Image) (pos : Int) (data : Bytes) : Except ImageError Image :=
  match (List.range data.length).find? fun (i : Nat) => !img.isPending (pos + i) with
  | some i => .error (.noPlaceholder (pos + i))
  | none =>
      .ok { img with
        bytes := overwrite img.bytes pos.toNat data
        pending := (List.range' pos.toNat data.length).foldl Bitmap.erase img.pending }

/-- Whether the image is complete and fits. -/
def check (img : Image) : Except ImageError Unit :=
  if (img.size : Int) > img.limit then .error (.tooLarge img.size img.limit)
  else
    match img.pending.min? with
    | some first => .error (.incomplete img.pending.size first)
    | none => .ok ()

end Image

end Gx
