import Gx.Symbol.Basic
import Gx.Image.Bitmap

/-!
# Traces of values

A compact tagged form in which values are written to a trace. A tag byte carries a major class and
a number; numbers from 24 on follow the tag in one, two, four or eight bytes, high byte first.
-/

namespace Gx.Wire

/-- The last `count` bytes of a number, high byte first. -/
def bigEndian (count n : Nat) : Bytes :=
  (List.range count).reverse.map fun k => UInt8.ofNat (n >>> (8 * k))

/-- A tag with its number in the shortest form that holds it. -/
def tag (major : UInt8) (n : Nat) : Bytes :=
  if n < 24 then [major ||| UInt8.ofNat n]
  else if n < 0x100 then (major ||| 24) :: bigEndian 1 n
  else if n < 0x10000 then (major ||| 25) :: bigEndian 2 n
  else if n < 0x100000000 then (major ||| 26) :: bigEndian 4 n
  else (major ||| 27) :: bigEndian 8 n

/-- An integer. A negative one is written as one more than its magnitude. -/
def int : Int → Bytes
  | .ofNat n => tag 0x00 n
  | .negSucc n => tag 0x20 (n + 2)

def text (t : Bytes) : Bytes := tag 0x60 t.length ++ t

/-- Named fields. -/
def fields (entries : List (Bytes × Bytes)) : Bytes :=
  tag 0xA0 entries.length ++ entries.flatMap fun (name, value) => text name ++ value

/-- Items up to an end mark. -/
def items (encoded : List Bytes) : Bytes :=
  0x9F :: encoded.flatten ++ [0xFF]

/-- The mark of an absent value. -/
def absent : Bytes := [0xF6]

def symbol (s : Symbol) : Bytes :=
  fields [(utf8 "name", text s.name), (utf8 "kind", text s.kind.name),
    (utf8 "value", int s.value.toNat)]

def bitmap (b : Bitmap) : Bytes :=
  items (b.toList.map fun i : Nat => int i)

/-- The trace of a reference at a position, for a part of an address, made at a place. -/
def reference (pos : Int) (name part place : Bytes) : Bytes :=
  fields [(utf8 "pos", int pos), (utf8 "name", text name), (utf8 "part", text part),
    (utf8 "at", text place)]

end Gx.Wire
