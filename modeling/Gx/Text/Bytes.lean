/-!
# Byte strings

Source text, file names, symbol names and messages are byte strings. Positions, lengths and
columns count bytes, and nothing requires a text to be valid UTF-8.
-/

namespace Gx

abbrev Bytes := List UInt8

def utf8 (s : String) : Bytes :=
  s.toList.flatMap String.utf8EncodeChar

abbrev ascii (c : Char) : UInt8 := c.toUInt8

namespace Bytes

/-- The part of `text` in front of the first `stop` byte. -/
def before (stop : UInt8) (text : Bytes) : Bytes :=
  text.takeWhile (· != stop)

theorem before_stop_cons (stop : UInt8) (rest : Bytes) : before stop (stop :: rest) = [] :=
  List.takeWhile_cons_of_neg (by simp)

theorem before_cons_of_ne {stop b : UInt8} (h : b ≠ stop) (rest : Bytes) :
    before stop (b :: rest) = b :: before stop rest :=
  List.takeWhile_cons_of_pos (by simpa using h)

theorem before_append_stop (stop : UInt8) (text rest : Bytes) :
    before stop (text ++ stop :: rest) = before stop text := by
  unfold before
  rw [List.takeWhile_append]
  split
  next hlength =>
    rw [List.takeWhile_cons_of_neg (by simp), List.append_nil]
    exact (List.takeWhile_sublist _).eq_of_length hlength |>.symm
  next => rfl

/-- `text` without the trailing bytes that satisfy `p`. -/
def trimEnd (p : UInt8 → Bool) (text : Bytes) : Bytes :=
  (text.reverse.dropWhile p).reverse

/-- `text` without the leading and trailing bytes that satisfy `p`. -/
def trim (p : UInt8 → Bool) (text : Bytes) : Bytes :=
  trimEnd p (text.dropWhile p)

/-- The parts one after the other with `sep` between neighbours. -/
def join (sep : Bytes) (parts : List Bytes) : Bytes :=
  List.intercalate sep parts

/-- Copies a text while it drops `skip` bytes and exchanges every later occurrence of `old`. -/
def replaceFrom (old new : Bytes) : Nat → Bytes → Bytes
  | _, [] => []
  | skip + 1, _ :: rest => replaceFrom old new skip rest
  | 0, b :: rest =>
      if old.isPrefixOf (b :: rest) then
        new ++ replaceFrom old new (old.length - 1) rest
      else
        b :: replaceFrom old new 0 rest

/-- `text` with each occurrence of the non-empty `old`, from left to right and without overlap,
exchanged for `new`. -/
def replaceAll (old new text : Bytes) : Bytes :=
  replaceFrom old new 0 text

end Bytes

end Gx
