import Gx.Text.Bytes

/-!
# Reading bytes as UTF-8

A byte string is cut into pieces: characters where its bytes are well-formed UTF-8, and stray
bytes where they are not. A byte that cannot start or continue a character is a piece of its own,
so every byte string has exactly one such reading and no byte is lost.
-/

namespace Gx

/-- A character, or a byte that is not part of one. -/
inductive Piece where
  | char (c : Char)
  | stray (b : UInt8)
  deriving DecidableEq

namespace Piece

/-- The bytes a piece was read from. -/
def bytes : Piece → Bytes
  | .char c => String.utf8EncodeChar c
  | .stray b => [b]

/-- The code point of a piece; a stray byte counts as the replacement character. -/
def codePoint : Piece → Nat
  | .char c => c.toNat
  | .stray _ => 0xFFFD

/-- How many bytes follow a lead byte, if it is one. -/
def tailCount (lead : UInt8) : Option Nat :=
  if lead < 0x80 then some 0
  else if lead < 0xC2 then none
  else if lead < 0xE0 then some 1
  else if lead < 0xF0 then some 2
  else if lead < 0xF5 then some 3
  else none

/-- The least and the greatest byte that may follow a lead byte. The narrow ranges keep out
overlong forms, surrogates and code points above U+10FFFF. -/
def secondRange (lead : UInt8) : UInt8 × UInt8 :=
  if lead = 0xE0 then (0xA0, 0xBF)
  else if lead = 0xED then (0x80, 0x9F)
  else if lead = 0xF0 then (0x90, 0xBF)
  else if lead = 0xF4 then (0x80, 0x8F)
  else (0x80, 0xBF)

/-- Whether the bytes may follow a lead byte. -/
def tailsFit (lead : UInt8) : Bytes → Bool
  | [] => true
  | second :: more =>
      let (low, high) := secondRange lead
      low ≤ second && second ≤ high && more.all fun b => 0x80 ≤ b && b ≤ 0xBF

/-- The code point that a lead byte and its tails spell. -/
def spelled (lead : UInt8) (tails : Bytes) : Nat :=
  let bits := match tails.length with
    | 0 => lead.toNat
    | 1 => lead.toNat % 32
    | 2 => lead.toNat % 16
    | _ => lead.toNat % 8
  tails.foldl (fun n b => n * 64 + b.toNat % 64) bits

/-- The first piece of `lead :: rest`, and how many bytes of `rest` belong to it. -/
def first (lead : UInt8) (rest : Bytes) : Piece × Nat :=
  match tailCount lead with
  | none => (.stray lead, 0)
  | some n =>
      let tails := rest.take n
      if tails.length = n ∧ tailsFit lead tails then
        (.char (Char.ofNat (spelled lead tails)), n)
      else
        (.stray lead, 0)

end Piece

namespace Bytes

/-- The pieces of a text whose first `skip` bytes have been read, after those in `read`, which
are kept last first. -/
def piecesFrom : Nat → Bytes → List Piece → List Piece
  | _, [], read => read.reverse
  | skip + 1, _ :: rest, read => piecesFrom skip rest read
  | 0, lead :: rest, read =>
      let (piece, n) := Piece.first lead rest
      piecesFrom n rest (piece :: read)

/-- The characters and stray bytes of a text, in order. -/
def pieces (text : Bytes) : List Piece :=
  piecesFrom 0 text []

def ofPieces (pieces : List Piece) : Bytes :=
  pieces.flatMap Piece.bytes

theorem piecesFrom_eq (skip : Nat) (t : Bytes) (read : List Piece) :
    piecesFrom skip t read = read.reverse ++ pieces (t.drop skip) := by
  unfold pieces
  induction t generalizing skip read with
  | nil => cases skip <;> simp [piecesFrom]
  | cons lead rest ih =>
      cases skip with
      | succ skip => simpa [piecesFrom] using ih skip read
      | zero =>
          simp only [piecesFrom, List.drop_zero]
          rw [ih, ih _ [_]]
          simp

theorem pieces_cons (lead : UInt8) (rest : Bytes) :
    pieces (lead :: rest) =
      (Piece.first lead rest).1 :: pieces (rest.drop (Piece.first lead rest).2) := by
  change piecesFrom (Piece.first lead rest).2 rest [(Piece.first lead rest).1] = _
  rw [piecesFrom_eq]
  rfl

end Bytes

theorem Piece.toNat_ofNat_ascii {b : UInt8} (h : b < 0x80) :
    (Char.ofNat b.toNat).toNat = b.toNat := by
  have hlt : b.toNat < 0x80 := h
  rw [Char.ofNat, dif_pos (Or.inl (by omega))]
  rfl

theorem Piece.utf8EncodeChar_ascii {b : UInt8} (h : b < 0x80) :
    String.utf8EncodeChar (Char.ofNat b.toNat) = [b] := by
  have hlt : b.toNat < 0x80 := h
  have hval : (Char.ofNat b.toNat).val.toNat = b.toNat := toNat_ofNat_ascii h
  rw [String.utf8EncodeChar, hval, if_pos (by omega), UInt8.ofNat_toNat]

theorem Piece.first_ascii {lead : UInt8} (h : lead < 0x80) (rest : Bytes) :
    Piece.first lead rest = (.char (Char.ofNat lead.toNat), 0) := by
  simp [first, tailCount, h, tailsFit, spelled]

/-- The bytes of ASCII are pieces of their own. -/
theorem Bytes.pieces_append_ascii {word : Bytes} (h : ∀ b ∈ word, b < 0x80) (rest : Bytes) :
    pieces (word ++ rest) = word.map (fun b => .char (Char.ofNat b.toNat)) ++ pieces rest := by
  induction word with
  | nil => rfl
  | cons lead word ih =>
      rw [List.cons_append, pieces_cons, Piece.first_ascii (h lead List.mem_cons_self)]
      simp only [List.drop_zero, List.map_cons, List.cons_append]
      rw [ih fun b hb => h b (List.mem_cons_of_mem _ hb)]

theorem pieces_ascii {t : Bytes} (h : ∀ b ∈ t, b < 0x80) :
    Bytes.pieces t = t.map fun b => .char (Char.ofNat b.toNat) := by
  have happend := Bytes.pieces_append_ascii h []
  rwa [List.append_nil, show Bytes.pieces [] = [] from rfl, List.append_nil] at happend

end Gx
