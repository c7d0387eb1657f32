import Gx.Directive.Basic
import Mathlib.Tactic

/-!
# Lines that are directives

A line is a directive if its first field starts with a dot.  White space in front of the field does
not count, and neither does a comment.  On lines of ASCII the laws here leave nothing open: they say
for each first byte of a line whether it is a directive, what it is called, and what its arguments
are.
-/

namespace Gx

/-- The white space of ASCII: the space, and the bytes from tab to carriage return. -/
def isBlankByte (b : UInt8) : Bool := b == 0x20 || 0x09 ≤ b && b ≤ 0x0D

/-- A byte of ASCII that can be part of a field. -/
def IsFieldByte (b : UInt8) : Prop := b < 0x80 ∧ isBlankByte b = false

theorem isBlankByte_ascii {b : UInt8} (h : isBlankByte b = true) : b < 0x80 := by
  simp only [isBlankByte, Bool.or_eq_true, beq_iff_eq, Bool.and_eq_true, decide_eq_true_eq] at h
  rcases h with rfl | ⟨_, hmost⟩
  · decide
  · exact UInt8.lt_of_le_of_lt hmost (by decide)

theorem isBlank_ascii {b : UInt8} (h : b < 0x80) :
    Piece.isBlank (.char (Char.ofNat b.toNat)) = isBlankByte b := by
  have hlt : b.toNat < 0x80 := h
  rw [Bool.eq_iff_iff]
  simp only [Piece.isBlank, isBlank, Piece.toNat_ofNat_ascii h, isBlankByte, Bool.or_eq_true,
    Bool.and_eq_true, beq_iff_eq, decide_eq_true_eq, UInt8.le_iff_toNat_le, ← UInt8.toNat_inj,
    UInt8.reduceToNat]
  omega

/-! ## Fields -/

namespace Bytes

/-- The pieces that the bytes of ASCII are. -/
def characters (word : Bytes) : List Piece := word.map fun b => .char (Char.ofNat b.toNat)

theorem ofPieces_characters {word : Bytes} (h : ∀ b ∈ word, b < 0x80) :
    ofPieces (characters word) = word := by
  induction word with
  | nil => rfl
  | cons b word ih =>
      rw [List.forall_mem_cons] at h
      change Piece.bytes (.char (Char.ofNat b.toNat)) ++ ofPieces (characters word) = _
      rw [ih h.2, Piece.bytes, Piece.utf8EncodeChar_ascii h.1]
      rfl

theorem not_isBlank_of_mem_characters {word : Bytes} (h : ∀ b ∈ word, IsFieldByte b) :
    ∀ piece ∈ characters word, piece.isBlank = false := by
  intro piece hpiece
  obtain ⟨b, hb, rfl⟩ := List.mem_map.mp hpiece
  rw [isBlank_ascii (h b hb).1]
  exact (h b hb).2

theorem fields_nil : fields [] = [] := rfl

theorem fields_blank_cons {b : UInt8} (hb : isBlankByte b = true) (rest : Bytes) :
    fields (b :: rest) = fields rest := by
  have hascii := isBlankByte_ascii hb
  unfold fields
  rw [pieces_cons, Piece.first_ascii hascii, List.drop_zero, List.splitOnP_cons_eq_if_modifyHead,
    if_pos ((isBlank_ascii hascii).trans hb)]
  rfl

section

variable {word : Bytes} (hne : word ≠ []) (hword : ∀ b ∈ word, IsFieldByte b)

include hne hword

theorem fields_word : fields word = [word] := by
  have hascii : ∀ b ∈ word, b < 0x80 := fun b hb => (hword b hb).1
  unfold fields
  rw [pieces_ascii hascii, ← characters,
    List.splitOnP_eq_singleton (not_isBlank_of_mem_characters hword),
    List.filter_cons_of_pos (by simpa [characters] using hne), List.filter_nil, List.map_singleton,
    ofPieces_characters hascii]

/-- White space ends a field. -/
theorem fields_word_blank {b : UInt8} (hb : isBlankByte b = true) (rest : Bytes) :
    fields (word ++ b :: rest) = word :: fields rest := by
  have hascii : ∀ b ∈ word, b < 0x80 := fun b hb => (hword b hb).1
  have hpieces : pieces (word ++ b :: rest) =
      characters word ++ .char (Char.ofNat b.toNat) :: pieces rest := by
    rw [pieces_append_ascii hascii, pieces_cons, Piece.first_ascii (isBlankByte_ascii hb),
      List.drop_zero, characters]
  have hblank := (isBlank_ascii (isBlankByte_ascii hb)).trans hb
  unfold fields
  rw [hpieces, List.splitOnP_append_cons _ _ hblank,
    List.splitOnP_eq_singleton (not_isBlank_of_mem_characters hword), List.singleton_append,
    List.filter_cons_of_pos (by simpa [characters] using hne), List.map_cons,
    ofPieces_characters hascii]

end

/-- Any other byte of ASCII starts a field. -/
theorem exists_fields_cons {b : UInt8} (hb : IsFieldByte b) (rest : Bytes) :
    ∃ word words, fields (b :: rest) = (b :: word) :: words := by
  have hblank : ¬Piece.isBlank (.char (Char.ofNat b.toNat)) = true := by
    rw [isBlank_ascii hb.1, hb.2]
    exact Bool.false_ne_true
  unfold fields
  rw [pieces_cons, Piece.first_ascii hb.1, List.drop_zero, List.splitOnP_cons_eq_if_modifyHead,
    if_neg hblank]
  cases hruns : (pieces rest).splitOnP Piece.isBlank with
  | nil => exact absurd hruns (List.splitOnP_ne_nil _ _)
  | cons run runs =>
      rw [List.modifyHead_cons, List.filter_cons_of_pos rfl, List.map_cons]
      refine ⟨ofPieces run, _, congrArg (· :: _) ?_⟩
      change Piece.bytes (.char (Char.ofNat b.toNat)) ++ ofPieces run = _
      rw [Piece.bytes, Piece.utf8EncodeChar_ascii hb.1]
      rfl

end Bytes

/-! ## Directives -/

namespace Line

theorem directive?_nil : directive? [] = none := rfl

theorem ne_comment_of_blank {b : UInt8} (h : isBlankByte b = true) : b ≠ ascii ';' := by
  rintro rfl
  contradiction

theorem directive?_blank_cons {b : UInt8} (hb : isBlankByte b = true) (text : Bytes) :
    directive? (b :: text) = directive? text := by
  unfold directive?
  rw [Bytes.before_cons_of_ne (ne_comment_of_blank hb), Bytes.fields_blank_cons hb]

/-- A line whose first field starts with anything but a dot is no directive. -/
theorem directive?_of_ne_dot {b : UInt8} (hb : IsFieldByte b) (hdot : b ≠ 0x2E) (text : Bytes) :
    directive? (b :: text) = none := by
  rw [Option.eq_none_iff_forall_not_mem]
  rintro ⟨name, args⟩ hdirective
  have hfields := directive?_eq_some_iff.mp hdirective
  by_cases hcomment : b = ascii ';'
  · rw [hcomment, Bytes.before_stop_cons, Bytes.fields_nil] at hfields
    contradiction
  · rw [Bytes.before_cons_of_ne hcomment] at hfields
    obtain ⟨word, words, hword⟩ := Bytes.exists_fields_cons hb _
    rw [hword] at hfields
    injection hfields with hhead
    injection hhead with hfirst
    exact hdot hfirst

section

variable {name : Bytes} (hname : ∀ b ∈ name, IsFieldByte b ∧ b ≠ ascii ';')

include hname

theorem before_marked (rest : Bytes) :
    Bytes.before (ascii ';') (0x2E :: name ++ rest) =
      0x2E :: name ++ Bytes.before (ascii ';') rest := by
  apply List.takeWhile_append_of_pos
  rw [List.forall_mem_cons]
  exact ⟨by decide, fun b hb => bne_iff_ne.mpr (hname b hb).2⟩

theorem isFieldByte_marked : ∀ b ∈ 0x2E :: name, IsFieldByte b :=
  List.forall_mem_cons.mpr ⟨⟨by decide, by decide⟩, fun b hb => (hname b hb).1⟩

/-- A dot and a name make a directive. -/
theorem directive?_marked : directive? (0x2E :: name) = some (name, []) := by
  have hbefore := before_marked hname []
  rw [List.append_nil, show Bytes.before (ascii ';') [] = [] from rfl, List.append_nil] at hbefore
  rw [directive?_eq_some_iff, hbefore]
  exact Bytes.fields_word (List.cons_ne_nil _ _) (isFieldByte_marked hname)

/-- The fields behind the name, up to the comment, are the arguments. -/
theorem directive?_marked_blank {b : UInt8} (hb : isBlankByte b = true) (rest : Bytes) :
    directive? (0x2E :: name ++ b :: rest) =
      some (name, Bytes.fields (Bytes.before (ascii ';') rest)) := by
  rw [directive?_eq_some_iff, before_marked hname,
    Bytes.before_cons_of_ne (ne_comment_of_blank hb)]
  exact Bytes.fields_word_blank (List.cons_ne_nil _ _) (isFieldByte_marked hname) hb _

end

example :
    directive? (utf8 " .include \t a.gx ; twice") = some (utf8 "include", [utf8 "a.gx"]) := by
  decide

end Line

end Gx
