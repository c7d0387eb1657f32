import Gx.Grammar.Token
import Gx.Proofs.Grammar.Rendering

/-!
# Reading tokens

Lemmas about gaps and about rows of tokens, and rules for the combinators that parsers are made of.
A parser is sound if the bytes it takes are written forms of its value (`Parse.Sound`), and it
finds a value if it succeeds and stops at the right place (`Parse.Finds`).
-/

namespace Gx

/-! ## Bytes -/

/-- What holds of the 256 bytes holds of all bytes. -/
theorem forall_byte {P : UInt8 → Prop} (h : ∀ n : Fin 256, P (UInt8.ofNat n)) (b : UInt8) :
    P b := by
  have hb := h ⟨b.toNat, b.toNat_lt⟩
  rwa [UInt8.ofNat_toNat] at hb

theorem span_append {p : UInt8 → Bool} {body rest : Bytes} (hbody : ∀ b ∈ body, p b = true)
    (hrest : rest.head?.any p = false) :
    (body ++ rest).takeWhile p = body ∧ (body ++ rest).dropWhile p = rest := by
  rw [List.takeWhile_append_of_pos hbody, List.dropWhile_append_of_pos hbody]
  cases rest with
  | nil => simp
  | cons b rest =>
      simp only [List.head?_cons, Option.any_some] at hrest
      simp [hrest]

theorem head?_dropWhile (p : UInt8 → Bool) (t : Bytes) :
    (t.dropWhile p).head?.any p = false := by
  have hhead := List.head?_dropWhile_not p t
  cases hrest : t.dropWhile p with
  | nil => rfl
  | cons b rest =>
      rw [hrest] at hhead
      simpa using hhead

theorem isNameByte_of_isNameStart {b : UInt8} (h : isNameStart b = true) :
    isNameByte b = true := by
  simp [isNameByte, h]

theorem isNameByte_of_isDecimalDigit {b : UInt8} (h : isDecimalDigit b = true) :
    isNameByte b = true := by
  simp [isNameByte, h]

/-- How the classes of bytes are related to each other.  This is found by evaluation, once for all
classes. -/
theorem byte_classes : ∀ b : UInt8,
    (isDigitOf 2 b = true ∨ isDigitOf 16 b = true ∨ isDigitOf 10 b = true →
      isNameByte b = true) ∧
    (isNameByte b = true → b < 0x80 ∧ isSpace b = false ∧ b ≠ ascii ';') ∧
    (isNameStart b = true → isDecimalDigit b = false) ∧
    (b ∈ marks → isSpace b = false ∧ b ≠ ascii ';' ∧ isNameByte b = false) ∧
    Blank.gap.spaces.bytes.contains b = isSpace b :=
  forall_byte (by decide +kernel)

theorem isNameByte_of_isDigitOf {radix : Nat} {b : UInt8} (h : isDigitOf radix b = true) :
    isNameByte b = true := by
  apply (byte_classes b).1
  by_cases htwo : radix = 2
  · exact Or.inl (htwo ▸ h)
  · by_cases hsixteen : radix = 16
    · exact Or.inr (Or.inl (hsixteen ▸ h))
    · refine Or.inr (Or.inr ?_)
      simpa [isDigitOf, htwo, hsixteen] using h

theorem isNameByte_ascii {b : UInt8} (h : isNameByte b = true) : b < 0x80 :=
  ((byte_classes b).2.1 h).1

theorem not_startsGap_of_isNameByte {b : UInt8} (h : isNameByte b = true) :
    isSpace b = false ∧ b ≠ ascii ';' :=
  ((byte_classes b).2.1 h).2

theorem not_isDecimalDigit_of_isNameStart {b : UInt8} (h : isNameStart b = true) :
    isDecimalDigit b = false :=
  (byte_classes b).2.2.1 h

theorem not_startsGap_of_mem_marks {b : UInt8} :
    b ∈ marks → isSpace b = false ∧ b ≠ ascii ';' ∧ isNameByte b = false :=
  (byte_classes b).2.2.2.1

/-! The classes by which a text is read are the alphabets in which it is written. -/

theorem contains_eq {alphabet : Bytes} {p : UInt8 → Bool} (hall : ∀ b ∈ alphabet, p b = true)
    (hmem : ∀ b, p b = true → b ∈ alphabet) : alphabet.contains = p := by
  funext b
  rw [Bool.eq_iff_iff, List.contains_iff_mem]
  exact ⟨hall b, hmem b⟩

theorem contains_nameLetters : nameLetters.contains = isNameStart :=
  contains_eq (by decide +kernel) (forall_byte (by decide +kernel))

theorem contains_digitBytes {radix : Int} (h : radix ∈ [2, 10, 16]) :
    (digitBytes radix).contains = isDigitOf radix.toNat := by
  have hall : ∀ radix ∈ [(2 : Int), 10, 16], ∀ b ∈ digitBytes radix,
      isDigitOf radix.toNat b = true := by decide +kernel
  have hmem : ∀ b, ∀ radix ∈ [(2 : Int), 10, 16], isDigitOf radix.toNat b = true →
      b ∈ digitBytes radix := forall_byte (by decide +kernel)
  exact contains_eq (hall radix h) fun b => hmem b radix h

theorem contains_nameBytes : nameBytes.contains = isNameByte := by
  have hdigits : decimalDigits.contains = isDecimalDigit := @contains_digitBytes 10 (by decide)
  funext b
  rw [nameBytes, List.contains_append, contains_nameLetters, hdigits, isNameByte]

theorem isName_eq (n : Bytes) : isName n = (n.head?.any isNameStart && n.all isNameByte) := by
  rw [isName, contains_nameLetters, contains_nameBytes]

theorem startsName_eq (t : Bytes) : startsName t = t.head?.any isNameByte := by
  rw [startsName, contains_nameBytes]

/-! ## Gaps -/

/-- No gap starts here. -/
def isSolid (t : Bytes) : Bool :=
  t.head?.all fun b => !isSpace b && b != ascii ';'

theorem Gap.eq_of_isSolid {t rest : Bytes} (h : Gap t rest) (ht : isSolid t = true) :
    t = rest := by
  cases h with
  | nil => rfl
  | space hspace _ => simp [isSolid, hspace] at ht
  | comment _ _ _ => simp [isSolid] at ht

theorem Gap.length_le {t rest : Bytes} (h : Gap t rest) : rest.length ≤ t.length := by
  induction h with
  | nil => exact le_rfl
  | space _ _ ih => simp only [List.length_cons]; omega
  | comment _ _ _ ih => simp only [List.length_append, List.length_cons]; omega

theorem Gap.trans {t u v : Bytes} (htu : Gap t u) (huv : Gap u v) : Gap t v := by
  induction htu with
  | nil => exact huv
  | space hspace _ ih => exact Gap.space hspace (ih huv)
  | comment hbody hend _ ih => exact Gap.comment hbody hend (ih huv)

theorem gap_dropWhile (t : Bytes) : Gap t (t.dropWhile isSpace) := by
  induction t with
  | nil => exact Gap.nil []
  | cons b t ih =>
      cases hspace : isSpace b with
      | true =>
          rw [List.dropWhile_cons_of_pos hspace]
          exact Gap.space hspace ih
      | false =>
          rw [List.dropWhile_cons_of_neg (by simp [hspace])]
          exact Gap.nil _

theorem gap_comment (t : Bytes) : Gap (ascii ';' :: t) (t.dropWhile (· != 0x0A)) := by
  have hsplit := List.takeWhile_append_dropWhile (p := (· != 0x0A)) (l := t)
  have hgap : Gap (ascii ';' :: t.takeWhile (· != 0x0A) ++ t.dropWhile (· != 0x0A))
      (t.dropWhile (· != 0x0A)) := by
    refine Gap.comment ?_ ?_ (Gap.nil _)
    · intro hmem
      have hline := List.all_eq_true.mp List.all_takeWhile _ hmem
      simp at hline
    · have hhead := head?_dropWhile (· != 0x0A) t
      cases hrest : t.dropWhile (· != 0x0A) with
      | nil => exact Or.inl rfl
      | cons b rest =>
          rw [hrest] at hhead
          exact Or.inr (by simpa using hhead)
  rwa [List.cons_append, hsplit] at hgap

/-- A comment ends at the first line feed. -/
theorem dropWhile_comment {body t : Bytes} (hbody : 0x0A ∉ body)
    (hend : t = [] ∨ t.head? = some 0x0A) : (body ++ t).dropWhile (· != 0x0A) = t := by
  apply (span_append _ _).2
  · intro b hb
    simp only [bne_iff_ne, ne_eq]
    exact fun heq => hbody (heq ▸ hb)
  · rcases hend with rfl | hline
    · rfl
    · simp [hline]

/-- What stands behind a gap is determined by the text. -/
theorem Gap.unique {t u v : Bytes} (hu : Gap t u) (hv : Gap t v) (hsolidu : isSolid u = true)
    (hsolidv : isSolid v = true) : u = v := by
  induction hu with
  | nil t => exact hv.eq_of_isSolid hsolidu
  | @space b t rest hspace _ ih =>
      generalize htext : b :: t = text at hv
      cases hv with
      | nil => simp [← htext, isSolid, hspace] at hsolidv
      | space _ hv' =>
          obtain ⟨rfl, rfl⟩ := List.cons.inj htext
          exact ih hv' hsolidu
      | comment _ _ _ =>
          obtain ⟨rfl, _⟩ := List.cons.inj htext
          exact absurd hspace (by decide)
  | @comment body t rest hbody hend _ ih =>
      generalize htext : ascii ';' :: body ++ t = text at hv
      cases hv with
      | nil => simp [← htext, isSolid] at hsolidv
      | space hspace _ =>
          obtain ⟨rfl, _⟩ := List.cons.inj htext
          exact absurd hspace (by decide)
      | @comment body' t' _ hbody' hend' hv' =>
          have hsame : body ++ t = body' ++ t' := (List.cons.inj htext).2
          have hdrop := dropWhile_comment hbody hend
          rw [hsame, dropWhile_comment hbody' hend'] at hdrop
          exact ih (hdrop ▸ hv') hsolidu

/-! ## Rows of tokens -/

theorem reads_append {ks ls : List Token} {t rest : Bytes} :
    Reads (ks ++ ls) t rest ↔ ∃ mid, Reads ks t mid ∧ Reads ls mid rest := by
  induction ks generalizing t with
  | nil => simp [Reads]
  | cons k ks ih =>
      simp only [List.cons_append, Reads, ih]
      constructor
      · rintro ⟨u, v, hgap, hk, mid, hks, hls⟩
        exact ⟨mid, ⟨u, v, hgap, hk, hks⟩, hls⟩
      · rintro ⟨mid, ⟨u, v, hgap, hk, hks⟩, hls⟩
        exact ⟨u, v, hgap, hk, mid, hks, hls⟩

theorem reads_singleton {k : Token} {t rest : Bytes} :
    Reads [k] t rest ↔ ∃ u, Gap t u ∧ k.Heads u rest := by
  simp only [Reads]
  constructor
  · rintro ⟨u, v, hgap, hk, rfl⟩
    exact ⟨u, hgap, hk⟩
  · rintro ⟨u, hgap, hk⟩
    exact ⟨u, rest, hgap, hk, rfl⟩

theorem Token.Heads.reads {k : Token} {t rest : Bytes} (h : k.Heads t rest) : Reads [k] t rest :=
  reads_singleton.mpr ⟨t, Gap.nil t, h⟩

theorem reads_cons {k : Token} {ks : List Token} {t rest : Bytes} :
    Reads (k :: ks) t rest ↔ ∃ mid, Reads [k] t mid ∧ Reads ks mid rest := by
  rw [← List.singleton_append, reads_append]

theorem Reads.append {ks ls : List Token} {t mid rest : Bytes} (hks : Reads ks t mid)
    (hls : Reads ls mid rest) : Reads (ks ++ ls) t rest :=
  reads_append.mpr ⟨mid, hks, hls⟩

theorem Reads.cons {k : Token} {ks : List Token} {t mid rest : Bytes} (hk : Reads [k] t mid)
    (hks : Reads ks mid rest) : Reads (k :: ks) t rest :=
  hk.append hks

theorem mem_radixMarkers {radix : Int} {marker : Bytes} (h : marker ∈ radixMarkers radix) :
    (radix = 10 ∧ marker = []) ∨
      (radix = 16 ∧ ∃ c, (c = ascii 'x' ∨ c = ascii 'X') ∧ marker = [ascii '0', c]) ∨
      (radix = 2 ∧ ∃ c, (c = ascii 'b' ∨ c = ascii 'B') ∧ marker = [ascii '0', c]) := by
  have hhex : utf8 "0x" = [ascii '0', ascii 'x'] ∧ utf8 "0X" = [ascii '0', ascii 'X'] ∧
      utf8 "0b" = [ascii '0', ascii 'b'] ∧ utf8 "0B" = [ascii '0', ascii 'B'] := by decide
  unfold radixMarkers at h
  rw [hhex.1, hhex.2.1, hhex.2.2.1, hhex.2.2.2] at h
  split at h
  next hradix => exact Or.inl ⟨hradix, List.mem_singleton.mp h⟩
  next =>
    split at h
    next hradix =>
      refine Or.inr (Or.inl ⟨hradix, ?_⟩)
      rcases List.mem_pair.mp h with rfl | rfl
      · exact ⟨_, Or.inl rfl, rfl⟩
      · exact ⟨_, Or.inr rfl, rfl⟩
    next =>
      split at h
      next hradix =>
        refine Or.inr (Or.inr ⟨hradix, ?_⟩)
        rcases List.mem_pair.mp h with rfl | rfl
        · exact ⟨_, Or.inl rfl, rfl⟩
        · exact ⟨_, Or.inr rfl, rfl⟩
      next => simp at h

theorem writtenNumber_iff {radix : Int} {digits b : Bytes} :
    WrittenNumber radix digits b ↔
      digits ≠ [] ∧ digits.all (isDigitOf radix.toNat) = true ∧
        ∃ marker ∈ radixMarkers radix, b = marker ++ digits := by
  unfold WrittenNumber
  refine and_congr_right fun _ => and_congr_left fun ⟨marker, hmarker, _⟩ => ?_
  have hradix : radix ∈ [2, 10, 16] := by
    rcases mem_radixMarkers hmarker with ⟨rfl, _⟩ | ⟨rfl, _⟩ | ⟨rfl, _⟩ <;> decide
  simp only [← contains_digitBytes hradix, List.all_eq_true, List.contains_iff_mem]

/-- A number starts with a decimal digit, whatever its base. -/
theorem WrittenNumber.head {radix : Int} {digits b : Bytes} (h : WrittenNumber radix digits b) :
    ∃ first more, b = first :: more ∧ isDecimalDigit first = true := by
  obtain ⟨hne, hall, marker, hmarker, rfl⟩ := writtenNumber_iff.mp h
  rcases mem_radixMarkers hmarker with ⟨rfl, rfl⟩ | ⟨_, c, _, rfl⟩ | ⟨_, c, _, rfl⟩
  · obtain ⟨first, more, rfl⟩ := List.exists_cons_of_ne_nil hne
    refine ⟨first, more, rfl, ?_⟩
    simp only [List.all_cons, Bool.and_eq_true] at hall
    simpa [isDigitOf] using hall.1
  · exact ⟨_, _, rfl, by decide⟩
  · exact ⟨_, _, rfl, by decide⟩

theorem isName_head {n : Bytes} (h : isName n = true) :
    ∃ first more, n = first :: more ∧ isNameStart first = true := by
  rw [isName_eq] at h
  cases n with
  | nil => simp at h
  | cons first more =>
      simp only [List.head?_cons, Option.any_some, Bool.and_eq_true] at h
      exact ⟨first, more, rfl, h.1⟩

/-- The first byte of a token starts no gap. -/
theorem Token.Spells.head {k : Token} {b : Bytes} (h : k.Spells b) :
    ∃ first more, b = first :: more ∧ isSpace first = false ∧ first ≠ ascii ';' := by
  have hname : ∀ {n : Bytes}, isName n = true →
      ∃ first more, n = first :: more ∧ isSpace first = false ∧ first ≠ ascii ';' := by
    intro n hn
    obtain ⟨first, more, rfl, hfirst⟩ := isName_head hn
    exact ⟨first, more, rfl, not_startsGap_of_isNameByte (isNameByte_of_isNameStart hfirst)⟩
  cases k with
  | word w => exact hname h.1
  | name n => exact h.2 ▸ hname h.1
  | number radix digits =>
      obtain ⟨first, more, rfl, hfirst⟩ := WrittenNumber.head h
      exact ⟨first, more, rfl, not_startsGap_of_isNameByte (isNameByte_of_isDecimalDigit hfirst)⟩
  | text value =>
      obtain ⟨body, _, rfl⟩ := h
      exact ⟨_, _, rfl, by decide⟩
  | letter l =>
      obtain ⟨c, _, rfl⟩ := h
      exact ⟨_, _, rfl, by decide⟩
  | register radix digits =>
      obtain ⟨n, _, rfl⟩ := h
      exact ⟨_, _, rfl, by decide⟩
  | label n =>
      obtain ⟨hn, spaces, _, rfl⟩ := h
      obtain ⟨first, more, rfl, hfirst⟩ := hname hn
      exact ⟨first, _, rfl, hfirst⟩
  | mark m =>
      obtain ⟨hm, rfl⟩ := h
      have hfirst := not_startsGap_of_mem_marks hm
      exact ⟨m, [], rfl, hfirst.1, hfirst.2.1⟩

theorem Token.Heads.isSolid {k : Token} {t rest : Bytes} (h : k.Heads t rest) :
    isSolid t = true := by
  obtain ⟨b, hspells, rfl, _⟩ := h
  obtain ⟨first, more, rfl, hspace, hcomment⟩ := hspells.head
  simp [Gx.isSolid, hspace, hcomment]

theorem Token.Heads.length_lt {k : Token} {t rest : Bytes} (h : k.Heads t rest) :
    rest.length < t.length := by
  obtain ⟨b, hspells, rfl, _⟩ := h
  obtain ⟨first, more, rfl, _⟩ := hspells.head
  simp only [List.length_append, List.length_cons]
  omega

theorem Reads.length_le {ks : List Token} {t rest : Bytes} (h : Reads ks t rest) :
    rest.length ≤ t.length := by
  induction ks generalizing t with
  | nil => rw [show t = rest from h]
  | cons k ks ih =>
      obtain ⟨u, v, hgap, hk, hks⟩ := h
      have hu := hgap.length_le
      have hv := hk.length_lt
      have hrest := ih hks
      omega

theorem Reads.length_lt {k : Token} {ks : List Token} {t rest : Bytes}
    (h : Reads (k :: ks) t rest) : rest.length < t.length := by
  obtain ⟨u, v, hgap, hk, hks⟩ := h
  have hu := hgap.length_le
  have hv := hk.length_lt
  have hrest := hks.length_le
  omega

/-- Where no gap starts, the first token stands right at the front. -/
theorem Reads.heads {k : Token} {ks : List Token} {t rest : Bytes}
    (h : Reads (k :: ks) t rest) (ht : isSolid t = true) :
    ∃ v, k.Heads t v ∧ Reads ks v rest := by
  obtain ⟨u, v, hgap, hk, hks⟩ := h
  obtain rfl := hgap.eq_of_isSolid ht
  exact ⟨v, hk, hks⟩

/-! ## Cursors -/

namespace Cursor

/-- The cursor further on, where `rest` is left of the text. -/
def leaving (c : Cursor) (rest : Bytes) : Cursor := ⟨c.pos + (c.rest.length - rest.length), rest⟩

@[simp]
theorem rest_leaving (c : Cursor) (rest : Bytes) : (c.leaving rest).rest = rest := rfl

@[simp]
theorem leaving_self (c : Cursor) : c.leaving c.rest = c := by
  simp [leaving]

theorem leaving_leaving (c : Cursor) {mid rest : Bytes} (hmid : mid.length ≤ c.rest.length)
    (hrest : rest.length ≤ mid.length) : (c.leaving mid).leaving rest = c.leaving rest := by
  unfold leaving
  congr 1
  simp only
  omega

theorem pos_leaving_ne {c : Cursor} {rest : Bytes} (h : rest.length < c.rest.length) :
    (c.leaving rest).pos ≠ c.pos := by
  simp only [leaving]
  omega

theorem advance_eq {c : Cursor} {b rest : Bytes} (h : c.rest = b ++ rest) :
    c.advance b.length = c.leaving rest := by
  unfold advance leaving
  rw [h]
  simp

theorem skipWhile_eq (c : Cursor) (p : UInt8 → Bool) :
    c.skipWhile p = c.leaving (c.rest.dropWhile p) :=
  advance_eq List.takeWhile_append_dropWhile.symm

end Cursor

theorem Spaces.skip_gap (c : Cursor) :
    Blank.gap.spaces.skip c = c.leaving (c.rest.dropWhile isSpace) := by
  unfold Spaces.skip
  rw [Cursor.skipWhile_eq]
  congr 2
  funext b
  exact (byte_classes b).2.2.2.2

theorem skipComments_eq (rounds : Bytes) {c : Cursor} (hlength : c.rest.length < rounds.length)
    (hspace : c.rest.head?.any isSpace = false) :
    ∃ rest, Blank.gap.skipComments rounds c = c.leaving rest ∧ Gap c.rest rest ∧
      isSolid rest = true := by
  -- every comment takes a byte at least, so the rounds outlast the text
  induction rounds generalizing c with
  | nil => simp at hlength
  | cons _ rounds ih =>
      rw [Blank.skipComments]
      by_cases hcomment : c.rest.head?.isSome ∧ c.rest.head? = Blank.gap.comment
      · rw [if_pos hcomment]
        obtain ⟨t, ht⟩ : ∃ t, c.rest = ascii ';' :: t := by
          cases hrest : c.rest with
          | nil => simp [hrest] at hcomment
          | cons b t =>
              rw [hrest] at hcomment
              exact ⟨t, by rw [Option.some.inj hcomment.2]⟩
        have hgap := (gap_comment t).trans (gap_dropWhile _)
        have hnext : Blank.gap.spaces.skip (c.skipWhile (· != 0x0A)) =
            c.leaving ((t.dropWhile (· != 0x0A)).dropWhile isSpace) := by
          rw [Cursor.skipWhile_eq, ht, List.dropWhile_cons_of_pos (by decide), Spaces.skip_gap]
          apply Cursor.leaving_leaving
          · rw [ht]
            exact (gap_comment t).length_le
          · exact (gap_dropWhile _).length_le
        have hshort : ((t.dropWhile (· != 0x0A)).dropWhile isSpace).length < rounds.length := by
          have hline := (List.dropWhile_suffix (l := t) (· != 0x0A)).length_le
          have hblank := (gap_dropWhile (t.dropWhile (· != 0x0A))).length_le
          rw [ht] at hlength
          simp only [List.length_cons] at hlength
          omega
        rw [hnext]
        obtain ⟨rest, hskip, hrest, hsolid⟩ := ih (c := c.leaving _) hshort (head?_dropWhile _ _)
        refine ⟨rest, ?_, ht ▸ hgap.trans hrest, hsolid⟩
        rw [hskip]
        apply Cursor.leaving_leaving _ _ hrest.length_le
        rw [ht]
        exact hgap.length_le
      · rw [if_neg hcomment]
        refine ⟨c.rest, c.leaving_self.symm, Gap.nil _, ?_⟩
        cases hrest : c.rest with
        | nil => rfl
        | cons b t =>
            rw [hrest] at hcomment hspace
            simp only [List.head?_cons, Option.isSome_some, true_and, Option.any_some]
              at hcomment hspace
            have hsemi : b ≠ ascii ';' := fun heq => hcomment (by rw [heq]; rfl)
            simp [isSolid, hspace, hsemi]

/-- Skipping the blank leads to where no gap starts. -/
theorem skip_eq (c : Cursor) :
    ∃ rest, Blank.gap.skip c = c.leaving rest ∧ Gap c.rest rest ∧ isSolid rest = true := by
  have hgap := gap_dropWhile c.rest
  unfold Blank.skip
  rw [Spaces.skip_gap]
  obtain ⟨rest, hskip, hrest, hsolid⟩ := skipComments_eq c.budget
    (c := c.leaving (c.rest.dropWhile isSpace))
    (by simpa [Cursor.budget] using Nat.lt_succ_of_le hgap.length_le) (head?_dropWhile _ _)
  refine ⟨rest, ?_, hgap.trans hrest, hsolid⟩
  rw [hskip, Cursor.leaving_leaving _ hgap.length_le hrest.length_le]

theorem skip_of_gap {c : Cursor} {u : Bytes} (hgap : Gap c.rest u) (hu : isSolid u = true) :
    Blank.gap.skip c = c.leaving u := by
  obtain ⟨rest, hskip, hrest, hsolid⟩ := skip_eq c
  rw [hskip, hrest.unique hgap hsolid hu]

end Gx
