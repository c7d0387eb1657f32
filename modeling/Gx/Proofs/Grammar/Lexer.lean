import Gx.Proofs.Grammar.Case
import Gx.Proofs.Grammar.Combinators

/-!
# Reading single tokens

For each kind of token: what its parser takes is a spelling of the token, and where a spelling
stands, with nothing behind it that would prolong it, the parser takes exactly that.
-/

namespace Gx.Parse

variable {c next : Cursor} {rest : Bytes}

/-! ## Marks -/

theorem of_literal {m : UInt8} {x : Bytes} (h : literal [m] c = .ok x next) :
    c.rest = m :: next.rest := by
  unfold literal at h
  split at h
  next hstarts =>
    obtain ⟨_, rfl⟩ := Reply.ok.inj h
    obtain ⟨t, ht⟩ := List.isPrefixOf_iff_prefix.mp hstarts
    simp [Cursor.advance, ← ht]
  next => contradiction

theorem literal_of_cons {m : UInt8} (hc : c.rest = m :: rest) :
    literal [m] c = .ok [m] (c.leaving rest) := by
  have hstarts : [m].isPrefixOf c.rest = true := by simp [hc]
  unfold literal
  rw [if_pos hstarts, Cursor.advance_eq (b := [m]) hc]

theorem heads_of_literal {m : UInt8} (hm : m ∈ marks) {x : Bytes}
    (h : literal [m] c = .ok x next) : (Token.mark m).Heads c.rest next.rest :=
  ⟨[m], ⟨hm, rfl⟩, of_literal h, by simp [Token.isOpen]⟩

theorem sound_literal {m : UInt8} (hm : m ∈ marks) :
    (literal [m]).Sound (fun _ => True) fun _ => [.mark m] :=
  fun _ _ _ h => ⟨trivial, (heads_of_literal hm h).reads⟩

theorem finds_literal {m : UInt8} (h : (Token.mark m).Heads c.rest rest) :
    (literal [m]).Finds (fun _ => True) c rest := by
  refine ⟨h.length_lt.le, [m], trivial, ?_⟩
  obtain ⟨b, ⟨_, rfl⟩, hc, _⟩ := h
  exact literal_of_cons hc

theorem rejects_literal {m : UInt8} (h : c.rest.head? ≠ some m) : (literal [m]).Rejects c := by
  have hstarts : ¬[m].isPrefixOf c.rest = true := by
    intro hpre
    obtain ⟨t, ht⟩ := List.isPrefixOf_iff_prefix.mp hpre
    exact h (by simp [← ht])
  unfold literal
  exact ⟨_, if_neg hstarts⟩

/-! ## Names -/

theorem isName_all {n : Bytes} (h : isName n = true) : ∀ b ∈ n, isNameByte b = true := by
  simp only [isName_eq, Bool.and_eq_true, List.all_eq_true] at h
  exact h.2

theorem identifier_of_isName {n : Bytes} (hn : isName n = true) (hc : c.rest = n ++ rest)
    (hrest : startsName rest = false) : identifier c = .ok n (c.leaving rest) := by
  have hhead : c.rest.head?.any isNameStart = true := by
    obtain ⟨first, more, rfl, hfirst⟩ := isName_head hn
    simp [hc, hfirst]
  have hspan : c.rest.takeWhile isNameByte = n := by
    rw [hc]
    rw [startsName_eq] at hrest
    exact (span_append (isName_all hn) hrest).1
  unfold identifier
  rw [if_pos hhead]
  simp only [hspan, Cursor.advance_eq hc]

theorem heads_of_identifier {n : Bytes} (h : identifier c = .ok n next) :
    (Token.name n).Heads c.rest next.rest := by
  unfold identifier at h
  split at h
  next hhead =>
    obtain ⟨rfl, rfl⟩ := Reply.ok.inj h
    have hsplit := List.takeWhile_append_dropWhile (p := isNameByte) (l := c.rest)
    refine ⟨_, ⟨?_, rfl⟩, ?_, fun _ => ?_⟩
    · cases hrest : c.rest with
      | nil => simp [hrest] at hhead
      | cons first more =>
          rw [hrest] at hhead
          simp only [List.head?_cons, Option.any_some] at hhead
          have hall := List.all_takeWhile (p := isNameByte) (l := first :: more)
          rw [List.takeWhile_cons_of_pos (isNameByte_of_isNameStart hhead)] at hall ⊢
          simp only [isName_eq, List.head?_cons, Option.any_some, hhead, Bool.true_and, hall]
    · rw [Cursor.advance_eq hsplit.symm]
      exact hsplit.symm
    · rw [Cursor.advance_eq hsplit.symm, startsName_eq]
      exact head?_dropWhile _ _
  next => contradiction

theorem finds_identifier {n : Bytes} (h : (Token.name n).Heads c.rest rest) :
    identifier.Finds (· = n) c rest := by
  have hlength := h.length_lt.le
  obtain ⟨b, ⟨hn, rfl⟩, hc, hrest⟩ := h
  exact ⟨hlength, b, rfl, identifier_of_isName hn hc (hrest rfl)⟩

theorem rejects_identifier (h : c.rest.head?.any isNameStart = false) : identifier.Rejects c := by
  unfold identifier
  exact ⟨_, if_neg (by simp [h])⟩

/-! ## Words -/

/-- The word at the front of a text is determined by the text. -/
theorem map_takeWhile_of_heads {w t : Bytes} (h : (Token.word w).Heads t rest) :
    (t.takeWhile isNameByte).map lowerByte = w := by
  obtain ⟨b, ⟨hb, rfl⟩, rfl, hrest⟩ := h
  have hend := hrest rfl
  rw [startsName_eq] at hend
  rw [(span_append (isName_all hb) hend).1]

/-- A word ends where a name at its place would end. -/
theorem rest_eq_of_heads {n w t rest' : Bytes} (hname : (Token.name n).Heads t rest)
    (hword : (Token.word w).Heads t rest') : rest' = rest := by
  obtain ⟨b, ⟨hb, rfl⟩, hbt, hrest⟩ := hname
  obtain ⟨b', ⟨hb', _⟩, hbt', hrest'⟩ := hword
  have hend := hrest rfl
  have hend' := hrest' rfl
  rw [startsName_eq] at hend hend'
  rw [← (span_append (isName_all hb) hend).2, ← hbt, hbt', (span_append (isName_all hb') hend').2]

/-- A keyword is made of lower case letters. -/
def IsKeyword (w : Bytes) : Prop := w ≠ [] ∧ w.all isLowerLetter = true

theorem IsKeyword.isName {b w : Bytes} (hw : IsKeyword w) (hb : b.map lowerByte = w) :
    isName b = true := by
  have hstart : ∀ x ∈ b, isNameStart x = true := by
    intro x hx
    have hlower := List.all_eq_true.mp hw.2 (lowerByte x) (hb ▸ List.mem_map_of_mem hx)
    exact (lowerByte_ascii hlower).2
  cases b with
  | nil => exact absurd hb.symm hw.1
  | cons first more =>
      simp only [isName_eq, List.head?_cons, Option.any_some, Bool.and_eq_true, List.all_eq_true]
      exact ⟨hstart first List.mem_cons_self,
        fun x hx => isNameByte_of_isNameStart (hstart x hx)⟩

theorem heads_of_keyword {w x : Bytes} (hw : IsKeyword w) (h : keyword w c = .ok x next) :
    (Token.word w).Heads c.rest next.rest := by
  unfold keyword at h
  dsimp only at h
  split at h
  next hcond =>
    obtain ⟨hlength, hfold, hend⟩ := hcond
    obtain ⟨_, rfl⟩ := Reply.ok.inj h
    have hmap := (equalFold_iff hw.2 hlength).mp hfold
    refine ⟨c.rest.take w.length, ⟨?_, hmap⟩, ?_, fun _ => ?_⟩
    · exact hw.isName hmap
    · simp [Cursor.advance]
    · simpa [startsName_eq] using hend
  next => contradiction

theorem finds_keyword {w : Bytes} (hw : IsKeyword w) (h : (Token.word w).Heads c.rest rest) :
    (keyword w).Finds (fun _ => True) c rest := by
  refine ⟨h.length_lt.le, w, trivial, ?_⟩
  obtain ⟨b, ⟨_, hmap⟩, hc, hrest⟩ := h
  have hlength : w.length = b.length := by rw [← hmap, List.length_map]
  have htake : c.rest.take w.length = b := by rw [hc, hlength, List.take_left]
  have hnext : c.advance w.length = c.leaving rest := by rw [hlength, Cursor.advance_eq hc]
  have hend : (!(c.advance w.length).rest.head?.any isNameByte) = true := by
    rw [hnext]
    have hopen := hrest rfl
    rw [startsName_eq] at hopen
    simp [hopen]
  unfold keyword
  dsimp only
  rw [htake, if_pos ⟨hlength.symm, (equalFold_iff hw.2 hlength.symm).mpr hmap, hend⟩, hnext]

theorem keyword_ok_or_rejects (w : Bytes) (c : Cursor) :
    (∃ next, keyword w c = .ok w next) ∨ (keyword w).Rejects c := by
  unfold Rejects keyword
  dsimp only
  split
  next => exact Or.inl ⟨_, rfl⟩
  next => exact Or.inr ⟨_, rfl⟩

/-- A keyword is not found where another word stands. -/
theorem rejects_keyword {w w' : Bytes} (hw : IsKeyword w) (hne : w' ≠ w)
    (h : (Token.word w').Heads c.rest rest) : (keyword w).Rejects c := by
  refine (keyword_ok_or_rejects w c).resolve_left ?_
  rintro ⟨next, hok⟩
  have hsame := map_takeWhile_of_heads (heads_of_keyword hw hok)
  rw [map_takeWhile_of_heads h] at hsame
  exact hne hsame

theorem rejects_keyword_of_head {w : Bytes} (hw : IsKeyword w)
    (h : c.rest.head?.any isNameStart = false) : (keyword w).Rejects c := by
  refine (keyword_ok_or_rejects w c).resolve_left ?_
  rintro ⟨next, hok⟩
  obtain ⟨b, ⟨hb, _⟩, hc, _⟩ := heads_of_keyword hw hok
  obtain ⟨first, more, rfl, hfirst⟩ := isName_head hb
  simp [hc, hfirst] at h

/-! ## Numbers -/

theorem radixOf_cases (t : Bytes) :
    (radixOf t = (10, 0)) ∨
      (∃ x more, (x = ascii 'x' ∨ x = ascii 'X') ∧ t = ascii '0' :: x :: more ∧
        radixOf t = (16, 2)) ∨
      ∃ x more, (x = ascii 'b' ∨ x = ascii 'B') ∧ t = ascii '0' :: x :: more ∧
        radixOf t = (2, 2) := by
  unfold radixOf
  split
  next zero marker more =>
    by_cases hzero : zero = ascii '0'
    · subst hzero
      by_cases hx : marker = ascii 'x' ∨ marker = ascii 'X'
      · exact Or.inr (Or.inl ⟨marker, more, hx, rfl, by simp [hx]⟩)
      · by_cases hb : marker = ascii 'b' ∨ marker = ascii 'B'
        · exact Or.inr (Or.inr ⟨marker, more, hb, rfl, by simp [hx, hb]⟩)
        · exact Or.inl (by simp [hx, hb])
    · exact Or.inl (by simp [hzero])
  next => exact Or.inl rfl

/-- The part of a number behind the marker of its base. -/
def digitsAt (radix marker : Nat) : Parse Numeral := fun c =>
  let body := c.advance marker
  let digits := body.rest.takeWhile (isDigitOf radix)
  let next := body.advance digits.length
  if digits = [] then .fail next.pos .digitsMissing
  else if next.rest.head?.any isNameByte then
    .fail next.pos (.invalidDigit (next.rest.head?.getD 0) radix)
  else .ok ⟨⟨c.pos, next.pos⟩, digits, radix⟩ next

theorem numeral_eq (c : Cursor) :
    numeral c =
      if c.rest.head?.any isDecimalDigit then
        digitsAt (radixOf c.rest).1 (radixOf c.rest).2 c
      else .fail c.pos (.expected [.word (utf8 "number")]) := by
  unfold numeral digitsAt
  dsimp only
  split
  next =>
    split
    next => rfl
    next =>
      split
      next b hb =>
        simp only [hb, Option.any_some, Option.getD_some]
      next hb => simp only [hb, Option.any_none]; rfl
  next => rfl

theorem of_digitsAt {radix marker : Nat} {n : Numeral}
    (h : digitsAt radix marker c = .ok n next) :
    n.radix = radix ∧ n.digits ≠ [] ∧ n.digits.all (isDigitOf radix) = true ∧
      c.rest.drop marker = n.digits ++ next.rest ∧ startsName next.rest = false := by
  unfold digitsAt at h
  dsimp only at h
  have hsplit := List.takeWhile_append_dropWhile (p := isDigitOf radix)
    (l := (c.advance marker).rest)
  rw [Cursor.advance_eq hsplit.symm] at h
  split at h
  next => contradiction
  next hdigits =>
    split at h
    next => contradiction
    next hend =>
      obtain ⟨rfl, rfl⟩ := Reply.ok.inj h
      exact ⟨rfl, hdigits, List.all_takeWhile, hsplit.symm, by simpa [startsName_eq] using hend⟩

theorem digitsAt_of_split {radix : Nat} {marker digits : Bytes}
    (hc : c.rest = marker ++ (digits ++ rest)) (hdigits : digits ≠ [])
    (hall : digits.all (isDigitOf radix) = true) (hrest : startsName rest = false) :
    ∃ span, digitsAt radix marker.length c = .ok ⟨span, digits, radix⟩ (c.leaving rest) := by
  have hstop : rest.head?.any (isDigitOf radix) = false := by
    rw [startsName_eq] at hrest
    cases hhead : rest.head? with
    | none => rfl
    | some b =>
        rw [hhead] at hrest
        simp only [Option.any_some] at hrest ⊢
        exact Bool.eq_false_iff.mpr fun hdigit =>
          Bool.eq_false_iff.mp hrest (isNameByte_of_isDigitOf hdigit)
  have hspan : (digits ++ rest).takeWhile (isDigitOf radix) = digits :=
    (span_append (List.all_eq_true.mp hall) hstop).1
  have hshort : (digits ++ rest).length ≤ c.rest.length := by simp [hc]
  unfold digitsAt
  dsimp only
  rw [Cursor.advance_eq hc, Cursor.rest_leaving, hspan, if_neg hdigits,
    Cursor.advance_eq (c := c.leaving (digits ++ rest)) rfl,
    Cursor.leaving_leaving _ hshort (by simp)]
  rw [startsName_eq] at hrest
  rw [if_neg (by simp [hrest])]
  exact ⟨_, rfl⟩

theorem heads_of_numeral {n : Numeral} (h : numeral c = .ok n next) :
    (Token.number n.radix n.digits).Heads c.rest next.rest := by
  rw [numeral_eq] at h
  split at h
  next =>
    obtain ⟨hradix, hne, hall, hdrop, hend⟩ := of_digitsAt h
    rcases radixOf_cases c.rest with hten | ⟨x, more, hx, hc, hsixteen⟩ | ⟨x, more, hx, hc, htwo⟩
    · rw [hten] at hradix hall hdrop
      refine ⟨n.digits, writtenNumber_iff.mpr ⟨hne, by rw [hradix]; exact hall, [], ?_, rfl⟩,
        hdrop, fun _ => hend⟩
      rw [hradix]
      decide
    · rw [hsixteen] at hradix hall hdrop
      refine ⟨ascii '0' :: x :: n.digits, writtenNumber_iff.mpr
        ⟨hne, by rw [hradix]; exact hall, [ascii '0', x], ?_, rfl⟩, ?_, fun _ => hend⟩
      · rw [hradix]
        rcases hx with rfl | rfl <;> decide
      · rw [hc] at hdrop ⊢
        simpa using hdrop
    · rw [htwo] at hradix hall hdrop
      refine ⟨ascii '0' :: x :: n.digits, writtenNumber_iff.mpr
        ⟨hne, by rw [hradix]; exact hall, [ascii '0', x], ?_, rfl⟩, ?_, fun _ => hend⟩
      · rw [hradix]
        rcases hx with rfl | rfl <;> decide
      · rw [hc] at hdrop ⊢
        simpa using hdrop
  next => contradiction

/-- Without a marker, the base is ten: what follows the first digit is no letter. -/
theorem radixOf_decimal {digits : Bytes} (hdigits : digits ≠ [])
    (hall : digits.all (isDigitOf 10) = true) (hrest : startsName rest = false) :
    radixOf (digits ++ rest) = (10, 0) := by
  have hletter : ∀ x, x = ascii 'x' ∨ x = ascii 'X' ∨ x = ascii 'b' ∨ x = ascii 'B' →
      ¬(isDigitOf 10 x = true ∨ isNameByte x = false) := by
    rintro x (rfl | rfl | rfl | rfl) <;> decide
  have hsecond : ∀ x zero more, digits ++ rest = zero :: x :: more →
      isDigitOf 10 x = true ∨ isNameByte x = false := by
    intro x zero more heq
    obtain ⟨first, digits, rfl⟩ := List.exists_cons_of_ne_nil hdigits
    simp only [List.cons_append, List.cons.injEq] at heq
    cases digits with
    | nil =>
        right
        simpa [startsName_eq, show rest = x :: more from heq.2] using hrest
    | cons second digits =>
        left
        simp only [List.cons_append, List.cons.injEq] at heq
        simp only [List.all_cons, Bool.and_eq_true] at hall
        exact heq.2.1 ▸ hall.2.1
  rcases radixOf_cases (digits ++ rest) with hten | ⟨x, more, hx, hc, _⟩ | ⟨x, more, hx, hc, _⟩
  · exact hten
  · exact absurd (hsecond x _ more hc) (hletter x (by rw [← or_assoc]; exact Or.inl hx))
  · exact absurd (hsecond x _ more hc) (hletter x (Or.inr (Or.inr hx)))

theorem finds_numeral {radix : Int} {digits : Bytes}
    (h : (Token.number radix digits).Heads c.rest rest) :
    numeral.Finds (fun n => n.radix = radix ∧ n.digits = digits) c rest := by
  have hlength := h.length_lt.le
  obtain ⟨b, hwritten, hc, hrest⟩ := h
  have hhead : c.rest.head?.any isDecimalDigit = true := by
    obtain ⟨first, more, rfl, hfirst⟩ := WrittenNumber.head hwritten
    simp [hc, hfirst]
  obtain ⟨hne, hall, marker, hmarker, rfl⟩ := writtenNumber_iff.mp hwritten
  rw [List.append_assoc] at hc
  have hfound : ∀ r : Nat, (r : Int) = radix → radixOf c.rest = (r, marker.length) →
      numeral.Finds (fun n => n.radix = radix ∧ n.digits = digits) c rest := by
    rintro r rfl hradix
    obtain ⟨span, hok⟩ := digitsAt_of_split hc hne hall (hrest rfl)
    refine ⟨hlength, ⟨span, digits, r⟩, ⟨rfl, rfl⟩, ?_⟩
    rw [numeral_eq, if_pos hhead, hradix]
    exact hok
  rcases mem_radixMarkers hmarker with ⟨rfl, rfl⟩ | ⟨rfl, x, hx, rfl⟩ | ⟨rfl, x, hx, rfl⟩
  · refine hfound 10 rfl ?_
    rw [hc, List.nil_append]
    exact radixOf_decimal hne hall (hrest rfl)
  · refine hfound 16 rfl ?_
    rw [hc]
    rcases hx with rfl | rfl <;> rfl
  · refine hfound 2 rfl ?_
    rw [hc]
    rcases hx with rfl | rfl <;> rfl

theorem rejects_numeral (h : c.rest.head?.any isDecimalDigit = false) : numeral.Rejects c := by
  rw [Rejects, numeral_eq, if_neg (by simp [h])]
  exact ⟨_, rfl⟩

/-! ## Texts -/

theorem unescape_eq_some_iff {letter b : UInt8} :
    unescape letter = some b ↔ (letter, b) ∈ escapes := by
  unfold unescape escapes
  constructor
  · intro h
    split_ifs at h <;> simp_all
  · intro h
    simp only [List.mem_cons, Prod.mk.injEq, List.not_mem_nil, or_false] at h
    rcases h with ⟨rfl, rfl⟩ | ⟨rfl, rfl⟩ | ⟨rfl, rfl⟩ | ⟨rfl, rfl⟩ | ⟨rfl, rfl⟩ | ⟨rfl, rfl⟩ <;> rfl

theorem of_textBody {t read v : Bytes} {pos : Nat} (h : textBody t pos read = .ok v next) :
    ∃ value body, v = read.reverse ++ value ∧ WrittenText value body ∧
      t = body ++ 0x22 :: next.rest := by
  fun_induction textBody t pos read with
  | case2 rest pos read =>
      obtain ⟨rfl, rfl⟩ := Reply.ok.inj h
      exact ⟨[], [], by simp, WrittenText.nil, rfl⟩
  | case5 pos read letter rest b hletter _ _ ih =>
      obtain ⟨value, body, rfl, hbody, rfl⟩ := ih h
      exact ⟨b :: value, 0x5C :: letter :: body, by simp,
        WrittenText.escape (unescape_eq_some_iff.mp hletter) hbody, rfl⟩
  | case7 b rest pos read hquote hline hescape ih =>
      obtain ⟨value, body, rfl, hbody, rfl⟩ := ih h
      exact ⟨b :: value, b :: body, by simp, WrittenText.plain hquote hescape hline hbody, rfl⟩
  | _ => contradiction

theorem textBody_of_written {value body : Bytes} (h : WrittenText value body) (pos : Nat)
    (read rest : Bytes) :
    textBody (body ++ 0x22 :: rest) pos read =
      .ok (read.reverse ++ value) ⟨pos + (body.length + 1), rest⟩ := by
  induction h generalizing pos read with
  | nil =>
      rw [textBody.eq_def]
      simp
  | plain hquote hescape hline _ ih =>
      rw [List.cons_append, textBody.eq_def]
      simp only [if_neg hquote, if_neg hline, if_neg hescape, ih]
      simp
      omega
  | escape hletter _ ih =>
      rw [List.cons_append, List.cons_append, textBody.eq_def]
      simp only [unescape_eq_some_iff.mpr hletter, ih]
      simp
      omega

theorem heads_of_quotedText {v : Bytes} (h : quotedText c = .ok v next) :
    (Token.text v).Heads c.rest next.rest := by
  unfold quotedText at h
  split at h
  next t hc =>
    obtain ⟨value, body, rfl, hbody, rfl⟩ := of_textBody h
    exact ⟨_, ⟨body, hbody, rfl⟩, by simp [hc], by simp [Token.isOpen]⟩
  next => contradiction

theorem finds_quotedText {v : Bytes} (h : (Token.text v).Heads c.rest rest) :
    quotedText.Finds (· = v) c rest := by
  refine ⟨h.length_lt.le, v, rfl, ?_⟩
  obtain ⟨b, ⟨body, hbody, rfl⟩, hc, _⟩ := h
  have hrest : c.rest = 0x22 :: (body ++ 0x22 :: rest) := by simp [hc]
  unfold quotedText
  rw [hrest]
  simp only [textBody_of_written hbody]
  simp [Cursor.leaving, hrest]
  omega

theorem rejects_quotedText (h : c.rest.head? ≠ some 0x22) : quotedText.Rejects c := by
  unfold Rejects quotedText
  split
  next t hc => simp [hc] at h
  next => exact ⟨_, rfl⟩

end Gx.Parse
