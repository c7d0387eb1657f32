import Gx.Grammar.Operand
import Gx.Proofs.Grammar.Lexer

/-!
# Reading operands

Ordered choice loses nothing here: alternatives are told apart by their first byte, but for `lo` and
`hi`, which are names unless a parenthesis follows.  No value is followed by a parenthesis, so the
choice is right.  Brackets nest, and each level takes a byte, so there are always enough levels.
-/

namespace Gx

open Parse

/-! ## What comes next -/

/-- Behind the gap, the text does not go on with the byte `m`. -/
def NotNext (m : UInt8) (t : Bytes) : Prop :=
  ∀ u, Gap t u → isSolid u = true → u.head? ≠ some m

theorem notNext_of_heads {m : UInt8} {k : Token} {t u v : Bytes} (hgap : Gap t u)
    (hk : k.Heads u v) (hhead : u.head? ≠ some m) : NotNext m t := by
  intro w hw hsolid
  rw [hw.unique hgap hsolid hk.isSolid]
  exact hhead

theorem Token.Heads.head?_mark {m : UInt8} {t rest : Bytes} (h : (Token.mark m).Heads t rest) :
    t.head? = some m := by
  obtain ⟨b, ⟨_, rfl⟩, rfl, _⟩ := h
  rfl

theorem Token.Heads.head?_word {w t rest : Bytes} (h : (Token.word w).Heads t rest) :
    t.head?.any isNameStart = true := by
  obtain ⟨b, ⟨hb, _⟩, rfl, _⟩ := h
  obtain ⟨first, more, rfl, hfirst⟩ := isName_head hb
  simpa using hfirst

theorem Token.Heads.head?_name {n t rest : Bytes} (h : (Token.name n).Heads t rest) :
    t.head?.any isNameStart = true := by
  obtain ⟨b, ⟨hb, rfl⟩, rfl, _⟩ := h
  obtain ⟨first, more, rfl, hfirst⟩ := isName_head hb
  simpa using hfirst

theorem Token.Heads.head?_label {n t rest : Bytes} (h : (Token.label n).Heads t rest) :
    t.head?.any isNameStart = true := by
  obtain ⟨_, ⟨hn, _, _, rfl⟩, rfl, _⟩ := h
  obtain ⟨first, more, rfl, hfirst⟩ := isName_head hn
  simpa using hfirst

theorem Token.Heads.head?_number {radix : Int} {digits t rest : Bytes}
    (h : (Token.number radix digits).Heads t rest) : t.head?.any isDecimalDigit = true := by
  obtain ⟨b, hb, rfl, _⟩ := h
  obtain ⟨first, more, rfl, hfirst⟩ := WrittenNumber.head hb
  simpa using hfirst

theorem Token.Heads.head?_register {r : RegisterName} {t rest : Bytes}
    (h : r.token.Heads t rest) : t.head? = some (ascii '%') := by
  obtain ⟨b, hb, rfl, _⟩ := h
  cases r with
  | numbered n =>
      obtain ⟨_, _, rfl⟩ := hb
      rfl
  | _ =>
      obtain ⟨_, _, rfl⟩ := hb
      rfl

theorem head?_ne_of_isNameStart {t : Bytes} {m : UInt8} (h : t.head?.any isNameStart = true)
    (hm : isNameStart m = false) : t.head? ≠ some m := by
  intro hhead
  rw [hhead, Option.any_some, hm] at h
  contradiction

theorem not_decimal_of_isNameStart {t : Bytes} (h : t.head?.any isNameStart = true) :
    t.head?.any isDecimalDigit = false := by
  cases hhead : t.head? with
  | none => rfl
  | some b =>
      rw [hhead] at h
      exact not_isDecimalDigit_of_isNameStart h

theorem Operand.tokens_ne_nil {x : Operand} (hx : x ≠ .missing) : x.tokens ≠ [] := by
  cases x with
  | missing => contradiction
  | _ => simp [tokens]

/-! ## Addresses and values -/

namespace Grammar

variable {c next : Cursor} {rest : Bytes} {x : Operand}

theorem name_eq_ok (h : name.run c = .ok x next) :
    ∃ span n, x = .name span n ∧ (Token.name n).Heads c.rest next.rest := by
  obtain ⟨n, hn, rfl⟩ := spanned_eq_ok.mp h
  exact ⟨_, n, rfl, heads_of_identifier hn⟩

theorem number_eq_ok (h : number.run c = .ok x next) :
    ∃ n, x = .number n ∧ (Token.number n.radix n.digits).Heads c.rest next.rest := by
  obtain ⟨n, mid, hn, hpure⟩ := bind_eq_ok.mp h
  obtain ⟨rfl, rfl⟩ := pure_eq_ok.mp hpure
  exact ⟨n, rfl, heads_of_numeral hn⟩

theorem finds_name {n : Bytes} (h : (Token.name n).Heads c.rest rest) (span : Span) :
    name.run.Finds (fun y => y.unspanned = (Operand.name span n).unspanned) c rest :=
  (finds_identifier h).spanned fun _ _ hn => by rw [hn]; rfl

theorem finds_number {n : Numeral} (h : (Token.number n.radix n.digits).Heads c.rest rest) :
    number.run.Finds (fun y => y.unspanned = (Operand.number n).unspanned) c rest := by
  refine (finds_numeral h).bind fun m hm => ?_
  apply finds_pure
  simp [Operand.unspanned, Numeral.unspanned, hm.1, hm.2]

theorem rejects_number (h : c.rest.head?.any isDecimalDigit = false) : number.run.Rejects c :=
  (rejects_numeral h).bind

theorem sound_address : address.run.Sound (·.isAddress = true) Operand.tokens := by
  intro c x next h
  obtain ⟨p, hp, hok⟩ := choice_eq_ok (named_eq_ok.mp h)
  simp only [List.mem_cons, List.not_mem_nil, or_false] at hp
  rcases hp with rfl | rfl
  · obtain ⟨n, rfl, hheads⟩ := number_eq_ok hok
    exact ⟨rfl, hheads.reads⟩
  · obtain ⟨span, n, rfl, hheads⟩ := name_eq_ok hok
    exact ⟨rfl, hheads.reads⟩

theorem finds_address (hx : x.isAddress = true) (hsolid : isSolid c.rest = true)
    (h : Reads x.tokens c.rest rest) :
    address.run.Finds (fun y => y.unspanned = x.unspanned) c rest := by
  apply Finds.named
  cases x with
  | number n =>
      obtain ⟨_, hheads, rfl⟩ := h.heads hsolid
      exact (finds_number hheads).choice [] (by simp)
  | name span n =>
      obtain ⟨_, hheads, rfl⟩ := h.heads hsolid
      refine (finds_name hheads span).choice [number] ?_
      simpa using (rejects_number (not_decimal_of_isNameStart hheads.head?_name)).fails
  | _ => simp [Operand.isAddress] at hx

theorem isKeyword_side (side : Half) : IsKeyword side.word := by
  cases side <;> exact ⟨by decide, by decide⟩

/-- `lo` or `hi`. -/
def side : Parse Half :=
  choice [(word (utf8 "lo")).map fun _ => Half.lo, (word (utf8 "hi")).map fun _ => Half.hi]

theorem heads_of_side {which : Half} (h : side c = .ok which next) :
    (Token.word which.word).Heads c.rest next.rest := by
  obtain ⟨p, hp, hok⟩ := choice_eq_ok h
  simp only [List.mem_cons, List.not_mem_nil, or_false] at hp
  rcases hp with rfl | rfl
  · obtain ⟨w, mid, hw, hpure⟩ := bind_eq_ok.mp hok
    obtain ⟨rfl, rfl⟩ := pure_eq_ok.mp hpure
    exact heads_of_keyword (isKeyword_side .lo) hw
  · obtain ⟨w, mid, hw, hpure⟩ := bind_eq_ok.mp hok
    obtain ⟨rfl, rfl⟩ := pure_eq_ok.mp hpure
    exact heads_of_keyword (isKeyword_side .hi) hw

theorem finds_side {which : Half} (h : (Token.word which.word).Heads c.rest rest) :
    side.Finds (· = which) c rest := by
  cases which with
  | lo =>
      refine Finds.choice ?_ [] (by simp)
      exact (finds_keyword (isKeyword_side .lo) h).bind fun _ _ => finds_pure rfl
  | hi =>
      refine Finds.choice ?_ [(word (utf8 "lo")).map fun _ => Half.lo] ?_
      · exact (finds_keyword (isKeyword_side .hi) h).bind fun _ _ => finds_pure rfl
      · have hlo := rejects_keyword (isKeyword_side .lo) (by decide) h
        rintro r hr
        obtain rfl := List.mem_singleton.mp hr
        exact (hlo.bind (f := fun _ => (pure Half.lo : Parse Half))).fails

/-- The mark `m` behind a gap. -/
theorem sound_tokenMark {m : UInt8} (hm : m ∈ marks) :
    (token (literal [m])).Sound (fun _ => True) fun _ => [.mark m] :=
  (sound_literal hm).token fun _ _ => by simp

theorem finds_tokenMark {m : UInt8} (h : Reads [.mark m] c.rest rest) :
    (token (literal [m])).Finds (fun _ => True) c rest :=
  finds_token (by simp) (fun _ hsolid hreads => by
    obtain ⟨_, hheads, rfl⟩ := hreads.heads hsolid
    exact finds_literal hheads) h

theorem rejects_tokenMark {m : UInt8} (h : NotNext m c.rest) :
    (token (literal [m])).Rejects c := by
  obtain ⟨u, _, hgap, hsolid⟩ := skip_eq c
  exact Rejects.token hgap hsolid (rejects_literal (h u hgap hsolid))

/-- `lo` or `hi` and an address in parentheses. -/
def sideOfAddress : Parse (Half × Operand) := do
  let which ← side
  let _ ← token (literal [ascii '('])
  let address ← token address.run
  let _ ← token (literal [ascii ')'])
  return (which, address)

theorem half_run : half.run = spanned (fun span p => .half span p.1 p.2) sideOfAddress := rfl

theorem isAddress_ne_missing {x : Operand} (hx : x.isAddress = true) : x ≠ .missing := by
  rintro rfl
  contradiction

theorem sound_half : half.run.Sound (·.isValue = true) Operand.tokens := by
  intro c x next h
  rw [half_run] at h
  obtain ⟨⟨which, address⟩, hok, rfl⟩ := spanned_eq_ok.mp h
  unfold sideOfAddress at hok
  simp only [bind_eq_ok, pure_eq_ok] at hok
  obtain ⟨which', mid, hside, _, mid', hopen, address', mid'', haddress, _, _, hclose,
    heq, rfl⟩ := hok
  obtain ⟨rfl, rfl⟩ := Prod.mk.inj heq
  have hopen' := (sound_tokenMark (by decide) _ _ _ hopen).2
  have hclose' := (sound_tokenMark (by decide) _ _ _ hclose).2
  have haddress' := sound_address.token
    (fun x hx => Operand.tokens_ne_nil (isAddress_ne_missing hx)) _ _ _ haddress
  refine ⟨haddress'.1, ?_⟩
  exact ((heads_of_side hside).reads.cons (hopen'.cons haddress'.2)).append hclose'

theorem finds_half {span : Span} {which : Half} {address : Operand}
    (hx : address.isAddress = true) (hsolid : isSolid c.rest = true)
    (h : Reads (Operand.half span which address).tokens c.rest rest) :
    half.run.Finds (fun y => y.unspanned = (Operand.half span which address).unspanned) c rest := by
  obtain ⟨close, hfront, hclose⟩ := reads_append.mp h
  obtain ⟨open_, hside, hfront⟩ := hfront.heads hsolid
  obtain ⟨mid, hopen, haddress⟩ := reads_cons.mp hfront
  rw [half_run]
  refine Finds.spanned (S := fun p => p.1 = which ∧ p.2.unspanned = address.unspanned) ?_ ?_
  · refine (finds_side hside).bind fun _ hwhich => ?_
    refine (finds_tokenMark hopen).bind fun _ _ => ?_
    refine (finds_token (Operand.tokens_ne_nil (isAddress_ne_missing hx))
      (fun _ => finds_address hx) haddress).bind fun y hy => ?_
    refine (finds_tokenMark hclose).bind fun _ _ => ?_
    exact finds_pure ⟨hwhich, hy⟩
  · rintro ⟨_, y⟩ span' ⟨rfl, hy⟩
    simp only [Operand.unspanned]
    rw [hy]

/-- A name is not taken for one byte of an address. -/
theorem fails_half {n : Bytes} (h : (Token.name n).Heads c.rest rest)
    (hrest : NotNext (ascii '(') rest) : half.run.Fails c := by
  rw [half_run]
  apply Fails.spanned
  apply Fails.bind
  intro which mid hside
  apply Fails.bind
  intro _ next hopen
  rw [← rest_eq_of_heads h (heads_of_side hside)] at hrest
  obtain ⟨e, hfail⟩ := rejects_tokenMark hrest
  rw [hopen] at hfail
  contradiction

theorem sound_value : value.run.Sound (·.isValue = true) Operand.tokens := by
  intro c x next h
  obtain ⟨p, hp, hok⟩ := choice_eq_ok (named_eq_ok.mp h)
  simp only [List.mem_cons, List.not_mem_nil, or_false] at hp
  rcases hp with rfl | rfl | rfl
  · obtain ⟨n, rfl, hheads⟩ := number_eq_ok hok
    exact ⟨rfl, hheads.reads⟩
  · exact sound_half c x next hok
  · obtain ⟨span, n, rfl, hheads⟩ := name_eq_ok hok
    exact ⟨rfl, hheads.reads⟩

theorem finds_value (hx : x.isValue = true) (hsolid : isSolid c.rest = true)
    (h : Reads x.tokens c.rest rest) (hrest : NotNext (ascii '(') rest) :
    value.run.Finds (fun y => y.unspanned = x.unspanned) c rest := by
  apply Finds.named
  cases x with
  | number n =>
      obtain ⟨_, hheads, rfl⟩ := h.heads hsolid
      exact (finds_number hheads).choice [] (by simp)
  | half span which address =>
      refine (finds_half hx hsolid h).choice [number] ?_
      obtain ⟨_, hword, _⟩ := Reads.heads h hsolid
      simpa using (rejects_number (not_decimal_of_isNameStart hword.head?_word)).fails
  | name span n =>
      obtain ⟨_, hheads, rfl⟩ := h.heads hsolid
      refine (finds_name hheads span).choice [number, half] ?_
      simpa using ⟨(rejects_number (not_decimal_of_isNameStart hheads.head?_name)).fails,
        fails_half hheads hrest⟩
  | _ => simp [Operand.isValue] at hx

theorem isValue_ne_missing {x : Operand} (hx : x.isValue = true) : x ≠ .missing := by
  rintro rfl
  contradiction

theorem isDataItem_ne_missing {x : Operand} (hx : x.isDataItem = true) : x ≠ .missing := by
  rintro rfl
  contradiction

theorem sound_dataItem : dataItem.run.Sound (·.isDataItem = true) Operand.tokens := by
  intro c x next h
  obtain ⟨p, hp, hok⟩ := choice_eq_ok h
  simp only [List.mem_cons, List.not_mem_nil, or_false] at hp
  rcases hp with rfl | rfl
  · obtain ⟨v, hv, rfl⟩ := spanned_eq_ok.mp hok
    exact ⟨rfl, (heads_of_quotedText hv).reads⟩
  · have hvalue := sound_value c x next hok
    refine ⟨?_, hvalue.2⟩
    cases x with
    | text _ _ => rfl
    | _ => exact hvalue.1

theorem any_isNameByte_of_start {t : Bytes}
    (h : t.head?.any isNameStart = true ∨ t.head?.any isDecimalDigit = true) :
    t.head?.any isNameByte = true := by
  cases hhead : t.head? with
  | none => simp [hhead] at h
  | some b =>
      rw [hhead] at h
      exact h.elim isNameByte_of_isNameStart isNameByte_of_isDecimalDigit

/-- Values start with a letter, an underscore or a digit. -/
theorem head?_of_isValue {t : Bytes} (hx : x.isValue = true) (hsolid : isSolid t = true)
    (h : Reads x.tokens t rest) : t.head?.any isNameByte = true := by
  apply any_isNameByte_of_start
  cases x with
  | number n =>
      obtain ⟨_, hheads, _⟩ := Reads.heads h hsolid
      exact Or.inr hheads.head?_number
  | half span which address =>
      obtain ⟨_, hheads, _⟩ := Reads.heads h hsolid
      exact Or.inl hheads.head?_word
  | name span n =>
      obtain ⟨_, hheads, _⟩ := Reads.heads h hsolid
      exact Or.inl hheads.head?_name
  | _ => simp [Operand.isValue] at hx

theorem head?_ne_of_isNameByte {t : Bytes} {m : UInt8} (h : t.head?.any isNameByte = true)
    (hm : isNameByte m = false) : t.head? ≠ some m := by
  intro hhead
  rw [hhead, Option.any_some, hm] at h
  contradiction

theorem finds_text {v : Bytes} (h : (Token.text v).Heads c.rest rest) (span : Span) :
    text.run.Finds (fun y => y.unspanned = (Operand.text span v).unspanned) c rest :=
  (finds_quotedText h).spanned fun _ _ hv => by rw [hv]; rfl

theorem finds_dataItem (hx : x.isDataItem = true) (hsolid : isSolid c.rest = true)
    (h : Reads x.tokens c.rest rest) (hrest : NotNext (ascii '(') rest) :
    dataItem.run.Finds (fun y => y.unspanned = x.unspanned) c rest := by
  by_cases hvalue : x.isValue = true
  · refine (finds_value hvalue hsolid h hrest).choice [text] ?_
    have hquote := head?_ne_of_isNameByte (head?_of_isValue hvalue hsolid h)
      (show isNameByte 0x22 = false by decide)
    intro r hr
    obtain rfl := List.mem_singleton.mp hr
    exact (rejects_quotedText hquote).spanned.fails
  · cases x with
    | text span v =>
        obtain ⟨_, hheads, rfl⟩ := h.heads hsolid
        exact (finds_text hheads span).choice [] (by simp)
    | _ => exact absurd hx hvalue

/-! ## Registers -/

theorem aliasOf_eq_some {t : Bytes} {r : RegisterName} (h : aliasOf t = some r) :
    ∃ letter more, t = letter :: more ∧ startsName more = false ∧
      r.token = .letter (lowerByte letter) := by
  have hlower : lowerByte (ascii 'h') = ascii 'h' ∧ lowerByte (ascii 'H') = ascii 'h' ∧
      lowerByte (ascii 'r') = ascii 'r' ∧ lowerByte (ascii 'R') = ascii 'r' := by decide
  unfold aliasOf at h
  split at h
  next letter more =>
    split at h
    next => contradiction
    next hend =>
      refine ⟨letter, more, rfl, by simpa [startsName_eq] using hend, ?_⟩
      split at h
      next hh =>
        obtain rfl := Option.some.inj h
        rcases hh with rfl | rfl
        · rw [hlower.1]; rfl
        · rw [hlower.2.1]; rfl
      next =>
        split at h
        next hr =>
          obtain rfl := Option.some.inj h
          rcases hr with rfl | rfl
          · rw [hlower.2.2.1]; rfl
          · rw [hlower.2.2.2]; rfl
        next => contradiction
  next => contradiction

/-- A register behind its percent sign. -/
theorem heads_of_registerName {r : RegisterName} (h : registerName c = .ok r next) :
    r.token.Heads (ascii '%' :: c.rest) next.rest := by
  unfold registerName at h
  split at h
  next register halias =>
    obtain ⟨rfl, rfl⟩ := Reply.ok.inj h
    obtain ⟨letter, more, hc, hend, htoken⟩ := aliasOf_eq_some halias
    rw [htoken]
    refine ⟨[ascii '%', letter], ⟨letter, rfl, rfl⟩, ?_, fun _ => ?_⟩
    · simp [Cursor.advance, hc]
    · simpa [Cursor.advance, hc] using hend
  next =>
    rw [mapError_eq_ok] at h
    obtain ⟨n, mid, hn, hpure⟩ := bind_eq_ok.mp h
    obtain ⟨rfl, rfl⟩ := pure_eq_ok.mp hpure
    obtain ⟨b, hb, hc, hend⟩ := heads_of_numeral hn
    exact ⟨ascii '%' :: b, ⟨b, hb, rfl⟩, by rw [hc]; rfl, fun _ => hend rfl⟩

theorem aliasOf_letter {l letter : UInt8} {more : Bytes} (hmore : startsName more = false)
    (hletter : lowerByte letter = l) :
    (l = ascii 'h' → aliasOf (letter :: more) = some .high) ∧
      (l = ascii 'r' → aliasOf (letter :: more) = some .remainder) := by
  have hcases := (byte_cases letter).2.2.2
  rw [startsName_eq] at hmore
  constructor
  · rintro rfl
    simp [aliasOf, hmore, hcases.1 hletter]
  · rintro rfl
    have hr := hcases.2 hletter
    have hh : ¬(letter = ascii 'h' ∨ letter = ascii 'H') := by
      rcases hr with rfl | rfl <;> decide
    simp only [aliasOf, hmore, hh, hr, if_true, if_false]
    rfl

theorem aliasOf_digit {t : Bytes} (h : t.head?.any isDecimalDigit = true) :
    aliasOf t = none := by
  cases t with
  | nil => rfl
  | cons b more =>
      have hletter : ∀ l, isNameStart l = true → b ≠ l := by
        rintro l hl rfl
        simp [not_isDecimalDigit_of_isNameStart hl] at h
      have hh : ¬(b = ascii 'h' ∨ b = ascii 'H') :=
        not_or.mpr ⟨hletter _ (by decide), hletter _ (by decide)⟩
      have hr : ¬(b = ascii 'r' ∨ b = ascii 'R') :=
        not_or.mpr ⟨hletter _ (by decide), hletter _ (by decide)⟩
      simp only [aliasOf, hh, hr, if_false]
      split <;> rfl

theorem finds_registerName {r : RegisterName} (h : r.token.Heads (ascii '%' :: c.rest) rest) :
    registerName.Finds (fun q => q.unspanned = r.unspanned) c rest := by
  have hlength := h.length_lt
  simp only [List.length_cons] at hlength
  have hletter : ∀ l, (Token.letter l).Heads (ascii '%' :: c.rest) rest →
      ∃ letter, c.rest = letter :: rest ∧ lowerByte letter = l ∧ startsName rest = false := by
    rintro l ⟨b, ⟨letter, hlower, rfl⟩, hc, hend⟩
    exact ⟨letter, (List.cons.inj hc).2, hlower, hend rfl⟩
  have hfound : ∀ q, aliasOf c.rest = some q → (∃ letter, c.rest = letter :: rest) →
      registerName c = .ok q (c.leaving rest) := by
    rintro q halias ⟨letter, hc⟩
    unfold registerName
    rw [halias]
    simp only
    rw [← Cursor.advance_eq (b := [letter]) hc]
    rfl
  cases r with
  | high =>
      obtain ⟨letter, hc, hlower, hend⟩ := hletter _ h
      refine ⟨by omega, .high, rfl, hfound _ ?_ ⟨letter, hc⟩⟩
      rw [hc]
      exact (aliasOf_letter hend hlower).1 rfl
  | remainder =>
      obtain ⟨letter, hc, hlower, hend⟩ := hletter _ h
      refine ⟨by omega, .remainder, rfl, hfound _ ?_ ⟨letter, hc⟩⟩
      rw [hc]
      exact (aliasOf_letter hend hlower).2 rfl
  | numbered n =>
      obtain ⟨b, ⟨number, hnumber, rfl⟩, hc, hend⟩ := h
      have hheads : (Token.number n.radix n.digits).Heads c.rest rest :=
        ⟨number, hnumber, (List.cons.inj hc).2, fun _ => hend rfl⟩
      have hnumeral : (do return RegisterName.numbered (← numeral) : Parse RegisterName).Finds
          (fun q => q.unspanned = (RegisterName.numbered n).unspanned) c rest := by
        refine (finds_numeral hheads).bind fun m hm => finds_pure ?_
        simp [RegisterName.unspanned, Numeral.unspanned, hm.1, hm.2]
      refine (hnumeral.mapError (f := fun _ => .registerMissing)).of_eq_ok ?_
      intro q next hok
      unfold registerName
      rw [aliasOf_digit hheads.head?_number]
      exact hok

theorem registerLiteral_eq_ok (h : registerLiteral.run c = .ok x next) :
    ∃ span r, x = .register span r ∧ r.token.Heads c.rest next.rest := by
  obtain ⟨r, hr, rfl⟩ := spanned_eq_ok.mp h
  obtain ⟨_, mid, hpercent, hname⟩ := bind_eq_ok.mp hr
  refine ⟨_, r, rfl, ?_⟩
  rw [of_literal hpercent]
  exact heads_of_registerName hname

theorem finds_registerLiteral {r : RegisterName} (span : Span)
    (h : r.token.Heads c.rest rest) :
    registerLiteral.run.Finds (fun y => y.unspanned = (Operand.register span r).unspanned) c
      rest := by
  obtain ⟨more, hc⟩ : ∃ more, c.rest = ascii '%' :: more := by
    obtain ⟨more, hmore⟩ := List.head?_eq_some_iff.mp h.head?_register
    exact ⟨more, hmore⟩
  have hpercent : (literal [ascii '%']).Finds (fun _ => True) c more :=
    ⟨by simp [hc], _, trivial, literal_of_cons hc⟩
  have hname : (do let _ ← literal [ascii '%']; registerName : Parse RegisterName).Finds
      (fun q => q.unspanned = r.unspanned) c rest :=
    hpercent.bind fun _ _ => finds_registerName (hc ▸ h)
  exact hname.spanned fun q _ hq => by simp [Operand.unspanned, hq]

theorem rejects_registerLiteral (h : c.rest.head? ≠ some (ascii '%')) :
    registerLiteral.run.Rejects c :=
  ((rejects_literal h).bind).spanned

/-! ## Registers with a setup -/

/-- The tokens of a register and an operand in brackets. -/
def bracketTokens (opening closing : UInt8) (target operand : Operand) : List Token :=
  .mark opening :: target.tokens ++ .mark (ascii ':') :: operand.tokens ++ [.mark closing]

theorem of_inBrackets {opening closing : UInt8} {register operand : Parse Operand}
    {P Q : Operand → Prop} (hregister : register.Sound P Operand.tokens)
    (hoperand : operand.Sound Q Operand.tokens) (hP : ∀ y, P y → y ≠ .missing)
    (hQ : ∀ y, Q y → y ≠ .missing) (hopening : opening ∈ marks) (hclosing : closing ∈ marks)
    {p : Operand × Operand} (h : inBrackets [opening] [closing] register operand c = .ok p next) :
    P p.1 ∧ Q p.2 ∧ Reads (bracketTokens opening closing p.1 p.2) c.rest next.rest := by
  unfold inBrackets at h
  simp only [bind_eq_ok, pure_eq_ok] at h
  obtain ⟨_, _, hopen, target, _, htarget, _, _, hcolon, y, _, hy, _, _, hclose, rfl, rfl⟩ := h
  have htarget' := hregister.token (fun y hy => Operand.tokens_ne_nil (hP y hy)) _ _ _ htarget
  have hcolon' := (sound_tokenMark (m := ascii ':') (by decide) _ _ _ hcolon).2
  have hy' := hoperand.token (fun y hy => Operand.tokens_ne_nil (hQ y hy)) _ _ _ hy
  have hclose' := (sound_tokenMark hclosing _ _ _ hclose).2
  refine ⟨htarget'.1, hy'.1, ?_⟩
  exact (((heads_of_literal hopening hopen).reads.cons htarget'.2).append
    (hcolon'.cons hy'.2)).append hclose'

theorem finds_inBrackets {opening closing : UInt8} {register operand : Parse Operand}
    {target y : Operand} (htarget : target ≠ .missing) (hy : y ≠ .missing)
    (hregister : ∀ (d : Cursor) mid, d.rest.length < c.rest.length → isSolid d.rest = true →
      Reads target.tokens d.rest mid →
      register.Finds (fun z => z.unspanned = target.unspanned) d mid)
    (hoperand : ∀ (d : Cursor) mid, isSolid d.rest = true → Reads y.tokens d.rest mid →
      Reads [.mark closing] mid rest →
      operand.Finds (fun z => z.unspanned = y.unspanned) d mid)
    (hsolid : isSolid c.rest = true)
    (h : Reads (bracketTokens opening closing target y) c.rest rest) :
    (inBrackets [opening] [closing] register operand).Finds
      (fun p => p.1.unspanned = target.unspanned ∧ p.2.unspanned = y.unspanned) c rest := by
  obtain ⟨close, hfront, hclose⟩ := reads_append.mp h
  obtain ⟨colon, hfront, hback⟩ := reads_append.mp hfront
  obtain ⟨start, hopen, hreads⟩ := Reads.heads hfront hsolid
  obtain ⟨mid, hcolon, hyreads⟩ := reads_cons.mp hback
  refine (finds_literal hopen).bind fun _ _ => ?_
  have hshort := hopen.length_lt
  have hfound : (token register).Finds (fun z => z.unspanned = target.unspanned)
      (c.leaving start) colon := by
    obtain ⟨k, ks, hks⟩ := List.exists_cons_of_ne_nil (Operand.tokens_ne_nil htarget)
    have hreads' := hreads
    rw [hks] at hreads'
    obtain ⟨u, v, hgap, hk, hrest⟩ := hreads'
    refine Finds.token hgap hk.isSolid (hregister _ _ ?_ hk.isSolid ?_)
    · have hu := hgap.length_le
      simp only [Cursor.rest_leaving] at hu ⊢
      omega
    · rw [hks]
      exact ⟨u, v, Gap.nil u, hk, hrest⟩
  refine hfound.bind fun t ht => ?_
  refine (finds_tokenMark hcolon).bind fun _ _ => ?_
  have hoperand' : (token operand).Finds (fun z => z.unspanned = y.unspanned)
      (((c.leaving start).leaving colon).leaving mid) close :=
    finds_token (Operand.tokens_ne_nil hy) (fun d hd hreads => hoperand d close hd hreads hclose)
      hyreads
  refine hoperand'.bind fun z hz => ?_
  refine (finds_tokenMark hclose).bind fun _ _ => ?_
  exact finds_pure ⟨ht, hz⟩

theorem isRegister_ne_missing {x : Operand} (hx : x.isRegister = true) : x ≠ .missing := by
  rintro rfl
  contradiction

theorem load_run (register : Parse Operand) :
    (loadOf register).run = spanned (fun span p => .load span p.1 p.2)
      (inBrackets [ascii '('] [ascii ')'] register value.run) := rfl

theorem fetch_run (register : Parse Operand) :
    (fetchOf register).run = spanned (fun span p => .fetch span p.1 p.2)
      (inBrackets [ascii '['] [ascii ']'] register address.run) := rfl

theorem registerTo_cons (level : UInt8) (levels : Bytes) :
    registerTo (level :: levels) = named (utf8 "register")
      (choice [registerLiteral, loadOf (registerTo levels), fetchOf (registerTo levels),
        name]) := by
  rw [registerTo]

theorem sound_registerTo (levels : Bytes) :
    (registerTo levels).Sound (·.isRegister = true) Operand.tokens := by
  induction levels with
  | nil =>
      intro c x next h
      rw [registerTo] at h
      contradiction
  | cons level levels ih =>
      intro c x next h
      rw [registerTo_cons] at h
      obtain ⟨p, hp, hok⟩ := choice_eq_ok (named_eq_ok.mp h)
      simp only [List.mem_cons, List.not_mem_nil, or_false] at hp
      rcases hp with rfl | rfl | rfl | rfl
      · obtain ⟨span, r, rfl, hheads⟩ := registerLiteral_eq_ok hok
        exact ⟨rfl, hheads.reads⟩
      · rw [load_run] at hok
        obtain ⟨p, hp, rfl⟩ := spanned_eq_ok.mp hok
        obtain ⟨htarget, hvalue, hreads⟩ := of_inBrackets ih sound_value
          (fun _ => isRegister_ne_missing) (fun _ => isValue_ne_missing) (by decide) (by decide) hp
        exact ⟨by simp [Operand.isRegister, htarget, hvalue], hreads⟩
      · rw [fetch_run] at hok
        obtain ⟨p, hp, rfl⟩ := spanned_eq_ok.mp hok
        obtain ⟨htarget, haddress, hreads⟩ := of_inBrackets ih sound_address
          (fun _ => isRegister_ne_missing) (fun _ => isAddress_ne_missing) (by decide) (by decide)
          hp
        exact ⟨by simp [Operand.isRegister, htarget, haddress], hreads⟩
      · obtain ⟨span, n, rfl, hheads⟩ := name_eq_ok hok
        exact ⟨rfl, hheads.reads⟩

theorem notNext_of_mark {m m' : UInt8} {ks : List Token} {t : Bytes}
    (h : Reads (.mark m' :: ks) t rest) (hne : m' ≠ m) : NotNext m t := by
  obtain ⟨u, v, hgap, hk, _⟩ := h
  refine notNext_of_heads hgap hk ?_
  rw [hk.head?_mark]
  exact fun heq => hne (Option.some.inj heq)

theorem rejects_load {register : Parse Operand} (h : c.rest.head? ≠ some (ascii '(')) :
    (loadOf register).run.Rejects c := by
  rw [load_run]
  exact Rejects.spanned ((rejects_literal h).bind)

theorem rejects_fetch {register : Parse Operand} (h : c.rest.head? ≠ some (ascii '[')) :
    (fetchOf register).run.Rejects c := by
  rw [fetch_run]
  exact Rejects.spanned ((rejects_literal h).bind)

section

variable {register : Parse Operand} {span : Span} {target y : Operand}
  (htarget : target.isRegister = true)
  (hregister : ∀ (d : Cursor) mid, d.rest.length < c.rest.length → isSolid d.rest = true →
    Reads target.tokens d.rest mid →
    register.Finds (fun z => z.unspanned = target.unspanned) d mid)

include htarget hregister

theorem finds_load (hy : y.isValue = true) (hsolid : isSolid c.rest = true)
    (h : Reads (Operand.load span target y).tokens c.rest rest) :
    (loadOf register).run.Finds
      (fun z => z.unspanned = (Operand.load span target y).unspanned) c rest := by
  rw [load_run]
  refine (finds_inBrackets (isRegister_ne_missing htarget) (isValue_ne_missing hy) hregister ?_
    hsolid h).spanned ?_
  · intro d mid hdsolid hreads hclose
    exact finds_value hy hdsolid hreads (notNext_of_mark hclose (by decide))
  · rintro ⟨t, v⟩ span' ⟨ht, hv⟩
    simp only [Operand.unspanned]
    rw [ht, hv]

theorem finds_fetch (hy : y.isAddress = true) (hsolid : isSolid c.rest = true)
    (h : Reads (Operand.fetch span target y).tokens c.rest rest) :
    (fetchOf register).run.Finds
      (fun z => z.unspanned = (Operand.fetch span target y).unspanned) c rest := by
  rw [fetch_run]
  refine (finds_inBrackets (isRegister_ne_missing htarget) (isAddress_ne_missing hy) hregister ?_
    hsolid h).spanned ?_
  · intro d mid hdsolid hreads _
    exact finds_address hy hdsolid hreads
  · rintro ⟨t, v⟩ span' ⟨ht, hv⟩
    simp only [Operand.unspanned]
    rw [ht, hv]

end

theorem finds_registerTo (x : Operand) {levels : Bytes} {c : Cursor} {rest : Bytes}
    (hx : x.isRegister = true) (hlevels : c.rest.length < levels.length)
    (hsolid : isSolid c.rest = true) (h : Reads x.tokens c.rest rest) :
    (registerTo levels).Finds (fun y => y.unspanned = x.unspanned) c rest := by
  induction x generalizing levels c rest with
  | name span n =>
      obtain ⟨_, hheads, rfl⟩ := h.heads hsolid
      obtain ⟨level, levels, rfl⟩ := List.exists_cons_of_length_pos (Nat.zero_lt_of_lt hlevels)
      have hstart := hheads.head?_name
      rw [registerTo_cons]
      refine ((finds_name hheads span).choice
        [registerLiteral, loadOf (registerTo levels), fetchOf (registerTo levels)] ?_).named
      simp only [List.forall_mem_cons, List.not_mem_nil, false_imp_iff, implies_true, and_true]
      exact ⟨(rejects_registerLiteral (head?_ne_of_isNameStart hstart (by decide))).fails,
        (rejects_load (head?_ne_of_isNameStart hstart (by decide))).fails,
        (rejects_fetch (head?_ne_of_isNameStart hstart (by decide))).fails⟩
  | register span r =>
      obtain ⟨_, hheads, rfl⟩ := h.heads hsolid
      obtain ⟨level, levels, rfl⟩ := List.exists_cons_of_length_pos (Nat.zero_lt_of_lt hlevels)
      rw [registerTo_cons]
      exact ((finds_registerLiteral span hheads).choice [] (by simp)).named
  | load span target value ih _ =>
      simp only [Operand.isRegister, Bool.and_eq_true] at hx
      obtain ⟨level, levels, rfl⟩ := List.exists_cons_of_length_pos (Nat.zero_lt_of_lt hlevels)
      obtain ⟨_, hheads, _⟩ := Reads.heads h hsolid
      rw [registerTo_cons]
      refine (Finds.choice ?_ [registerLiteral] ?_).named
      · refine finds_load hx.1 ?_ hx.2 hsolid h
        intro d mid hd hdsolid hreads
        simp only [List.length_cons] at hlevels
        exact ih hx.1 (by omega) hdsolid hreads
      · simpa using (rejects_registerLiteral (by rw [hheads.head?_mark]; decide)).fails
  | fetch span target address ih _ =>
      simp only [Operand.isRegister, Bool.and_eq_true] at hx
      obtain ⟨level, levels, rfl⟩ := List.exists_cons_of_length_pos (Nat.zero_lt_of_lt hlevels)
      obtain ⟨_, hheads, _⟩ := Reads.heads h hsolid
      rw [registerTo_cons]
      refine (Finds.choice ?_ [registerLiteral, loadOf (registerTo levels)] ?_).named
      · refine finds_fetch hx.1 ?_ hx.2 hsolid h
        intro d mid hd hdsolid hreads
        simp only [List.length_cons] at hlevels
        exact ih hx.1 (by omega) hdsolid hreads
      · simpa using ⟨(rejects_registerLiteral (by rw [hheads.head?_mark]; decide)).fails,
          (rejects_load (by rw [hheads.head?_mark]; decide)).fails⟩
  | _ => simp [Operand.isRegister] at hx

theorem sound_register : register.run.Sound (·.isRegister = true) Operand.tokens :=
  fun c => sound_registerTo c.budget c

theorem finds_register (hx : x.isRegister = true) (hsolid : isSolid c.rest = true)
    (h : Reads x.tokens c.rest rest) :
    register.run.Finds (fun y => y.unspanned = x.unspanned) c rest :=
  finds_registerTo x hx (by simp [Cursor.budget]) hsolid h

/-! ## The operands of an instruction -/

theorem fits_ne_missing {kind : Kind} {x : Operand} (hx : x.fits kind = true) :
    x ≠ .missing := by
  rintro rfl
  cases kind <;> contradiction

theorem sound_operandOf (kind : Kind) :
    (operandOf kind).run.Sound (·.fits kind = true) Operand.tokens := by
  cases kind with
  | register => exact sound_register
  | address => exact sound_address
  | value => exact sound_value
  | other _ => exact sound_value

/-- Whether a kind is one of those whose operands may be followed by anything. -/
def endsAnywhere (kind : Kind) : Bool := kind = .register || kind = .address

theorem finds_operandOf {kind : Kind} (hx : x.fits kind = true) (hsolid : isSolid c.rest = true)
    (h : Reads x.tokens c.rest rest)
    (hrest : endsAnywhere kind = true ∨ NotNext (ascii '(') rest) :
    (operandOf kind).run.Finds (fun y => y.unspanned = x.unspanned) c rest := by
  cases kind with
  | register => exact finds_register hx hsolid h
  | address => exact finds_address hx hsolid h
  | value => exact finds_value hx hsolid h (hrest.resolve_left (by decide))
  | other _ => exact finds_value hx hsolid h (hrest.resolve_left (by simp [endsAnywhere]))

end Grammar

end Gx
