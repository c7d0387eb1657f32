import Gx.Assembly.Value
import Gx.Proofs.Grammar.Lexer

/-!
# What a number literal is worth

The digits of a literal mean a number by their places.  Reading them from left to right gives this
number, however many there are and however many zeros stand in front.  A word of 64 bits is enough
on the way, if every step is tested for an overflow: what does not fit is refused and never wraps
around.  Then the use decides which numbers are accepted.
-/

namespace Gx

/-! ## Places -/

/-- The value of a digit of a base up to 16, in either case. -/
def digitOf (b : UInt8) : Nat :=
  (utf8 "0123456789abcdef").idxOf (lowerByte b)

/-- The sum of the digits, each times the power of the base that belongs to its place. -/
def positional (radix : Nat) (digits : Bytes) : Nat :=
  Nat.ofDigits radix (digits.reverse.map digitOf)

theorem positional_cons (radix : Nat) (b : UInt8) (digits : Bytes) :
    positional radix (b :: digits) =
      digitOf b * radix ^ digits.length + positional radix digits := by
  unfold positional
  rw [List.reverse_cons, List.map_append, Nat.ofDigits_append]
  simp only [List.map_cons, List.map_nil, Nat.ofDigits_singleton, List.length_map,
    List.length_reverse]
  ring

theorem digit_values : ∀ b : UInt8, ∀ radix ∈ [2, 10, 16], isDigitOf radix b = true →
    digitValue? b = some (digitOf b) ∧ digitOf b < radix :=
  forall_byte (by decide +kernel)

namespace Numeral

/-- Literals are written in three bases, with digits of the base. -/
structure IsWritten (radix : Nat) (digits : Bytes) : Prop where
  base : radix ∈ [2, 10, 16]
  all : ∀ b ∈ digits, isDigitOf radix b = true

section

variable {radix : Nat} {b : UInt8} {digits : Bytes}

theorem IsWritten.tail (h : IsWritten radix (b :: digits)) : IsWritten radix digits :=
  ⟨h.base, fun d hd => h.all d (List.mem_cons_of_mem _ hd)⟩

theorem IsWritten.head (h : IsWritten radix (b :: digits)) :
    digitValue? b = some (digitOf b) ∧ digitOf b < radix :=
  digit_values b radix h.base (h.all b List.mem_cons_self)

theorem IsWritten.bounds (h : IsWritten radix digits) : 2 ≤ radix ∧ radix ≤ 16 := by
  have hbase := h.base
  simp only [List.mem_cons, List.not_mem_nil, or_false] at hbase
  omega

theorem readFrom_eq (h : IsWritten radix digits) (n : Nat) :
    readFrom radix n digits = some (n * radix ^ digits.length + positional radix digits) := by
  induction digits generalizing n with
  | nil => simp [readFrom, positional]
  | cons b digits ih =>
      obtain ⟨hvalue, hlt⟩ := h.head
      rw [readFrom, hvalue]
      simp only [if_pos hlt]
      rw [ih h.tail, positional_cons, List.length_cons, pow_succ]
      congr 1
      ring

theorem filter_lt_tooGreat (v : Nat) :
    (some v).filter (· < tooGreat) = if v < 2 ^ 64 then some v else none := by
  by_cases hlt : v < 2 ^ 64
  · rw [if_pos hlt]
    exact Option.filter_some_pos (decide_eq_true hlt)
  · rw [if_neg hlt]
    exact Option.filter_some_neg (decide_eq_false hlt)

theorem filter_readFrom (h : IsWritten radix digits) :
    (readFrom radix 0 digits).filter (· < tooGreat) =
      if positional radix digits < 2 ^ 64 then some (positional radix digits) else none := by
  rw [readFrom_eq h, Nat.zero_mul, Nat.zero_add, filter_lt_tooGreat]

end

theorem number?_of_base {n : Numeral} (htwo : 2 ≤ n.radix) (hmost : n.radix ≤ 36)
    (hne : n.digits ≠ []) :
    n.number? = (readFrom n.radix.toNat 0 n.digits).filter (· < tooGreat) := by
  unfold number?
  rw [if_neg hne, if_neg (by omega), if_pos ⟨htwo, hmost⟩]

theorem number?_eq {n : Numeral} {radix : Nat} (hradix : n.radix = radix)
    (h : IsWritten radix n.digits) (hne : n.digits ≠ []) :
    n.number? =
      if positional radix n.digits < 2 ^ 64 then some (positional radix n.digits) else none := by
  have hbounds := h.bounds
  rw [number?_of_base (by omega) (by omega) hne, hradix, Int.toNat_natCast, filter_readFrom h]

/-! ## Digits that choose their base -/

theorem spelling_base_bounds (digits : Bytes) :
    2 ≤ (spelling digits).base ∧ (spelling digits).base ≤ 16 := by
  fun_cases spelling digits with
  | case1 => simp
  | case2 rest base hmarked hnone => simp
  | case3 rest base hmarked hmore =>
      obtain ⟨b, _, hbase⟩ := Option.bind_eq_some_iff.mp hmarked
      unfold markedBase? at hbase
      grind
  | case4 rest hnone => simp
  | case5 first rest hfirst => simp

/-- No two underscores stand side by side and none at the end.  One may stand at the
front only behind something else. -/
theorem separated_iff {digits : Bytes} (hne : digits ≠ []) (follows : Bool) :
    separated follows digits = true ↔
      (digits.head? = some (ascii '_') → follows = true) ∧
      digits.IsChain (fun a b => ¬(a = ascii '_' ∧ b = ascii '_')) ∧
      digits.getLast? ≠ some (ascii '_') := by
  induction digits generalizing follows with
  | nil => exact absurd rfl hne
  | cons b rest ih =>
      rw [separated]
      cases rest with
      | nil => by_cases hb : b = ascii '_' <;> simp [separated, hb]
      | cons c rest =>
          rw [List.isChain_cons_cons, List.getLast?_cons_cons]
          by_cases hb : b = ascii '_'
          · rw [if_pos hb, Bool.and_eq_true, ih (by simp) false]
            simp only [hb, List.head?_cons, Option.some.injEq, true_and]
            tauto
          · rw [if_neg hb, ih (by simp) true]
            simp [hb]

/-- With the base 0, digits mean what they mean in the base that they choose, without the
underscores between them. -/
theorem number?_of_base_zero {n : Numeral} {s : Spelling} (hzero : n.radix = 0)
    (hspelling : spelling n.digits = s) (hne : s.digits.filter (· ≠ ascii '_') ≠ []) :
    n.number? =
      if separated s.marked s.digits then
        number? { n with digits := s.digits.filter (· ≠ ascii '_'), radix := s.base }
      else none := by
  have hdigits : n.digits ≠ [] := by
    rintro hnil
    rw [hnil] at hspelling
    subst hspelling
    exact hne rfl
  have hchosen : (2 : Int) ≤ s.base ∧ (s.base : Int) ≤ 36 := by
    have hbounds := spelling_base_bounds n.digits
    rw [hspelling] at hbounds
    omega
  have hread := number?_of_base (n := ⟨n.span, _, _⟩) hchosen.1 hchosen.2 hne
  rw [hread, number?, if_neg hdigits, if_pos hzero, hspelling, Spelling.read]
  split <;> rfl

example : (⟨{}, utf8 "0X1_f", 0⟩ : Numeral).number? = some 0x1F ∧
    (⟨{}, utf8 "0b_10", 0⟩ : Numeral).number? = some 2 ∧
    (⟨{}, utf8 "0_17", 0⟩ : Numeral).number? = some 15 ∧
    (⟨{}, utf8 "0", 0⟩ : Numeral).number? = some 0 ∧
    (⟨{}, utf8 "1__2", 0⟩ : Numeral).number? = none ∧
    (⟨{}, utf8 "0x", 0⟩ : Numeral).number? = none := by decide

/-! ## The same in 64 bits -/

/-- The least number that is too great to be multiplied by the base. -/
def cutoff (radix : UInt64) : UInt64 :=
  0xFFFFFFFFFFFFFFFF / radix + 1

/-- Reads digits into a word of 64 bits, whose arithmetic wraps around.  A step is given up when its
product or its sum would do so. -/
def accumulate (radix : UInt64) : UInt64 → Bytes → Option UInt64
  | n, [] => some n
  | n, b :: rest =>
      let product := n * radix
      let sum := product + UInt64.ofNat (digitOf b)
      if cutoff radix ≤ n ∨ sum < product then none else accumulate radix sum rest

theorem toNat_cutoff {radix : UInt64} (htwo : 2 ≤ radix.toNat) :
    (cutoff radix).toNat = (2 ^ 64 - 1) / radix.toNat + 1 := by
  have hquotient : (0xFFFFFFFFFFFFFFFF / radix : UInt64).toNat = (2 ^ 64 - 1) / radix.toNat := by
    rw [UInt64.toNat_div]
    rfl
  have hsmall : (2 ^ 64 - 1) / radix.toNat ≤ (2 ^ 64 - 1) / 2 :=
    Nat.div_le_div_left htwo (by omega)
  unfold cutoff
  rw [UInt64.toNat_add, hquotient]
  apply Nat.mod_eq_of_lt
  change (2 ^ 64 - 1) / radix.toNat + 1 < 2 ^ 64
  omega

theorem lt_cutoff_iff {radix n : UInt64} (htwo : 2 ≤ radix.toNat) :
    n < cutoff radix ↔ n.toNat * radix.toNat < 2 ^ 64 := by
  rw [UInt64.lt_iff_toNat_lt, toNat_cutoff htwo, Nat.lt_succ_iff,
    Nat.le_div_iff_mul_le (by omega)]
  omega

theorem accumulate_cons {radix n : UInt64} (htwo : 2 ≤ radix.toNat) {b : UInt8}
    (hdigit : digitOf b < 2 ^ 64) (rest : Bytes) :
    accumulate radix n (b :: rest) =
      if n.toNat * radix.toNat + digitOf b < 2 ^ 64 then
        accumulate radix (UInt64.ofNat (n.toNat * radix.toNat + digitOf b)) rest
      else none := by
  rw [accumulate]
  by_cases hproduct : n.toNat * radix.toNat < 2 ^ 64
  · have hfits : (n * radix).toNat = n.toNat * radix.toNat := by
      rw [UInt64.toNat_mul]
      exact Nat.mod_eq_of_lt hproduct
    have hsum : n * radix + UInt64.ofNat (digitOf b) =
        UInt64.ofNat (n.toNat * radix.toNat + digitOf b) := by
      rw [UInt64.ofNat_add, ← hfits, UInt64.ofNat_toNat]
    -- A wrapped sum has lost 2 ^ 64, which is more than the digit has added.
    have hwraps : UInt64.ofNat (n.toNat * radix.toNat + digitOf b) < n * radix ↔
        ¬n.toNat * radix.toNat + digitOf b < 2 ^ 64 := by
      rw [UInt64.lt_iff_toNat_lt, UInt64.toNat_ofNat', hfits]
      omega
    have hcutoff : ¬cutoff radix ≤ n := by
      rw [UInt64.not_le]
      exact (lt_cutoff_iff htwo).mpr hproduct
    rw [hsum]
    simp only [hcutoff, hwraps, false_or, ite_not]
  · have hcutoff : cutoff radix ≤ n := by
      rw [← UInt64.not_lt]
      exact fun hlt => hproduct ((lt_cutoff_iff htwo).mp hlt)
    rw [if_pos (Or.inl hcutoff), if_neg (by omega)]

/-- The tests refuse exactly the numbers that do not fit, and the others are read as they are. -/
theorem accumulate_eq {radix : UInt64} {digits : Bytes} (h : IsWritten radix.toNat digits)
    (n : UInt64) :
    (accumulate radix n digits).map UInt64.toNat =
      (readFrom radix.toNat n.toNat digits).filter (· < tooGreat) := by
  induction digits generalizing n with
  | nil =>
      rw [accumulate, readFrom, Option.map_some, filter_lt_tooGreat, if_pos n.toNat_lt]
  | cons b digits ih =>
      obtain ⟨hvalue, hlt⟩ := h.head
      have hbounds := h.bounds
      rw [accumulate_cons hbounds.1 (by omega), readFrom, hvalue]
      simp only [if_pos hlt]
      split
      next hfits =>
        rw [ih h.tail, UInt64.toNat_ofNat_of_lt' hfits]
      next hgreat =>
        -- The number that has become too great stays so, whatever digits follow.
        have hpower : 1 ≤ radix.toNat ^ digits.length := Nat.one_le_pow _ _ (by omega)
        have hstays := Nat.le_mul_of_pos_right (n.toNat * radix.toNat + digitOf b) hpower
        rw [readFrom_eq h.tail, filter_lt_tooGreat, if_neg (by omega), Option.map_none]

end Numeral

/-! ## Literals -/

theorem Parse.of_numeral {c next : Cursor} {n : Numeral} (h : Parse.numeral c = .ok n next) :
    ∃ radix : Nat, n.radix = radix ∧ Numeral.IsWritten radix n.digits ∧ n.digits ≠ [] ∧
      ∃ marker ∈ radixMarkers n.radix, c.rest = marker ++ n.digits ++ next.rest := by
  obtain ⟨_, hwritten, hc, _⟩ := Parse.heads_of_numeral h
  obtain ⟨hne, hall, marker, hmarker, rfl⟩ := writtenNumber_iff.mp hwritten
  have hall : ∀ b ∈ n.digits, isDigitOf n.radix.toNat b = true := List.all_eq_true.mp hall
  have hradix : ∃ radix : Nat, n.radix = radix ∧ radix ∈ [2, 10, 16] := by
    rcases mem_radixMarkers hmarker with ⟨hten, _⟩ | ⟨hsixteen, _⟩ | ⟨htwo, _⟩
    · exact ⟨10, hten, by decide⟩
    · exact ⟨16, hsixteen, by decide⟩
    · exact ⟨2, htwo, by decide⟩
  obtain ⟨radix, hradix, hbase⟩ := hradix
  rw [hradix, Int.toNat_natCast] at hall
  exact ⟨radix, hradix, ⟨hbase, hall⟩, hne, marker, hmarker, hc⟩

section

variable {n : Numeral} {v : Nat}

/-- A number that fits a word is refused by its use only. -/
theorem Numeral.valueAs_of_le (hnumber : n.number? = some v) (hle : v ≤ 65535) (kind : Kind) :
    n.valueAs kind =
      if kind = .register ∧ 31 < v then .error (.noSuchRegister v)
      else if kind = .value ∧ 255 < v then .error (.outOfRange v 255)
      else .ok (UInt16.ofNat v) := by
  have hword : ¬v > EncodeError.greatestWord := by
    change ¬65535 < v
    omega
  unfold valueAs
  rw [hnumber]
  simp only [if_neg hword]
  rfl

theorem Numeral.valueAs_of_gt (hnumber : n.number? = some v) (hgt : 65535 < v) (kind : Kind) :
    n.valueAs kind = .error (.outOfRange v 65535) := by
  have hword : v > EncodeError.greatestWord := hgt
  unfold valueAs
  rw [hnumber]
  simp only [if_pos hword]
  rfl

end

/-- A literal stands for the number that its digits mean by their places, or it is refused: a
register number above 31, a value above 255, and whatever exceeds a word.  From 2 ^ 64 on, the error
shows the digits in place of the number. -/
theorem number_literal_means_its_positional_value {c next : Cursor} {n : Numeral} {v : Nat}
    (h : Parse.numeral c = .ok n next) (hv : positional n.radix.toNat n.digits = v)
    (scopes : Scopes) :
    (∃ marker ∈ radixMarkers n.radix, c.rest = marker ++ n.digits ++ next.rest) ∧
    (v ≤ 31 → ((Operand.number n).value scopes .register).map UInt16.toNat = .ok v) ∧
    (v ≤ 255 → ((Operand.number n).value scopes .value).map UInt16.toNat = .ok v) ∧
    (v ≤ 65535 → ((Operand.number n).value scopes .address).map UInt16.toNat = .ok v) ∧
    (31 < v → v ≤ 65535 → (Operand.number n).value scopes .register = .error (.noSuchRegister v)) ∧
    (255 < v → v ≤ 65535 → (Operand.number n).value scopes .value = .error (.outOfRange v 255)) ∧
    (∀ kind, 65535 < v → v < 2 ^ 64 →
      (Operand.number n).value scopes kind = .error (.outOfRange v 65535)) ∧
    (∀ kind, 2 ^ 64 ≤ v →
      (Operand.number n).value scopes kind = .error (.unreadable n.digits n.radix)) ∧
    (∀ span, (Operand.register span (.numbered n)).value scopes .register =
      (Operand.number n).value scopes .register) ∧
    (Numeral.accumulate (UInt64.ofNat n.radix.toNat) 0 n.digits).map UInt64.toNat = n.number? := by
  obtain ⟨radix, hradix, hwritten, hne, hliteral⟩ := Parse.of_numeral h
  have hnumber := Numeral.number?_eq hradix hwritten hne
  have htoNat : n.radix.toNat = radix := by rw [hradix, Int.toNat_natCast]
  rw [htoNat] at hv ⊢
  rw [hv] at hnumber
  have hfits : v < 2 ^ 64 → n.number? = some v := fun hlt => by rw [hnumber, if_pos hlt]
  have hsmall : v ≤ 65535 → ∀ kind, (Operand.number n).value scopes kind =
      if kind = .register ∧ 31 < v then .error (.noSuchRegister v)
      else if kind = .value ∧ 255 < v then .error (.outOfRange v 255)
      else .ok (UInt16.ofNat v) :=
    fun hle kind => Numeral.valueAs_of_le (hfits (by omega)) hle kind
  have hword : v ≤ 65535 → (UInt16.ofNat v).toNat = v := fun hle =>
    UInt16.toNat_ofNat_of_lt' (by change v < 65536; omega)
  refine ⟨hliteral, ?_, ?_, ?_, ?_, ?_, ?_, ?_, fun _ => rfl, ?_⟩
  · intro hle
    rw [hsmall (by omega), if_neg (by omega), if_neg (by simp), Except.map, hword (by omega)]
  · intro hle
    rw [hsmall (by omega), if_neg (by simp), if_neg (by omega), Except.map, hword (by omega)]
  · intro hle
    rw [hsmall hle, if_neg (by simp), if_neg (by simp), Except.map, hword hle]
  · intro hgt hle
    rw [hsmall hle, if_pos ⟨rfl, hgt⟩]
  · intro hgt hle
    rw [hsmall hle, if_neg (by simp), if_pos ⟨rfl, hgt⟩]
  · intro kind hgt hlt
    exact Numeral.valueAs_of_gt (hfits hlt) hgt kind
  · intro kind hge
    rw [if_neg (by omega)] at hnumber
    change n.valueAs kind = _
    unfold Numeral.valueAs
    rw [hnumber]
  · have hbounds := hwritten.bounds
    have hword64 : (UInt64.ofNat radix).toNat = radix :=
      UInt64.toNat_ofNat_of_lt' (by change radix < 2 ^ 64; omega)
    have hwritten64 : Numeral.IsWritten (UInt64.ofNat radix).toNat n.digits := by rwa [hword64]
    rw [Numeral.accumulate_eq hwritten64 0, hword64, hnumber, ← hv]
    exact Numeral.filter_readFrom hwritten

/-- Zeros in front change nothing: 31 is a register behind them, and 2 ^ 64 is too much. -/
theorem number_literal_means_its_positional_value_behind_zeros :
    (Parse.numeral ⟨0, utf8 "0X001f"⟩ = .ok ⟨⟨0, 6⟩, utf8 "001f", 16⟩ ⟨6, []⟩ ∧
      ((Operand.number ⟨⟨0, 6⟩, utf8 "001f", 16⟩).value {} .register).map UInt16.toNat = .ok 31) ∧
    Parse.numeral ⟨0, utf8 "0018446744073709551616"⟩ =
        .ok ⟨⟨0, 22⟩, utf8 "0018446744073709551616", 10⟩ ⟨22, []⟩ ∧
      (Operand.number ⟨⟨0, 22⟩, utf8 "0018446744073709551616", 10⟩).value {} .value =
        .error (.unreadable (utf8 "0018446744073709551616") 10) := by
  have hregister : Parse.numeral ⟨0, utf8 "0X001f"⟩ =
      .ok ⟨⟨0, 6⟩, utf8 "001f", 16⟩ ⟨6, []⟩ := by rfl
  have hgreat : Parse.numeral ⟨0, utf8 "0018446744073709551616"⟩ =
      .ok ⟨⟨0, 22⟩, utf8 "0018446744073709551616", 10⟩ ⟨22, []⟩ := by rfl
  obtain ⟨_, hexact, _⟩ :=
    number_literal_means_its_positional_value (v := 31) hregister (by decide) {}
  obtain ⟨_, _, _, _, _, _, _, hrefused, _⟩ :=
    number_literal_means_its_positional_value (v := 2 ^ 64) hgreat (by decide) {}
  exact ⟨⟨hregister, hexact (by decide)⟩, hgreat, hrefused .value (by decide)⟩

end Gx
