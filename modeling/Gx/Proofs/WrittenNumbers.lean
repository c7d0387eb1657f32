import Gx.Proofs.Numerals

/-!
# Written numbers

A number is written digit by digit, with zeros in front where a least number of places is asked for.
Read by their places, the digits give the number back, so that it is never mistaken for another one.
-/

namespace Gx

/-- `text` shows `n`: digits in lower case, with zeros in front only as far as they are needed to
fill `width` places. -/
structure Spells (base width : Nat) (text : Bytes) (n : Nat) : Prop where
  digits : ∀ b ∈ text, b ∈ (utf8 "0123456789abcdef").take base
  value : positional base text = n
  width_le : width ≤ text.length
  tight : width < text.length → text.head? ≠ some (ascii '0')

theorem digitOf_zero : digitOf (ascii '0') = 0 := by decide

theorem positional_singleton (radix : Nat) (b : UInt8) : positional radix [b] = digitOf b := by
  simp [positional]

theorem positional_concat (radix : Nat) (digits : Bytes) (b : UInt8) :
    positional radix (digits ++ [b]) = positional radix digits * radix + digitOf b := by
  unfold positional
  rw [List.reverse_concat, List.map_cons, Nat.ofDigits_cons]
  ring

theorem positional_zeros (radix k : Nat) (digits : Bytes) :
    positional radix (List.replicate k (ascii '0') ++ digits) = positional radix digits := by
  induction k with
  | zero => rfl
  | succ k ih =>
      rw [List.replicate_succ, List.cons_append, positional_cons, digitOf_zero, ih, Nat.zero_mul,
        Nat.zero_add]

namespace Text

/-- The digit that stands for a number below the base. -/
def digitByte (d : Nat) : UInt8 := (Nat.digitChar d).toUInt8

theorem digitByte_spec : ∀ d < 16,
    digitOf (digitByte d) = d ∧ (utf8 "0123456789abcdef")[d]? = some (digitByte d) := by
  decide

theorem digits_eq {base : Nat} (hbase : 1 < base) (n : Nat) :
    digits base n =
      if n < base then [digitByte n] else digits base (n / base) ++ [digitByte (n % base)] := by
  unfold digits
  rw [Nat.toDigits_eq_if hbase]
  split <;> simp [digitByte]

end Text

open Text

namespace Spells

variable {base width d n : Nat} {text : Bytes}

theorem notMem (h : Spells base width text n) {b : UInt8}
    (hb : b ∉ (utf8 "0123456789abcdef").take base) : b ∉ text :=
  fun hmem => hb (h.digits b hmem)

theorem mem_alphabet (hbase : base ≤ 16) (hd : d < base) :
    digitByte d ∈ (utf8 "0123456789abcdef").take base := by
  apply List.mem_of_getElem? (i := d)
  rw [List.getElem?_take_of_lt hd]
  exact (digitByte_spec d (by omega)).2

theorem single (hbase : base ≤ 16) (hd : d < base) : Spells base 1 [digitByte d] d where
  digits := by
    intro b hb
    rw [List.mem_singleton.mp hb]
    exact mem_alphabet hbase hd
  value := by rw [positional_singleton, (digitByte_spec d (by omega)).1]
  width_le := le_rfl
  tight hlong := absurd hlong (lt_irrefl 1)

theorem ne_nil (h : Spells base 1 text n) : text ≠ [] :=
  List.ne_nil_of_length_pos h.width_le

theorem head_ne_zero (h : Spells base 1 text n) (hn : 0 < n) : text.head? ≠ some (ascii '0') := by
  rcases eq_or_lt_of_le h.width_le with hone | hmore
  · obtain ⟨b, rfl⟩ := List.length_eq_one_iff.mp hone.symm
    have hvalue := h.value
    rw [positional_singleton] at hvalue
    intro hzero
    rw [List.head?_cons, Option.some.injEq] at hzero
    rw [hzero, digitOf_zero] at hvalue
    omega
  · exact h.tight hmore

theorem concat (h : Spells base 1 text n) (hn : 0 < n) (hbase : base ≤ 16) (hd : d < base) :
    Spells base 1 (text ++ [digitByte d]) (n * base + d) where
  digits := by
    intro b hb
    rcases List.mem_append.mp hb with hfront | hlast
    · exact h.digits b hfront
    · rw [List.mem_singleton.mp hlast]
      exact mem_alphabet hbase hd
  value := by rw [positional_concat, h.value, (digitByte_spec d (by omega)).1]
  width_le := by simp
  tight _ := by
    rw [List.head?_append_of_ne_nil _ h.ne_nil]
    exact h.head_ne_zero hn

/-- Zeros in front fill up the places that are missing. -/
theorem leftpad (h : Spells base 1 text n) (hbase : 0 < base) (hwidth : 0 < width) :
    Spells base width (text.leftpad width (ascii '0')) n where
  digits := by
    intro b hb
    rcases List.mem_append.mp hb with hpad | hdigit
    · rw [List.eq_of_mem_replicate hpad]
      apply List.mem_of_getElem? (i := 0)
      rw [List.getElem?_take_of_lt hbase]
      rfl
    · exact h.digits b hdigit
  value := by rw [List.leftpad, positional_zeros, h.value]
  width_le := by
    rw [List.length_leftpad]
    exact le_max_left _ _
  tight := by
    intro hlong
    rw [List.length_leftpad, lt_max_iff] at hlong
    have hlength : width < text.length := hlong.resolve_left (lt_irrefl width)
    rw [List.leftpad, Nat.sub_eq_zero_of_le hlength.le]
    exact h.tight (by omega)

theorem of_digits (hone : 1 < base) (hbase : base ≤ 16) (n : Nat) :
    Spells base 1 (Text.digits base n) n := by
  induction n using Nat.strong_induction_on with
  | _ n ih =>
      rw [digits_eq hone]
      split
      next hlt => exact single hbase hlt
      next hle =>
        have hfront := ih (n / base) (Nat.div_lt_self (by omega) hone)
        have hlast : n % base < base := Nat.mod_lt n (by omega)
        have hstep := hfront.concat (Nat.div_pos (by omega) (by omega)) hbase hlast
        rwa [Nat.div_add_mod'] at hstep

theorem decimal (n : Nat) : Spells 10 1 (Text.decimal n) n :=
  of_digits (by decide) (by decide) n

theorem hex (hwidth : 0 < width) (n : Nat) : Spells 16 width (Text.hex width n) n :=
  (of_digits (by decide) le_rfl n).leftpad (by decide) hwidth

end Spells

/-- `text` shows an address: four digits or more behind the marker. -/
def SpellsAddress (text : Bytes) (n : Nat) : Prop :=
  ∃ digits, text = utf8 "0x" ++ digits ∧ Spells 16 4 digits n

theorem SpellsAddress.address (n : Nat) : SpellsAddress (Text.address n) n :=
  ⟨Text.hex 4 n, rfl, Spells.hex (by decide) n⟩

theorem Text.length_hex_two (b : UInt8) : (Text.hex 2 b.toNat).length = 2 := by
  have hdigits : (Nat.toDigits 16 b.toNat).length ≤ 2 :=
    Nat.toDigits_length 16 b.toNat 2 (by decide) b.toNat_lt
  rw [Text.hex, List.length_leftpad, Text.digits, List.length_map]
  exact max_eq_left hdigits

end Gx
