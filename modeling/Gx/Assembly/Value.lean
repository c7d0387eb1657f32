import Gx.Assembly.Error
import Gx.Program.Basic
import Gx.Symbol.Scopes

/-!
# Values of operands

What an operand is worth where an operand of some kind is needed. Nothing is emitted here, and
names are only looked up.
-/

namespace Gx

/-- The value of a digit or letter; letters go on after nine. -/
def digitValue? (b : UInt8) : Option Nat :=
  if ascii '0' ≤ b ∧ b ≤ ascii '9' then some (b.toNat - 48)
  else if ascii 'a' ≤ b ∧ b ≤ ascii 'z' then some (b.toNat - 87)
  else if ascii 'A' ≤ b ∧ b ≤ ascii 'Z' then some (b.toNat - 55)
  else none

namespace Numeral

/-- The number that digits spell when `n` has been read in front of them. -/
def readFrom (radix : Nat) : Nat → Bytes → Option Nat
  | n, [] => some n
  | n, b :: rest =>
      match digitValue? b with
      | some d => if d < radix then readFrom radix (n * radix + d) rest else none
      | none => none

/-- The least number that does not fit 64 bits. -/
def tooGreat : Nat := 0x1_0000_0000_0000_0000

/-- Digits that choose their base themselves, without what they choose it by. -/
structure Spelling where
  base : Nat
  digits : Bytes
  /-- Whether the base is chosen by something in front of the digits. -/
  marked : Bool

/-- The base that a letter behind a leading zero chooses. -/
def markedBase? (b : UInt8) : Option Nat :=
  if b = ascii 'b' ∨ b = ascii 'B' then some 2
  else if b = ascii 'o' ∨ b = ascii 'O' then some 8
  else if b = ascii 'x' ∨ b = ascii 'X' then some 16
  else none

/-- A leading zero chooses base 8, or with a letter behind it the base of the letter, if more
follows. All else is decimal. -/
def spelling : Bytes → Spelling
  | [] => ⟨10, [], false⟩
  | first :: rest =>
      if first = ascii '0' then
        match rest.head?.bind markedBase? with
        | some base => if rest.tail = [] then ⟨8, rest, true⟩ else ⟨base, rest.tail, true⟩
        | none => ⟨8, rest, true⟩
      else ⟨10, first :: rest, false⟩

/-- Whether every underscore stands between two bytes that are none. `follows` says whether there is
such a byte in front. -/
def separated : (follows : Bool) → Bytes → Bool
  | follows, [] => follows
  | follows, b :: rest =>
      if b = ascii '_' then follows && separated false rest else separated true rest

/-- The number that digits spell in the base they choose. Underscores may stand between digits, and
between the digits and what chooses the base. -/
def Spelling.read (s : Spelling) : Option Nat :=
  if separated s.marked s.digits then
    readFrom s.base 0 (s.digits.filter (· ≠ ascii '_'))
  else none

/-- The number a numeral stands for. There must be digits, all of them of the base, the base lies
between 2 and 36, and the number fits 64 bits. With the base 0 the digits choose the base: `0b` in
front stands for 2, `0o` or a mere zero for 8, `0x` for 16 and nothing for 10, and the digits may be
separated by underscores. -/
def number? (n : Numeral) : Option Nat :=
  if n.digits = [] then none
  else if n.radix = 0 then (spelling n.digits).read.filter (· < tooGreat)
  else if 2 ≤ n.radix ∧ n.radix ≤ 36 then
    (readFrom n.radix.toNat 0 n.digits).filter (· < tooGreat)
  else none

/-- The number as an operand of some kind. Values fit a byte, registers exist, and everything fits
a word. -/
def valueAs (n : Numeral) (kind : Kind) : Except EncodeError UInt16 :=
  match n.number? with
  | none => .error (.unreadable n.digits n.radix)
  | some v =>
      if v > EncodeError.greatestWord then .error (.outOfRange v EncodeError.greatestWord)
      else if kind = .register ∧ v > maxRegister then .error (.noSuchRegister v)
      else if kind = .value ∧ v > 0xFF then .error (.outOfRange v 0xFF)
      else .ok (UInt16.ofNat v)

end Numeral

def RegisterName.number : RegisterName → Except EncodeError UInt16
  | .high => .ok (UInt16.ofNat highRegister)
  | .remainder => .ok (UInt16.ofNat remainderRegister)
  | .numbered n => n.valueAs .register

/-- One byte of an address. -/
def Half.select : Half → UInt16 → UInt16
  | .hi, a => a >>> 8
  | .lo, a => a &&& 0xFF

/-- The value of an operand where one of the given kind is needed. -/
def Operand.value (scopes : Scopes) : Operand → Kind → Except EncodeError UInt16
  | .number n, kind => n.valueAs kind
  | .name _ n, kind =>
      match scopes.lookup n [kind] with
      | .ok sym => .ok sym.value
      | .error e => .error (.scope e)
  | .half _ h address, kind =>
      if kind = .value then
        match address.value scopes .address with
        | .ok a => .ok (h.select a)
        | .error e => .error e
      else .error (.halfUsedAs kind)
  | .text _ _, kind => .error (.textUsedAs kind)
  | .register _ r, kind =>
      if kind = .register then r.number else .error (.registerUsedAs kind)
  | .load _ target _, kind => target.value scopes kind
  | .fetch _ target _, kind => target.value scopes kind
  | .missing, _ => .error .missingOperand

end Gx
