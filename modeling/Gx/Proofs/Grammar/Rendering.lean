import Gx.Program.Basic
import Mathlib.Tactic

/-!
# How programs are written

A program is written as the row of its tokens.  Blank and comments may stand in front of every token
and at the end of the text.  All of this is said here without regard to how a text is read:
`nameLetters` and `digitBytes` are the alphabets, `Token.Spells` gives the spellings of a token,
`Gap` the blank, `Statement.tokens` the tokens of a statement, and `Renders` puts them together.
-/

namespace Gx

/-! ## Tokens -/

inductive Token where
  /-- A keyword, a mnemonic, `lo` or `hi`. -/
  | word (w : Bytes)
  | name (n : Bytes)
  | number (radix : Int) (digits : Bytes)
  | text (value : Bytes)
  /-- A register that a letter stands for, with its percent sign. -/
  | letter (l : UInt8)
  /-- A register number with its percent sign. -/
  | register (radix : Int) (digits : Bytes)
  /-- A name with its colon. -/
  | label (n : Bytes)
  | mark (b : UInt8)
  deriving DecidableEq

/-- The lower case of an ASCII letter. -/
def lowerByte (b : UInt8) : UInt8 :=
  if ascii 'A' ≤ b ∧ b ≤ ascii 'Z' then b + 32 else b

/-- What names start with. -/
def nameLetters : Bytes := utf8 "_abcdefghijklmnopqrstuvwxyzABCDEFGHIJKLMNOPQRSTUVWXYZ"

def decimalDigits : Bytes := utf8 "0123456789"

/-- What names go on with. -/
def nameBytes : Bytes := nameLetters ++ decimalDigits

def isName (n : Bytes) : Bool :=
  n.head?.any nameLetters.contains && n.all nameBytes.contains

/-- The digits of a base. -/
def digitBytes (radix : Int) : Bytes :=
  if radix = 10 then decimalDigits
  else if radix = 16 then decimalDigits ++ utf8 "abcdefABCDEF"
  else if radix = 2 then utf8 "01"
  else []

/-- What may stand in front of the digits. -/
def radixMarkers (radix : Int) : List Bytes :=
  if radix = 10 then [[]]
  else if radix = 16 then [utf8 "0x", utf8 "0X"]
  else if radix = 2 then [utf8 "0b", utf8 "0B"]
  else []

/-- A number of the given base and digits is written as `b`. -/
def WrittenNumber (radix : Int) (digits b : Bytes) : Prop :=
  digits ≠ [] ∧ (∀ d ∈ digits, d ∈ digitBytes radix) ∧
    ∃ marker ∈ radixMarkers radix, b = marker ++ digits

/-- The letters that may follow a backslash, and the bytes they stand for. -/
def escapes : List (UInt8 × UInt8) :=
  [(ascii 'n', 0x0A), (ascii 'r', 0x0D), (ascii 't', 0x09), (ascii '0', 0x00), (0x5C, 0x5C),
    (0x22, 0x22)]

/-- The text `value` is written as `body` between its quotes. -/
inductive WrittenText : (value body : Bytes) → Prop where
  | nil : WrittenText [] []
  | plain {b : UInt8} {value body : Bytes} (hquote : b ≠ 0x22) (hescape : b ≠ 0x5C)
      (hline : b ≠ 0x0A) (rest : WrittenText value body) : WrittenText (b :: value) (b :: body)
  | escape {letter b : UInt8} {value body : Bytes} (hletter : (letter, b) ∈ escapes)
      (rest : WrittenText value body) : WrittenText (b :: value) (0x5C :: letter :: body)

/-- The punctuation of programs. -/
def marks : Bytes := utf8 "()[]\x7b\x7d:,"

/-- The token is written as `b`. -/
def Token.Spells : Token → Bytes → Prop
  | .word w, b => isName b = true ∧ b.map lowerByte = w
  | .name n, b => isName n = true ∧ b = n
  | .number radix digits, b => WrittenNumber radix digits b
  | .text value, b => ∃ body, WrittenText value body ∧ b = 0x22 :: body ++ [0x22]
  | .letter l, b => ∃ c, lowerByte c = l ∧ b = [ascii '%', c]
  | .register radix digits, b => ∃ n, WrittenNumber radix digits n ∧ b = ascii '%' :: n
  | .label n, b =>
      isName n = true ∧
        ∃ spaces : Bytes, (∀ s ∈ spaces, s = 0x20 ∨ s = 0x09) ∧ b = n ++ spaces ++ [ascii ':']
  | .mark m, b => m ∈ marks ∧ b = [m]

/-- Tokens behind which an identifier must not go on. -/
def Token.isOpen : Token → Bool
  | .word _ | .name _ | .number _ _ | .letter _ | .register _ _ => true
  | .text _ | .label _ | .mark _ => false

def startsName (t : Bytes) : Bool := t.head?.any nameBytes.contains

/-- The text `t` starts with the token, and `rest` is what follows. -/
def Token.Heads (k : Token) (t rest : Bytes) : Prop :=
  ∃ b, k.Spells b ∧ t = b ++ rest ∧ (k.isOpen = true → startsName rest = false)

/-! ## Blank -/

def isSpace (b : UInt8) : Bool := b == 0x20 || b == 0x09 || b == 0x0D || b == 0x0A

/-- The text `t` is blank up to `rest`.  A comment goes up to the end of its line, or of the
text. -/
inductive Gap : (t rest : Bytes) → Prop where
  | nil (t : Bytes) : Gap t t
  | space {b : UInt8} {t rest : Bytes} (hspace : isSpace b = true) (h : Gap t rest) :
      Gap (b :: t) rest
  | comment {body t rest : Bytes} (hbody : 0x0A ∉ body) (hend : t = [] ∨ t.head? = some 0x0A)
      (h : Gap t rest) : Gap (ascii ';' :: body ++ t) rest

/-- The tokens stand at the front of `t`, each behind a gap, and `rest` is what follows. -/
def Reads : List Token → Bytes → Bytes → Prop
  | [], t, rest => t = rest
  | k :: ks, t, rest => ∃ u v, Gap t u ∧ k.Heads u v ∧ Reads ks v rest

/-- The text consists of the tokens. -/
def Renders (ks : List Token) (t : Bytes) : Prop :=
  ∃ rest, Reads ks t rest ∧ Gap rest []

/-! ## Programs -/

def Half.word : Half → Bytes
  | .lo => utf8 "lo"
  | .hi => utf8 "hi"

def RegisterName.token : RegisterName → Token
  | .high => .letter (ascii 'h')
  | .remainder => .letter (ascii 'r')
  | .numbered n => .register n.radix n.digits

def Operand.tokens : Operand → List Token
  | .number n => [.number n.radix n.digits]
  | .name _ n => [.name n]
  | .half _ side address =>
      .word side.word :: .mark (ascii '(') :: address.tokens ++ [.mark (ascii ')')]
  | .text _ value => [.text value]
  | .register _ r => [r.token]
  | .load _ target value =>
      .mark (ascii '(') :: target.tokens ++ .mark (ascii ':') :: value.tokens ++
        [.mark (ascii ')')]
  | .fetch _ target address =>
      .mark (ascii '[') :: target.tokens ++ .mark (ascii ':') :: address.tokens ++
        [.mark (ascii ']')]
  | .missing => []

/-- The tokens of items with commas between them. -/
def Operand.listTokens : List Operand → List Token
  | [] => []
  | first :: rest => first.tokens ++ rest.flatMap fun x => .mark (ascii ',') :: x.tokens

mutual

def Statement.tokens : Statement → List Token
  | .label _ n => [.label n]
  | .block _ body => .mark (ascii '\x7b') :: tokensOf body ++ [.mark (ascii '\x7d')]
  | .instruction _ i operands => .word i.name :: operands.flatMap Operand.tokens
  | .data _ items => .word (utf8 "dat") :: Operand.listTokens items
  | .words _ items => .word (utf8 "datl") :: Operand.listTokens items
  | .defineValue _ n x => .word (utf8 "val") :: .name n :: x.tokens
  | .defineAddress _ n x => .word (utf8 "addr") :: .name n :: x.tokens
  | .defineRegister _ n x => .word (utf8 "reg") :: .name n :: x.tokens
  | .missing => []

def Statement.tokensOf : List Statement → List Token
  | [] => []
  | x :: rest => x.tokens ++ tokensOf rest

end

/-! ## Which trees can be written -/

def Operand.isAddress : Operand → Bool
  | .number _ | .name _ _ => true
  | _ => false

def Operand.isValue : Operand → Bool
  | .number _ | .name _ _ => true
  | .half _ _ address => address.isAddress
  | _ => false

def Operand.isDataItem : Operand → Bool
  | .text _ _ => true
  | x => x.isValue

def Operand.isRegister : Operand → Bool
  | .name _ _ | .register _ _ => true
  | .load _ target value => target.isRegister && value.isValue
  | .fetch _ target address => target.isRegister && address.isAddress
  | _ => false

/-- Whether the operand can be one of the given kind. -/
def Operand.fits : Kind → Operand → Bool
  | .register, x => x.isRegister
  | .address, x => x.isAddress
  | _, x => x.isValue

/-- Whether there is one fitting operand for each kind. -/
def Operand.allFit : List Kind → List Operand → Bool
  | [], [] => true
  | kind :: kinds, x :: rest => x.fits kind && allFit kinds rest
  | _, _ => false

mutual

/-- Whether the statement has the parts that the grammar asks for. -/
def Statement.isGrammatical : Statement → Bool
  | .label _ _ => true
  | .block _ body => areGrammatical body
  | .instruction _ i operands =>
      Instruction.table.contains i && Operand.allFit i.operands operands
  | .data _ items => !items.isEmpty && items.all Operand.isDataItem
  | .words _ items => !items.isEmpty && items.all Operand.isAddress
  | .defineValue _ _ x => x.isValue
  | .defineAddress _ _ x => x.isAddress
  | .defineRegister _ _ x => x.isRegister
  | .missing => false

def Statement.areGrammatical : List Statement → Bool
  | [] => true
  | x :: rest => x.isGrammatical && areGrammatical rest

end

/-! ## Trees without positions -/

def Numeral.unspanned (n : Numeral) : Numeral := { n with span := {} }

def RegisterName.unspanned : RegisterName → RegisterName
  | .numbered n => .numbered n.unspanned
  | r => r

def Operand.unspanned : Operand → Operand
  | .number n => .number n.unspanned
  | .name _ n => .name {} n
  | .half _ side address => .half {} side address.unspanned
  | .text _ value => .text {} value
  | .register _ r => .register {} r.unspanned
  | .load _ target value => .load {} target.unspanned value.unspanned
  | .fetch _ target address => .fetch {} target.unspanned address.unspanned
  | .missing => .missing

mutual

def Statement.unspanned : Statement → Statement
  | .label _ n => .label {} n
  | .block _ body => .block {} (unspannedAll body)
  | .instruction _ i operands => .instruction {} i (operands.map Operand.unspanned)
  | .data _ items => .data {} (items.map Operand.unspanned)
  | .words _ items => .words {} (items.map Operand.unspanned)
  | .defineValue _ n x => .defineValue {} n x.unspanned
  | .defineAddress _ n x => .defineAddress {} n x.unspanned
  | .defineRegister _ n x => .defineRegister {} n x.unspanned
  | .missing => .missing

def Statement.unspannedAll : List Statement → List Statement
  | [] => []
  | x :: rest => x.unspanned :: unspannedAll rest

end

theorem Operand.tokens_unspanned (x : Operand) : x.unspanned.tokens = x.tokens := by
  induction x with
  | half _ _ _ ih => simp [unspanned, tokens, ih]
  | register _ r => cases r <;> rfl
  | load _ _ _ iht ihv => simp [unspanned, tokens, iht, ihv]
  | fetch _ _ _ iht iha => simp [unspanned, tokens, iht, iha]
  | _ => rfl

theorem Operand.flatMap_tokens_unspanned (items : List Operand) :
    (items.map Operand.unspanned).flatMap Operand.tokens = items.flatMap Operand.tokens := by
  simp [List.flatMap_map, tokens_unspanned]

theorem Operand.listTokens_unspanned (items : List Operand) :
    Operand.listTokens (items.map Operand.unspanned) = Operand.listTokens items := by
  cases items with
  | nil => rfl
  | cons first rest => simp [listTokens, List.flatMap_map, tokens_unspanned]

theorem Operand.isAddress_unspanned (x : Operand) : x.unspanned.isAddress = x.isAddress := by
  cases x <;> rfl

theorem Operand.isValue_unspanned (x : Operand) : x.unspanned.isValue = x.isValue := by
  cases x with
  | half _ _ address => exact address.isAddress_unspanned
  | _ => rfl

theorem Operand.isDataItem_unspanned (x : Operand) : x.unspanned.isDataItem = x.isDataItem := by
  cases x with
  | half _ _ address => exact address.isAddress_unspanned
  | _ => rfl

theorem Operand.isRegister_unspanned (x : Operand) : x.unspanned.isRegister = x.isRegister := by
  induction x with
  | load _ _ _ ih _ => simp [unspanned, isRegister, ih, isValue_unspanned]
  | fetch _ _ _ ih _ => simp [unspanned, isRegister, ih, isAddress_unspanned]
  | _ => rfl

theorem Operand.allFit_unspanned (kinds : List Kind) (operands : List Operand) :
    Operand.allFit kinds (operands.map Operand.unspanned) = Operand.allFit kinds operands := by
  induction kinds generalizing operands with
  | nil => cases operands <;> rfl
  | cons kind kinds ih =>
      cases operands with
      | nil => rfl
      | cons x rest =>
          have hfits : x.unspanned.fits kind = x.fits kind := by
            cases kind <;>
              simp [fits, isRegister_unspanned, isAddress_unspanned, isValue_unspanned]
          simp only [List.map_cons, allFit, hfits, ih]

namespace Statement

mutual

theorem tokens_unspanned (x : Statement) : x.unspanned.tokens = x.tokens := by
  cases x with
  | block _ body => simp only [unspanned, tokens, tokensOf_unspannedAll body]
  | instruction _ i operands =>
      simp only [unspanned, tokens, Operand.flatMap_tokens_unspanned]
  | data _ items => simp only [unspanned, tokens, Operand.listTokens_unspanned]
  | words _ items => simp only [unspanned, tokens, Operand.listTokens_unspanned]
  | defineValue _ _ x => simp only [unspanned, tokens, Operand.tokens_unspanned]
  | defineAddress _ _ x => simp only [unspanned, tokens, Operand.tokens_unspanned]
  | defineRegister _ _ x => simp only [unspanned, tokens, Operand.tokens_unspanned]
  | _ => rfl

/-- Positions do not matter for how a program is written. -/
theorem tokensOf_unspannedAll (body : List Statement) :
    tokensOf (unspannedAll body) = tokensOf body := by
  cases body with
  | nil => rfl
  | cons x rest =>
      simp only [unspannedAll, tokensOf, tokens_unspanned x, tokensOf_unspannedAll rest]

end

mutual

theorem isGrammatical_unspanned (x : Statement) :
    x.unspanned.isGrammatical = x.isGrammatical := by
  cases x with
  | block _ body => simp only [unspanned, isGrammatical, areGrammatical_unspannedAll body]
  | instruction _ i operands => simp only [unspanned, isGrammatical, Operand.allFit_unspanned]
  | data _ items =>
      simp [unspanned, isGrammatical, Function.comp_def, Operand.isDataItem_unspanned]
  | words _ items =>
      simp [unspanned, isGrammatical, Function.comp_def, Operand.isAddress_unspanned]
  | defineValue _ _ x => exact x.isValue_unspanned
  | defineAddress _ _ x => exact x.isAddress_unspanned
  | defineRegister _ _ x => exact x.isRegister_unspanned
  | _ => rfl

theorem areGrammatical_unspannedAll (body : List Statement) :
    areGrammatical (unspannedAll body) = areGrammatical body := by
  cases body with
  | nil => rfl
  | cons x rest =>
      simp only [unspannedAll, areGrammatical, isGrammatical_unspanned x,
        areGrammatical_unspannedAll rest]

end

end Statement

end Gx
