import Gx.Grammar.Pattern
import Mathlib.Tactic

/-!
# Runs of a parser

A parser walks over a text by positions.  `Runs` says, rule by rule, what a pattern does at a
position and how it ends there.  No loop and no recursion has a bound on its rounds, so a parser
that goes on forever has no run.  A byte is only looked at where the text is known to have one.

Runs are unique, they end inside of the text, and they never end in front of their start.
-/

namespace Gx

/-- How a parser ends: with success or not, at a position. -/
inductive Ending where
  | ok (pos : Nat)
  | fail (pos : Nat)
  deriving DecidableEq

namespace Ending

def pos : Ending → Nat
  | .ok pos => pos
  | .fail pos => pos

/-- A failure at `here` counts as one at `start`. -/
def rewind (here start : Nat) : Ending → Ending
  | .ok pos => .ok pos
  | .fail pos => .fail (if pos = here then start else pos)

/-- Every failure counts as one at `start`. -/
def restart (start : Nat) : Ending → Ending
  | .ok pos => .ok pos
  | .fail _ => .fail start

end Ending

/-! ## Loops over bytes -/

/-- There is a byte at position `i`, and it satisfies `p`. -/
def HasAt (text : Bytes) (i : Nat) (p : UInt8 → Bool) : Prop :=
  ∃ h : i < text.length, p text[i] = true

instance (text : Bytes) (i : Nat) (p : UInt8 → Bool) : Decidable (HasAt text i p) :=
  inferInstanceAs (Decidable (∃ h : i < text.length, p text[i] = true))

theorem HasAt.lt {text : Bytes} {i : Nat} {p : UInt8 → Bool} (h : HasAt text i p) :
    i < text.length :=
  h.1

/-- From position `i` on, up to the first byte that does not satisfy `p`. -/
inductive Scans (text : Bytes) (p : UInt8 → Bool) : Nat → Nat → Prop where
  | stop {i : Nat} (h : ¬HasAt text i p) : Scans text p i i
  | step {i j : Nat} (h : HasAt text i p) (rest : Scans text p (i + 1) j) : Scans text p i j

/-- Over comments, each up to the end of its line, and the separators behind them. -/
inductive SkipsComments (text : Bytes) (b : Blank) : Nat → Nat → Prop where
  | stop {i : Nat} (h : ¬HasAt text i (b.comment = some ·)) : SkipsComments text b i i
  | comment {i line j k : Nat} (h : HasAt text i (b.comment = some ·))
      (hline : Scans text (· != 0x0A) i line) (hspaces : Scans text b.spaces.bytes.contains line j)
      (rest : SkipsComments text b j k) : SkipsComments text b i k

/-- Over the separators and comments at position `i`. -/
def Skips (text : Bytes) (b : Blank) (i k : Nat) : Prop :=
  ∃ j, Scans text b.spaces.bytes.contains i j ∧ SkipsComments text b j k

/-- Over the bytes of a text from behind its opening quote. -/
inductive RunsText (text : Bytes) : Nat → Ending → Prop where
  | ended {i : Nat} (h : text.length ≤ i) : RunsText text i (.fail i)
  | quote {i : Nat} (h : HasAt text i (· == 0x22)) : RunsText text i (.ok (i + 1))
  | line {i : Nat} (h : HasAt text i (· == 0x0A)) : RunsText text i (.fail i)
  | escape {i : Nat} {o : Ending} (h : HasAt text i (· == 0x5C))
      (hletter : HasAt text (i + 1) fun b => (Parse.unescape b).isSome)
      (rest : RunsText text (i + 2) o) : RunsText text i o
  | badEscape {i : Nat} (h : HasAt text i (· == 0x5C))
      (hletter : ¬HasAt text (i + 1) fun b => (Parse.unescape b).isSome) :
      RunsText text i (.fail (i + 1))
  | byte {i : Nat} {o : Ending} (h : HasAt text i fun b => b != 0x22 && b != 0x0A && b != 0x5C)
      (rest : RunsText text (i + 1) o) : RunsText text i o

section

variable {text : Bytes}

theorem Scans.bounds {p : UInt8 → Bool} {i j : Nat} (h : Scans text p i j)
    (hi : i ≤ text.length) : i ≤ j ∧ j ≤ text.length := by
  induction h with
  | stop => exact ⟨Nat.le_refl _, hi⟩
  | step h _ ih =>
      have hrest := ih h.lt
      omega

theorem Scans.unique {p : UInt8 → Bool} {i j j' : Nat} (h : Scans text p i j)
    (h' : Scans text p i j') : j = j' := by
  induction h with
  | stop h =>
      cases h' with
      | stop => rfl
      | step hp => exact absurd hp h
  | step hp _ ih =>
      cases h' with
      | stop h => exact absurd hp h
      | step _ rest => exact ih rest

theorem SkipsComments.bounds {b : Blank} {i k : Nat} (h : SkipsComments text b i k)
    (hi : i ≤ text.length) : i ≤ k ∧ k ≤ text.length := by
  induction h with
  | stop => exact ⟨Nat.le_refl _, hi⟩
  | comment _ hline hspaces _ ih =>
      have hline := hline.bounds hi
      have hspaces := hspaces.bounds hline.2
      have hrest := ih hspaces.2
      omega

theorem SkipsComments.unique {b : Blank} {i k k' : Nat} (h : SkipsComments text b i k)
    (h' : SkipsComments text b i k') : k = k' := by
  induction h with
  | stop h =>
      cases h' with
      | stop => rfl
      | comment hc => exact absurd hc h
  | comment hc hline hspaces _ ih =>
      cases h' with
      | stop h => exact absurd hc h
      | comment _ hline' hspaces' rest =>
          obtain rfl := hline.unique hline'
          obtain rfl := hspaces.unique hspaces'
          exact ih rest

theorem Skips.bounds {b : Blank} {i k : Nat} (h : Skips text b i k) (hi : i ≤ text.length) :
    i ≤ k ∧ k ≤ text.length := by
  obtain ⟨j, hspaces, hcomments⟩ := h
  have hspaces := hspaces.bounds hi
  have hcomments := hcomments.bounds hspaces.2
  omega

theorem Skips.unique {b : Blank} {i k k' : Nat} (h : Skips text b i k) (h' : Skips text b i k') :
    k = k' := by
  obtain ⟨j, hspaces, hcomments⟩ := h
  obtain ⟨j', hspaces', hcomments'⟩ := h'
  obtain rfl := hspaces.unique hspaces'
  exact hcomments.unique hcomments'

theorem RunsText.bounds {i : Nat} {o : Ending} (h : RunsText text i o) (hi : i ≤ text.length) :
    i ≤ o.pos ∧ o.pos ≤ text.length := by
  induction h with
  | ended => exact ⟨Nat.le_refl _, hi⟩
  | quote h => exact ⟨Nat.le_succ _, h.lt⟩
  | line => exact ⟨Nat.le_refl _, hi⟩
  | escape _ hletter _ ih =>
      have hrest := ih hletter.lt
      omega
  | badEscape h => exact ⟨Nat.le_succ _, h.lt⟩
  | byte h _ ih =>
      have hrest := ih h.lt
      omega

theorem RunsText.unique {i : Nat} {o o' : Ending} (h : RunsText text i o)
    (h' : RunsText text i o') : o = o' := by
  -- What the byte at `i` is, if there is one, decides which rule applies.
  induction h with
  | ended hend => cases h' <;> grind [HasAt]
  | quote h => cases h' <;> grind [HasAt]
  | line h => cases h' <;> grind [HasAt]
  | escape h hletter _ ih => cases h' <;> grind [HasAt]
  | badEscape h hletter => cases h' <;> grind [HasAt]
  | byte h _ ih => cases h' <;> grind [HasAt]

end

/-! ## The rules of the grammar as patterns -/

namespace Pattern

def token (p : Pattern) : Pattern := .spaced .gap p

def mark (bytes : String) : Pattern := token (.literal (utf8 bytes))

/-- A keyword and items with commas between them. -/
def listOf (word : String) (item : Rule) : Pattern :=
  .sequence [.keyword (utf8 word), token (.rule item),
    .many (.sequence [mark ",", token (.rule item)])]

/-- A keyword, a name and what the name stands for. -/
def definitionOf (word : String) (operand : Rule) : Pattern :=
  .sequence [.keyword (utf8 word), token (.rule .name), token (.rule operand)]

/-- A register and an operand in brackets. -/
def bracketed (opening closing : String) (operand : Rule) : Pattern :=
  .sequence [.literal (utf8 opening), token (.rule .register), mark ":", token (.rule operand),
    mark closing]

def underName (name : String) (r : Rule) : Pattern := .named (utf8 name) (.rule r)

/-- A name and a colon that may stand behind blanks in the same line. -/
def labelled : Pattern :=
  .sequence [.rule .name, .between (.spaces .inLine) (.literal (utf8 ":")) .nothing]

def statements : Pattern := .many (token (.rule .statement))

end Pattern

open Pattern in
/-- The pattern that a rule stands for, if the rule does nothing else. -/
def Rule.body : Rule → Option Pattern
  | .statement => some (.choice [underName "label" .label, underName "block" .block,
      underName "dat" .data, underName "datl" .words, underName "val" .valueDefinition,
      underName "addr" .addressDefinition, underName "reg" .registerDefinition,
      underName "instruction" .instruction])
  | .block => some (.sequence [.literal (utf8 "\x7b"), statements, mark "\x7d"])
  | .data => some (listOf "dat" .dataItem)
  | .words => some (listOf "datl" .address)
  | .valueDefinition => some (definitionOf "val" .value)
  | .addressDefinition => some (definitionOf "addr" .address)
  | .registerDefinition => some (definitionOf "reg" .register)
  | .register => some (.named (utf8 "register")
      (.choice [.rule .registerLiteral, .rule .load, .rule .fetch, .rule .name]))
  | .load => some (bracketed "(" ")" .value)
  | .fetch => some (bracketed "[" "]" .address)
  | .value => some (.named (utf8 "value") (.choice [.rule .number, .rule .half, .rule .name]))
  | .half => some (.sequence [.choice [.keyword (utf8 "lo"), .keyword (utf8 "hi")], mark "(",
      token (.rule .address), mark ")"])
  | .address => some (.named (utf8 "address") (.choice [.rule .number, .rule .name]))
  | .dataItem => some (.choice [.rule .text, .rule .value])
  | .name | .number | .text | .program | .label | .instruction | .registerLiteral => none

/-- The rule for the operand of an instruction that declares this kind. -/
def Rule.ofKind : Kind → Rule
  | .register => .register
  | .address => .address
  | _ => .value

/-! ## Runs -/

/-- The base of the number at position `i`, and the position of its digits. -/
def radixAt (text : Bytes) (i : Nat) : Nat × Nat :=
  if HasAt text i (· == ascii '0') ∧
      HasAt text (i + 1) (fun b => b == ascii 'x' || b == ascii 'X') then (16, i + 2)
  else if HasAt text i (· == ascii '0') ∧
      HasAt text (i + 1) (fun b => b == ascii 'b' || b == ascii 'B') then (2, i + 2)
  else (10, i)

/-- Whether one letter at position `i` names a register. -/
def AliasAt (text : Bytes) (i : Nat) : Prop :=
  HasAt text i (fun b => b == ascii 'h' || b == ascii 'H' || b == ascii 'r' || b == ascii 'R') ∧
    ¬HasAt text (i + 1) isNameByte

/-- What is to be run: a pattern, or what is left of a choice.  The latter keeps the furthest
failure of the patterns that have been tried. -/
inductive Task where
  | run (p : Pattern)
  | choose (ps : List Pattern) (found : Option Nat)

def further (found : Option Nat) (i : Nat) : Nat :=
  match found with
  | some best => if best < i then i else best
  | none => i

inductive Runs (text : Bytes) : Task → Nat → Ending → Prop where
  | nothing {st : Nat} : Runs text (.run .nothing) st (.ok st)
  | literal {bytes : Bytes} {st : Nat} (hst : st ≤ text.length) :
      Runs text (.run (.literal bytes)) st
        (if bytes.isPrefixOf (text.drop st) then .ok (st + bytes.length) else .fail st)
  | keyword {word : Bytes} {st : Nat} :
      Runs text (.run (.keyword word)) st
        (if st + word.length ≤ text.length ∧
            Bytes.equalFold ((text.drop st).take word.length) word ∧
            ¬HasAt text (st + word.length) isNameByte then .ok (st + word.length)
          else .fail st)
  | spaces {s : Spaces} {st i : Nat} (h : Scans text s.bytes.contains st i) :
      Runs text (.run (.spaces s)) st (.ok i)
  | optional {p : Pattern} {st : Nat} {o : Ending} (h : Runs text (.run p) st o) :
      Runs text (.run (.optional p)) st (if o = .fail st then .ok st else o)
  | manyStop {p : Pattern} {st : Nat} {o : Ending} (h : Runs text (.run p) st o)
      (hpos : o.pos = st) : Runs text (.run (.many p)) st (.ok st)
  | manyFail {p : Pattern} {st i : Nat} (h : Runs text (.run p) st (.fail i)) (hpos : i ≠ st) :
      Runs text (.run (.many p)) st (.fail i)
  | manyMore {p : Pattern} {st i : Nat} {o : Ending} (h : Runs text (.run p) st (.ok i))
      (hpos : i ≠ st) (rest : Runs text (.run (.many p)) i o) : Runs text (.run (.many p)) st o
  | sequenceNil {st : Nat} : Runs text (.run (.sequence [])) st (.ok st)
  | sequenceFail {p : Pattern} {ps : List Pattern} {st i : Nat}
      (h : Runs text (.run p) st (.fail i)) : Runs text (.run (.sequence (p :: ps))) st (.fail i)
  | sequenceCons {p : Pattern} {ps : List Pattern} {st i : Nat} {o : Ending}
      (h : Runs text (.run p) st (.ok i)) (rest : Runs text (.run (.sequence ps)) i o) :
      Runs text (.run (.sequence (p :: ps))) st o
  | choice {ps : List Pattern} {st : Nat} {o : Ending} (h : Runs text (.choose ps none) st o) :
      Runs text (.run (.choice ps)) st o
  | chooseNone {found : Option Nat} {st : Nat} :
      Runs text (.choose [] found) st (.fail (found.getD st))
  | chooseFirst {p : Pattern} {ps : List Pattern} {found : Option Nat} {st i : Nat}
      (h : Runs text (.run p) st (.ok i)) : Runs text (.choose (p :: ps) found) st (.ok i)
  | chooseNext {p : Pattern} {ps : List Pattern} {found : Option Nat} {st : Nat} {o : Ending}
      (h : Runs text (.run p) st (.fail st)) (rest : Runs text (.choose ps found) st o) :
      Runs text (.choose (p :: ps) found) st o
  | chooseLater {p : Pattern} {ps : List Pattern} {found : Option Nat} {st i : Nat} {o : Ending}
      (h : Runs text (.run p) st (.fail i)) (hpos : i ≠ st)
      (rest : Runs text (.choose ps (some (further found i))) st o) :
      Runs text (.choose (p :: ps) found) st o
  | named {name : Bytes} {p : Pattern} {st : Nat} {o : Ending} (h : Runs text (.run p) st o) :
      Runs text (.run (.named name p)) st o
  | betweenFail {pre p post : Pattern} {st i : Nat} (h : Runs text (.run pre) st (.fail i)) :
      Runs text (.run (.between pre p post)) st (.fail i)
  | betweenRewind {pre p post : Pattern} {st here i : Nat} (hpre : Runs text (.run pre) st (.ok here))
      (h : Runs text (.run p) here (.fail i)) :
      Runs text (.run (.between pre p post)) st (.fail (if i = here then st else i))
  | between {pre p post : Pattern} {st here i : Nat} {o : Ending}
      (hpre : Runs text (.run pre) st (.ok here)) (h : Runs text (.run p) here (.ok i))
      (hpost : Runs text (.run post) i o) : Runs text (.run (.between pre p post)) st o
  | spaced {blank : Blank} {p : Pattern} {st here : Nat} {o : Ending}
      (hskip : Skips text blank st here) (h : Runs text (.run p) here o) :
      Runs text (.run (.spaced blank p)) st (o.rewind here st)
  | body {r : Rule} {p : Pattern} {st : Nat} {o : Ending} (hbody : r.body = some p)
      (h : Runs text (.run p) st o) : Runs text (.run (.rule r)) st o
  | nameMissing {st : Nat} (hst : st ≤ text.length) (h : ¬HasAt text st isNameStart) :
      Runs text (.run (.rule .name)) st (.fail st)
  | name {st i : Nat} (h : HasAt text st isNameStart) (hscan : Scans text isNameByte (st + 1) i) :
      Runs text (.run (.rule .name)) st (.ok i)
  | numberMissing {st : Nat} (hst : st ≤ text.length) (h : ¬HasAt text st isDecimalDigit) :
      Runs text (.run (.rule .number)) st (.fail st)
  | number {st i : Nat} (h : HasAt text st isDecimalDigit)
      (hscan : Scans text (isDigitOf (radixAt text st).1) (radixAt text st).2 i) :
      Runs text (.run (.rule .number)) st
        (if i = (radixAt text st).2 ∨ HasAt text i isNameByte then .fail i else .ok i)
  | textMissing {st : Nat} (hst : st ≤ text.length) (h : ¬HasAt text st (· == 0x22)) :
      Runs text (.run (.rule .text)) st (.fail st)
  | text {st : Nat} {o : Ending} (h : HasAt text st (· == 0x22))
      (rest : RunsText text (st + 1) o) : Runs text (.run (.rule .text)) st o
  | registerMissing {st i : Nat} (h : Runs text (.run (.literal (utf8 "%"))) st (.fail i)) :
      Runs text (.run (.rule .registerLiteral)) st (.fail st)
  | registerAlias {st i : Nat} (h : Runs text (.run (.literal (utf8 "%"))) st (.ok i))
      (halias : AliasAt text i) : Runs text (.run (.rule .registerLiteral)) st (.ok (i + 1))
  | registerNumber {st i : Nat} {o : Ending}
      (h : Runs text (.run (.literal (utf8 "%"))) st (.ok i)) (halias : ¬AliasAt text i)
      (hnumber : Runs text (.run (.rule .number)) i o) :
      Runs text (.run (.rule .registerLiteral)) st o
  | label {st : Nat} {o : Ending} (h : Runs text (.run .labelled) st o) :
      Runs text (.run (.rule .label)) st (o.restart st)
  | instructionMissing {st i : Nat} (h : Runs text (.run (.rule .name)) st (.fail i)) :
      Runs text (.run (.rule .instruction)) st (.fail st)
  | instructionUnknown {st i : Nat} (h : Runs text (.run (.rule .name)) st (.ok i))
      (hfind : Instruction.find? ((text.drop st).take (i - st)) = none) :
      Runs text (.run (.rule .instruction)) st (.fail i)
  | instruction {st i : Nat} {x : Instruction} {o : Ending}
      (h : Runs text (.run (.rule .name)) st (.ok i))
      (hfind : Instruction.find? ((text.drop st).take (i - st)) = some x)
      (hoperands : Runs text
        (.run (.sequence (x.operands.map fun kind => .token (.rule (.ofKind kind))))) i o) :
      Runs text (.run (.rule .instruction)) st o
  | programFail {st i : Nat} (h : Runs text (.run .statements) st (.fail i)) :
      Runs text (.run (.rule .program)) st (.fail i)
  | programEnd {st i j : Nat} (h : Runs text (.run .statements) st (.ok i))
      (hskip : Skips text .gap i j) (hend : j = text.length) :
      Runs text (.run (.rule .program)) st (.ok j)
  | programMore {st i j : Nat} {o : Ending} (h : Runs text (.run .statements) st (.ok i))
      (hskip : Skips text .gap i j) (hmore : j ≠ text.length)
      (hstatement : Runs text (.run (.rule .statement)) j o) :
      Runs text (.run (.rule .program)) st (.fail j)

/-! ## Runs stay inside of the text -/

section

variable {text : Bytes} {st : Nat}

theorem length_le_of_isPrefixOf {bytes : Bytes} (h : bytes.isPrefixOf (text.drop st) = true)
    (hst : st ≤ text.length) : st + bytes.length ≤ text.length := by
  have hlength := (List.isPrefixOf_iff_prefix.mp h).length_le
  rw [List.length_drop] at hlength
  omega

theorem radixAt_bounds (h : st < text.length) :
    st ≤ (radixAt text st).2 ∧ (radixAt text st).2 ≤ text.length := by
  unfold radixAt
  split
  next hmarked => exact ⟨Nat.le_add_right st 2, hmarked.2.lt⟩
  next =>
    split
    next hmarked => exact ⟨Nat.le_add_right st 2, hmarked.2.lt⟩
    next => exact ⟨Nat.le_refl st, h.le⟩

/-- The furthest failure that a choice has found lies behind its start. -/
def Task.Bounded (text : Bytes) (st : Nat) : Task → Prop
  | .run _ => True
  | .choose _ found => ∀ best ∈ found, st ≤ best ∧ best ≤ text.length

theorem further_bounds {found : Option Nat} {i : Nat}
    (hfound : ∀ best ∈ found, st ≤ best ∧ best ≤ text.length)
    (hi : st ≤ i ∧ i ≤ text.length) :
    st ≤ further found i ∧ further found i ≤ text.length := by
  cases found with
  | none => exact hi
  | some best =>
      have hbest := hfound best rfl
      simp only [further]
      split
      next => exact hi
      next => exact hbest

/-- A run ends inside of the text, and not in front of its start. -/
theorem Runs.bounds {task : Task} {o : Ending} (h : Runs text task st o)
    (hst : st ≤ text.length) (hbounded : task.Bounded text st) :
    st ≤ o.pos ∧ o.pos ≤ text.length := by
  induction h with
  | nothing | nameMissing | numberMissing | textMissing | sequenceNil =>
      exact ⟨Nat.le_refl _, hst⟩
  | literal =>
      split
      next hpre => exact ⟨Nat.le_add_right _ _, length_le_of_isPrefixOf hpre hst⟩
      next => exact ⟨Nat.le_refl _, hst⟩
  | keyword =>
      split
      next hword => exact ⟨Nat.le_add_right _ _, hword.1⟩
      next => exact ⟨Nat.le_refl _, hst⟩
  | spaces h => exact h.bounds hst
  | optional _ ih =>
      split
      next => exact ⟨Nat.le_refl _, hst⟩
      next => exact ih hst trivial
  | manyStop => exact ⟨Nat.le_refl _, hst⟩
  | manyFail _ _ ih | sequenceFail _ ih | chooseFirst _ ih | named _ ih | body _ _ ih
  | betweenFail _ ih | programFail _ ih => exact ih hst trivial
  | manyMore _ _ _ ih ihrest | sequenceCons _ _ ih ihrest | instruction _ _ _ ih ihrest
  | registerNumber _ _ _ ih ihrest =>
      have hfirst := ih hst trivial
      have hrest := ihrest hfirst.2 trivial
      exact ⟨hfirst.1.trans hrest.1, hrest.2⟩
  | choice _ ih => exact ih hst (by simp [Task.Bounded])
  | @chooseNone found _ =>
      cases found with
      | none => exact ⟨Nat.le_refl _, hst⟩
      | some best => exact hbounded best rfl
  | chooseNext _ _ _ ihrest => exact ihrest hst hbounded
  | chooseLater _ _ _ ih ihrest =>
      refine ihrest hst ?_
      rintro best ⟨rfl⟩
      exact further_bounds hbounded (ih hst trivial)
  | betweenRewind _ _ ihpre ih =>
      have hpre := ihpre hst trivial
      have hfail := ih hpre.2 trivial
      simp only [Ending.pos] at hpre hfail ⊢
      split <;> omega
  | between _ _ _ ihpre ih ihpost =>
      have hpre := ihpre hst trivial
      have hmid := ih hpre.2 trivial
      have hpost := ihpost hmid.2 trivial
      exact ⟨hpre.1.trans (hmid.1.trans hpost.1), hpost.2⟩
  | @spaced _ _ _ _ o hskip _ ih =>
      have hhere := hskip.bounds hst
      have hend := ih hhere.2 trivial
      cases o with
      | ok i => exact ⟨hhere.1.trans hend.1, hend.2⟩
      | fail i =>
          simp only [Ending.rewind, Ending.pos] at hend ⊢
          split <;> omega
  | name h hscan =>
      have hscan := hscan.bounds h.lt
      exact ⟨by simp only [Ending.pos]; omega, hscan.2⟩
  | number h hscan =>
      have hdigits := radixAt_bounds h.lt
      have hscan := hscan.bounds hdigits.2
      split <;> exact ⟨hdigits.1.trans hscan.1, hscan.2⟩
  | text h rest =>
      have hrest := rest.bounds h.lt
      exact ⟨Nat.le_of_succ_le hrest.1, hrest.2⟩
  | registerMissing | instructionMissing => exact ⟨Nat.le_refl _, hst⟩
  | registerAlias _ halias ih =>
      have hfirst := ih hst trivial
      exact ⟨Nat.le_succ_of_le hfirst.1, halias.1.lt⟩
  | @label _ o _ ih =>
      cases o with
      | ok i => exact ih hst trivial
      | fail i => exact ⟨Nat.le_refl _, hst⟩
  | instructionUnknown _ _ ih => exact ih hst trivial
  | programEnd _ hskip _ ih | programMore _ hskip _ _ ih =>
      have hbody := ih hst trivial
      have hhere := hskip.bounds hbody.2
      exact ⟨hbody.1.trans hhere.1, hhere.2⟩

/-- There is one run at most. -/
theorem Runs.unique {task : Task} {o o' : Ending} (h : Runs text task st o)
    (h' : Runs text task st o') : o = o' := by
  induction h generalizing o' with
  | nothing | literal | keyword | sequenceNil | chooseNone =>
      cases h' with
      | _ => rfl
  | spaces h =>
      cases h' with
      | spaces h' => rw [h.unique h']
  | optional _ ih =>
      cases h' with
      | optional h' => rw [ih h']
  | manyStop _ hpos ih =>
      cases h' with
      | manyStop => rfl
      | manyFail h' hpos' | manyMore h' hpos' =>
          rw [ih h'] at hpos
          exact absurd hpos hpos'
  | manyFail _ hpos ih =>
      cases h' with
      | manyStop h' hpos' =>
          rw [← ih h'] at hpos'
          exact absurd hpos' hpos
      | manyFail h' => exact ih h'
      | manyMore h' => exact absurd (ih h') (by simp)
  | manyMore _ hpos _ ih ihrest =>
      cases h' with
      | manyStop h' hpos' =>
          rw [← ih h'] at hpos'
          exact absurd hpos' hpos
      | manyFail h' => exact absurd (ih h') (by simp)
      | manyMore h' _ rest' =>
          obtain rfl := Ending.ok.inj (ih h')
          exact ihrest rest'
  | sequenceFail _ ih =>
      cases h' with
      | sequenceFail h' => exact ih h'
      | sequenceCons h' => exact absurd (ih h') (by simp)
  | sequenceCons _ _ ih ihrest =>
      cases h' with
      | sequenceFail h' => exact absurd (ih h') (by simp)
      | sequenceCons h' rest' =>
          obtain rfl := Ending.ok.inj (ih h')
          exact ihrest rest'
  | choice _ ih =>
      cases h' with
      | choice h' => exact ih h'
  | chooseFirst _ ih =>
      cases h' with
      | chooseFirst h' => exact ih h'
      | chooseNext h' | chooseLater h' => exact absurd (ih h') (by simp)
  | chooseNext _ _ ih ihrest =>
      cases h' with
      | chooseFirst h' => exact absurd (ih h') (by simp)
      | chooseNext _ rest' => exact ihrest rest'
      | chooseLater h' hpos' => exact absurd (Ending.fail.inj (ih h')).symm hpos'
  | chooseLater _ hpos _ ih ihrest =>
      cases h' with
      | chooseFirst h' => exact absurd (ih h') (by simp)
      | chooseNext h' => exact absurd (Ending.fail.inj (ih h')) hpos
      | chooseLater h' _ rest' =>
          obtain rfl := Ending.fail.inj (ih h')
          exact ihrest rest'
  | named _ ih =>
      cases h' with
      | named h' => exact ih h'
  | betweenFail _ ih =>
      cases h' with
      | betweenFail h' => exact ih h'
      | betweenRewind hpre' | between hpre' => exact absurd (ih hpre') (by simp)
  | betweenRewind _ _ ihpre ih =>
      cases h' with
      | betweenFail h' => exact absurd (ihpre h') (by simp)
      | betweenRewind hpre' h' =>
          obtain rfl := Ending.ok.inj (ihpre hpre')
          obtain rfl := Ending.fail.inj (ih h')
          rfl
      | between hpre' h' =>
          obtain rfl := Ending.ok.inj (ihpre hpre')
          exact absurd (ih h') (by simp)
  | between _ _ _ ihpre ih ihpost =>
      cases h' with
      | betweenFail h' => exact absurd (ihpre h') (by simp)
      | betweenRewind hpre' h' =>
          obtain rfl := Ending.ok.inj (ihpre hpre')
          exact absurd (ih h') (by simp)
      | between hpre' h' hpost' =>
          obtain rfl := Ending.ok.inj (ihpre hpre')
          obtain rfl := Ending.ok.inj (ih h')
          exact ihpost hpost'
  | spaced hskip _ ih =>
      cases h' with
      | spaced hskip' h' =>
          obtain rfl := hskip.unique hskip'
          rw [ih h']
  | body hbody _ ih =>
      cases h' with
      | body hbody' h' =>
          obtain rfl := Option.some.inj (hbody.symm.trans hbody')
          exact ih h'
      | _ => cases hbody
  | nameMissing _ h =>
      cases h' with
      | nameMissing => rfl
      | name hname => exact absurd hname h
      | body hbody => cases hbody
  | name hname hscan =>
      cases h' with
      | nameMissing _ h => exact absurd hname h
      | name _ hscan' => rw [hscan.unique hscan']
      | body hbody => cases hbody
  | numberMissing _ h =>
      cases h' with
      | numberMissing => rfl
      | number hdigit => exact absurd hdigit h
      | body hbody => cases hbody
  | number hdigit hscan =>
      cases h' with
      | numberMissing _ h => exact absurd hdigit h
      | number _ hscan' => rw [hscan.unique hscan']
      | body hbody => cases hbody
  | textMissing _ h =>
      cases h' with
      | textMissing => rfl
      | text hquote => exact absurd hquote h
      | body hbody => cases hbody
  | text hquote rest =>
      cases h' with
      | textMissing _ h => exact absurd hquote h
      | text _ rest' => exact rest.unique rest'
      | body hbody => cases hbody
  | registerMissing _ ih =>
      cases h' with
      | registerMissing => rfl
      | registerAlias h' | registerNumber h' => exact absurd (ih h') (by simp)
      | body hbody => cases hbody
  | registerAlias _ halias ih =>
      cases h' with
      | registerMissing h' => exact absurd (ih h') (by simp)
      | registerAlias h' => rw [Ending.ok.inj (ih h')]
      | registerNumber h' hother =>
          obtain rfl := Ending.ok.inj (ih h')
          exact absurd halias hother
      | body hbody => cases hbody
  | registerNumber _ hother _ ih ihnumber =>
      cases h' with
      | registerMissing h' => exact absurd (ih h') (by simp)
      | registerAlias h' halias =>
          obtain rfl := Ending.ok.inj (ih h')
          exact absurd halias hother
      | registerNumber h' _ hnumber' =>
          obtain rfl := Ending.ok.inj (ih h')
          exact ihnumber hnumber'
      | body hbody => cases hbody
  | label _ ih =>
      cases h' with
      | label h' => rw [ih h']
      | body hbody => cases hbody
  | instructionMissing _ ih =>
      cases h' with
      | instructionMissing => rfl
      | instructionUnknown h' | instruction h' => exact absurd (ih h') (by simp)
      | body hbody => cases hbody
  | instructionUnknown _ hfind ih =>
      cases h' with
      | instructionMissing h' => exact absurd (ih h') (by simp)
      | instructionUnknown h' => exact congrArg Ending.fail (Ending.ok.inj (ih h'))
      | instruction h' hfind' =>
          obtain rfl := Ending.ok.inj (ih h')
          rw [hfind] at hfind'
          cases hfind'
      | body hbody => cases hbody
  | instruction _ hfind _ ih ihoperands =>
      cases h' with
      | instructionMissing h' => exact absurd (ih h') (by simp)
      | instructionUnknown h' hfind' =>
          obtain rfl := Ending.ok.inj (ih h')
          rw [hfind] at hfind'
          cases hfind'
      | instruction h' hfind' hoperands' =>
          obtain rfl := Ending.ok.inj (ih h')
          rw [hfind] at hfind'
          cases hfind'
          exact ihoperands hoperands'
      | body hbody => cases hbody
  | programFail _ ih =>
      cases h' with
      | programFail h' => exact ih h'
      | programEnd h' | programMore h' => exact absurd (ih h') (by simp)
      | body hbody => cases hbody
  | programEnd _ hskip hend ih =>
      cases h' with
      | programFail h' => exact absurd (ih h') (by simp)
      | programEnd h' _ hend' => rw [hend, hend']
      | programMore h' hskip' hmore =>
          obtain rfl := Ending.ok.inj (ih h')
          exact absurd ((hskip.unique hskip').symm.trans hend) hmore
      | body hbody => cases hbody
  | programMore _ hskip hmore _ ih =>
      cases h' with
      | programFail h' => exact absurd (ih h') (by simp)
      | programEnd h' hskip' hend =>
          obtain rfl := Ending.ok.inj (ih h')
          exact absurd ((hskip.unique hskip').trans hend) hmore
      | programMore h' hskip' =>
          obtain rfl := Ending.ok.inj (ih h')
          rw [hskip.unique hskip']
      | body hbody => cases hbody

end

/-! ## Progress -/

/-- Where the pattern succeeds, it has moved on. -/
def Pattern.Advances (text : Bytes) (p : Pattern) : Prop :=
  ∀ ⦃st i : Nat⦄, st ≤ text.length → Runs text (.run p) st (.ok i) → st < i

section

variable {text : Bytes} {p : Pattern}

theorem Ending.lt_of_ok_eq_ite {c : Prop} [Decidable c] {st n i j : Nat} (hn : 0 < n)
    (h : Ending.ok i = if c then .ok (st + n) else .fail j) : st < i := by
  split at h
  next =>
    obtain rfl := Ending.ok.inj h
    omega
  next => cases h

theorem advances_literal {bytes : Bytes} (hne : bytes ≠ []) :
    (Pattern.literal bytes).Advances text := by
  intro st i _ h
  generalize ho : Ending.ok i = o at h
  cases h
  exact Ending.lt_of_ok_eq_ite (List.length_pos_iff.mpr hne) ho

theorem advances_keyword {word : Bytes} (hne : word ≠ []) :
    (Pattern.keyword word).Advances text := by
  intro st i _ h
  generalize ho : Ending.ok i = o at h
  cases h
  exact Ending.lt_of_ok_eq_ite (List.length_pos_iff.mpr hne) ho

theorem advances_sequence (hp : p.Advances text) (ps : List Pattern) :
    (Pattern.sequence (p :: ps)).Advances text := by
  intro st i hst h
  cases h with
  | sequenceCons hfirst rest =>
      have hmid := hfirst.bounds hst trivial
      have hrest := rest.bounds hmid.2 trivial
      exact lt_of_lt_of_le (hp hst hfirst) hrest.1

theorem advances_choice {ps : List Pattern} (hps : ∀ p ∈ ps, p.Advances text) :
    (Pattern.choice ps).Advances text := by
  intro st i hst h
  cases h with
  | choice h =>
      generalize none = found at h
      induction ps generalizing found with
      | nil => cases h
      | cons p ps ih =>
          rw [List.forall_mem_cons] at hps
          cases h with
          | chooseFirst h => exact hps.1 hst h
          | chooseNext _ rest | chooseLater _ _ rest => exact ih hps.2 _ rest

theorem advances_named {name : Bytes} (hp : p.Advances text) :
    (Pattern.named name p).Advances text := by
  intro st i hst h
  cases h with
  | named h => exact hp hst h

theorem advances_body {r : Rule} (hbody : r.body = some p) (hp : p.Advances text) :
    (Pattern.rule r).Advances text := by
  intro st i hst h
  generalize ho : Ending.ok i = o at h
  cases h with
  | body hbody' h =>
      obtain rfl := Option.some.inj (hbody.symm.trans hbody')
      exact hp hst (ho ▸ h)
  | _ => cases hbody

theorem advances_name : (Pattern.rule .name).Advances text := by
  intro st i hst h
  cases h with
  | name h hscan => exact (hscan.bounds h.lt).1
  | body hbody => cases hbody

theorem advances_number : (Pattern.rule .number).Advances text := by
  intro st i hst h
  generalize ho : Ending.ok i = o at h
  cases h with
  | numberMissing => cases ho
  | number h hscan =>
      split at ho
      next => cases ho
      next hend =>
        obtain rfl := Ending.ok.inj ho
        have hdigits := radixAt_bounds h.lt
        have hscan := hscan.bounds hdigits.2
        rw [not_or] at hend
        omega
  | body hbody => cases hbody

theorem advances_text : (Pattern.rule .text).Advances text := by
  intro st i hst h
  cases h with
  | text h rest => exact (rest.bounds h.lt).1
  | body hbody => cases hbody

theorem advances_registerLiteral : (Pattern.rule .registerLiteral).Advances text := by
  intro st i hst h
  have hpercent : (Pattern.literal (utf8 "%")).Advances text := advances_literal (by decide)
  cases h with
  | registerAlias h => exact Nat.lt_succ_of_lt (hpercent hst h)
  | registerNumber h _ hnumber =>
      have hmid := h.bounds hst trivial
      exact (hpercent hst h).trans (advances_number hmid.2 hnumber)
  | body hbody => cases hbody

theorem advances_label : (Pattern.rule .label).Advances text := by
  intro st i hst h
  generalize ho : Ending.ok i = o at h
  cases h with
  | @label _ o h =>
      cases o with
      | ok i =>
          obtain rfl := Ending.ok.inj ho
          exact advances_sequence advances_name _ hst h
      | fail => cases ho
  | body hbody => cases hbody

theorem advances_instruction : (Pattern.rule .instruction).Advances text := by
  intro st i hst h
  cases h with
  | instruction h _ hoperands =>
      have hmid := h.bounds hst trivial
      have hend := hoperands.bounds hmid.2 trivial
      exact lt_of_lt_of_le (advances_name hst h) hend.1
  | body hbody => cases hbody

theorem advances_address : (Pattern.rule .address).Advances text :=
  advances_body rfl (advances_named (advances_choice (by
    simp only [List.forall_mem_cons]
    exact ⟨advances_number, advances_name, by simp⟩)))

theorem advances_half : (Pattern.rule .half).Advances text :=
  advances_body rfl (advances_sequence (advances_choice (by
    simp only [List.forall_mem_cons]
    exact ⟨advances_keyword (by decide), advances_keyword (by decide), by simp⟩)) _)

theorem advances_value : (Pattern.rule .value).Advances text :=
  advances_body rfl (advances_named (advances_choice (by
    simp only [List.forall_mem_cons]
    exact ⟨advances_number, advances_half, advances_name, by simp⟩)))

theorem advances_bracketed {r : Rule} {opening closing : String} {operand : Rule}
    (hne : utf8 opening ≠ []) (hbody : r.body = some (.bracketed opening closing operand)) :
    (Pattern.rule r).Advances text :=
  advances_body hbody (advances_sequence (advances_literal hne) _)

theorem advances_worded {r : Rule} {word : String} {ps : List Pattern} (hne : utf8 word ≠ [])
    (hbody : r.body = some (.sequence (.keyword (utf8 word) :: ps))) :
    (Pattern.rule r).Advances text :=
  advances_body hbody (advances_sequence (advances_keyword hne) _)

theorem advances_register : (Pattern.rule .register).Advances text :=
  advances_body rfl (advances_named (advances_choice (by
    simp only [List.forall_mem_cons]
    exact ⟨advances_registerLiteral, advances_bracketed (by decide) rfl,
      advances_bracketed (by decide) rfl, advances_name, by simp⟩)))

theorem advances_block : (Pattern.rule .block).Advances text :=
  advances_body rfl (advances_sequence (advances_literal (by decide)) _)

theorem advances_statement : (Pattern.rule .statement).Advances text :=
  advances_body rfl (advances_choice (by
    simp only [List.forall_mem_cons]
    exact ⟨advances_named advances_label, advances_named advances_block,
      advances_named (advances_worded (by decide) rfl),
      advances_named (advances_worded (by decide) rfl),
      advances_named (advances_worded (by decide) rfl),
      advances_named (advances_worded (by decide) rfl),
      advances_named (advances_worded (by decide) rfl),
      advances_named advances_instruction, by simp⟩))

/-- Statements and operands are not empty. -/
theorem advances_rule {r : Rule} (hr : r ≠ .program) : (Pattern.rule r).Advances text := by
  cases r with
  | program => exact absurd rfl hr
  | name => exact advances_name
  | number => exact advances_number
  | text => exact advances_text
  | statement => exact advances_statement
  | label => exact advances_label
  | block => exact advances_block
  | instruction => exact advances_instruction
  | data | words | valueDefinition | addressDefinition | registerDefinition =>
      exact advances_worded (by decide) rfl
  | register => exact advances_register
  | registerLiteral => exact advances_registerLiteral
  | load | fetch => exact advances_bracketed (by decide) rfl
  | value => exact advances_value
  | half => exact advances_half
  | address => exact advances_address
  | dataItem =>
      refine advances_body rfl (advances_choice ?_)
      simp only [List.forall_mem_cons]
      exact ⟨advances_text, advances_value, by simp⟩

end

end Gx
