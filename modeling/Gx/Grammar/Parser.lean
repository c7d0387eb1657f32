import Gx.Grammar.Error
import Gx.Program.Basic

/-!
# Parsers

A parser reads from a cursor and replies with a value and the cursor behind it, or with an error
and the position at which it gave up. A failure at the position where the parser started means
that it does not apply there; a failure further on is a defect of the text. Repetition, choice and
options rest on this difference.
-/

namespace Gx

/-- A position in a text with the bytes from there on. -/
structure Cursor where
  pos : Nat
  rest : Bytes
  deriving DecidableEq

namespace Cursor

/-- The cursor at byte `pos` of a text. -/
def ofPos (text : Bytes) (pos : Nat) : Cursor := ⟨pos, text.drop pos⟩

/-- A list that is one longer than the rest of the text. A recursion that takes at least one byte
at each step has enough of it. -/
def budget (c : Cursor) : Bytes := 0 :: c.rest

def advance (c : Cursor) (n : Nat) : Cursor := ⟨c.pos + n, c.rest.drop n⟩

/-- Moves over the bytes at the front that satisfy `p`. -/
def skipWhile (c : Cursor) (p : UInt8 → Bool) : Cursor :=
  c.advance (c.rest.takeWhile p).length

end Cursor

inductive Reply (α : Type) where
  | ok (value : α) (next : Cursor)
  | fail (pos : Nat) (error : SyntaxError)

/-- What a parser does with a cursor. -/
def Parse (α : Type) : Type := Cursor → Reply α

/-- A parser with the expectation that stands for it in errors. -/
structure Parser (α : Type) where
  expects : Expectation
  run : Parse α

namespace Parse

variable {α β : Type}

instance : Monad Parse where
  pure x c := .ok x c
  bind p f c :=
    match p c with
    | .ok x next => f x next
    | .fail pos e => .fail pos e

def position : Parse Nat := fun c => .ok c.pos c

/-- Fails where the cursor stands. -/
def failure (e : SyntaxError) : Parse α := fun c => .fail c.pos e

def mapError (f : SyntaxError → SyntaxError) (p : Parse α) : Parse α := fun c =>
  match p c with
  | .fail pos e => .fail pos (f e)
  | reply => reply

/-- A failure of `p`, wherever it happens, means that `p` does not apply. -/
def atomic (p : Parse α) : Parse α := fun c =>
  match p c with
  | .fail _ e => .fail c.pos e
  | reply => reply

/-- Succeeds without a value where `p` does not apply. -/
def optional (p : Parse α) : Parse (Option α) := fun c =>
  match p c with
  | .ok x next => .ok (some x) next
  | .fail pos e => if pos = c.pos then .ok none c else .fail pos e

/-- Applies `p` as long as it applies and moves on, and a round is left. The values read so far
are kept last first. -/
def manyFrom (p : Parse α) : Bytes → List α → Parse (List α)
  | [], read, c => .ok read.reverse c
  | _ :: rounds, read, c =>
      match p c with
      | .ok x next =>
          if next.pos = c.pos then .ok read.reverse c else manyFrom p rounds (x :: read) next
      | .fail pos e => if pos = c.pos then .ok read.reverse c else .fail pos e

/-- Applies `p` as long as it applies and moves on. There are at most as many rounds as bytes. -/
def many (p : Parse α) : Parse (List α) := fun c => manyFrom p c.budget [] c

/-- Where `p` does not apply, its name is what was expected. -/
def named (name : Bytes) (p : Parse α) : Parse α := fun c =>
  match p c with
  | .fail pos e => .fail pos (if pos = c.pos then .expected [.word name] else e)
  | reply => reply

/-- Applies `p` at the cursor `here`, which lies behind `start`. If `p` does not apply there, then
nothing applies at `start`. -/
def applyFrom (p : Parse α) (start here : Cursor) : Reply α :=
  match p here with
  | .fail pos e => .fail (if pos = here.pos then start.pos else pos) e
  | reply => reply

/-- Applies `p` between two parsers whose values are dropped. -/
def between (pre : Parse Unit) (p : Parse α) (post : Parse Unit) : Parse α := fun c =>
  match pre c with
  | .fail pos e => .fail pos e
  | .ok _ here =>
      match applyFrom p c here with
      | .fail pos e => .fail pos e
      | .ok x next =>
          match post next with
          | .fail pos e => .fail pos e
          | .ok _ last => .ok x last

/-- The later of two failures; the earlier found one if they are equally far. -/
def later (found : Option (Nat × SyntaxError)) (pos : Nat) (e : SyntaxError) :
    Nat × SyntaxError :=
  match found with
  | some (best, cause) => if best < pos then (pos, e) else (best, cause)
  | none => (pos, e)

/-- Tries the parsers in order at one cursor. `missed` are the expectations of those that did not
apply, last first, and `found` is the furthest failure of the others. -/
def choiceFrom (c : Cursor) :
    List (Parser α) → List Expectation → Option (Nat × SyntaxError) → Reply α
  | [], _, some (pos, e) => .fail pos e
  | [], missed, none => .fail c.pos (.expected missed.reverse)
  | p :: rest, missed, found =>
      match p.run c with
      | .ok x next => .ok x next
      | .fail pos e =>
          if pos = c.pos then choiceFrom c rest (p.expects :: missed) found
          else choiceFrom c rest missed (some (later found pos e))

/-- The first parser that succeeds. If none does, the furthest failure counts; if none applies,
all of them were expected. -/
def choice (ps : List (Parser α)) : Parse α := fun c => choiceFrom c ps [] none

/-- Reads a value together with its span. -/
def spanned (build : Span → α → β) (p : Parse α) : Parse β := do
  let start ← position
  let x ← p
  let stop ← position
  return build ⟨start, stop⟩ x

end Parse

/-- A parser for the same bytes with another value. -/
def Parser.map {α β : Type} (f : α → β) (p : Parser α) : Parser β :=
  ⟨p.expects, do return f (← p.run)⟩

end Gx
