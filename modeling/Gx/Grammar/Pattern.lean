import Gx.Grammar.Statement

/-!
# Patterns

A pattern describes a parser as data: the combinators, applied to tokens and to the rules of the
grammar. Its value is a tree of what the parts matched.
-/

namespace Gx

inductive Rule where
  | name
  | number
  | text
  | program
  | statement
  | label
  | block
  | instruction
  | data
  | words
  | valueDefinition
  | addressDefinition
  | registerDefinition
  | register
  | registerLiteral
  | load
  | fetch
  | value
  | half
  | address
  | dataItem
  deriving DecidableEq

inductive Match where
  | nothing
  | literal (bytes : Bytes)
  | keyword (word : Bytes)
  | operand (operand : Operand)
  | statement (statement : Statement)
  | program (program : Program)
  | list (items : List Match)

def Rule.parser : Rule → Parser Match
  | .name => Grammar.name.map .operand
  | .number => Grammar.number.map .operand
  | .text => Grammar.text.map .operand
  | .program => Grammar.program.map .program
  | .statement => Grammar.statement.map .statement
  | .label => Grammar.label.map .statement
  | .block => Grammar.block.map .statement
  | .instruction => Grammar.instruction.map .statement
  | .data => Grammar.data.map .statement
  | .words => Grammar.words.map .statement
  | .valueDefinition => Grammar.valueDefinition.map .statement
  | .addressDefinition => Grammar.addressDefinition.map .statement
  | .registerDefinition => Grammar.registerDefinition.map .statement
  | .register => Grammar.register.map .operand
  | .registerLiteral => Grammar.registerLiteral.map .operand
  | .load => Grammar.load.map .operand
  | .fetch => Grammar.fetch.map .operand
  | .value => Grammar.value.map .operand
  | .half => Grammar.half.map .operand
  | .address => Grammar.address.map .operand
  | .dataItem => Grammar.dataItem.map .operand

/-- A description of a parser. -/
inductive Pattern where
  | nothing
  | literal (bytes : Bytes)
  | keyword (word : Bytes)
  | spaces (spaces : Spaces)
  | rule (rule : Rule)
  | optional (p : Pattern)
  | many (p : Pattern)
  | sequence (ps : List Pattern)
  | choice (ps : List Pattern)
  | named (name : Bytes) (p : Pattern)
  /-- A pattern between two others, either of which may be `nothing`. -/
  | between (pre p post : Pattern)
  | spaced (blank : Blank) (p : Pattern)

namespace Pattern

mutual

def parser : Pattern → Parser Match
  | .nothing => ⟨.word (utf8 "parse.None"), pure .nothing⟩
  | .literal bytes => ⟨.literal bytes, do return .literal (← Parse.literal bytes)⟩
  | .keyword word => ⟨.literal word, do return .keyword (← Parse.keyword word)⟩
  | .spaces s => ⟨.word (utf8 "parse.Spaces"), fun c => .ok .nothing (s.skip c)⟩
  | .rule r => r.parser
  | .optional p =>
      ⟨.word (utf8 "parse.Optional"), do return (← Parse.optional p.parser.run).getD .nothing⟩
  | .many p => ⟨.word (utf8 "parse.Many"), do return .list (← Parse.many p.parser.run)⟩
  | .sequence ps =>
      ⟨.word (utf8 "parse.AllOf"), do return .list (← (parsers ps).mapM Parser.run)⟩
  | .choice ps => ⟨.word (utf8 "parse.AnyOf"), Parse.choice (parsers ps)⟩
  | .named name p => ⟨.word name, Parse.named name p.parser.run⟩
  | .between pre p post =>
      ⟨.word (utf8 "parse.Context"), Parse.between (do let _ ← pre.parser.run) p.parser.run
        (do let _ ← post.parser.run)⟩
  | .spaced blank p => ⟨p.parser.expects, Parse.spaced blank p.parser.run⟩

def parsers : List Pattern → List (Parser Match)
  | [] => []
  | p :: ps => p.parser :: parsers ps

end

/-- Applies a pattern at byte `pos` of a text. -/
def matchAt (p : Pattern) (text : Bytes) (pos : Nat) : Reply Match :=
  p.parser.run (.ofPos text pos)

end Pattern

end Gx
