import Gx.Assembly.Basic

/-!
# Encoding of statements

Statements are encoded in one pass. A name that should be an address and is not bound yet is left
to a `Forward` policy. The usual policy, `Forward.refer`, reserves bytes and makes a reference to be
resolved later; `Forward.known` is what a second pass would do, with the scopes of the first.
-/

namespace Gx

/-- What to do about a part of the address of a name that is not bound yet. -/
abbrev Forward := Bytes → Part → Encode Unit

/-- Reserves the bytes and makes a reference. -/
def Forward.refer : Forward := fun name part => do
  let pos ← Encode.reserve part.width
  modify fun s => { s with references := s.references.push ⟨pos, name, s.place pos, part⟩ }

/-- Emits the part at once, taking the address from scopes that are known beforehand. -/
def Forward.known (scopes : Scopes) : Forward := fun name part => do
  match scopes.lookupGlobal name [.address] with
  | .ok sym => Encode.push (part.bytes sym.value)
  | .error e => throw (.scope e)

namespace Encode

def pushWord (w : UInt16) : Encode Unit := push (wordBytes w)

/-- The register that an operand denotes. -/
def register (x : Operand) : Encode UInt8 := return (← value x .register).toUInt8

/-- Emits the two bytes of an address. -/
def emitAddress (forward : Forward) (x : Operand) : Encode Unit :=
  match x with
  | .name _ name => do
      match ← lookup name [.address] with
      | .ok sym => pushWord sym.value
      | .error (.notFound _ _) => forward name .word
      | .error e => throw (.scope e)
  | x => do pushWord (← value x .address)

/-- Emits the low byte of a value. -/
def emitValue (x : Operand) : Encode Unit := do
  push [(← value x .value).toUInt8]

/-- Emits one byte: a value, or a half of an address. -/
def emitByte (forward : Forward) (x : Operand) : Encode Unit :=
  match x with
  | .half _ half (.name _ name) => do
      match ← lookup name [.address] with
      | .error (.notFound _ _) => forward name half.part
      | _ => emitValue x
  | x => emitValue x

/-- Emits a name as data: a value as one byte, an address as two. -/
def emitNamed (forward : Forward) (name : Bytes) : Encode Unit := do
  match ← lookup name [.value, .address] with
  | .ok sym => if sym.kind = .value then push [sym.value.toUInt8] else pushWord sym.value
  | .error (.notFound _ _) => forward name .word
  | .error e => throw (.scope e)

/-- Emits an item of a data statement. Texts end with a zero byte. -/
def emitItem (forward : Forward) : Operand → Encode Unit
  | .text _ value => push (value ++ [0])
  | .name _ name => emitNamed forward name
  | x => emitByte forward x

/-- Emits the instructions that give a register operand its content, innermost first. -/
def emitSetup (forward : Forward) : Operand → Encode Unit
  | .load _ target value => do
      emitSetup forward target
      push [Instruction.set.opcode, ← register target]
      emitByte forward value
  | .fetch _ target address => do
      emitSetup forward target
      push [Instruction.ld.opcode, ← register target]
      emitAddress forward address
  | _ => pure ()

def emitOperand (forward : Forward) (kind : Kind) (x : Operand) : Encode Unit :=
  match kind with
  | .register => do push [← register x]
  | .address => emitAddress forward x
  | _ => emitByte forward x

/-- Does something for each operand of an instruction from operand `index` on; a failure names the
operand. -/
def eachOperand (instruction : Bytes) (act : Kind → Operand → Encode Unit) :
    Nat → List (Kind × Operand) → Encode Unit
  | _, [] => pure ()
  | index, (kind, x) :: rest => do
      mapError (fun _ => .inOperand instruction index) (act kind x)
      eachOperand instruction act (index + 1) rest

/-- Emits an instruction behind the setup of its register operands. -/
def emitInstruction (forward : Forward) (i : Instruction) (operands : List Operand) :
    Encode Unit := do
  if operands.length ≠ i.operands.length then
    throw (.operandCount i.name i.operands.length operands.length)
  let declared := i.operands.zip operands
  eachOperand i.name
    (fun kind x => if kind = .register then emitSetup forward x else pure ()) 1 declared
  push [i.opcode]
  eachOperand i.name (emitOperand forward) 1 declared

def each (act : Operand → Encode Unit) : List Operand → Encode Unit
  | [] => pure ()
  | x :: rest => do
      act x
      each act rest

/-- Binds a label to the end of the image. An empty name is bound but names no position. -/
def defineLabel (name : Bytes) : Encode Unit := fun s =>
  match s.scopes.bindGlobal ⟨name, .address, UInt16.ofNat s.image.size⟩ with
  | .error e => .error (.scope e) s
  | .ok scopes =>
      .ok () { s with
        scopes
        marker := if name = [] then none else some ⟨name, s.image.size⟩ }

def define (name : Bytes) (kind : Kind) (value : UInt16) : Encode Unit :=
  onScopes (·.bind ⟨name, kind, value⟩)

/-- Does something in a scope of its own. The scope is left in any case; if the reason is an error,
the open scopes are remembered first. -/
def inScope (body : Encode Unit) : Encode Unit := fun s =>
  match (do openScope; body : Encode Unit) s with
  | .ok _ s => leaveScope s
  | .error e s =>
      match leaveScope s.rememberScopes with
      | .ok _ s => .error e s
      | .error _ s => .error e s

/-- Does something for a statement; a failure names the position where the statement starts. -/
def located (act : Encode Unit) : Encode Unit := do
  let start := (← get).image.size
  mapError (fun s => .inStatement (s.place start)) act

mutual

def statement (forward : Forward) : Statement → Encode Unit
  | .block _ body => inScope (statements forward body)
  | .label _ name => located (defineLabel name)
  | .instruction _ i operands => located (emitInstruction forward i operands)
  | .data _ items => located (mapError (fun _ => .inData) (each (emitItem forward) items))
  | .words _ items => located (each (emitAddress forward) items)
  | .defineValue _ name x => located do define name .value (← value x .value)
  | .defineAddress _ name x => located do define name .address (← value x .address)
  | .defineRegister _ name x => located do
      emitSetup forward x
      define name .register (← register x).toUInt16
  | .missing => located (throw .missingStatement)

def statements (forward : Forward) : List Statement → Encode Unit
  | [] => pure ()
  | x :: rest => do
      statement forward x
      statements forward rest

end

/-- Encodes a program. The scopes have to be balanced at its end. -/
def program (forward : Forward) (body : List Statement) : Encode Unit := do
  let start := (← get).scopes.depth
  statements forward body
  let now := (← get).scopes.depth
  if now ≠ start then throw (.scopeDepth now start)

end Encode

end Gx
