import Gx.Symbol.Basic

/-!
# Nested scopes

Scopes form a stack. The global scope is always there; blocks put scopes on top of it. A name is
looked up from the innermost scope outwards, and the first binding found decides, whatever its
kind. Inside one scope a name never changes its kind.
-/

namespace Gx

/-- The symbols of one scope, in the order in which their names were first bound. -/
structure Scope where
  symbols : List Symbol := []
  deriving DecidableEq

namespace Scope

def find? (scope : Scope) (name : Bytes) : Option Symbol :=
  scope.symbols.find? (·.name == name)

/-- Puts a symbol in the place of the one with the same name, or at the end. -/
def insertInto (s : Symbol) : List Symbol → List Symbol
  | [] => [s]
  | t :: rest => if t.name = s.name then s :: rest else t :: insertInto s rest

/-- Binds a name that is free or has the same kind already. -/
def bind (scope : Scope) (s : Symbol) : Except ScopeError Scope :=
  match scope.find? s.name with
  | some old =>
      if old.kind = s.kind then .ok ⟨insertInto s scope.symbols⟩
      else .error (.kindMismatch s.name old.kind [s.kind])
  | none => .ok ⟨insertInto s scope.symbols⟩

/-- The symbols in the byte order of their names. -/
def sorted (scope : Scope) : List Symbol :=
  scope.symbols.mergeSort fun a b => decide (a.name ≤ b.name)

end Scope

/-- A stack of scopes above the global one. -/
structure Scopes where
  outermost : Scope := {}
  /-- The scopes of the open blocks, innermost first. -/
  blocks : List Scope := []
  deriving DecidableEq

namespace Scopes

/-- The number of scopes, the global one included. -/
def depth (s : Scopes) : Nat := s.blocks.length + 1

/-- The scopes from the global to the innermost one. -/
def levels (s : Scopes) : List Scope := s.outermost :: s.blocks.reverse

/-- The scopes in the order in which names are looked up. -/
def lookupOrder (s : Scopes) : List Scope := s.blocks ++ [s.outermost]

def push (s : Scopes) : Scopes :=
  { s with blocks := {} :: s.blocks }

def pop (s : Scopes) : Except ScopeError Scopes :=
  match s.blocks with
  | [] => .error .globalPop
  | _ :: rest => .ok { s with blocks := rest }

def bindGlobal (s : Scopes) (sym : Symbol) : Except ScopeError Scopes :=
  return { s with outermost := ← s.outermost.bind sym }

def bind (s : Scopes) (sym : Symbol) : Except ScopeError Scopes :=
  match s.blocks with
  | [] => s.bindGlobal sym
  | innermost :: rest => return { s with blocks := (← innermost.bind sym) :: rest }

/-- The first binding of a name, provided its kind is wanted. -/
def lookupIn (scopes : List Scope) (name : Bytes) (wanted : List Kind) :
    Except ScopeError Symbol :=
  match scopes.findSome? (·.find? name) with
  | none => .error (.notFound name wanted)
  | some sym =>
      if sym.kind ∈ wanted then .ok sym else .error (.kindMismatch name sym.kind wanted)

/-- The binding of a name in the innermost scope that has one. -/
def lookup (s : Scopes) (name : Bytes) (wanted : List Kind) : Except ScopeError Symbol :=
  lookupIn s.lookupOrder name wanted

def lookupGlobal (s : Scopes) (name : Bytes) (wanted : List Kind) : Except ScopeError Symbol :=
  lookupIn [s.outermost] name wanted

end Scopes

end Gx
