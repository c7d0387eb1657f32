import Gx.Proofs.Scopes

/-!
# Other names

All names of a program can be replaced by others.  If the replacement keeps different names
different, then it goes through all that is done with names: a scope binds and finds under the new
name what it bound and found under the old one, and operands are worth what they were worth.  An
error is about the new name.
-/

namespace Gx

/-! ## Replacing names -/

def Operand.rename (f : Bytes → Bytes) : Operand → Operand
  | .name span n => .name span (f n)
  | .half span side address => .half span side (address.rename f)
  | .load span target value => .load span (target.rename f) (value.rename f)
  | .fetch span target address => .fetch span (target.rename f) (address.rename f)
  | .number n => .number n
  | .text span value => .text span value
  | .register span r => .register span r
  | .missing => .missing

mutual

def Statement.rename (f : Bytes → Bytes) : Statement → Statement
  | .label span n => .label span (f n)
  | .block span body => .block span (renameAll f body)
  | .instruction span i operands => .instruction span i (operands.map (Operand.rename f))
  | .data span items => .data span (items.map (Operand.rename f))
  | .words span items => .words span (items.map (Operand.rename f))
  | .defineValue span n x => .defineValue span (f n) (x.rename f)
  | .defineAddress span n x => .defineAddress span (f n) (x.rename f)
  | .defineRegister span n x => .defineRegister span (f n) (x.rename f)
  | .missing => .missing

/-- The statements with all labels, declared names and identifiers replaced. -/
def Statement.renameAll (f : Bytes → Bytes) : List Statement → List Statement
  | [] => []
  | x :: rest => x.rename f :: renameAll f rest

end

def Symbol.rename (f : Bytes → Bytes) (sym : Symbol) : Symbol := { sym with name := f sym.name }

def Scope.rename (f : Bytes → Bytes) (scope : Scope) : Scope :=
  ⟨scope.symbols.map (Symbol.rename f)⟩

def Scopes.rename (f : Bytes → Bytes) (scopes : Scopes) : Scopes :=
  ⟨scopes.outermost.rename f, scopes.blocks.map (Scope.rename f)⟩

def ScopeError.rename (f : Bytes → Bytes) : ScopeError → ScopeError
  | .notFound name wanted => .notFound (f name) wanted
  | .kindMismatch name bound wanted => .kindMismatch (f name) bound wanted
  | .globalPop => .globalPop

/-- The error with its names replaced.  Places, which are told by the latest label, are left
out. -/
def EncodeError.rename (f : Bytes → Bytes) : EncodeError → EncodeError
  | .scope e => .scope (e.rename f)
  | .unresolved name _ => .unresolved (f name) []
  | .inData cause => .inData (cause.rename f)
  | .inOperand instruction index cause => .inOperand instruction index (cause.rename f)
  | .inStatement _ cause => .inStatement [] (cause.rename f)
  | .inReference name _ cause => .inReference (f name) [] (cause.rename f)
  | e => e

/-- An error that is the same but for names and places. -/
def EncodeError.Renames (f : Bytes → Bytes) (e e' : EncodeError) : Prop :=
  e'.rename id = e.rename f

theorem ScopeError.rename_rename (f g : Bytes → Bytes) (e : ScopeError) :
    (e.rename f).rename g = e.rename (g ∘ f) := by
  cases e <;> rfl

theorem EncodeError.rename_rename (f g : Bytes → Bytes) (e : EncodeError) :
    (e.rename f).rename g = e.rename (g ∘ f) := by
  induction e with
  | scope e => simp [rename, ScopeError.rename_rename]
  | inData cause ih => simp [rename, ih]
  | inOperand instruction index cause ih => simp [rename, ih]
  | inStatement place cause ih => simp [rename, ih]
  | inReference name place cause ih => simp [rename, ih]
  | _ => rfl

theorem EncodeError.renames_rename (f : Bytes → Bytes) (e : EncodeError) :
    e.Renames f (e.rename f) := by
  rw [Renames, rename_rename, Function.id_comp]

/-! ## Scopes -/

section

variable {f : Bytes → Bytes} (hf : Function.Injective f)

include hf

theorem Scope.find?_rename (scope : Scope) (name : Bytes) :
    (scope.rename f).find? (f name) = (scope.find? name).map (Symbol.rename f) := by
  have hname : ∀ sym : Symbol, ((sym.rename f).name == f name) = (sym.name == name) := by
    intro sym
    rw [Bool.eq_iff_iff, beq_iff_eq, beq_iff_eq]
    exact hf.eq_iff
  unfold find? rename
  rw [List.find?_map]
  simp only [Function.comp_def, hname]

theorem Scope.insertInto_rename (sym : Symbol) (symbols : List Symbol) :
    insertInto (sym.rename f) (symbols.map (Symbol.rename f)) =
      (insertInto sym symbols).map (Symbol.rename f) := by
  induction symbols with
  | nil => rfl
  | cons other rest ih =>
      have hname : (other.rename f).name = (sym.rename f).name ↔ other.name = sym.name :=
        hf.eq_iff
      simp only [List.map_cons, insertInto, hname]
      split
      · rfl
      · rw [ih, List.map_cons]

theorem Scope.bind_rename (scope : Scope) (sym : Symbol) :
    (scope.rename f).bind (sym.rename f) =
      ((scope.bind sym).map (Scope.rename f)).mapError (ScopeError.rename f) := by
  have hinsert : (⟨insertInto (sym.rename f) (scope.rename f).symbols⟩ : Scope) =
      Scope.rename f ⟨insertInto sym scope.symbols⟩ :=
    congrArg Scope.mk (insertInto_rename hf sym scope.symbols)
  have hfind : (scope.rename f).find? (sym.rename f).name =
      (scope.find? sym.name).map (Symbol.rename f) := find?_rename hf scope sym.name
  unfold bind
  rw [hfind]
  cases scope.find? sym.name with
  | none => simp [hinsert, Except.map, Except.mapError]
  | some old =>
      have hkind : (old.rename f).kind = (sym.rename f).kind ↔ old.kind = sym.kind := Iff.rfl
      simp only [Option.map_some, hkind]
      split
      · simp [hinsert, Except.map, Except.mapError]
      · rfl

namespace Scopes

theorem bindGlobal_rename (scopes : Scopes) (sym : Symbol) :
    (scopes.rename f).bindGlobal (sym.rename f) =
      ((scopes.bindGlobal sym).map (Scopes.rename f)).mapError (ScopeError.rename f) := by
  have hscope := Scope.bind_rename hf scopes.outermost sym
  unfold bindGlobal
  simp only [Scopes.rename, hscope]
  cases scopes.outermost.bind sym <;> rfl

theorem bind_rename (scopes : Scopes) (sym : Symbol) :
    (scopes.rename f).bind (sym.rename f) =
      ((scopes.bind sym).map (Scopes.rename f)).mapError (ScopeError.rename f) := by
  cases hblocks : scopes.blocks with
  | nil =>
      have hglobal := bindGlobal_rename hf scopes sym
      simpa only [bind, Scopes.rename, hblocks, List.map_nil] using hglobal
  | cons innermost rest =>
      have hscope := Scope.bind_rename hf innermost sym
      simp only [bind, Scopes.rename, hblocks, List.map_cons, hscope]
      cases innermost.bind sym <;> rfl

theorem lookupIn_rename (scopes : List Scope) (name : Bytes) (wanted : List Kind) :
    lookupIn (scopes.map (Scope.rename f)) (f name) wanted =
      ((lookupIn scopes name wanted).map (Symbol.rename f)).mapError (ScopeError.rename f) := by
  have hfound : (scopes.map (Scope.rename f)).findSome? (·.find? (f name)) =
      (scopes.findSome? (·.find? name)).map (Symbol.rename f) := by
    induction scopes with
    | nil => rfl
    | cons scope rest ih =>
        rw [List.map_cons, List.findSome?_cons, List.findSome?_cons, Scope.find?_rename hf]
        cases scope.find? name with
        | none => exact ih
        | some sym => rfl
  unfold lookupIn
  rw [hfound]
  cases scopes.findSome? (·.find? name) with
  | none => rfl
  | some sym =>
      have hkind : (sym.rename f).kind = sym.kind := rfl
      simp only [Option.map_some, hkind]
      split <;> rfl

theorem lookup_rename (scopes : Scopes) (name : Bytes) (wanted : List Kind) :
    (scopes.rename f).lookup (f name) wanted =
      ((scopes.lookup name wanted).map (Symbol.rename f)).mapError (ScopeError.rename f) := by
  have horder : (scopes.rename f).lookupOrder = scopes.lookupOrder.map (Scope.rename f) := by
    simp [lookupOrder, Scopes.rename]
  rw [lookup, lookup, horder, lookupIn_rename hf]

theorem lookupGlobal_rename (scopes : Scopes) (name : Bytes) (wanted : List Kind) :
    (scopes.rename f).lookupGlobal (f name) wanted =
      ((scopes.lookupGlobal name wanted).map (Symbol.rename f)).mapError (ScopeError.rename f) :=
  lookupIn_rename hf [scopes.outermost] name wanted

end Scopes

/-! ## Values of operands -/

omit hf in
theorem Numeral.valueAs_rename (n : Numeral) (kind : Kind) :
    (n.valueAs kind).mapError (EncodeError.rename f) = n.valueAs kind := by
  unfold valueAs
  split
  · rfl
  · split_ifs <;> rfl

omit hf in
theorem RegisterName.number_rename (r : RegisterName) :
    r.number.mapError (EncodeError.rename f) = r.number := by
  cases r with
  | high => rfl
  | remainder => rfl
  | numbered n => exact n.valueAs_rename .register

/-- An operand is worth the same, or fails in the same way. -/
theorem Operand.value_rename (scopes : Scopes) (x : Operand) (kind : Kind) :
    (x.rename f).value (scopes.rename f) kind =
      (x.value scopes kind).mapError (EncodeError.rename f) := by
  induction x generalizing kind with
  | number n => exact (n.valueAs_rename kind).symm
  | name span n =>
      simp only [Operand.rename, Operand.value, Scopes.lookup_rename hf]
      cases scopes.lookup n [kind] <;> rfl
  | half span side address ih =>
      simp only [Operand.rename, Operand.value]
      split
      · rw [ih]
        cases address.value scopes .address <;> rfl
      · rfl
  | register span r =>
      simp only [Operand.rename, Operand.value]
      split
      · exact r.number_rename.symm
      · rfl
  | load span target value ih _ => exact ih kind
  | fetch span target address ih _ => exact ih kind
  | text span value => rfl
  | missing => rfl

end

end Gx
