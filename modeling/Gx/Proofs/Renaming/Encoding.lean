import Gx.Proofs.References
import Gx.Proofs.Renaming.Names

/-!
# Encoding under other names

Two runs encode the same statements, one of them under other names.  They go through states that
are the same but for names: `Assembly.Renames`.  Both go on or both fail, and then for the same
reason.  This holds of each action, hence of all statements: `mirrors_statements`.
-/

namespace Gx

/-- The reference is the same but for its name, and for the place in words. -/
structure Reference.Renames (f : Bytes → Bytes) (r q : Reference) : Prop where
  pos : q.pos = r.pos
  name : q.name = f r.name
  part : q.part = r.part

/-- The image is the same, and so are scopes and references but for names. -/
structure Assembly.Renames (f : Bytes → Bytes) (s t : Assembly) : Prop where
  image : t.image = s.image
  scopes : t.scopes = s.scopes.rename f
  references : List.Forall₂ (Reference.Renames f) s.references.toList t.references.toList

namespace Encode

/-- Both runs have succeeded, or both have failed. -/
inductive Matched (f : Bytes → Bytes) :
    EStateM.Result EncodeError Assembly Unit → EStateM.Result EncodeError Assembly Unit → Prop where
  | ok {s t : Assembly} (hstate : s.Renames f t) : Matched f (.ok () s) (.ok () t)
  | error {e e' : EncodeError} {s t : Assembly} (herror : e.Renames f e')
      (hstate : s.Renames f t) : Matched f (.error e s) (.error e' t)

theorem Matched.ok_or_error {f : Bytes → Bytes}
    {r q : EStateM.Result EncodeError Assembly Unit} (h : Matched f r q) :
    (∃ s t, r = .ok () s ∧ q = .ok () t ∧ s.Renames f t) ∨
      ∃ e s e' t, r = .error e s ∧ q = .error e' t ∧ e.Renames f e' ∧ s.Renames f t := by
  cases h with
  | ok hstate => exact Or.inl ⟨_, _, rfl, rfl, hstate⟩
  | error herror hstate => exact Or.inr ⟨_, _, _, _, rfl, rfl, herror, hstate⟩

/-- The second action does under the new names what the first one does under the old ones. -/
def Mirrors (f : Bytes → Bytes) (a b : Encode Unit) : Prop :=
  ∀ s t : Assembly, s.Renames f t → Matched f (a s) (b t)

namespace Mirrors

variable {f : Bytes → Bytes}

theorem pure : Mirrors f (Pure.pure ()) (Pure.pure ()) :=
  fun _ _ hstate => .ok hstate

theorem throw (e : EncodeError) :
    Mirrors f (MonadExcept.throw e) (MonadExcept.throw (e.rename f)) :=
  fun _ _ hstate => .error (e.renames_rename f) hstate

theorem bind {a b c d : Encode Unit} (hab : Mirrors f a b) (hcd : Mirrors f c d) :
    Mirrors f (a >>= fun _ => c) (b >>= fun _ => d) := by
  intro s t hstate
  rw [bind_eq, bind_eq]
  obtain ⟨u, v, hu, hv, hnext⟩ | ⟨e, u, e', v, hu, hv, herror, hnext⟩ :=
    (hab s t hstate).ok_or_error
  · rw [hu, hv]
    exact hcd u v hnext
  · rw [hu, hv]
    exact .error herror hnext

theorem mapError {a b : Encode Unit} (hab : Mirrors f a b)
    {g h : Assembly → EncodeError → EncodeError}
    (hgh : ∀ s t e e', e.Renames f e' → (g s e).Renames f (h t e')) :
    Mirrors f (Encode.mapError g a) (Encode.mapError h b) := by
  intro s t hstate
  unfold Encode.mapError
  obtain ⟨u, v, hu, hv, hnext⟩ | ⟨e, u, e', v, hu, hv, herror, hnext⟩ :=
    (hab s t hstate).ok_or_error
  · rw [hu, hv]
    exact .ok hnext
  · rw [hu, hv]
    exact .error (hgh u v e e' herror) hnext

theorem located {a b : Encode Unit} (hab : Mirrors f a b) :
    Mirrors f (Encode.located a) (Encode.located b) := by
  intro s t hstate
  rw [located_eq, located_eq]
  refine hab.mapError (fun _ _ e e' herror => ?_) s t hstate
  exact congrArg (EncodeError.inStatement []) herror

theorem push (data : Bytes) : Mirrors f (Encode.push data) (Encode.push data) := by
  intro s t hstate
  rw [Encode.push, onImage_eq, onImage_eq, hstate.image]
  cases s.image.push data with
  | ok image => exact .ok ⟨rfl, hstate.scopes, hstate.references⟩
  | error e => exact .error rfl ⟨hstate.image, hstate.scopes, hstate.references⟩

theorem refer (name : Bytes) (part : Part) :
    Mirrors f (Forward.refer name part) (Forward.refer (f name) part) := by
  intro s t hstate
  unfold Forward.refer
  rw [bind_eq, bind_eq, reserve_eq, reserve_eq, hstate.image]
  obtain ⟨image, result⟩ := s.image.reserve part.width
  cases result with
  | error e => exact .error rfl ⟨rfl, hstate.scopes, hstate.references⟩
  | ok pos =>
      refine .ok ⟨rfl, hstate.scopes, ?_⟩
      simp only [Array.toList_push]
      exact List.rel_append hstate.references (.cons ⟨rfl, rfl, rfl⟩ .nil)

end Mirrors

section

variable {f : Bytes → Bytes} (hf : Function.Injective f)

include hf

namespace Mirrors

theorem of_value {x : Operand} {kind : Kind} {g h : UInt16 → Encode Unit}
    (hgh : ∀ v, Mirrors f (g v) (h v)) :
    Mirrors f (value x kind >>= g) (value (x.rename f) kind >>= h) := by
  intro s t hstate
  have hvalue := Operand.value_rename hf s.scopes x kind
  rw [← hstate.scopes] at hvalue
  rw [bind_eq, bind_eq, value, value, hvalue]
  cases x.value s.scopes kind with
  | ok v => exact hgh v s t hstate
  | error e => exact .error (e.renames_rename f) hstate

theorem of_register {x : Operand} {g h : UInt8 → Encode Unit}
    (hgh : ∀ r, Mirrors f (g r) (h r)) :
    Mirrors f (register x >>= g) (register (x.rename f) >>= h) := by
  unfold register
  simp only [bind_assoc, pure_bind]
  exact of_value hf fun v => hgh v.toUInt8

theorem of_lookup {name : Bytes} {wanted : List Kind}
    {g h : Except ScopeError Symbol → Encode Unit}
    (hok : ∀ sym, Mirrors f (g (.ok sym)) (h (.ok (sym.rename f))))
    (herror : ∀ e, Mirrors f (g (.error e)) (h (.error (e.rename f)))) :
    Mirrors f (lookup name wanted >>= g) (lookup (f name) wanted >>= h) := by
  intro s t hstate
  have hlookup := Scopes.lookup_rename hf s.scopes name wanted
  rw [← hstate.scopes] at hlookup
  rw [bind_eq, bind_eq, lookup, lookup, hlookup]
  cases s.scopes.lookup name wanted with
  | ok sym => exact hok sym s t hstate
  | error e => exact herror e s t hstate

end Mirrors

/-! ## Operands and instructions -/

theorem mirrors_emitAddress (x : Operand) :
    Mirrors f (emitAddress .refer x) (emitAddress .refer (x.rename f)) := by
  cases x with
  | name span n =>
      refine Mirrors.of_lookup hf (fun sym => Mirrors.push _) fun e => ?_
      cases e with
      | notFound name wanted => exact Mirrors.refer n .word
      | kindMismatch name bound wanted => exact Mirrors.throw _
      | globalPop => exact Mirrors.throw _
  | _ => exact Mirrors.of_value hf fun _ => Mirrors.push _

theorem mirrors_emitValue (x : Operand) :
    Mirrors f (emitValue x) (emitValue (x.rename f)) :=
  Mirrors.of_value hf fun _ => Mirrors.push _

theorem mirrors_emitByte (x : Operand) :
    Mirrors f (emitByte .refer x) (emitByte .refer (x.rename f)) := by
  have hvalue := mirrors_emitValue hf x
  cases x with
  | half span side address =>
      cases address with
      | name span' n =>
          refine Mirrors.of_lookup hf (fun sym => hvalue) fun e => ?_
          cases e with
          | notFound name wanted => exact Mirrors.refer n side.part
          | kindMismatch name bound wanted => exact hvalue
          | globalPop => exact hvalue
      | _ => exact hvalue
  | _ => exact hvalue

theorem mirrors_emitItem (x : Operand) :
    Mirrors f (emitItem .refer x) (emitItem .refer (x.rename f)) := by
  have hbyte := mirrors_emitByte hf x
  cases x with
  | text span value => exact Mirrors.push _
  | name span n =>
      refine Mirrors.of_lookup hf (fun sym => ?_) fun e => ?_
      · by_cases hkind : sym.kind = .value
        · have hkind' : (sym.rename f).kind = .value := hkind
          simp only [hkind, hkind', if_true]
          exact Mirrors.push _
        · have hkind' : ¬(sym.rename f).kind = .value := hkind
          simp only [hkind, hkind', if_false]
          exact Mirrors.push _
      · cases e with
        | notFound name wanted => exact Mirrors.refer n .word
        | kindMismatch name bound wanted => exact Mirrors.throw _
        | globalPop => exact Mirrors.throw _
  | _ => exact hbyte

theorem mirrors_emitSetup (x : Operand) :
    Mirrors f (emitSetup .refer x) (emitSetup .refer (x.rename f)) := by
  induction x with
  | load span target value ih _ =>
      refine ih.bind (Mirrors.of_register hf fun r => ?_)
      exact (Mirrors.push _).bind (mirrors_emitByte hf value)
  | fetch span target address ih _ =>
      refine ih.bind (Mirrors.of_register hf fun r => ?_)
      exact (Mirrors.push _).bind (mirrors_emitAddress hf address)
  | _ => exact Mirrors.pure

theorem mirrors_emitOperand (kind : Kind) (x : Operand) :
    Mirrors f (emitOperand .refer kind x) (emitOperand .refer kind (x.rename f)) := by
  cases kind with
  | register => exact Mirrors.of_register hf fun r => Mirrors.push _
  | address => exact mirrors_emitAddress hf x
  | value => exact mirrors_emitByte hf x
  | other code => exact mirrors_emitByte hf x

omit hf in
theorem mirrors_eachOperand {act : Kind → Operand → Encode Unit}
    (hact : ∀ kind x, Mirrors f (act kind x) (act kind (x.rename f))) (instruction : Bytes)
    (index : Nat) (kinds : List Kind) (operands : List Operand) :
    Mirrors f (eachOperand instruction act index (kinds.zip operands))
      (eachOperand instruction act index (kinds.zip (operands.map (Operand.rename f)))) := by
  induction kinds generalizing index operands with
  | nil => exact Mirrors.pure
  | cons kind kinds ih =>
      cases operands with
      | nil => exact Mirrors.pure
      | cons x rest =>
          refine Mirrors.bind ?_ (ih (index + 1) rest)
          refine (hact kind x).mapError fun _ _ e e' herror => ?_
          exact congrArg (EncodeError.inOperand instruction index) herror

omit hf in
theorem mirrors_each {act : Operand → Encode Unit}
    (hact : ∀ x, Mirrors f (act x) (act (x.rename f))) (items : List Operand) :
    Mirrors f (each act items) (each act (items.map (Operand.rename f))) := by
  induction items with
  | nil => exact Mirrors.pure
  | cons x rest ih => exact (hact x).bind ih

theorem mirrors_emitInstruction (i : Instruction) (operands : List Operand) :
    Mirrors f (emitInstruction .refer i operands)
      (emitInstruction .refer i (operands.map (Operand.rename f))) := by
  have hsetup : ∀ (kind : Kind) x, Mirrors f (if kind = .register then emitSetup .refer x else pure ())
      (if kind = .register then emitSetup .refer (x.rename f) else pure ()) := by
    intro kind x
    split
    · exact mirrors_emitSetup hf x
    · exact Mirrors.pure
  have hemit := (mirrors_eachOperand hsetup i.name 1 i.operands operands).bind
    ((Mirrors.push [i.opcode]).bind
      (mirrors_eachOperand (mirrors_emitOperand hf) i.name 1 i.operands operands))
  unfold emitInstruction
  simp only [List.length_map]
  split
  · exact (Mirrors.throw (.operandCount _ _ _)).bind hemit
  · exact hemit

/-! ## Statements -/

theorem mirrors_define (name : Bytes) (kind : Kind) (v : UInt16) :
    Mirrors f (define name kind v) (define (f name) kind v) := by
  intro s t hstate
  have hbind := Scopes.bind_rename hf s.scopes ⟨name, kind, v⟩
  rw [← hstate.scopes] at hbind
  have hsym : (⟨f name, kind, v⟩ : Symbol) = Symbol.rename f ⟨name, kind, v⟩ := rfl
  rw [define_eq, define_eq, hsym, hbind]
  cases s.scopes.bind ⟨name, kind, v⟩ with
  | ok scopes => exact .ok ⟨hstate.image, rfl, hstate.references⟩
  | error e => exact .error ((EncodeError.scope e).renames_rename f) hstate

theorem mirrors_defineLabel (name : Bytes) :
    Mirrors f (defineLabel name) (defineLabel (f name)) := by
  intro s t hstate
  have hbind := Scopes.bindGlobal_rename hf s.scopes
    ⟨name, .address, UInt16.ofNat s.image.size⟩
  rw [← hstate.scopes] at hbind
  have hsym : (⟨f name, .address, UInt16.ofNat t.image.size⟩ : Symbol) =
      Symbol.rename f ⟨name, .address, UInt16.ofNat s.image.size⟩ := by
    rw [hstate.image]
    rfl
  unfold defineLabel
  rw [hsym, hbind]
  cases s.scopes.bindGlobal ⟨name, .address, UInt16.ofNat s.image.size⟩ with
  | ok scopes => exact .ok ⟨hstate.image, rfl, hstate.references⟩
  | error e => exact .error ((EncodeError.scope e).renames_rename f) hstate

omit hf in
theorem mirrors_leaveScope : Mirrors f leaveScope leaveScope := by
  intro s t hstate
  have hblocks : t.scopes.blocks = s.scopes.blocks.map (Scope.rename f) := by
    rw [hstate.scopes]
    rfl
  unfold leaveScope Scopes.pop
  rw [hblocks]
  cases s.scopes.blocks with
  | nil => exact .error rfl hstate
  | cons innermost rest =>
      refine .ok ⟨hstate.image, ?_, hstate.references⟩
      simp only [hstate.scopes]
      rfl

omit hf in
theorem Matched.finalState {r q : EStateM.Result EncodeError Assembly Unit} (h : Matched f r q) :
    (Encode.finalState r).Renames f (Encode.finalState q) := by
  cases h with
  | ok hstate => exact hstate
  | error _ hstate => exact hstate

omit hf in
theorem renames_abandoned {s t : Assembly} (hstate : s.Renames f t) :
    (abandoned s).Renames f (abandoned t) := by
  have hremember : ∀ u : Assembly, u.rememberScopes = { u with failed := u.rememberScopes.failed } := by
    intro u
    unfold Assembly.rememberScopes
    cases u.failed <;> rfl
  refine (mirrors_leaveScope _ _ ?_).finalState
  rw [hremember s, hremember t]
  exact ⟨hstate.image, hstate.scopes, hstate.references⟩

omit hf in
theorem mirrors_inScope {a b : Encode Unit} (hab : Mirrors f a b) :
    Mirrors f (inScope a) (inScope b) := by
  intro s t hstate
  have hopen : ({ s with scopes := s.scopes.push } : Assembly).Renames f
      { t with scopes := t.scopes.push } := by
    refine ⟨hstate.image, ?_, hstate.references⟩
    rw [hstate.scopes]
    rfl
  rw [inScope_eq, inScope_eq]
  obtain ⟨u, v, hu, hv, hnext⟩ | ⟨e, u, e', v, hu, hv, herror, hnext⟩ :=
    (hab _ _ hopen).ok_or_error
  · rw [hu, hv]
    exact mirrors_leaveScope u v hnext
  · rw [hu, hv]
    exact .error herror (renames_abandoned hnext)

end

mutual

theorem mirrors_statement {f : Bytes → Bytes} (hf : Function.Injective f) (x : Statement) :
    Mirrors f (statement .refer x) (statement .refer (x.rename f)) := by
  cases x with
  | block span body => exact mirrors_inScope (mirrors_statements hf body)
  | label span n => exact (mirrors_defineLabel hf n).located
  | instruction span i operands => exact (mirrors_emitInstruction hf i operands).located
  | data span items =>
      refine Mirrors.located ((mirrors_each (mirrors_emitItem hf) items).mapError ?_)
      exact fun _ _ e e' herror => congrArg EncodeError.inData herror
  | words span items => exact (mirrors_each (mirrors_emitAddress hf) items).located
  | defineValue span n y =>
      exact (Mirrors.of_value hf fun v => mirrors_define hf n .value v).located
  | defineAddress span n y =>
      exact (Mirrors.of_value hf fun v => mirrors_define hf n .address v).located
  | defineRegister span n y =>
      refine Mirrors.located ((mirrors_emitSetup hf y).bind ?_)
      exact Mirrors.of_register hf fun r => mirrors_define hf n .register r.toUInt16
  | missing => exact (Mirrors.throw .missingStatement).located

/-- Statements are encoded under the new names as they are under the old ones. -/
theorem mirrors_statements {f : Bytes → Bytes} (hf : Function.Injective f)
    (body : List Statement) :
    Mirrors f (statements .refer body) (statements .refer (Statement.renameAll f body)) := by
  cases body with
  | nil => exact Mirrors.pure
  | cons x rest => exact (mirrors_statement hf x).bind (mirrors_statements hf rest)

end

theorem mirrors_program {f : Bytes → Bytes} (hf : Function.Injective f)
    (body : List Statement) :
    Mirrors f (program .refer body) (program .refer (Statement.renameAll f body)) := by
  intro s t hstate
  rw [program_eq_statements refer_keepsScopes, program_eq_statements refer_keepsScopes]
  exact mirrors_statements hf body s t hstate

end Encode

end Gx
