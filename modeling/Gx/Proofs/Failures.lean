import Gx.Assemble
import Gx.Proofs.Grammar.Program
import Gx.Proofs.Resolve

/-!
# Why assembling fails

Some errors say that a program is wrong: a number is out of range, a name is not bound or has
another kind, the image gets too large.  The others say that the assembler is in a state that it
should not be in.  The grammar gives every operand a form that its place can use, blocks are left
as often as they are entered, and every reference finds its pending bytes.  So a program that was
read from a text fails for an ordinary reason or not at all.
-/

namespace Gx

/-- Whether a cause lies in the program. -/
def EncodeError.isOrdinary : EncodeError → Bool
  | .outOfRange _ _ => true
  | .unreadable _ _ => true
  | .noSuchRegister _ => true
  | .scope (.notFound _ _) => true
  | .scope (.kindMismatch _ _ _) => true
  | .image (.tooLarge _ _) => true
  | .unresolved _ _ => true
  | _ => false

/-! ## Looking up and binding -/

theorem Scopes.lookupIn_error {scopes : List Scope} {name : Bytes} {wanted : List Kind}
    {e : ScopeError} (h : Scopes.lookupIn scopes name wanted = .error e) :
    (EncodeError.scope e).isOrdinary = true := by
  unfold Scopes.lookupIn at h
  split at h
  · cases h
    rfl
  · split at h
    · contradiction
    · cases h
      rfl

theorem Scope.bind_error {scope : Scope} {sym : Symbol} {e : ScopeError}
    (h : scope.bind sym = .error e) : (EncodeError.scope e).isOrdinary = true := by
  unfold Scope.bind at h
  split at h
  · split at h
    · contradiction
    · cases h
      rfl
  · contradiction

theorem Scopes.bindGlobal_error {scopes : Scopes} {sym : Symbol} {e : ScopeError}
    (h : scopes.bindGlobal sym = .error e) : (EncodeError.scope e).isOrdinary = true := by
  unfold Scopes.bindGlobal at h
  cases hbind : scopes.outermost.bind sym with
  | ok outermost =>
      rw [hbind] at h
      contradiction
  | error cause =>
      rw [hbind] at h
      cases h
      exact Scope.bind_error hbind

theorem Scopes.bind_error {scopes : Scopes} {sym : Symbol} {e : ScopeError}
    (h : scopes.bind sym = .error e) : (EncodeError.scope e).isOrdinary = true := by
  unfold Scopes.bind at h
  split at h
  · exact bindGlobal_error h
  next innermost rest _ =>
    cases hbind : innermost.bind sym with
    | ok changed =>
        rw [hbind] at h
        contradiction
    | error cause =>
        rw [hbind] at h
        cases h
        exact Scope.bind_error hbind

theorem Scopes.resolved_error {scopes : Scopes} {name : Bytes} {e : ScopeError}
    (h : scopes.resolved name = .error e) : (EncodeError.scope e).isOrdinary = true := by
  unfold Scopes.resolved at h
  split at h
  · contradiction
  · cases hlookup : scopes.lookupGlobal name [.address] with
    | ok sym =>
        rw [hlookup] at h
        contradiction
    | error cause =>
        rw [hlookup] at h
        cases h
        exact lookupIn_error hlookup

/-! ## Values -/

theorem Numeral.valueAs_error {n : Numeral} {kind : Kind} {e : EncodeError}
    (h : n.valueAs kind = .error e) : e.root.isOrdinary = true := by
  unfold Numeral.valueAs at h
  split at h
  · cases h
    rfl
  · split at h
    · cases h
      rfl
    · split at h
      · cases h
        rfl
      · split at h
        · cases h
          rfl
        · contradiction

namespace Operand

theorem value_name_error {scopes : Scopes} {span : Span} {n : Bytes} {kind : Kind}
    {e : EncodeError} (h : (Operand.name span n).value scopes kind = .error e) :
    e.root.isOrdinary = true := by
  rw [Operand.value] at h
  split at h
  · contradiction
  next cause hlookup =>
    cases h
    exact Scopes.lookupIn_error hlookup

theorem value_address_error {x : Operand} (hx : x.isAddress = true) {scopes : Scopes}
    {kind : Kind} {e : EncodeError} (h : x.value scopes kind = .error e) :
    e.root.isOrdinary = true := by
  cases x with
  | number n => exact Numeral.valueAs_error h
  | name span n => exact value_name_error h
  | _ => contradiction

theorem value_value_error {x : Operand} (hx : x.isValue = true) {scopes : Scopes}
    {e : EncodeError} (h : x.value scopes .value = .error e) : e.root.isOrdinary = true := by
  cases x with
  | number n => exact Numeral.valueAs_error h
  | name span n => exact value_name_error h
  | half span side address =>
      rw [Operand.value, if_pos rfl] at h
      split at h
      · contradiction
      next cause haddress =>
        cases h
        exact value_address_error hx haddress
  | _ => contradiction

theorem value_register_error {x : Operand} (hx : x.isRegister = true) {scopes : Scopes}
    {e : EncodeError} (h : x.value scopes .register = .error e) : e.root.isOrdinary = true := by
  induction x with
  | name span n => exact value_name_error h
  | register span r =>
      rw [Operand.value, if_pos rfl] at h
      cases r with
      | numbered n => exact Numeral.valueAs_error h
      | _ => contradiction
  | load span target value ih _ =>
      simp only [isRegister, Bool.and_eq_true] at hx
      exact ih hx.1 h
  | fetch span target address ih _ =>
      simp only [isRegister, Bool.and_eq_true] at hx
      exact ih hx.1 h
  | _ => contradiction

end Operand

namespace Encode

variable {α β : Type}

/-! ## Actions that fail for ordinary reasons only -/

/-- If the action fails, its cause lies in the program. -/
def Ordinary (a : Encode α) : Prop :=
  ∀ s e t, a s = .error e t → e.root.isOrdinary = true

theorem Ordinary.pure (x : α) : Ordinary (Pure.pure x : Encode α) := by
  intro s e t h
  contradiction

theorem Ordinary.throw {e : EncodeError} (he : e.root.isOrdinary = true) :
    Ordinary (MonadExcept.throw e : Encode α) := by
  intro s e' t h
  cases h
  exact he

theorem Ordinary.bind {a : Encode α} {f : α → Encode β} (ha : Ordinary a)
    (hf : ∀ x, Ordinary (f x)) : Ordinary (a >>= f) := by
  intro s e t h
  rw [bind_eq] at h
  cases hrun : a s with
  | ok x u =>
      rw [hrun] at h
      exact hf x u e t h
  | error e' u =>
      rw [hrun] at h
      cases h
      exact ha s _ _ hrun

theorem Ordinary.mapError {a : Encode α} (ha : Ordinary a)
    {f : Assembly → EncodeError → EncodeError} (hf : ∀ s e, (f s e).root = e.root) :
    Ordinary (Encode.mapError f a) := by
  intro s e t h
  unfold Encode.mapError at h
  cases hrun : a s with
  | ok x u =>
      rw [hrun] at h
      contradiction
  | error e' u =>
      rw [hrun] at h
      cases h
      rw [hf]
      exact ha s _ _ hrun

theorem Ordinary.located {a : Encode Unit} (ha : Ordinary a) : Ordinary (Encode.located a) := by
  intro s e t h
  rw [located_eq] at h
  exact ha.mapError (fun _ _ => by rw [EncodeError.root]) s e t h

theorem ordinary_push (data : Bytes) : Ordinary (push data) := by
  intro s e t h
  by_cases hfits : ((s.image.size + data.length : Nat) : Int) ≤ s.image.limit
  · rw [push_of_fits hfits] at h
    contradiction
  · rw [push_of_not_fits hfits] at h
    cases h
    rfl

theorem ordinary_refer (name : Bytes) (part : Part) : Ordinary (Forward.refer name part) := by
  intro s e t h
  by_cases hfits : ((s.image.size + part.width : Nat) : Int) ≤ s.image.limit
  · rw [refer_of_fits name hfits] at h
    contradiction
  · obtain ⟨fitting, _, hfailed⟩ := refer_of_not_fits name hfits
    rw [hfailed] at h
    cases h
    rfl

/-- What is done with the outcome of a lookup only has to deal with outcomes that occur. -/
theorem ordinary_lookup {name : Bytes} {wanted : List Kind}
    {k : Except ScopeError Symbol → Encode α} (hok : ∀ sym, Ordinary (k (.ok sym)))
    (herror : ∀ e, (EncodeError.scope e).isOrdinary = true → Ordinary (k (.error e))) :
    Ordinary (lookup name wanted >>= k) := by
  intro s e t h
  rw [bind_eq] at h
  simp only [lookup] at h
  cases hfound : s.scopes.lookup name wanted with
  | ok sym =>
      rw [hfound] at h
      exact hok sym _ _ _ h
  | error cause =>
      rw [hfound] at h
      exact herror cause (Scopes.lookupIn_error hfound) _ _ _ h

theorem ordinary_value {x : Operand} {kind : Kind}
    (hx : ∀ scopes e, x.value scopes kind = .error e → e.root.isOrdinary = true) :
    Ordinary (value x kind) := by
  intro s e t h
  unfold value at h
  split at h
  · contradiction
  next cause hvalue =>
    cases h
    exact hx _ _ hvalue

theorem ordinary_register {x : Operand} (hx : x.isRegister = true) : Ordinary (register x) :=
  (ordinary_value fun _ _ => Operand.value_register_error hx).bind fun _ => Ordinary.pure _

/-! ## Emission -/

theorem ordinary_emitAddress {x : Operand} (hx : x.isAddress = true) :
    Ordinary (emitAddress .refer x) := by
  cases x with
  | name span n =>
      refine ordinary_lookup (fun sym => ordinary_push _) fun e he => ?_
      cases e with
      | notFound _ _ => exact ordinary_refer n .word
      | kindMismatch _ _ _ => exact Ordinary.throw he
      | globalPop => contradiction
  | number n =>
      exact (ordinary_value fun _ _ => Operand.value_address_error hx).bind
        fun _ => ordinary_push _
  | _ => contradiction

theorem ordinary_emitValue {x : Operand} (hx : x.isValue = true) : Ordinary (emitValue x) :=
  (ordinary_value fun _ _ => Operand.value_value_error hx).bind fun _ => ordinary_push _

theorem ordinary_emitByte {x : Operand} (hx : x.isValue = true) :
    Ordinary (emitByte .refer x) := by
  have hvalue := ordinary_emitValue hx
  unfold emitByte
  split
  next side _ n =>
    refine ordinary_lookup (fun sym => hvalue) fun e _ => ?_
    cases e with
    | notFound _ _ => exact ordinary_refer n side.part
    | kindMismatch _ _ _ => exact hvalue
    | globalPop => exact hvalue
  next => exact hvalue

theorem ordinary_emitNamed (name : Bytes) : Ordinary (emitNamed .refer name) := by
  refine ordinary_lookup (fun sym => ?_) fun e he => ?_
  · simp only
    split
    · exact ordinary_push _
    · exact ordinary_push _
  · cases e with
    | notFound _ _ => exact ordinary_refer name .word
    | kindMismatch _ _ _ => exact Ordinary.throw he
    | globalPop => contradiction

theorem ordinary_emitItem {x : Operand} (hx : x.isDataItem = true) :
    Ordinary (emitItem .refer x) := by
  cases x with
  | text span value => exact ordinary_push _
  | name span n => exact ordinary_emitNamed n
  | number n => exact ordinary_emitByte (x := .number n) rfl
  | half span side address => exact ordinary_emitByte (x := .half span side address) hx
  | _ => contradiction

theorem ordinary_emitSetup {x : Operand} (hx : x.isRegister = true) :
    Ordinary (emitSetup .refer x) := by
  induction x with
  | load span target value ih _ =>
      simp only [Operand.isRegister, Bool.and_eq_true] at hx
      refine (ih hx.1).bind fun _ => (ordinary_register hx.1).bind fun _ => ?_
      exact (ordinary_push _).bind fun _ => ordinary_emitByte hx.2
  | fetch span target address ih _ =>
      simp only [Operand.isRegister, Bool.and_eq_true] at hx
      refine (ih hx.1).bind fun _ => (ordinary_register hx.1).bind fun _ => ?_
      exact (ordinary_push _).bind fun _ => ordinary_emitAddress hx.2
  | _ => exact Ordinary.pure ()

theorem ordinary_emitOperand {kind : Kind} {x : Operand} (hx : x.fits kind = true) :
    Ordinary (emitOperand .refer kind x) := by
  cases kind with
  | register => exact (ordinary_register hx).bind fun _ => ordinary_push _
  | address => exact ordinary_emitAddress hx
  | value => exact ordinary_emitByte hx
  | other _ => exact ordinary_emitByte hx

theorem ordinary_eachOperand (instruction : Bytes) {act : Kind → Operand → Encode Unit}
    (index : Nat) (operands : List (Kind × Operand))
    (hact : ∀ kind x, (kind, x) ∈ operands → Ordinary (act kind x)) :
    Ordinary (eachOperand instruction act index operands) := by
  induction operands generalizing index with
  | nil => exact Ordinary.pure ()
  | cons declared rest ih =>
      obtain ⟨kind, x⟩ := declared
      have hfirst := (hact kind x List.mem_cons_self).mapError
        (f := fun _ => .inOperand instruction index) (fun _ _ => by rw [EncodeError.root])
      exact hfirst.bind fun _ =>
        ih (index + 1) fun kind' y hy => hact kind' y (List.mem_cons_of_mem _ hy)

theorem ordinary_each {act : Operand → Encode Unit} (items : List Operand)
    (hact : ∀ x ∈ items, Ordinary (act x)) : Ordinary (each act items) := by
  induction items with
  | nil => exact Ordinary.pure ()
  | cons x rest ih =>
      exact (hact x List.mem_cons_self).bind fun _ =>
        ih fun y hy => hact y (List.mem_cons_of_mem _ hy)

/-- Operands that fit are as many as declared, each of its kind. -/
theorem of_allFit {kinds : List Kind} {operands : List Operand}
    (h : Operand.allFit kinds operands = true) :
    operands.length = kinds.length ∧
      ∀ kind x, (kind, x) ∈ kinds.zip operands → x.fits kind = true := by
  induction kinds generalizing operands with
  | nil =>
      cases operands with
      | nil => simp
      | cons x rest => simp [Operand.allFit] at h
  | cons kind kinds ih =>
      cases operands with
      | nil => simp [Operand.allFit] at h
      | cons x rest =>
          simp only [Operand.allFit, Bool.and_eq_true] at h
          obtain ⟨hlength, hrest⟩ := ih h.2
          refine ⟨by simp [hlength], fun kind' y hy => ?_⟩
          rcases List.mem_cons.mp hy with heq | hy
          · cases heq
            exact h.1
          · exact hrest kind' y hy

theorem ordinary_emitInstruction {i : Instruction} {operands : List Operand}
    (h : Operand.allFit i.operands operands = true) :
    Ordinary (emitInstruction .refer i operands) := by
  obtain ⟨hlength, hfits⟩ := of_allFit h
  have hsetup : Ordinary (eachOperand i.name
      (fun kind x => if kind = .register then emitSetup .refer x else pure ()) 1
      (i.operands.zip operands)) := by
    refine ordinary_eachOperand _ _ _ fun kind x hx => ?_
    split
    next hkind =>
      subst hkind
      exact ordinary_emitSetup (hfits _ _ hx)
    next => exact Ordinary.pure ()
  have hoperands : Ordinary
      (eachOperand i.name (emitOperand .refer) 1 (i.operands.zip operands)) :=
    ordinary_eachOperand _ _ _ fun kind x hx => ordinary_emitOperand (hfits kind x hx)
  unfold emitInstruction
  rw [if_neg (not_not.mpr hlength)]
  exact hsetup.bind fun _ => (ordinary_push _).bind fun _ => hoperands

/-! ## Statements -/

theorem ordinary_defineLabel (name : Bytes) : Ordinary (defineLabel name) := by
  intro s e t h
  unfold defineLabel at h
  split at h
  next cause hbind =>
    cases h
    exact Scopes.bindGlobal_error hbind
  next => contradiction

theorem ordinary_define (name : Bytes) (kind : Kind) (value : UInt16) :
    Ordinary (define name kind value) := by
  intro s e t h
  rw [define_eq] at h
  split at h
  next => contradiction
  next cause hbind =>
    cases h
    exact Scopes.bind_error hbind

mutual

theorem ordinary_statement (x : Statement) (hx : x.isGrammatical = true) :
    Ordinary (statement .refer x) := by
  cases x with
  | label span n => exact (ordinary_defineLabel n).located
  | block span body =>
      intro s e t h
      -- The innermost scope is the one that was opened here, so leaving it does not fail.
      have hinside := statements_inside refer_keepsScopes body (s.scopes.blocks.length + 1)
        s.scopes.blocks { s with scopes := s.scopes.push } ⟨rfl, rfl⟩
      simp only [statement] at h
      rw [inScope_eq] at h
      cases hrun : statements .refer body { s with scopes := s.scopes.push } with
      | ok y u =>
          rw [hrun] at h hinside
          obtain ⟨innermost, hblocks⟩ := Inside.blocks hinside
          simp only [leaveScope_of_blocks hblocks] at h
          contradiction
      | error e' u =>
          rw [hrun] at h
          cases h
          exact ordinary_statements body hx _ _ _ hrun
  | instruction span i operands =>
      simp only [Statement.isGrammatical, Bool.and_eq_true] at hx
      exact (ordinary_emitInstruction hx.2).located
  | data span items =>
      simp only [Statement.isGrammatical, Bool.and_eq_true, List.all_eq_true] at hx
      refine Ordinary.located (Ordinary.mapError ?_ fun _ _ => by rw [EncodeError.root])
      exact ordinary_each items fun y hy => ordinary_emitItem (hx.2 y hy)
  | words span items =>
      simp only [Statement.isGrammatical, Bool.and_eq_true, List.all_eq_true] at hx
      exact (ordinary_each items fun y hy => ordinary_emitAddress (hx.2 y hy)).located
  | defineValue span n y =>
      refine ((ordinary_value fun _ _ => Operand.value_value_error hx).bind fun v => ?_).located
      exact ordinary_define n .value v
  | defineAddress span n y =>
      refine ((ordinary_value fun _ _ => Operand.value_address_error hx).bind fun v => ?_).located
      exact ordinary_define n .address v
  | defineRegister span n y =>
      refine ((ordinary_emitSetup hx).bind fun _ => ?_).located
      exact (ordinary_register hx).bind fun r => ordinary_define n .register r.toUInt16
  | missing => contradiction

/-- Encoding statements that the grammar allows fails for ordinary reasons only. -/
theorem ordinary_statements (body : List Statement)
    (hbody : Statement.areGrammatical body = true) : Ordinary (statements .refer body) := by
  cases body with
  | nil => exact Ordinary.pure ()
  | cons x rest =>
      simp only [Statement.areGrammatical, Bool.and_eq_true] at hbody
      exact (ordinary_statement x hbody.1).bind fun _ => ordinary_statements rest hbody.2

end

/-- Resolving the references of any program fails for ordinary reasons only. -/
theorem ordinary_of_resolve_error {s t : Assembly} {e : EncodeError}
    (htiled : s.image.TiledBy s.references.toList) (h : resolve s = .error e t) :
    e.root.isOrdinary = true := by
  obtain ⟨r, hr, cause, hresolve, rfl, _⟩ := exists_lowest_of_resolve_error htiled.apart h
  have hready := Reference.ready_of_resolve_error hresolve
  cases hresolved : s.scopes.resolved r.name with
  | ok address =>
      have hready' := (ready_iff_of_tiledBy htiled hr).mpr ⟨address, hresolved⟩
      rw [hready] at hready'
      contradiction
  | error reason =>
      have hordinary := Scopes.resolved_error hresolved
      unfold Reference.resolve at hresolve
      simp only [hresolved, Except.error.injEq] at hresolve
      obtain rfl := hresolve
      cases reason with
      | notFound _ _ => rfl
      | kindMismatch _ _ _ => rfl
      | globalPop => contradiction

/-! ## Whole programs -/

theorem program_fits {body : List Statement} {s : Assembly}
    (hrun : program .refer body {} = .ok () s) :
    s.image.limit = maxImage ∧ s.image.size ≤ maxImage := by
  rw [program_eq_statements refer_keepsScopes] at hrun
  have hgrows := ((growsTo_invariant {}).statements body
    fun x _ => NameRules.allow_of_trivial x).of_ok (Assembly.GrowsTo.refl _) hrun
  have hfits := (fits_invariant.statements body fun x _ => NameRules.allow_of_trivial x).of_ok
    (by decide) hrun
  have hlimit : s.image.limit = maxImage := hgrows.image.limit
  rw [hlimit] at hfits
  exact ⟨hlimit, Int.ofNat_le.mp hfits⟩

/-- Once its references are resolved, an image passes its check. -/
theorem check_of_resolve {body : List Statement} {s t : Assembly}
    (hrun : program .refer body {} = .ok () s) (hresolve : resolve s = .ok () t) :
    t.image.check = .ok () ∧ t.image.size ≤ maxImage := by
  have hcompletes := completes_of_tiledBy (program_tiledBy hrun) hresolve
  obtain ⟨hlimit, hsize⟩ := program_fits hrun
  rw [← hcompletes.size] at hsize
  refine ⟨(Image.check_eq_ok_iff _).mpr ⟨?_, hcompletes.complete⟩, hsize⟩
  rw [hcompletes.limit, hlimit]
  exact Int.ofNat_le.mpr hsize

end Encode

/-- The ways in which assembling a program that the grammar allows can end. -/
theorem Program.assemble_cases {p : Program} (hp : Statement.areGrammatical p.body = true) :
    (∃ e s, p.assemble = .error ⟨.encode e, some s⟩ ∧ e.root.isOrdinary = true) ∨
    (∃ e s, p.assemble = .error ⟨.resolve e, some s⟩ ∧ e.root.isOrdinary = true) ∨
    ∃ s t, Encode.program .refer p.body {} = .ok () s ∧ Encode.resolve s = .ok () t ∧
      p.assemble = .ok t.image := by
  unfold Program.assemble
  cases hrun : Encode.program .refer p.body {} with
  | error e s =>
      refine Or.inl ⟨e, s, rfl, ?_⟩
      rw [Encode.program_eq_statements Encode.refer_keepsScopes] at hrun
      exact Encode.ordinary_statements p.body hp _ _ _ hrun
  | ok _ s =>
      have htiled := Encode.program_tiledBy hrun
      cases hresolve : Encode.resolve s with
      | error e t =>
          exact Or.inr (Or.inl ⟨e, t, by simp only [hresolve],
            Encode.ordinary_of_resolve_error htiled hresolve⟩)
      | ok _ t =>
          refine Or.inr (Or.inr ⟨s, t, rfl, hresolve, ?_⟩)
          simp only [hresolve, (Encode.check_of_resolve hrun hresolve).1]

/-! ## The registers of a program -/

def Operand.registers : Operand → List RegisterName
  | .register _ r => [r]
  | .half _ _ address => address.registers
  | .load _ target value => target.registers ++ value.registers
  | .fetch _ target address => target.registers ++ address.registers
  | _ => []

/-- The registers that a statement names. -/
def Statement.registers : Statement → List RegisterName
  | .instruction _ _ operands => operands.flatMap Operand.registers
  | .data _ items => items.flatMap Operand.registers
  | .words _ items => items.flatMap Operand.registers
  | .defineValue _ _ x => x.registers
  | .defineAddress _ _ x => x.registers
  | .defineRegister _ _ x => x.registers
  | _ => []

section

variable {r : RegisterName}

theorem Operand.token_mem_tokens {x : Operand} (h : r ∈ x.registers) : r.token ∈ x.tokens := by
  induction x with
  | register span q =>
      rw [List.mem_singleton.mp h]
      exact List.mem_singleton_self _
  | half span side address ih => simp [tokens, ih h]
  | load span target value iht ihv =>
      have hparts := (List.mem_append.mp h).imp iht ihv
      simp only [tokens, List.mem_cons, List.mem_append]
      tauto
  | fetch span target address iht iha =>
      have hparts := (List.mem_append.mp h).imp iht iha
      simp only [tokens, List.mem_cons, List.mem_append]
      tauto
  | _ => contradiction

theorem Operand.token_mem_flatMap {items : List Operand} (h : r ∈ items.flatMap registers) :
    r.token ∈ items.flatMap tokens := by
  obtain ⟨x, hx, hr⟩ := List.mem_flatMap.mp h
  exact List.mem_flatMap.mpr ⟨x, hx, token_mem_tokens hr⟩

theorem Operand.mem_listTokens {items : List Operand} {k : Token} (h : k ∈ items.flatMap tokens) :
    k ∈ listTokens items := by
  cases items with
  | nil => contradiction
  | cons first rest =>
      rw [List.flatMap_cons, List.mem_append] at h
      rw [listTokens, List.mem_append]
      refine h.imp id fun hrest => ?_
      obtain ⟨x, hx, hk⟩ := List.mem_flatMap.mp hrest
      exact List.mem_flatMap.mpr ⟨x, hx, List.mem_cons_of_mem _ hk⟩

theorem Statement.token_mem_tokens {x : Statement} (h : r ∈ x.registers) :
    r.token ∈ x.tokens := by
  cases x with
  | instruction span i operands => exact List.mem_cons_of_mem _ (Operand.token_mem_flatMap h)
  | data span items =>
      exact List.mem_cons_of_mem _ (Operand.mem_listTokens (Operand.token_mem_flatMap h))
  | words span items =>
      exact List.mem_cons_of_mem _ (Operand.mem_listTokens (Operand.token_mem_flatMap h))
  | defineValue span n x => simp [tokens, Operand.token_mem_tokens h]
  | defineAddress span n x => simp [tokens, Operand.token_mem_tokens h]
  | defineRegister span n x => simp [tokens, Operand.token_mem_tokens h]
  | _ => contradiction

end

namespace Statement

mutual

theorem mem_tokens_of_leaf (x : Statement) {leaf : Statement} (h : leaf ∈ x.leaves) {k : Token}
    (hk : k ∈ leaf.tokens) : k ∈ x.tokens := by
  cases x with
  | block span body =>
      have hbody := mem_tokensOf_of_leaf body h hk
      simp [tokens, hbody]
  | _ =>
      rw [List.mem_singleton.mp h] at hk
      exact hk

theorem mem_tokensOf_of_leaf (body : List Statement) {leaf : Statement} (h : leaf ∈ leavesOf body)
    {k : Token} (hk : k ∈ leaf.tokens) : k ∈ tokensOf body := by
  cases body with
  | nil => contradiction
  | cons x rest =>
      rw [leavesOf, List.mem_append] at h
      rw [tokensOf, List.mem_append]
      exact h.imp (mem_tokens_of_leaf x · hk) (mem_tokensOf_of_leaf rest · hk)

end

end Statement

theorem Reads.exists_spells {ks : List Token} {t rest : Bytes} (h : Reads ks t rest) :
    ∀ k ∈ ks, ∃ b, k.Spells b := by
  induction ks generalizing t with
  | nil => simp
  | cons k ks ih =>
      obtain ⟨u, v, _, ⟨b, hb, _⟩, hrest⟩ := h
      exact List.forall_mem_cons.mpr ⟨⟨b, hb⟩, ih hrest⟩

/-- A register of a program that was read has a number by its letter, or one that is written. -/
theorem RegisterName.number_of_rendered {body : List Statement} {t : Bytes}
    (h : Renders (Statement.tokensOf body) t) {x : Statement}
    (hx : x ∈ Statement.leavesOf body) {r : RegisterName} (hr : r ∈ x.registers) :
    r = .high ∧ r.number = .ok 30 ∨ r = .remainder ∧ r.number = .ok 31 ∨
      ∃ n written, r = .numbered n ∧ WrittenNumber n.radix n.digits written := by
  obtain ⟨rest, hreads, _⟩ := h
  obtain ⟨b, hb⟩ := hreads.exists_spells _
    (Statement.mem_tokensOf_of_leaf body hx (Statement.token_mem_tokens hr))
  cases r with
  | high => exact Or.inl ⟨rfl, rfl⟩
  | remainder => exact Or.inr (Or.inl ⟨rfl, rfl⟩)
  | numbered n =>
      obtain ⟨written, hwritten, _⟩ := hb
      exact Or.inr (Or.inr ⟨n, written, rfl, hwritten⟩)

/-! ## Texts -/

theorem assemble_eq {read : FileReader} {name text : Bytes} {lines : List Bytes} {p : Program}
    (hexpand : ({ read } : Expander).expand name text = .ok lines)
    (hread : Program.ofText (Bytes.join [0x0A] lines) = .ok p) :
    assemble read name text = p.assemble := by
  unfold assemble
  simp only [hexpand, hread]

/-- A text that is read as a program fails to be assembled for ordinary reasons only: while it is
encoded, or because a reference cannot be resolved.  Once encoding and resolving have succeeded, the
check of the image succeeds, and the image is not too large.  Every register of the program has a
number by its letter, or one that is written. -/
theorem assemble_fails_for_ordinary_reasons {read : FileReader} {name text : Bytes}
    {lines : List Bytes} {p : Program}
    (hexpand : ({ read } : Expander).expand name text = .ok lines)
    (hread : Program.ofText (Bytes.join [0x0A] lines) = .ok p) :
    (∀ f, assemble read name text = .error f →
      ∃ e, (f.error = .encode e ∨ f.error = .resolve e) ∧ e.root.isOrdinary = true) ∧
    (∀ s t, Encode.program .refer p.body {} = .ok () s → Encode.resolve s = .ok () t →
      t.image.check = .ok () ∧ assemble read name text = .ok t.image) ∧
    (∀ img, assemble read name text = .ok img → img.size ≤ 0xFF00) ∧
    ∀ x ∈ Statement.leavesOf p.body, ∀ r ∈ x.registers,
      r = .high ∧ r.number = .ok 30 ∨ r = .remainder ∧ r.number = .ok 31 ∨
        ∃ n written, r = .numbered n ∧ WrittenNumber n.radix n.digits written := by
  have hwritten := Grammar.writtenAs_of_ofText hread
  have hcases := Program.assemble_cases hwritten.1
  rw [assemble_eq hexpand hread]
  refine ⟨fun f hf => ?_, fun s t hrun hresolve => ?_, fun img himg => ?_, fun x hx r hr => ?_⟩
  · rcases hcases with ⟨e, s, herror, he⟩ | ⟨e, s, herror, he⟩ | ⟨s, t, _, _, hok⟩
    · obtain rfl := Except.error.inj (herror.symm.trans hf)
      exact ⟨e, Or.inl rfl, he⟩
    · obtain rfl := Except.error.inj (herror.symm.trans hf)
      exact ⟨e, Or.inr rfl, he⟩
    · rw [hok] at hf
      contradiction
  · have hcheck := (Encode.check_of_resolve hrun hresolve).1
    refine ⟨hcheck, ?_⟩
    unfold Program.assemble
    simp only [hrun, hresolve, hcheck]
  · rcases hcases with ⟨e, s, herror, _⟩ | ⟨e, s, herror, _⟩ | ⟨s, t, hrun, hresolve, hok⟩
    · rw [herror] at himg
      contradiction
    · rw [herror] at himg
      contradiction
    · obtain rfl := Except.ok.inj (hok.symm.trans himg)
      exact (Encode.check_of_resolve hrun hresolve).2
  · exact RegisterName.number_of_rendered hwritten.2 hx hr

theorem Expander.run_of_no_directive {e : Expander} {work : List Line} {done : List Bytes}
    (h : ∀ line ∈ work, Line.directive? line.text = none) :
    e.run work done = .ok (done.reverse ++ work.map (·.text)) := by
  induction work generalizing done with
  | nil => simp [run]
  | cons line rest ih =>
      rw [List.forall_mem_cons] at h
      rw [run]
      simp only [h.1]
      rw [ih h.2]
      simp

/-- A text without directives expands to its own lines. -/
theorem Expander.expand_of_no_directive {e : Expander} {file text : Bytes}
    (h : ∀ l ∈ Bytes.lines text, Line.directive? l = none) :
    e.expand file text = .ok (Bytes.lines text) := by
  rw [expand, run_of_no_directive (by simpa using h)]
  simp [Function.comp_def]

theorem exists_error_of_not_isOk {ε α : Type} {r : Except ε α} (h : r.isOk = false) :
    ∃ e, r = .error e := by
  cases r with
  | ok x => contradiction
  | error e => exact ⟨e, rfl⟩

/-- A jump to a name that is never bound fails, and not for another reason. -/
theorem assemble_fails_for_ordinary_reasons_unbound :
    ∃ f e, assemble (fun name => .error (.notFetched name)) [] (utf8 "jmp x") = .error f ∧
      (f.error = .encode e ∨ f.error = .resolve e) ∧ e.root.isOrdinary = true := by
  have hexpand : ({ read := fun name => .error (.notFetched name) } : Expander).expand []
      (utf8 "jmp x") = .ok [utf8 "jmp x"] := Expander.expand_of_no_directive (by decide)
  have hread : Program.ofText (Bytes.join [0x0A] [utf8 "jmp x"]) =
      .ok ⟨⟨0, 5⟩, [.instruction ⟨0, 5⟩ ⟨utf8 "jmp", 16, [.address]⟩
        [.name ⟨4, 5⟩ (utf8 "x")]]⟩ := by rfl
  have hfails : (assemble (fun name => .error (.notFetched name)) [] (utf8 "jmp x")).isOk =
      false := by
    rw [assemble_eq hexpand hread]
    decide +kernel
  obtain ⟨f, hf⟩ := exists_error_of_not_isOk hfails
  obtain ⟨e, he⟩ := (assemble_fails_for_ordinary_reasons hexpand hread).1 f hf
  exact ⟨f, e, hf, he⟩

end Gx
