import Gx.Assembly.Emit
import Mathlib.Tactic

/-!
# Two encodings side by side

An encoder is put together from few actions: bytes are pushed, a forward policy is asked, names are
bound, and scopes are opened and left.  A `Comparison` relates two runs of the same statements.  If
it survives each of these actions, it survives every list of statements: `Lockstep.statements`.  An
invariant of one run is the case in which both runs are the same.
-/

namespace Gx

/-! ## The names of a program -/

mutual

/-- The statement itself, or those inside of a block, with all blocks flattened. -/
def Statement.leaves : Statement → List Statement
  | .block _ body => leavesOf body
  | x => [x]

/-- The statements of a list in source order, with all blocks flattened. -/
def Statement.leavesOf : List Statement → List Statement
  | [] => []
  | x :: rest => x.leaves ++ leavesOf rest

end

def Statement.isBlock : Statement → Bool
  | .block _ _ => true
  | _ => false

def Operand.names : Operand → List Bytes
  | .name _ n => [n]
  | .half _ _ address => address.names
  | .load _ target value => target.names ++ value.names
  | .fetch _ target address => target.names ++ address.names
  | .number _ => []
  | .text _ _ => []
  | .register _ _ => []
  | .missing => []

/-- The name a statement binds as a label. -/
def Statement.labelNames : Statement → List Bytes
  | .label _ n => [n]
  | _ => []

/-- The name a statement binds to a value, an address or a register. -/
def Statement.definedNames : Statement → List Bytes
  | .defineValue _ n _ => [n]
  | .defineAddress _ n _ => [n]
  | .defineRegister _ n _ => [n]
  | _ => []

def Statement.usedNames : Statement → List Bytes
  | .instruction _ _ operands => operands.flatMap Operand.names
  | .data _ items => items.flatMap Operand.names
  | .words _ items => items.flatMap Operand.names
  | .defineValue _ _ x => x.names
  | .defineAddress _ _ x => x.names
  | .defineRegister _ _ x => x.names
  | _ => []

/-- What a program is allowed to call its labels and its other symbols, and to refer to. -/
structure NameRules where
  label : Bytes → Prop := fun _ => True
  define : Bytes → Prop := fun _ => True
  use : Bytes → Prop := fun _ => True

structure NameRules.Allow (rules : NameRules) (x : Statement) : Prop where
  label : ∀ n ∈ x.labelNames, rules.label n
  define : ∀ n ∈ x.definedNames, rules.define n
  use : ∀ n ∈ x.usedNames, rules.use n

theorem NameRules.allow_of_trivial (x : Statement) : NameRules.Allow {} x :=
  ⟨fun _ _ => trivial, fun _ _ => trivial, fun _ _ => trivial⟩

namespace Encode

variable {α β : Type}

/-! ## Results of actions -/

/-- The state in which an action ends, with or without success. -/
def finalState : EStateM.Result EncodeError Assembly α → Assembly
  | .ok _ s => s
  | .error _ s => s

def succeeds : EStateM.Result EncodeError Assembly α → Bool
  | .ok _ _ => true
  | .error _ _ => false

theorem eq_ok_of_succeeds {r : EStateM.Result EncodeError Assembly Unit}
    (h : succeeds r = true) : r = .ok () (finalState r) := by
  cases r with
  | ok _ s => rfl
  | error e s => contradiction

@[simp]
theorem finalState_ok (x : α) (s : Assembly) : finalState (.ok x s) = s := rfl

@[simp]
theorem finalState_error (e : EncodeError) (s : Assembly) :
    finalState (.error e s : EStateM.Result EncodeError Assembly α) = s := rfl

theorem bind_eq (a : Encode α) (f : α → Encode β) (s : Assembly) :
    (a >>= f) s =
      match a s with
      | .ok x t => f x t
      | .error e t => .error e t := by
  change EStateM.bind a f s = _
  unfold EStateM.bind
  cases a s <;> rfl

theorem bind_eq_ok {a : Encode α} {f : α → Encode β} {s u : Assembly} {y : β} :
    (a >>= f) s = .ok y u ↔ ∃ x t, a s = .ok x t ∧ f x t = .ok y u := by
  rw [bind_eq]
  cases ha : a s with
  | ok x t => simp
  | error e t => simp

theorem mapError_eq_ok {a : Encode α} {f : Assembly → EncodeError → EncodeError}
    {s t : Assembly} {x : α} : mapError f a s = .ok x t ↔ a s = .ok x t := by
  unfold mapError
  cases a s with
  | ok y u => rfl
  | error e u => simp

@[simp]
theorem finalState_mapError (f : Assembly → EncodeError → EncodeError) (a : Encode α)
    (s : Assembly) : finalState (mapError f a s) = finalState (a s) := by
  unfold mapError
  cases a s <;> rfl

theorem located_eq (a : Encode Unit) (s : Assembly) :
    located a s = mapError (fun t => .inStatement (t.place s.image.size)) a s := rfl

@[simp]
theorem finalState_located (a : Encode Unit) (s : Assembly) :
    finalState (located a s) = finalState (a s) := by
  rw [located_eq, finalState_mapError]

theorem located_eq_ok {a : Encode Unit} {s t : Assembly} :
    located a s = .ok () t ↔ a s = .ok () t := by
  rw [located_eq, mapError_eq_ok]

theorem value_eq_ok {x : Operand} {kind : Kind} {s t : Assembly} {v : UInt16} :
    value x kind s = .ok v t ↔ x.value s.scopes kind = .ok v ∧ s = t := by
  unfold value
  cases x.value s.scopes kind with
  | ok w => simp
  | error e => simp

theorem lookup_eq_ok {name : Bytes} {wanted : List Kind} {s t : Assembly}
    {found : Except ScopeError Symbol} :
    lookup name wanted s = .ok found t ↔ s.scopes.lookup name wanted = found ∧ s = t := by
  unfold lookup
  simp

theorem define_eq (name : Bytes) (kind : Kind) (value : UInt16) (s : Assembly) :
    define name kind value s =
      match s.scopes.bind ⟨name, kind, value⟩ with
      | .ok scopes => .ok () { s with scopes }
      | .error e => .error (.scope e) s := rfl

/-- The state in which a block is left for an error that happened in state `s`. -/
def abandoned (s : Assembly) : Assembly := finalState (leaveScope s.rememberScopes)

theorem inScope_eq (body : Encode Unit) (s : Assembly) :
    inScope body s =
      match body { s with scopes := s.scopes.push } with
      | .ok _ t => leaveScope t
      | .error e t => .error e (abandoned t) := by
  unfold inScope abandoned
  rw [bind_eq]
  simp only [openScope, onScopes]
  cases body { s with scopes := s.scopes.push } with
  | ok x t => rfl
  | error e t =>
      simp only
      cases leaveScope t.rememberScopes <;> rfl

/-! ## Comparing two runs -/

/-- How two runs are related: `held` relates their states while both go on, and `failed` the causes
and states once both have failed.  `lost` marks states of the first run from which on the second
one may do as it likes. -/
structure Comparison where
  held : Assembly → Assembly → Prop
  failed : EncodeError → Assembly → EncodeError → Assembly → Prop
  lost : Assembly → Prop := fun _ => False

namespace Comparison

variable {C : Comparison}

/-- How the results of two actions are related. -/
def Outcome (C : Comparison) :
    EStateM.Result EncodeError Assembly α → EStateM.Result EncodeError Assembly α → Prop
  | .ok x s, .ok y t => C.lost s ∨ x = y ∧ C.held s t
  | .error e s, .error f t => C.lost s ∨ C.failed e.root s f.root t
  | .ok _ s, .error _ _ => C.lost s
  | .error _ s, .ok _ _ => C.lost s

/-- Related states stay related, and the first action never recovers a lost state. -/
structure Simulates (C : Comparison) (a b : Encode α) : Prop where
  run : ∀ {s t : Assembly}, C.held s t → C.Outcome (a s) (b t)
  lost : ∀ {s : Assembly}, C.lost s → C.lost (finalState (a s))

theorem Outcome.of_lost {r q : EStateM.Result EncodeError Assembly α}
    (hlost : C.lost (finalState r)) : C.Outcome r q := by
  cases r with
  | ok x s =>
      cases q with
      | ok y t => exact Or.inl hlost
      | error f t => exact hlost
  | error e s =>
      cases q with
      | ok y t => exact hlost
      | error f t => exact Or.inl hlost

theorem Simulates.pure (x : α) : C.Simulates (Pure.pure x) (Pure.pure x) :=
  ⟨fun hheld => Or.inr ⟨rfl, hheld⟩, fun hlost => hlost⟩

theorem Simulates.bind {a b : Encode α} {f g : α → Encode β}
    (hab : C.Simulates a b) (hfg : ∀ x, C.Simulates (f x) (g x)) :
    C.Simulates (a >>= f) (b >>= g) := by
  have hlost : ∀ {s : Assembly}, C.lost (finalState (a s)) →
      C.lost (finalState ((a >>= f) s)) := by
    intro s hs
    rw [bind_eq]
    cases ha : a s with
    | ok x u =>
        rw [ha] at hs
        exact (hfg x).lost hs
    | error e u =>
        rw [ha] at hs
        exact hs
  constructor
  · intro s t hheld
    have hout := hab.run hheld
    -- once the first run is lost, `hlost` ends the argument; before, the runs fail together
    by_cases hs : C.lost (finalState (a s))
    · exact Outcome.of_lost (hlost hs)
    · rw [bind_eq, bind_eq]
      cases ha : a s with
      | ok x u =>
          rw [ha] at hout hs
          cases hb : b t with
          | ok y v =>
              rw [hb] at hout
              obtain ⟨rfl, hnext⟩ := hout.resolve_left hs
              exact (hfg x).run hnext
          | error f v =>
              rw [hb] at hout
              exact (hs hout).elim
      | error e u =>
          rw [ha] at hout hs
          cases hb : b t with
          | ok y v =>
              rw [hb] at hout
              exact (hs hout).elim
          | error f v =>
              rw [hb] at hout
              exact hout
  · intro s hs
    exact hlost (hab.lost hs)

/-- Layers around a cause do not matter. -/
theorem Simulates.mapError {a b : Encode α} (hab : C.Simulates a b)
    (f g : Assembly → EncodeError → EncodeError) (hf : ∀ s e, (f s e).root = e.root)
    (hg : ∀ s e, (g s e).root = e.root) :
    C.Simulates (Encode.mapError f a) (Encode.mapError g b) := by
  constructor
  · intro s t hheld
    have hout := hab.run hheld
    unfold Encode.mapError
    cases ha : a s with
    | ok x u =>
        rw [ha] at hout
        cases hb : b t with
        | ok y v => rwa [hb] at hout
        | error e v => rwa [hb] at hout
    | error e u =>
        rw [ha] at hout
        cases hb : b t with
        | ok y v => rwa [hb] at hout
        | error e' v =>
            rw [hb] at hout
            simpa only [Outcome, hf, hg] using hout
  · intro s hs
    have hnext := hab.lost hs
    unfold Encode.mapError
    cases ha : a s with
    | ok x u => rwa [ha] at hnext
    | error e u => rwa [ha] at hnext

theorem Simulates.located {a b : Encode Unit} (hab : C.Simulates a b) :
    C.Simulates (Encode.located a) (Encode.located b) := by
  have hmap : ∀ m n : Nat, C.Simulates
      (Encode.mapError (fun s => .inStatement (s.place m)) a)
      (Encode.mapError (fun t => .inStatement (t.place n)) b) :=
    fun m n => hab.mapError _ _ (fun _ _ => by rw [EncodeError.root])
      (fun _ _ => by rw [EncodeError.root])
  exact ⟨fun {s t} hheld => (hmap s.image.size t.image.size).run hheld,
    fun {s} hs => (hmap s.image.size 0).lost hs⟩

/-- The conditions under which emission keeps two runs related. -/
structure Emitting (C : Comparison) (f g : Forward) (use : Bytes → Prop) : Prop where
  scopes : ∀ {s t : Assembly}, C.held s t → s.scopes = t.scopes
  thrown : ∀ {s t : Assembly} (e : EncodeError), C.held s t → C.failed e s e t
  push : ∀ data, C.Simulates (Encode.push data) (Encode.push data)
  forward : ∀ name part, use name → C.Simulates (f name part) (g name part)

namespace Emitting

variable {f g : Forward} {use : Bytes → Prop} (h : C.Emitting f g use)

include h

theorem throw (e : EncodeError) :
    C.Simulates (MonadExcept.throw e : Encode α) (MonadExcept.throw e) :=
  ⟨fun hheld => Or.inr (h.thrown _ hheld), fun hlost => hlost⟩

theorem lookup (name : Bytes) (wanted : List Kind) :
    C.Simulates (Encode.lookup name wanted) (Encode.lookup name wanted) := by
  constructor
  · intro s t hheld
    refine Or.inr ⟨?_, hheld⟩
    rw [h.scopes hheld]
  · exact fun hlost => hlost

theorem value (x : Operand) (kind : Kind) :
    C.Simulates (Encode.value x kind) (Encode.value x kind) := by
  constructor
  · intro s t hheld
    unfold Encode.value
    rw [h.scopes hheld]
    cases x.value t.scopes kind with
    | ok v => exact Or.inr ⟨rfl, hheld⟩
    | error e => exact Or.inr (h.thrown _ hheld)
  · intro s hs
    unfold Encode.value
    cases x.value s.scopes kind with
    | ok v => exact hs
    | error e => exact hs

theorem register (x : Operand) : C.Simulates (Encode.register x) (Encode.register x) :=
  (h.value x .register).bind fun v => Simulates.pure v.toUInt8

theorem emitAddress {x : Operand} (hx : ∀ n ∈ x.names, use n) :
    C.Simulates (Encode.emitAddress f x) (Encode.emitAddress g x) := by
  unfold Encode.emitAddress
  split
  next _ name =>
    refine (h.lookup name _).bind fun found => ?_
    cases found with
    | ok sym => exact h.push _
    | error e =>
        cases e with
        | notFound _ _ => exact h.forward name .word (hx name (by simp [Operand.names]))
        | kindMismatch _ _ _ => exact h.throw _
        | globalPop => exact h.throw _
  next => exact (h.value _ _).bind fun _ => h.push _

theorem emitValue (x : Operand) : C.Simulates (Encode.emitValue x) (Encode.emitValue x) :=
  (h.value x .value).bind fun _ => h.push _

theorem emitByte {x : Operand} (hx : ∀ n ∈ x.names, use n) :
    C.Simulates (Encode.emitByte f x) (Encode.emitByte g x) := by
  unfold Encode.emitByte
  split
  next _ half _ name =>
    refine (h.lookup name _).bind fun found => ?_
    cases found with
    | ok sym => exact h.emitValue _
    | error e =>
        cases e with
        | notFound _ _ => exact h.forward name half.part (hx name (by simp [Operand.names]))
        | kindMismatch _ _ _ => exact h.emitValue _
        | globalPop => exact h.emitValue _
  next => exact h.emitValue _

theorem emitNamed {name : Bytes} (hname : use name) :
    C.Simulates (Encode.emitNamed f name) (Encode.emitNamed g name) := by
  refine (h.lookup name _).bind fun found => ?_
  cases found with
  | ok sym =>
      simp only
      split
      · exact h.push _
      · exact h.push _
  | error e =>
      cases e with
      | notFound _ _ => exact h.forward name .word hname
      | kindMismatch _ _ _ => exact h.throw _
      | globalPop => exact h.throw _

theorem emitItem {x : Operand} (hx : ∀ n ∈ x.names, use n) :
    C.Simulates (Encode.emitItem f x) (Encode.emitItem g x) := by
  cases x with
  | text _ value => exact h.push _
  | name _ name => exact h.emitNamed (hx name (by simp [Operand.names]))
  | _ => exact h.emitByte hx

theorem emitSetup {x : Operand} (hx : ∀ n ∈ x.names, use n) :
    C.Simulates (Encode.emitSetup f x) (Encode.emitSetup g x) := by
  induction x with
  | load _ target value ih _ =>
      have htarget := ih fun n hn => hx n (by simp [Operand.names, hn])
      refine htarget.bind fun _ => ?_
      refine (h.register target).bind fun r => ?_
      refine (h.push _).bind fun _ => ?_
      exact h.emitByte fun n hn => hx n (by simp [Operand.names, hn])
  | fetch _ target address ih _ =>
      have htarget := ih fun n hn => hx n (by simp [Operand.names, hn])
      refine htarget.bind fun _ => ?_
      refine (h.register target).bind fun r => ?_
      refine (h.push _).bind fun _ => ?_
      exact h.emitAddress fun n hn => hx n (by simp [Operand.names, hn])
  | _ => exact Simulates.pure ()

theorem emitOperand (kind : Kind) {x : Operand} (hx : ∀ n ∈ x.names, use n) :
    C.Simulates (Encode.emitOperand f kind x) (Encode.emitOperand g kind x) := by
  cases kind with
  | register => exact (h.register x).bind fun r => h.push _
  | address => exact h.emitAddress hx
  | value => exact h.emitByte hx
  | other _ => exact h.emitByte hx

omit h in
theorem eachOperand (instruction : Bytes) {act act' : Kind → Operand → Encode Unit}
    (index : Nat) (operands : List (Kind × Operand))
    (hact : ∀ kind x, (kind, x) ∈ operands → C.Simulates (act kind x) (act' kind x)) :
    C.Simulates (Encode.eachOperand instruction act index operands)
      (Encode.eachOperand instruction act' index operands) := by
  induction operands generalizing index with
  | nil => exact Simulates.pure ()
  | cons declared rest ih =>
      obtain ⟨kind, x⟩ := declared
      have hfirst := hact kind x (by simp)
      refine Simulates.bind (hfirst.mapError _ _ (fun _ _ => by rw [EncodeError.root])
        (fun _ _ => by rw [EncodeError.root])) fun _ => ?_
      exact ih (index + 1) fun kind' y hy => hact kind' y (by simp [hy])

omit h in
theorem each {act act' : Operand → Encode Unit} (items : List Operand)
    (hact : ∀ x ∈ items, C.Simulates (act x) (act' x)) :
    C.Simulates (Encode.each act items) (Encode.each act' items) := by
  induction items with
  | nil => exact Simulates.pure ()
  | cons x rest ih =>
      refine (hact x (by simp)).bind fun _ => ?_
      exact ih fun y hy => hact y (by simp [hy])

theorem emitInstruction (i : Instruction) {operands : List Operand}
    (hoperands : ∀ n ∈ operands.flatMap Operand.names, use n) :
    C.Simulates (Encode.emitInstruction f i operands)
      (Encode.emitInstruction g i operands) := by
  have hnames : ∀ kind x, (kind, x) ∈ i.operands.zip operands → ∀ n ∈ x.names, use n := by
    intro kind x hx n hn
    exact hoperands n (List.mem_flatMap.mpr ⟨x, (List.of_mem_zip hx).2, hn⟩)
  have hsetup : ∀ kind x, (kind, x) ∈ i.operands.zip operands → C.Simulates
      (if kind = .register then Encode.emitSetup f x else Pure.pure ())
      (if kind = .register then Encode.emitSetup g x else Pure.pure ()) := by
    intro kind x hx
    split
    · exact h.emitSetup (hnames kind x hx)
    · exact Simulates.pure ()
  have hemit := (eachOperand i.name 1 _ hsetup).bind fun _ =>
    (h.push [i.opcode]).bind fun _ =>
      eachOperand i.name 1 _ fun kind x hx =>
        h.emitOperand kind (hnames kind x hx)
  unfold Encode.emitInstruction
  split
  · exact (h.throw _).bind fun _ => hemit
  · exact hemit

end Emitting

structure Stepwise (C : Comparison) (f g : Forward) (rules : NameRules) : Prop where
  emitting : C.Emitting f g rules.use
  label : ∀ name, rules.label name →
    C.Simulates (Encode.defineLabel name) (Encode.defineLabel name)
  define : ∀ name kind value, rules.define name →
    C.Simulates (Encode.define name kind value) (Encode.define name kind value)

theorem Stepwise.leaf {f g : Forward} {rules : NameRules} (h : C.Stepwise f g rules)
    {x : Statement} (hx : x.isBlock = false) (hallow : rules.Allow x) :
    C.Simulates (Encode.statement f x) (Encode.statement g x) := by
  have hemit := h.emitting
  cases x with
  | block _ _ => simp [Statement.isBlock] at hx
  | label _ name =>
      exact (h.label name (hallow.label name (by simp [Statement.labelNames]))).located
  | instruction _ i operands => exact (hemit.emitInstruction i hallow.use).located
  | data _ items =>
      refine (Simulates.mapError ?_ _ _ (fun _ _ => by rw [EncodeError.root])
        (fun _ _ => by rw [EncodeError.root])).located
      exact Emitting.each items fun y hy => hemit.emitItem fun n hn =>
        hallow.use n (List.mem_flatMap.mpr ⟨y, hy, hn⟩)
  | words _ items =>
      refine Simulates.located (Emitting.each items fun y hy => ?_)
      exact hemit.emitAddress fun n hn =>
        hallow.use n (List.mem_flatMap.mpr ⟨y, hy, hn⟩)
  | defineValue _ name y =>
      refine ((hemit.value y .value).bind fun v => ?_).located
      exact h.define name .value v (hallow.define name (by simp [Statement.definedNames]))
  | defineAddress _ name y =>
      refine ((hemit.value y .address).bind fun v => ?_).located
      exact h.define name .address v (hallow.define name (by simp [Statement.definedNames]))
  | defineRegister _ name y =>
      refine ((hemit.emitSetup hallow.use).bind fun _ => ?_).located
      refine (hemit.register y).bind fun r => ?_
      exact h.define name .register _ (hallow.define name (by simp [Statement.definedNames]))
  | missing => exact (hemit.throw .missingStatement).located

structure Lockstep (C : Comparison) (f g : Forward) (rules : NameRules) : Prop extends
    C.Stepwise f g rules where
  enter : C.Simulates Encode.openScope Encode.openScope
  leave : C.Simulates Encode.leaveScope Encode.leaveScope
  abandon : ∀ {e e' : EncodeError} {s t : Assembly},
    C.failed e s e' t → C.failed e (abandoned s) e' (abandoned t)
  abandonLost : ∀ {s : Assembly}, C.lost s → C.lost (abandoned s)

namespace Lockstep

variable {f g : Forward} {rules : NameRules}

theorem inScope (h : C.Lockstep f g rules) {a b : Encode Unit} (hab : C.Simulates a b) :
    C.Simulates (Encode.inScope a) (Encode.inScope b) := by
  have hlost : ∀ {s : Assembly}, C.lost (finalState (a { s with scopes := s.scopes.push })) →
      C.lost (finalState (Encode.inScope a s)) := by
    intro s hs
    rw [inScope_eq]
    cases ha : a { s with scopes := s.scopes.push } with
    | ok x u =>
        rw [ha] at hs
        exact h.leave.lost hs
    | error e u =>
        rw [ha] at hs
        exact h.abandonLost hs
  constructor
  · intro s t hheld
    rcases h.enter.run hheld with hs | ⟨_, hopen⟩
    · exact Outcome.of_lost (hlost (hab.lost hs))
    have hout := hab.run hopen
    by_cases hs : C.lost (finalState (a { s with scopes := s.scopes.push }))
    · exact Outcome.of_lost (hlost hs)
    rw [inScope_eq, inScope_eq]
    cases ha : a { s with scopes := s.scopes.push } with
    | ok x u =>
        rw [ha] at hout hs
        cases hb : b { t with scopes := t.scopes.push } with
        | ok y v =>
            rw [hb] at hout
            exact h.leave.run (hout.resolve_left hs).2
        | error e v =>
            rw [hb] at hout
            exact (hs hout).elim
    | error e u =>
        rw [ha] at hout hs
        cases hb : b { t with scopes := t.scopes.push } with
        | ok y v =>
            rw [hb] at hout
            exact (hs hout).elim
        | error e' v =>
            rw [hb] at hout
            exact Or.inr (h.abandon (hout.resolve_left hs))
  · intro s hs
    exact hlost (hab.lost (h.enter.lost hs))

mutual

theorem statement (h : C.Lockstep f g rules) (x : Statement)
    (hx : ∀ y ∈ x.leaves, rules.Allow y) :
    C.Simulates (Encode.statement f x) (Encode.statement g x) := by
  cases x with
  | block _ body => exact h.inScope (statements h body hx)
  | _ => exact h.leaf rfl (hx _ (List.mem_singleton_self _))

/-- What survives every action survives a list of statements. -/
theorem statements (h : C.Lockstep f g rules) (body : List Statement)
    (hbody : ∀ y ∈ Statement.leavesOf body, rules.Allow y) :
    C.Simulates (Encode.statements f body) (Encode.statements g body) := by
  cases body with
  | nil => exact Simulates.pure ()
  | cons x rest =>
      have hfirst := statement h x fun y hy => hbody y (by simp [Statement.leavesOf, hy])
      refine hfirst.bind fun _ => ?_
      exact statements h rest fun y hy => hbody y (by simp [Statement.leavesOf, hy])

end

end Lockstep

/-! ## Invariants of one run -/

/-- The comparison of a run with itself. -/
def ofInvariant (I : Assembly → Prop) (E : EncodeError → Assembly → Prop) : Comparison where
  held s t := s = t ∧ I s
  failed e s e' t := e = e' ∧ s = t ∧ E e s

end Comparison

/-- An action leads from states with `I` to such states, and to causes and states with `E` if it
fails. -/
def Keeps (I : Assembly → Prop) (E : EncodeError → Assembly → Prop) (a : Encode α) : Prop :=
  ∀ s : Assembly, I s →
    match a s with
    | .ok _ t => I t
    | .error e t => E e.root t

theorem Keeps.of_ok {I : Assembly → Prop} {E : EncodeError → Assembly → Prop} {a : Encode α}
    {s t : Assembly} {x : α} (h : Keeps I E a) (hs : I s) (hrun : a s = .ok x t) : I t := by
  have hnext := h s hs
  rwa [hrun] at hnext

theorem keeps_iff_finalState {I : Assembly → Prop} {a : Encode α} :
    Keeps I (fun _ => I) a ↔ ∀ s, I s → I (finalState (a s)) := by
  refine forall₂_congr fun s _ => ?_
  cases a s with
  | ok x t => rfl
  | error e t => rfl

theorem keeps_iff_simulates {I : Assembly → Prop} {E : EncodeError → Assembly → Prop}
    {a : Encode α} : Keeps I E a ↔ (Comparison.ofInvariant I E).Simulates a a := by
  constructor
  · intro hkeeps
    refine ⟨?_, fun hlost => hlost.elim⟩
    rintro s t ⟨rfl, hs⟩
    have hnext := hkeeps s hs
    cases ha : a s with
    | ok x u =>
        rw [ha] at hnext
        exact Or.inr ⟨rfl, rfl, hnext⟩
    | error e u =>
        rw [ha] at hnext
        exact Or.inr ⟨rfl, rfl, hnext⟩
  · intro hsim s hs
    have hnext := hsim.run ⟨rfl, hs⟩
    cases ha : a s with
    | ok x u =>
        rw [ha] at hnext
        exact (hnext.resolve_left id).2.2
    | error e u =>
        rw [ha] at hnext
        exact (hnext.resolve_left id).2.2

theorem Keeps.bind {I : Assembly → Prop} {E : EncodeError → Assembly → Prop} {a : Encode α}
    {f : α → Encode β} (ha : Keeps I E a) (hf : ∀ x, Keeps I E (f x)) : Keeps I E (a >>= f) := by
  rw [keeps_iff_simulates] at ha ⊢
  exact ha.bind fun x => keeps_iff_simulates.mp (hf x)

structure LeafInvariant (I : Assembly → Prop) (E : EncodeError → Assembly → Prop) (f : Forward)
    (rules : NameRules) : Prop where
  thrown : ∀ {s : Assembly} (e : EncodeError), I s → E e s
  push : ∀ data, Keeps I E (push data)
  forward : ∀ name part, rules.use name → Keeps I E (f name part)
  label : ∀ name, rules.label name → Keeps I E (defineLabel name)
  define : ∀ name kind value, rules.define name → Keeps I E (define name kind value)

/-- The conditions under which whole programs keep an invariant. -/
structure Invariant (I : Assembly → Prop) (E : EncodeError → Assembly → Prop) (f : Forward)
    (rules : NameRules) : Prop extends LeafInvariant I E f rules where
  enter : Keeps I E openScope
  leave : Keeps I E leaveScope
  abandon : ∀ {e : EncodeError} {s : Assembly}, E e s → E e (abandoned s)

section

variable {I : Assembly → Prop} {E : EncodeError → Assembly → Prop} {f : Forward}
  {rules : NameRules}

theorem LeafInvariant.stepwise (h : LeafInvariant I E f rules) :
    (Comparison.ofInvariant I E).Stepwise f f rules where
  emitting :=
    { scopes := fun hheld => by rw [hheld.1]
      thrown := fun e hheld => ⟨rfl, hheld.1, h.thrown e hheld.2⟩
      push := fun data => keeps_iff_simulates.mp (h.push data)
      forward := fun name part hname => keeps_iff_simulates.mp (h.forward name part hname) }
  label := fun name hname => keeps_iff_simulates.mp (h.label name hname)
  define := fun name kind value hname => keeps_iff_simulates.mp (h.define name kind value hname)

theorem LeafInvariant.leaf (h : LeafInvariant I E f rules) {x : Statement}
    (hx : x.isBlock = false) (hallow : rules.Allow x) : Keeps I E (statement f x) :=
  keeps_iff_simulates.mpr (h.stepwise.leaf hx hallow)

theorem Invariant.lockstep (h : Invariant I E f rules) :
    (Comparison.ofInvariant I E).Lockstep f f rules where
  toStepwise := h.stepwise
  enter := keeps_iff_simulates.mp h.enter
  leave := keeps_iff_simulates.mp h.leave
  abandon := fun hfailed => ⟨hfailed.1, by rw [hfailed.2.1], h.abandon hfailed.2.2⟩
  abandonLost := fun hlost => hlost.elim

/-- An invariant of every action is an invariant of every list of statements. -/
theorem Invariant.statements (h : Invariant I E f rules) (body : List Statement)
    (hbody : ∀ y ∈ Statement.leavesOf body, rules.Allow y) :
    Keeps I E (Encode.statements f body) :=
  keeps_iff_simulates.mpr (h.lockstep.statements body hbody)

end

end Encode

end Gx
