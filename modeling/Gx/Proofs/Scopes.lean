import Gx.Proofs.Encoding

/-!
# Scopes during encoding

Binding a name changes what is found for that name and for no other.  Encoding a statement leaves
all scopes around the innermost block as they are, and a block leaves the open blocks as they are,
also when it fails.  So leaving a block never fails, and the scopes are balanced at the end of a
program.
-/

namespace Gx

/-! ## Binding and finding -/

namespace Scope

theorem find?_insertInto (sym : Symbol) (symbols : List Symbol) (name : Bytes) :
    (⟨insertInto sym symbols⟩ : Scope).find? name =
      if sym.name = name then some sym else (⟨symbols⟩ : Scope).find? name := by
  unfold find?
  induction symbols with
  | nil => by_cases hname : sym.name = name <;> simp [insertInto, hname]
  | cons first rest ih =>
      simp only [insertInto]
      by_cases hfirst : first.name = sym.name
      · by_cases hname : sym.name = name
        · simp [hfirst, hname]
        · simp [hfirst, hname]
      · rw [if_neg hfirst, List.find?_cons, List.find?_cons, ih]
        by_cases hname : sym.name = name
        · have hother : (first.name == name) = false :=
            beq_eq_false_iff_ne.mpr fun h => hfirst (h.trans hname.symm)
          simp [hname, hother]
        · simp [hname]

/-- The scope with a symbol in the place of the one with the same name, or at the end. -/
def put (scope : Scope) (sym : Symbol) : Scope := ⟨insertInto sym scope.symbols⟩

theorem eq_put_of_bind {scope next : Scope} {sym : Symbol} (h : scope.bind sym = .ok next) :
    next = scope.put sym := by
  unfold bind at h
  split at h
  · split at h
    · exact (Except.ok.inj h).symm
    · contradiction
  · exact (Except.ok.inj h).symm

theorem mem_put {scope : Scope} {sym other : Symbol} (h : other ∈ (scope.put sym).symbols) :
    other = sym ∨ other ∈ scope.symbols := by
  unfold put at h
  generalize scope.symbols = symbols at h ⊢
  induction symbols with
  | nil => simpa [insertInto] using h
  | cons first rest ih =>
      rw [insertInto] at h
      split at h
      next =>
        rcases List.mem_cons.mp h with rfl | hrest
        · exact Or.inl rfl
        · exact Or.inr (List.mem_cons_of_mem _ hrest)
      next =>
        rcases List.mem_cons.mp h with rfl | hrest
        · exact Or.inr List.mem_cons_self
        · exact (ih hrest).imp id fun hold => List.mem_cons_of_mem _ hold

theorem find?_bind {scope next : Scope} {sym : Symbol} (h : scope.bind sym = .ok next)
    (name : Bytes) :
    next.find? name = if sym.name = name then some sym else scope.find? name := by
  rw [eq_put_of_bind h, put, find?_insertInto]

end Scope

namespace Scopes

theorem length_levels (scopes : Scopes) : scopes.levels.length = scopes.depth := by
  simp [levels, depth]

theorem bindGlobal_eq_ok_iff {scopes next : Scopes} {sym : Symbol} :
    scopes.bindGlobal sym = .ok next ↔
      ∃ outermost, scopes.outermost.bind sym = .ok outermost ∧
        next = { scopes with outermost } := by
  unfold bindGlobal
  cases scopes.outermost.bind sym with
  | ok outermost =>
      simp [Bind.bind, Except.bind, pure, Except.pure, eq_comm (a := next)]
  | error e => simp [Bind.bind, Except.bind]

/-- A binding goes to the innermost block, or to the global scope if there is no block. -/
theorem bind_eq_ok {scopes next : Scopes} {sym : Symbol} (h : scopes.bind sym = .ok next) :
    (scopes.blocks = [] ∧ scopes.bindGlobal sym = .ok next) ∨
      ∃ innermost rest changed, scopes.blocks = innermost :: rest ∧
        innermost.bind sym = .ok changed ∧ next = { scopes with blocks := changed :: rest } := by
  unfold Scopes.bind at h
  split at h
  next hblocks => exact Or.inl ⟨hblocks, h⟩
  next innermost rest hblocks =>
    cases hbind : innermost.bind sym with
    | error e => simp [hbind, Bind.bind, Except.bind] at h
    | ok changed =>
        simp only [hbind, Bind.bind, Except.bind, pure, Except.pure, Except.ok.injEq] at h
        exact Or.inr ⟨innermost, rest, changed, hblocks, hbind, h.symm⟩

theorem lookupGlobal_of_find? {scopes : Scopes} {name : Bytes} {sym : Symbol} {wanted : List Kind}
    (hfind : scopes.outermost.find? name = some sym) (hkind : sym.kind ∈ wanted) :
    scopes.lookupGlobal name wanted = .ok sym := by
  unfold lookupGlobal lookupIn
  simp [hfind, hkind]

theorem lookupGlobal_bindGlobal {scopes next : Scopes} {sym : Symbol} {wanted : List Kind}
    (h : scopes.bindGlobal sym = .ok next) (hkind : sym.kind ∈ wanted) :
    next.lookupGlobal sym.name wanted = .ok sym := by
  obtain ⟨outermost, hbind, rfl⟩ := bindGlobal_eq_ok_iff.mp h
  apply lookupGlobal_of_find? _ hkind
  simp [Scope.find?_bind hbind]

end Scopes

/-! ## Blocks -/

/-- The policy does not change any scope. -/
def Forward.KeepsScopes (f : Forward) : Prop :=
  ∀ name part s, (Encode.finalState (f name part s)).scopes = s.scopes

namespace Encode

theorem scopes_onImage (change : Image → Except ImageError Image) (s : Assembly) :
    (finalState (onImage change s)).scopes = s.scopes := by
  unfold onImage
  simp only
  cases change s.image <;> rfl

theorem refer_keepsScopes : Forward.refer.KeepsScopes := by
  intro name part s
  unfold Forward.refer
  rw [bind_eq]
  unfold reserve
  simp only
  split
  next hreserve =>
    split at hreserve
    · cases hreserve
      rfl
    · cases hreserve
  next hreserve =>
    split at hreserve
    · cases hreserve
    · cases hreserve
      rfl

theorem known_keepsScopes (scopes : Scopes) : (Forward.known scopes).KeepsScopes := by
  intro name part s
  unfold Forward.known
  cases scopes.lookupGlobal name [.address] with
  | ok sym => exact scopes_onImage _ s
  | error e => rfl

/-- There are `n` open blocks, and `outer` are those around the innermost one. -/
structure Inside (n : Nat) (outer : List Scope) (s : Assembly) : Prop where
  length : s.scopes.blocks.length = n
  tail : s.scopes.blocks.tail = outer

theorem Inside.of_blocks_eq {n : Nat} {outer : List Scope} {s t : Assembly}
    (h : Inside n outer s) (hblocks : t.scopes.blocks = s.scopes.blocks) : Inside n outer t :=
  ⟨hblocks ▸ h.length, hblocks ▸ h.tail⟩

theorem Inside.blocks {n : Nat} {outer : List Scope} {s : Assembly}
    (h : Inside (n + 1) outer s) : ∃ innermost, s.scopes.blocks = innermost :: outer := by
  obtain ⟨innermost, rest, hblocks⟩ := List.exists_cons_of_length_eq_add_one h.length
  have htail := h.tail
  rw [hblocks] at htail
  exact ⟨innermost, by rw [hblocks, ← htail]; rfl⟩

/-- What is said about the scopes only survives every action that leaves the scopes alone. -/
theorem keeps_of_scopes {I : Assembly → Prop} {E : EncodeError → Assembly → Prop}
    (hI : ∀ {s t : Assembly}, t.scopes = s.scopes → I s → I t)
    (hE : ∀ {e : EncodeError} {s : Assembly}, I s → E e s) {a : Encode Unit}
    (ha : ∀ s, (finalState (a s)).scopes = s.scopes) : Keeps I E a := by
  intro s hs
  have hfinal := hI (ha s) hs
  cases hrun : a s with
  | ok x t =>
      rw [hrun] at hfinal
      exact hfinal
  | error e t =>
      rw [hrun] at hfinal
      exact hE hfinal

theorem inside_leaf {f : Forward} (hf : f.KeepsScopes) (n : Nat) (outer : List Scope) :
    LeafInvariant (Inside n outer) (fun _ => Inside n outer) f {} := by
  have hsame : ∀ {a : Encode Unit}, (∀ s, (finalState (a s)).scopes = s.scopes) →
      Keeps (Inside n outer) (fun _ => Inside n outer) a :=
    keeps_of_scopes (fun hscopes hs => hs.of_blocks_eq (by rw [hscopes])) id
  refine
    { thrown := fun e hs => hs
      push := fun data => hsame (scopes_onImage _)
      forward := fun name part _ => hsame (hf name part)
      label := fun name _ s hs => ?_
      define := fun name kind value _ s hs => ?_ }
  · unfold defineLabel
    cases hbind : s.scopes.bindGlobal ⟨name, .address, UInt16.ofNat s.image.size⟩ with
    | error e => exact hs
    | ok next =>
        obtain ⟨outermost, _, rfl⟩ := Scopes.bindGlobal_eq_ok_iff.mp hbind
        exact hs.of_blocks_eq rfl
  · rw [define_eq]
    cases hbind : s.scopes.bind ⟨name, kind, value⟩ with
    | error e => exact hs
    | ok next =>
        rcases Scopes.bind_eq_ok hbind with ⟨_, hglobal⟩ | ⟨_, _, _, hblocks, _, rfl⟩
        · obtain ⟨outermost, _, rfl⟩ := Scopes.bindGlobal_eq_ok_iff.mp hglobal
          exact hs.of_blocks_eq rfl
        · have hlength := hs.length
          have htail := hs.tail
          rw [hblocks] at hlength htail
          exact ⟨hlength, htail⟩

/-- A label gets the number of bytes before it as its address. -/
theorem lookupGlobal_label {s t : Assembly} {span : Span} {name : Bytes}
    (hrun : statement .refer (.label span name) s = .ok () t) :
    t.scopes.lookupGlobal name [.address] =
      .ok ⟨name, .address, UInt16.ofNat s.image.size⟩ := by
  simp only [statement] at hrun
  rw [located_eq_ok] at hrun
  unfold defineLabel at hrun
  split at hrun
  next => contradiction
  next scopes hbind =>
    cases hrun
    exact Scopes.lookupGlobal_bindGlobal hbind (by simp)

theorem leaveScope_of_blocks {s : Assembly} {innermost : Scope} {rest : List Scope}
    (hblocks : s.scopes.blocks = innermost :: rest) :
    leaveScope s = .ok () { s with
      scopes := { s.scopes with blocks := rest }
      failed := s.failed.map (·.leave s.scopes) } := by
  unfold leaveScope Scopes.pop
  rw [hblocks]

theorem scopes_abandoned {s : Assembly} {innermost : Scope} {rest : List Scope}
    (hblocks : s.scopes.blocks = innermost :: rest) :
    (abandoned s).scopes = { s.scopes with blocks := rest } := by
  have hremember : s.rememberScopes.scopes = s.scopes := by
    unfold Assembly.rememberScopes
    cases s.failed <;> rfl
  unfold abandoned
  rw [leaveScope_of_blocks (hremember ▸ hblocks), hremember]
  rfl

mutual

/-- A statement leaves the scopes around the innermost block alone. -/
theorem statement_inside {f : Forward} (hf : f.KeepsScopes) (x : Statement) (n : Nat)
    (outer : List Scope) : Keeps (Inside n outer) (fun _ => Inside n outer) (statement f x) := by
  cases x with
  | block _ body =>
      intro s hs
      have hbody := statements_inside hf body (n + 1) s.scopes.blocks
        { s with scopes := s.scopes.push } ⟨by simp [Scopes.push, hs.length], rfl⟩
      simp only [statement]
      rw [inScope_eq]
      cases hrun : statements f body { s with scopes := s.scopes.push } with
      | ok x t =>
          rw [hrun] at hbody
          obtain ⟨innermost, hblocks⟩ := hbody.blocks
          simp only [leaveScope_of_blocks hblocks]
          exact hs.of_blocks_eq rfl
      | error e t =>
          rw [hrun] at hbody
          obtain ⟨innermost, hblocks⟩ := hbody.blocks
          exact hs.of_blocks_eq (by rw [scopes_abandoned hblocks])
  | _ => exact (inside_leaf hf n outer).leaf rfl (NameRules.allow_of_trivial _)

theorem statements_inside {f : Forward} (hf : f.KeepsScopes) (body : List Statement) (n : Nat)
    (outer : List Scope) :
    Keeps (Inside n outer) (fun _ => Inside n outer) (statements f body) := by
  cases body with
  | nil => exact fun s hs => hs
  | cons x rest =>
      exact (statement_inside hf x n outer).bind fun _ => statements_inside hf rest n outer

end

/-- A program is encoded by encoding its statements: its scopes are balanced. -/
theorem program_eq_statements {f : Forward} (hf : f.KeepsScopes) (body : List Statement)
    (s : Assembly) : program f body s = statements f body s := by
  have hinside := statements_inside hf body s.scopes.blocks.length s.scopes.blocks.tail s
    ⟨rfl, rfl⟩
  unfold program
  rw [bind_eq]
  change (statements f body >>= fun _ => _) s = _
  rw [bind_eq]
  cases hrun : statements f body s with
  | error e t => rfl
  | ok x t =>
      rw [hrun] at hinside
      have hdepth : t.scopes.depth = s.scopes.depth := by
        unfold Scopes.depth
        rw [hinside.length]
      change (if t.scopes.depth ≠ s.scopes.depth then
        throw (.scopeDepth t.scopes.depth s.scopes.depth) else pure () : Encode Unit) t = _
      rw [if_neg (not_not.mpr hdepth)]
      rfl

end Encode

end Gx
