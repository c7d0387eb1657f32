import Gx.Proofs.Scopes
import Gx.Proofs.Visits

/-!
# What a block leaves behind

A block has a scope of its own, and the scope is gone when the block is left, be it at its end or
at a failure.  What is defined inside of the block goes to this scope, or to that of a block inside
of it.  Only labels write through to the global scope.  So a block changes the global scope by the
labels that its run has come to, and no other scope at all.
-/

namespace Gx

/-! ## Symbols put into a scope -/

namespace Scope

theorem mem_foldl_put {symbols : List Symbol} {scope : Scope} {sym : Symbol}
    (h : sym ∈ (symbols.foldl put scope).symbols) : sym ∈ scope.symbols ∨ sym ∈ symbols := by
  induction symbols generalizing scope with
  | nil => exact Or.inl h
  | cons first rest ih =>
      rcases ih h with hput | hrest
      · rcases mem_put hput with rfl | hold
        · exact Or.inr List.mem_cons_self
        · exact Or.inl hold
      · exact Or.inr (List.mem_cons_of_mem _ hrest)

/-- The last one of the symbols with a name decides. -/
theorem find?_foldl_put (symbols : List Symbol) (scope : Scope) (name : Bytes) :
    (symbols.foldl put scope).find? name =
      (symbols.reverse.find? (·.name == name)).or (scope.find? name) := by
  induction symbols generalizing scope with
  | nil => rfl
  | cons first rest ih =>
      rw [List.foldl_cons, ih, put, find?_insertInto, List.reverse_cons, List.find?_append,
        Option.or_assoc]
      congr 1
      by_cases hname : first.name = name
      · simp [hname]
      · simp [hname]

end Scope

namespace Encode

/-! ## The labels of a run -/

/-- The symbol that a visit puts into the global scope, if it is that of a label.  A label whose
name has another kind there fails and puts nothing. -/
def labelSymbol? : Statement × Assembly → Option Symbol
  | (.label span name, s) =>
      if succeeds (statement .refer (.label span name) s) then
        some ⟨name, .address, UInt16.ofNat s.image.size⟩
      else none
  | _ => none

def labelSymbols (visits : List (Statement × Assembly)) : List Symbol :=
  visits.filterMap labelSymbol?

theorem labelSymbols_append (first second : List (Statement × Assembly)) :
    labelSymbols (first ++ second) = labelSymbols first ++ labelSymbols second :=
  List.filterMap_append

theorem exists_label_of_mem {visits : List (Statement × Assembly)} {sym : Symbol}
    (h : sym ∈ labelSymbols visits) :
    ∃ span start next, (.label span sym.name, start) ∈ visits ∧
      statement .refer (.label span sym.name) start = .ok () next ∧
      sym = ⟨sym.name, .address, UInt16.ofNat start.image.size⟩ := by
  obtain ⟨⟨x, start⟩, hvisit, hsym⟩ := List.mem_filterMap.mp h
  cases x with
  | label span name =>
      simp only [labelSymbol?, Option.ite_none_right_eq_some, Option.some.injEq] at hsym
      obtain ⟨hsucceeds, rfl⟩ := hsym
      exact ⟨span, start, _, hvisit, eq_ok_of_succeeds hsucceeds, rfl⟩
  | _ => contradiction

theorem outermost_label (span : Span) (name : Bytes) (s : Assembly) :
    (finalState (statement .refer (.label span name) s)).scopes.outermost =
      (labelSymbols [(.label span name, s)]).foldl Scope.put s.scopes.outermost := by
  have hrun : statement .refer (.label span name) s =
      mapError (fun t => .inStatement (t.place s.image.size)) (defineLabel name) s := by
    rw [statement, located_eq]
  simp only [labelSymbols, labelSymbol?, List.filterMap_cons, List.filterMap_nil, hrun]
  unfold mapError defineLabel
  cases hbind : s.scopes.bindGlobal ⟨name, .address, UInt16.ofNat s.image.size⟩ with
  | error e => rfl
  | ok next =>
      obtain ⟨outermost, hscope, rfl⟩ := Scopes.bindGlobal_eq_ok_iff.mp hbind
      exact Scope.eq_put_of_bind hscope

/-! ## Inside of a block -/

/-- A block is open, and the global scope is the given one. -/
structure Above (outermost : Scope) (s : Assembly) : Prop where
  blocks : s.scopes.blocks ≠ []
  outermost : s.scopes.outermost = outermost

theorem above_leaf (outermost : Scope) :
    LeafInvariant (Above outermost) (fun _ => Above outermost) .refer
      { label := fun _ => False } := by
  have hsame : ∀ {a : Encode Unit}, (∀ s, (finalState (a s)).scopes = s.scopes) →
      Keeps (Above outermost) (fun _ => Above outermost) a :=
    keeps_of_scopes (fun hscopes hs => ⟨hscopes ▸ hs.blocks, hscopes ▸ hs.outermost⟩) id
  refine
    { thrown := fun e hs => hs
      push := fun data => hsame (scopes_onImage _)
      forward := fun name part _ => hsame (refer_keepsScopes name part)
      label := fun name hname => hname.elim
      define := fun name kind value _ s hs => ?_ }
  rw [define_eq]
  cases hbind : s.scopes.bind ⟨name, kind, value⟩ with
  | error e => exact hs
  | ok next =>
      -- an open block takes the binding
      rcases Scopes.bind_eq_ok hbind with ⟨hnone, _⟩ | ⟨_, _, _, _, _, rfl⟩
      · exact absurd hnone hs.blocks
      · exact ⟨by simp, hs.outermost⟩

theorem outermost_leaf {x : Statement} (hleaf : x.isBlock = false) {s : Assembly}
    (hblocks : s.scopes.blocks ≠ []) :
    (finalState (statement .refer x s)).scopes.outermost =
      (labelSymbols [(x, s)]).foldl Scope.put s.scopes.outermost := by
  by_cases hlabel : x.labelNames = []
  · have hallow : NameRules.Allow { label := fun _ => False } x :=
      ⟨by simp [hlabel], fun _ _ => trivial, fun _ _ => trivial⟩
    have habove := keeps_iff_finalState.mp ((above_leaf s.scopes.outermost).leaf hleaf hallow) s
      ⟨hblocks, rfl⟩
    have hnone : labelSymbols [(x, s)] = [] := by
      cases x with
      | label span name => simp [Statement.labelNames] at hlabel
      | _ => rfl
    rw [hnone]
    exact habove.outermost
  · cases x with
    | label span name => exact outermost_label span name s
    | _ => exact absurd rfl hlabel

/-- When the statements of a block have ended or failed, its scope is the innermost one. -/
theorem exists_innermost (body : List Statement) (s : Assembly) :
    ∃ innermost,
      (finalState (statements .refer body { s with scopes := s.scopes.push })).scopes.blocks =
        innermost :: s.scopes.blocks := by
  have hkeeps := statements_inside refer_keepsScopes body (s.scopes.blocks.length + 1)
    s.scopes.blocks
  exact (keeps_iff_finalState.mp hkeeps { s with scopes := s.scopes.push } ⟨rfl, rfl⟩).blocks

/-- A block ends as its statements do, and the scope that was pushed for it is popped. -/
theorem statement_block (span : Span) (body : List Statement) (s : Assembly) :
    ∃ t, t.scopes =
        { (finalState (statements .refer body { s with scopes := s.scopes.push })).scopes with
          blocks := s.scopes.blocks } ∧
      statement .refer (.block span body) s =
        match statements .refer body { s with scopes := s.scopes.push } with
        | .ok _ _ => .ok () t
        | .error e _ => .error e t := by
  obtain ⟨innermost, hblocks⟩ := exists_innermost body s
  rw [statement, inScope_eq]
  cases hrun : statements .refer body { s with scopes := s.scopes.push } with
  | ok y t =>
      rw [hrun] at hblocks
      exact ⟨_, rfl, leaveScope_of_blocks hblocks⟩
  | error e t =>
      rw [hrun] at hblocks
      exact ⟨_, scopes_abandoned hblocks, rfl⟩

theorem scopes_block (span : Span) (body : List Statement) (s : Assembly) :
    (finalState (statement .refer (.block span body) s)).scopes =
      { (finalState (statements .refer body { s with scopes := s.scopes.push })).scopes with
        blocks := s.scopes.blocks } := by
  obtain ⟨t, hscopes, hrun⟩ := statement_block span body s
  rw [hrun, ← hscopes]
  cases statements .refer body { s with scopes := s.scopes.push } <;> rfl

theorem blocks_ne_nil {x : Statement} {s t : Assembly} (hblocks : s.scopes.blocks ≠ [])
    (hrun : statement .refer x s = .ok () t) : t.scopes.blocks ≠ [] := by
  have hinside := (statement_inside refer_keepsScopes x s.scopes.blocks.length
    s.scopes.blocks.tail).of_ok ⟨rfl, rfl⟩ hrun
  intro hnone
  have hlength := hinside.length
  rw [hnone] at hlength
  exact hblocks (List.length_eq_zero_iff.mp hlength.symm)

mutual

theorem outermost_statement (x : Statement) {s : Assembly} (hblocks : s.scopes.blocks ≠ []) :
    (finalState (statement .refer x s)).scopes.outermost =
      (labelSymbols (visits .refer x s)).foldl Scope.put s.scopes.outermost := by
  cases x with
  | block span body =>
      rw [scopes_block]
      exact outermost_statements body (s := { s with scopes := s.scopes.push })
        (List.cons_ne_nil _ _)
  | _ => exact outermost_leaf rfl hblocks

/-- Statements inside of a block add their labels to the global scope, and nothing else. -/
theorem outermost_statements (body : List Statement) {s : Assembly}
    (hblocks : s.scopes.blocks ≠ []) :
    (finalState (statements .refer body s)).scopes.outermost =
      (labelSymbols (visitsOf .refer body s)).foldl Scope.put s.scopes.outermost := by
  cases body with
  | nil => rfl
  | cons x rest =>
      have hfirst := outermost_statement x hblocks
      rw [statements, bind_eq, visitsOf]
      cases hrun : statement .refer x s with
      | ok y t =>
          rw [hrun] at hfirst
          have hrest := outermost_statements rest (blocks_ne_nil hblocks hrun)
          rw [labelSymbols_append, List.foldl_append, ← hfirst]
          exact hrest
      | error e t =>
          rw [hrun] at hfirst
          simpa using hfirst

end

end Encode

/-- A block is left with the scopes with which it was entered, whether its statements succeed or
fail.  Only the global scope may differ, by the labels inside of the block that have been bound.
Leaving the block does not fail, so the block fails if and only if its statements do.  Blocks inside
of the block are blocks themselves. -/
theorem block_restores_scopes (span : Span) (body : List Statement) (s : Assembly) :
    let inner := Encode.statements .refer body { s with scopes := s.scopes.push }
    let labels := Encode.labelSymbols (Encode.visits .refer (.block span body) s)
    let t := Encode.finalState (Encode.statement .refer (.block span body) s)
    (Encode.finalState inner).scopes.pop = .ok t.scopes ∧
    (∀ e, (∃ u, Encode.statement .refer (.block span body) s = .error e u) ↔
      ∃ u, inner = .error e u) ∧
    t.scopes.depth = s.scopes.depth ∧ t.scopes.blocks = s.scopes.blocks ∧
    t.scopes.outermost = labels.foldl Scope.put s.scopes.outermost ∧
    (∀ name, t.scopes.outermost.find? name =
      (labels.reverse.find? (·.name == name)).or (s.scopes.outermost.find? name)) ∧
    ∀ sym ∈ t.scopes.outermost.symbols, sym ∈ s.scopes.outermost.symbols ∨
      ∃ span' start next,
        (.label span' sym.name, start) ∈ Encode.visits .refer (.block span body) s ∧
        Encode.statement .refer (.label span' sym.name) start = .ok () next ∧
        sym = ⟨sym.name, .address, UInt16.ofNat start.image.size⟩ := by
  intro inner labels t
  have hscopes : t.scopes =
      { (Encode.finalState inner).scopes with blocks := s.scopes.blocks } :=
    Encode.scopes_block span body s
  have houtermost : t.scopes.outermost = labels.foldl Scope.put s.scopes.outermost := by
    rw [hscopes]
    exact Encode.outermost_statements body (s := { s with scopes := s.scopes.push })
      (List.cons_ne_nil _ _)
  have hblocks : t.scopes.blocks = s.scopes.blocks := by rw [hscopes]
  refine ⟨?_, ?_, ?_, hblocks, houtermost, fun name => ?_, fun sym hsym => ?_⟩
  · obtain ⟨innermost, hinside⟩ := Encode.exists_innermost body s
    unfold Scopes.pop
    rw [hinside, hscopes]
  · intro e
    obtain ⟨u, _, hrun⟩ := Encode.statement_block span body s
    rw [hrun]
    change _ ↔ ∃ u, Encode.statements .refer body { s with scopes := s.scopes.push } = .error e u
    cases Encode.statements .refer body { s with scopes := s.scopes.push } <;> simp
  · unfold Scopes.depth
    rw [hblocks]
  · rw [houtermost, Scope.find?_foldl_put]
  · rw [houtermost] at hsym
    exact (Scope.mem_foldl_put hsym).imp id Encode.exists_label_of_mem

end Gx
