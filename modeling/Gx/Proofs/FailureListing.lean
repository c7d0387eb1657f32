import Gx.Assembly.Listing
import Gx.Proofs.Blocks
import Gx.Proofs.ImageListing
import Gx.Proofs.Narrowing

/-!
# The listing after a failure

A failure leaves all blocks on its way out, so the scopes of the blocks are gone when the program
has ended.  The listing still shows them: the first block that is left takes note of the open
scopes, and each further block hands over its own scope when it goes.  What is shown stays the same
all the way, and it is what was open when the statement failed.
-/

namespace Gx

/-! ## The symbols of a scope in order -/

namespace Scope

/-- No name is bound twice. -/
def Distinct (scope : Scope) : Prop :=
  (scope.symbols.map Symbol.name).Nodup

theorem names_insertInto (sym : Symbol) (symbols : List Symbol) :
    (insertInto sym symbols).map Symbol.name =
      if sym.name ∈ symbols.map Symbol.name then symbols.map Symbol.name
      else symbols.map Symbol.name ++ [sym.name] := by
  induction symbols with
  | nil => simp [insertInto]
  | cons first rest ih =>
      by_cases hfirst : first.name = sym.name
      · simp [insertInto, hfirst]
      · have hother : sym.name ≠ first.name := fun h => hfirst h.symm
        simp only [insertInto, if_neg hfirst, List.map_cons, ih, List.mem_cons, hother, false_or]
        split <;> simp

theorem Distinct.put {scope : Scope} (h : scope.Distinct) (sym : Symbol) :
    (scope.put sym).Distinct := by
  unfold Distinct Scope.put
  rw [names_insertInto]
  split
  next => exact h
  next hnew =>
    refine List.nodup_append.mpr ⟨h, List.nodup_singleton _, ?_⟩
    intro name hname other hother heq
    rw [heq, List.mem_singleton.mp hother] at hname
    exact hnew hname

theorem sorted_perm (scope : Scope) : scope.sorted.Perm scope.symbols :=
  List.mergeSort_perm _ _

theorem sorted_pairwise {scope : Scope} (h : scope.Distinct) :
    scope.sorted.Pairwise fun a b => a.name < b.name := by
  have hle : scope.sorted.Pairwise fun a b => decide (a.name ≤ b.name) = true := by
    apply List.pairwise_mergeSort
    · intro a b c hab hbc
      simp only [decide_eq_true_eq] at hab hbc ⊢
      exact List.le_trans hab hbc
    · intro a b
      simp only [Bool.or_eq_true, decide_eq_true_eq]
      exact List.le_total a.name b.name
  have hne : scope.sorted.Pairwise fun a b => a.name ≠ b.name := by
    have hnodup : (scope.sorted.map Symbol.name).Nodup :=
      (scope.sorted_perm.map Symbol.name).nodup_iff.mpr h
    exact List.pairwise_map.mp hnodup
  refine (hle.and hne).imp ?_
  intro a b hab
  exact (List.le_iff_lt_or_eq.mp (of_decide_eq_true hab.1)).resolve_right hab.2

/-- Sorted symbols come in the only order that their names admit. -/
theorem sorted_eq {scope : Scope} {row : List Symbol} (hperm : row.Perm scope.symbols)
    (hrow : row.Pairwise fun a b => a.name < b.name) : scope.sorted = row := by
  have hdistinct : scope.Distinct := by
    refine (hperm.map Symbol.name).nodup_iff.mp (List.pairwise_map.mpr (hrow.imp ?_))
    intro a b hlt heq
    rw [heq] at hlt
    exact List.lt_irrefl _ hlt
  refine List.Perm.eq_of_pairwise ?_ (sorted_pairwise hdistinct) hrow
    (scope.sorted_perm.trans hperm.symm)
  intro a b _ _ hab hba
  exact absurd hba (List.lt_asymm hab)

end Scope

/-- The global scope and those of all open blocks have the property `P`. -/
structure Scopes.All (P : Scope → Prop) (scopes : Scopes) : Prop where
  outermost : P scopes.outermost
  blocks : ∀ scope ∈ scopes.blocks, P scope

namespace Scopes.All

variable {P : Scope → Prop} {scopes next : Scopes} {sym : Symbol}

theorem levels (h : scopes.All P) : ∀ scope ∈ scopes.levels, P scope := by
  intro scope hscope
  rcases List.mem_cons.mp hscope with rfl | hblock
  · exact h.outermost
  · exact h.blocks scope (List.mem_reverse.mp hblock)

variable (hput : ∀ scope sym, P scope → P (scope.put sym))

include hput

theorem bindGlobal (h : scopes.All P) (hbind : scopes.bindGlobal sym = .ok next) :
    next.All P := by
  obtain ⟨outermost, hscope, rfl⟩ := bindGlobal_eq_ok_iff.mp hbind
  rw [Scope.eq_put_of_bind hscope]
  exact ⟨hput _ _ h.outermost, h.blocks⟩

theorem bind (h : scopes.All P) (hbind : scopes.bind sym = .ok next) : next.All P := by
  rcases bind_eq_ok hbind with ⟨_, hglobal⟩ | ⟨innermost, rest, changed, hblocks, hscope, rfl⟩
  · exact h.bindGlobal hput hglobal
  · have hold := h.blocks
    rw [hblocks, List.forall_mem_cons] at hold
    refine ⟨h.outermost, List.forall_mem_cons.mpr ⟨?_, hold.2⟩⟩
    rw [Scope.eq_put_of_bind hscope]
    exact hput _ _ hold.1

end Scopes.All

namespace Encode

theorem all_leaf {P : Scope → Prop} (hput : ∀ scope sym, P scope → P (scope.put sym)) :
    LeafInvariant (fun s => s.scopes.All P) (fun _ s => s.scopes.All P) .refer {} := by
  have hsame : ∀ {a : Encode Unit}, (∀ s, (finalState (a s)).scopes = s.scopes) →
      Keeps (fun s => s.scopes.All P) (fun _ s => s.scopes.All P) a :=
    keeps_of_scopes (fun hscopes hs => by rwa [hscopes]) id
  refine
    { thrown := fun e hs => hs
      push := fun data => hsame (scopes_onImage _)
      forward := fun name part _ => hsame (refer_keepsScopes name part)
      label := fun name _ s hs => ?_
      define := fun name kind value _ s hs => ?_ }
  · unfold defineLabel
    cases hbind : s.scopes.bindGlobal ⟨name, .address, UInt16.ofNat s.image.size⟩ with
    | error e => exact hs
    | ok next => exact hs.bindGlobal hput hbind
  · rw [define_eq]
    cases hbind : s.scopes.bind ⟨name, kind, value⟩ with
    | error e => exact hs
    | ok next => exact hs.bind hput hbind

/-- What an empty scope has, and what no binding destroys, all scopes have at every moment. -/
theorem all_visits {P : Scope → Prop} (hempty : P {})
    (hput : ∀ scope sym, P scope → P (scope.put sym)) :
    VisitInvariant (fun s => s.scopes.All P) .refer where
  leaf := by
    intro x s hx hs
    exact keeps_iff_finalState.mp ((all_leaf hput).leaf hx (NameRules.allow_of_trivial x)) s hs
  enter := by
    intro s hs
    exact ⟨hs.outermost, List.forall_mem_cons.mpr ⟨hempty, hs.blocks⟩⟩
  leave := by
    intro s hs
    cases hblocks : s.scopes.blocks with
    | nil =>
        unfold leaveScope Scopes.pop
        simp only [hblocks]
        exact hs
    | cons innermost rest =>
        rw [leaveScope_of_blocks hblocks]
        have hold := hs.blocks
        rw [hblocks, List.forall_mem_cons] at hold
        exact ⟨hs.outermost, hold.2⟩
  remember := by
    intro s hs
    unfold Assembly.rememberScopes
    cases s.failed <;> exact hs

/-! ## On the way out -/

/-- The scopes `opened` were open at a failure, and the state `t` is on the way out from there.  The
scopes that are still open stay where they are; the others have been handed over. -/
structure Unwinding (opened : List Scope) (t : Assembly) : Prop where
  left : ∃ left, opened = t.scopes.levels ++ left ∧
    (t.failed = none ∧ left = [] ∨ t.failed = some ⟨t.scopes.depth, left⟩)

theorem Unwinding.shownScopes {opened : List Scope} {t : Assembly} (h : Unwinding opened t) :
    t.shownScopes = opened := by
  obtain ⟨left, rfl, hfailed⟩ := h.left
  unfold Assembly.shownScopes
  rcases hfailed with ⟨hnone, rfl⟩ | hsome
  · rw [hnone, List.append_nil]
  · rw [hsome]
    simp only
    rw [← Scopes.length_levels, List.take_length]

theorem Unwinding.rememberScopes {opened : List Scope} {t : Assembly} (h : Unwinding opened t) :
    ∃ left, opened = t.scopes.levels ++ left ∧
      t.rememberScopes = { t with failed := some ⟨t.scopes.depth, left⟩ } := by
  obtain ⟨left, hopened, hfailed⟩ := h.left
  refine ⟨left, hopened, ?_⟩
  unfold Assembly.rememberScopes
  rcases hfailed with ⟨hnone, rfl⟩ | hsome
  · rw [hnone]
  · rw [hsome]
    simp only
    rw [← hsome]

/-- A block hands its scope over when it is left, so nothing is lost. -/
theorem Unwinding.abandoned {opened : List Scope} {t : Assembly} (h : Unwinding opened t)
    {innermost : Scope} {rest : List Scope} (hblocks : t.scopes.blocks = innermost :: rest) :
    Unwinding opened (abandoned t) := by
  obtain ⟨left, hopened, hremember⟩ := h.rememberScopes
  have hleave : (⟨t.scopes.depth, left⟩ : FailedScopes).leave t.scopes =
      ⟨rest.length + 1, innermost :: left⟩ := by
    simp [FailedScopes.leave, Scopes.depth, hblocks]
  have heq : Encode.abandoned t =
      { t with
        scopes := { t.scopes with blocks := rest }
        failed := some ⟨rest.length + 1, innermost :: left⟩ } := by
    unfold Encode.abandoned
    rw [hremember, leaveScope_of_blocks
      (s := { t with failed := some ⟨t.scopes.depth, left⟩ }) hblocks]
    simp only [finalState_ok, Option.map_some, hleave]
  rw [heq]
  refine ⟨innermost :: left, ?_, Or.inr rfl⟩
  rw [hopened]
  simp [Scopes.levels, hblocks]

/-! ## The statement that fails -/

/-- The statement that is visited last is no block and fails for the cause `e` in the state `u`.
All statements before it have succeeded. -/
def StopsAt (visits : List (Statement × Assembly)) (e : EncodeError) (u : Assembly) : Prop :=
  ∃ done x start, visits = done ++ [(x, start)] ∧
    (∀ v ∈ done, succeeds (statement .refer v.1 v.2) = true) ∧
    x.isBlock = false ∧ statement .refer x start = .error e u

theorem StopsAt.behind {first second : List (Statement × Assembly)} {e : EncodeError}
    {u : Assembly} (hfirst : ∀ v ∈ first, succeeds (statement .refer v.1 v.2) = true)
    (h : StopsAt second e u) : StopsAt (first ++ second) e u := by
  obtain ⟨done, x, start, rfl, hdone, hfails⟩ := h
  refine ⟨first ++ done, x, start, (List.append_assoc _ _ _).symm, ?_, hfails⟩
  exact List.forall_mem_append.mpr ⟨hfirst, hdone⟩

theorem succeeds_of_mem_visits {x : Statement} {s t : Assembly}
    (hrun : statement .refer x s = .ok () t) :
    ∀ v ∈ visits .refer x s, succeeds (statement .refer v.1 v.2) = true := by
  intro v hv
  obtain ⟨u, _, hvisit, _⟩ := (chain_of_statement x hrun).visit hv
  rw [hvisit]
  rfl

theorem Moves.failed {s t : Assembly} (h : Moves s t) (hs : s.failed = none) :
    t.failed = none := by
  induction h with
  | refl => exact hs
  | enter _ ih => exact ih
  | @leave t u _ hleave ih =>
      unfold leaveScope at hleave
      split at hleave
      next =>
        cases hleave
        simp [ih]
      next => contradiction

/-- As long as all goes well, nothing is noted. -/
theorem Chain.failed {s t : Assembly} {vs : List (Statement × Assembly)}
    (h : Chain .refer s vs t) (hs : s.failed = none) : t.failed = none := by
  induction h with
  | nil hmoves => exact hmoves.failed hs
  | @cons s start u t x vs hmoves hleaf hrun _ ih =>
      apply ih
      have hkept := (failed_leaf none).leaf hleaf (NameRules.allow_of_trivial x)
      exact hkept.of_ok (hmoves.failed hs) hrun

theorem stopsAt_leaf {x : Statement} (hleaf : x.isBlock = false) {s t : Assembly}
    {e : EncodeError} (hs : s.failed = none) (hrun : statement .refer x s = .error e t) :
    StopsAt [(x, s)] e t ∧ Unwinding t.scopes.levels t := by
  have hkept := keeps_iff_finalState.mp
    ((failed_leaf none).leaf hleaf (NameRules.allow_of_trivial x)) s hs
  rw [hrun] at hkept
  refine ⟨⟨[], x, s, rfl, by simp, hleaf, hrun⟩, [], ?_, Or.inl ⟨hkept, rfl⟩⟩
  rw [List.append_nil]

mutual

theorem stopsAt_statement (x : Statement) {s t : Assembly} {e : EncodeError}
    (hs : s.failed = none) (hrun : statement .refer x s = .error e t) :
    ∃ u, StopsAt (visits .refer x s) e u ∧ Unwinding u.scopes.levels t := by
  cases x with
  | block span body =>
      obtain ⟨innermost, hblocks⟩ := exists_innermost body s
      rw [statement, inScope_eq] at hrun
      cases hbody : statements .refer body { s with scopes := s.scopes.push } with
      | ok y u =>
          rw [hbody] at hrun hblocks
          have hleave : leaveScope u = .error e t := hrun
          have hleft := leaveScope_of_blocks (s := u) hblocks
          rw [hleave] at hleft
          contradiction
      | error e' u =>
          rw [hbody] at hrun hblocks
          cases hrun
          obtain ⟨v, hstops, hunwinding⟩ :=
            stopsAt_statements body (s := { s with scopes := s.scopes.push }) hs hbody
          exact ⟨v, hstops, hunwinding.abandoned hblocks⟩
  | _ => exact ⟨t, stopsAt_leaf rfl hs hrun⟩

theorem stopsAt_statements (body : List Statement) {s t : Assembly} {e : EncodeError}
    (hs : s.failed = none) (hrun : statements .refer body s = .error e t) :
    ∃ u, StopsAt (visitsOf .refer body s) e u ∧ Unwinding u.scopes.levels t := by
  cases body with
  | nil => contradiction
  | cons x rest =>
      rw [statements, bind_eq] at hrun
      rw [visitsOf]
      cases hfirst : statement .refer x s with
      | ok y next =>
          rw [hfirst] at hrun
          have hnext := (chain_of_statement x hfirst).failed hs
          obtain ⟨u, hstops, hunwinding⟩ := stopsAt_statements rest hnext hrun
          exact ⟨u, hstops.behind (succeeds_of_mem_visits hfirst), hunwinding⟩
      | error e' next =>
          rw [hfirst] at hrun
          cases hrun
          obtain ⟨u, hstops, hunwinding⟩ := stopsAt_statement x hs hfirst
          simp only [List.append_nil]
          exact ⟨u, hstops, hunwinding⟩

end

theorem StopsAt.distinct {body : List Statement} {e : EncodeError} {u : Assembly}
    (h : StopsAt (visitsOf .refer body {}) e u) : u.scopes.All Scope.Distinct := by
  obtain ⟨done, x, start, hvisits, _, hleaf, hrun⟩ := h
  have hinvariant : VisitInvariant (fun s => s.scopes.All Scope.Distinct) .refer :=
    all_visits List.nodup_nil fun _ sym hscope => hscope.put sym
  have hstart : start.scopes.All Scope.Distinct := by
    refine (hinvariant.statements body (s := {}) ⟨List.nodup_nil, by simp⟩).1 (x, start) ?_
    rw [hvisits]
    exact List.mem_append_right _ (List.mem_singleton_self _)
  have hend := hinvariant.leaf hleaf hstart
  rwa [hrun] at hend

end Encode

/-! ## The listing -/

namespace Listing

/-- A column begins with a word, and spaces fill it up.  The letters of ASCII take one place
each. -/
def FilledUp (width : Nat) (column word : Bytes) : Prop :=
  ∃ spaces, column = word ++ List.replicate spaces (ascii ' ') ∧
    ((∀ b ∈ word, b < 0x80) → spaces = width - word.length)

def kindWord : Kind → Bytes
  | .value => utf8 "value"
  | .address => utf8 "address"
  | .register => utf8 "register"
  | .other _ => utf8 "kind(?)"

/-- A line that shows the kind, the name and the value of a symbol. -/
def ShowsSymbol (line : Bytes) (sym : Symbol) : Prop :=
  ∃ kind name value,
    line = utf8 "\t" ++ kind ++ utf8 " " ++ name ++ utf8 " " ++ value ++ utf8 "\n" ∧
    FilledUp 8 kind (kindWord sym.kind) ∧ FilledUp 16 name sym.name ∧
    SpellsAddress value sym.value.toNat

/-- Lines that show the scope at some depth: how many symbols it has, and one line for each. -/
def ShowsScope (text : Bytes) (depth : Nat) (row : List Symbol) : Prop :=
  ∃ number count lines,
    text = utf8 "scope " ++ number ++ utf8 ": " ++ count ++ utf8 " symbols\n" ++
      List.flatten lines ∧
    Spells 10 1 number depth ∧ Spells 10 1 count row.length ∧
    List.Forall₂ ShowsSymbol lines row

theorem filledUp_padRight (width : Nat) (word : Bytes) :
    FilledUp width (Text.padRight width word) word := by
  refine ⟨_, rfl, fun hascii => ?_⟩
  rw [pieces_ascii hascii, List.length_map]

theorem showsSymbol_listing (sym : Symbol) : ShowsSymbol sym.listing sym := by
  have hword : sym.kind.name = kindWord sym.kind := by cases sym.kind <;> rfl
  refine ⟨_, _, _, rfl, ?_, filledUp_padRight 16 sym.name, SpellsAddress.address _⟩
  rw [← hword]
  exact filledUp_padRight 8 sym.kind.name

theorem showsScope_listing (scope : Scope) (depth : Nat) :
    ShowsScope (scope.listing depth) depth scope.sorted := by
  refine ⟨_, _, scope.sorted.map Symbol.listing, ?_, Spells.decimal depth,
    Spells.decimal scope.sorted.length, ?_⟩
  · rw [← List.flatMap_def, scope.sorted_perm.length_eq]
    rfl
  · rw [List.forall₂_map_left_iff, List.forall₂_same]
    exact fun sym _ => showsSymbol_listing sym

end Listing

/-- After a failure the listing shows the scopes that were open when the statement failed, from the
global one inwards, each with its symbols in the order of their names.  Only the global scope is
left open by then. -/
theorem listing_shows_scopes_at_failure {body : List Statement} {e : EncodeError} {t : Assembly}
    (hrun : Encode.program .refer body {} = .error e t) :
    t.scopes.depth = 1 ∧
    ∃ u, Encode.StopsAt (Encode.visitsOf .refer body {}) e u ∧
      ∃ (rows : List (List Symbol)) (texts : List Bytes),
        List.Forall₂ (fun row scope => row.Perm scope.symbols ∧
          row.Pairwise fun a b => a.name < b.name) rows u.scopes.levels ∧
        texts.length = rows.length ∧
        (∀ depth text row, texts[depth]? = some text → rows[depth]? = some row →
          Listing.ShowsScope text depth row) ∧
        t.listing = t.image.listing ++ texts.flatten ++ t.referenceListing := by
  rw [Encode.program_eq_statements Encode.refer_keepsScopes] at hrun
  obtain ⟨u, hstops, hunwinding⟩ := Encode.stopsAt_statements body rfl hrun
  have hdistinct := hstops.distinct.levels
  refine ⟨?_, u, hstops, u.scopes.levels.map Scope.sorted,
    u.scopes.levels.mapIdx fun depth scope => scope.listing depth, ?_, by simp, ?_, ?_⟩
  · have hinside := Encode.keeps_iff_finalState.mp
      (Encode.statements_inside Encode.refer_keepsScopes body 0 []) {} ⟨rfl, rfl⟩
    rw [hrun] at hinside
    exact congrArg (· + 1) hinside.length
  · rw [List.forall₂_map_left_iff, List.forall₂_same]
    intro scope hscope
    exact ⟨scope.sorted_perm, Scope.sorted_pairwise (hdistinct scope hscope)⟩
  · intro depth text row htext hrow
    rw [List.getElem?_mapIdx] at htext
    rw [List.getElem?_map] at hrow
    obtain ⟨scope, hscope, rfl⟩ := Option.map_eq_some_iff.mp htext
    rw [hscope, Option.map_some, Option.some.injEq] at hrow
    rw [← hrow]
    exact Listing.showsScope_listing scope depth
  · unfold Assembly.listing
    rw [hunwinding.shownScopes, List.flatMap_def, List.mapIdx_eq_zipIdx_map]

/-- A block has been left, and then an instruction fails two blocks deep, behind a label that
belongs to the global scope. -/
theorem listing_shows_scopes_at_failure_in_inner_block :
    let first : Operand := .register {} (.numbered ⟨{}, utf8 "1", 10⟩)
    let five : Operand := .number ⟨{}, utf8 "5", 10⟩
    let body : List Statement :=
      [.block {} [.defineValue {} (utf8 "gone") five],
        .defineRegister {} (utf8 "z") first,
        .block {} [.defineValue {} (utf8 "inner") five,
          .block {} [.label {} (utf8 "a"),
            .instruction {} .set [first, .name {} (utf8 "missing")]]]]
    ∃ e t u, Encode.program .refer body {} = .error e t ∧ t.scopes.depth = 1 ∧
      Encode.StopsAt (Encode.visitsOf .refer body {}) e u ∧
      u.scopes.levels =
        [⟨[⟨utf8 "z", .register, 1⟩, ⟨utf8 "a", .address, 0⟩]⟩, ⟨[⟨utf8 "inner", .value, 5⟩]⟩,
          ⟨[]⟩] ∧
      (∃ (rows : List (List Symbol)) (texts : List Bytes),
        List.Forall₂ (fun row scope => row.Perm scope.symbols ∧
          row.Pairwise fun a b => a.name < b.name) rows u.scopes.levels ∧
        texts.length = rows.length ∧
        (∀ depth text row, texts[depth]? = some text → rows[depth]? = some row →
          Listing.ShowsScope text depth row) ∧
        t.listing = t.image.listing ++ texts.flatten ++ t.referenceListing) ∧
      t.listing = Bytes.ended [utf8 "image: 2 bytes", utf8 "0000: 01 01", utf8 "scope 0: 2 symbols",
        utf8 "\taddress  a                0x0000", utf8 "\tregister z                0x0001",
        utf8 "scope 1: 1 symbols", utf8 "\tvalue    inner            0x0005",
        utf8 "scope 2: 0 symbols"] := by
  intro first five body
  obtain ⟨hfails, hlevels⟩ : Encode.succeeds (Encode.program .refer body {}) = false ∧
      (Encode.visitsOf .refer body {}).getLast?.map
        (fun v => (Encode.finalState (Encode.statement .refer v.1 v.2)).scopes.levels) =
      some [⟨[⟨utf8 "z", .register, 1⟩, ⟨utf8 "a", .address, 0⟩]⟩, ⟨[⟨utf8 "inner", .value, 5⟩]⟩,
        ⟨[]⟩] := by
    decide +kernel
  have hlisting : (Encode.finalState (Encode.program .refer body {})).listing =
      Bytes.ended [utf8 "image: 2 bytes", utf8 "0000: 01 01", utf8 "scope 0: 2 symbols",
        utf8 "\taddress  a                0x0000", utf8 "\tregister z                0x0001",
        utf8 "scope 1: 1 symbols", utf8 "\tvalue    inner            0x0005",
        utf8 "scope 2: 0 symbols"] := by
    have hshown : (Encode.finalState (Encode.program .refer body {})).shownScopes =
        [⟨[⟨utf8 "z", .register, 1⟩, ⟨utf8 "a", .address, 0⟩]⟩, ⟨[⟨utf8 "inner", .value, 5⟩]⟩,
          ⟨[]⟩] := by decide +kernel
    have houter : (⟨[⟨utf8 "z", .register, 1⟩, ⟨utf8 "a", .address, 0⟩]⟩ : Scope).sorted =
        [⟨utf8 "a", .address, 0⟩, ⟨utf8 "z", .register, 1⟩] :=
      Scope.sorted_eq (by decide) (by decide)
    have hmiddle : (⟨[⟨utf8 "inner", .value, 5⟩]⟩ : Scope).sorted = [⟨utf8 "inner", .value, 5⟩] :=
      Scope.sorted_eq (by decide) (by decide)
    have hinner : (⟨[]⟩ : Scope).sorted = [] := Scope.sorted_eq (by decide) (by decide)
    rw [Assembly.listing, Image.listing_eq, hshown]
    simp only [List.zipIdx_cons, List.zipIdx_nil, List.flatMap_cons, List.flatMap_nil,
      Scope.listing, houter, hmiddle, hinner]
    decide +kernel
  cases hrun : Encode.program .refer body {} with
  | ok x t =>
      rw [hrun] at hfails
      contradiction
  | error e t =>
      rw [hrun] at hlisting
      obtain ⟨hdepth, u, hstops, hrows⟩ := listing_shows_scopes_at_failure hrun
      refine ⟨e, t, u, rfl, hdepth, hstops, ?_, hrows, hlisting⟩
      obtain ⟨done, x, start, hvisits, _, _, hstatement⟩ := hstops
      rw [hvisits, List.getLast?_append, List.getLast?_singleton, Option.some_or, Option.map_some,
        hstatement] at hlevels
      exact Option.some.inj hlevels

end Gx
