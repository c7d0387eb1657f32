import Gx.Proofs.Cells
import Gx.Proofs.ResolveEach
import Gx.Proofs.Sessions

/-!
# Nothing is cut off

All symbols are in range at every moment of a session: between its calls, and when the turn of a
statement comes inside of a call.  Failures make no difference, also not to the scopes that are
remembered for them.  So wherever a number is put into a byte, the byte holds all of it.
-/

namespace Gx

/-! ## The moments of a session -/

namespace Call

/-- The statements that a call encodes, up to a failure, each with the state that it starts from. -/
def visits : Call → Assembly → List (Statement × Assembly)
  | .program body, s => Encode.visitsOf .refer body s
  | .statement x, s => Encode.visits .refer x s
  | .resolve, _ => []

/-- The statements that the calls of a session encode. -/
def visitsOf : List Call → Assembly → List (Statement × Assembly)
  | [], _ => []
  | call :: rest, s => call.visits s ++ visitsOf rest (Encode.finalState (call.run s))

end Call

/-- The symbols of all scopes are in range, those remembered for a failure included. -/
structure Assembly.Bounded (s : Assembly) : Prop where
  ranged : Encode.Ranged s
  failed : ∀ f, s.failed = some f → ∀ scope ∈ f.left, ∀ sym ∈ scope.symbols, sym.InRange
  inside : s.image.PendingInside

namespace Encode

theorem failed_leaf (failed : Option FailedScopes) :
    LeafInvariant (·.failed = failed) (fun _ s => s.failed = failed) .refer {} := by
  have hsame : ∀ {a : Encode Unit}, (∀ s, (finalState (a s)).failed = s.failed) →
      Keeps (·.failed = failed) (fun _ s => s.failed = failed) a :=
    fun ha => keeps_iff_finalState.mpr fun s hs => (ha s).trans hs
  refine
    { thrown := fun e hs => hs
      push := fun data => hsame fun s => ?_
      forward := fun name part _ => hsame fun s => ?_
      label := fun name _ => hsame fun s => ?_
      define := fun name kind value _ => hsame fun s => ?_ }
  · rw [push, onImage_eq]
    cases s.image.push data <;> rfl
  · obtain ⟨_, _, _, hfinal⟩ := finalState_refer name part s
    rw [hfinal]
  · unfold defineLabel
    cases s.scopes.bindGlobal ⟨name, .address, UInt16.ofNat s.image.size⟩ <;> rfl
  · rw [define_eq]
    cases s.scopes.bind ⟨name, kind, value⟩ <;> rfl

theorem pendingInside_invariant :
    Invariant (fun s => s.image.PendingInside) (fun _ s => s.image.PendingInside) .refer {} := by
  apply Invariant.ofRefer
  · intro s t hstore hs
    rwa [hstore.1]
  · intro e s t hstore hs
    rwa [hstore.1]
  · intro s e hs
    exact hs
  · intro s data hs _
    exact hs.push_bytes data
  · intro s name part _ hs _
    exact hs.fill _
  · intro s n size limit hs
    exact hs.fill n

theorem bounded_initial : ({} : Assembly).Bounded where
  ranged := Scopes.InRange.initial
  failed f hf := by contradiction
  inside i hi := by
    have hempty : ({} : Assembly).image.pending.contains i = false := Bitmap.contains_empty i
    rw [hempty] at hi
    contradiction

theorem bounded_leaveScope {s : Assembly} (hs : s.Bounded) :
    (finalState (leaveScope s)).Bounded := by
  cases hblocks : s.scopes.blocks with
  | nil =>
      unfold leaveScope Scopes.pop
      simp only [hblocks]
      exact hs
  | cons innermost rest =>
      have hinnermost : innermost ∈ s.scopes.lookupOrder := by
        simp [Scopes.lookupOrder, hblocks]
      refine ⟨ranged_leaveScope hs.ranged, ?_, ?_⟩
      · rw [leaveScope_of_blocks hblocks]
        intro f hf scope hscope
        obtain ⟨g, hg, rfl⟩ := Option.map_eq_some_iff.mp hf
        simp only [FailedScopes.leave, hblocks] at hscope
        split at hscope
        · rcases List.mem_cons.mp hscope with rfl | hold
          · exact hs.ranged _ hinnermost
          · exact hs.failed g hg scope hold
        · exact hs.failed g hg scope hscope
      · rw [(sameStore_leaveScope s).1]
        exact hs.inside

theorem bounded_visits : VisitInvariant Assembly.Bounded .refer where
  leaf := by
    intro x s hx hs
    have hallow := NameRules.allow_of_trivial x
    have hfailed := keeps_iff_finalState.mp ((failed_leaf s.failed).leaf hx hallow) s rfl
    have hinside := keeps_iff_finalState.mp (pendingInside_invariant.leaf hx hallow) s hs.inside
    refine ⟨keeps_iff_finalState.mp (keeps_ranged_leaf refer_keepsScopes hx) s hs.ranged, ?_,
      hinside⟩
    rw [hfailed]
    exact hs.failed
  enter hs := ⟨hs.ranged.push, hs.failed, hs.inside⟩
  leave hs := bounded_leaveScope hs
  remember := by
    intro s hs
    unfold Assembly.rememberScopes
    cases hfailed : s.failed with
    | some f => exact hs
    | none =>
        refine ⟨hs.ranged, ?_, hs.inside⟩
        rintro f hf scope hscope
        cases hf
        contradiction

theorem bounded_resolve {s : Assembly} (hs : s.Bounded) : (finalState (resolve s)).Bounded := by
  rw [resolve_eq_resolveEach, finalState_resolveEach]
  refine ⟨hs.ranged, hs.failed, Image.keeps_resolveEach (P := Image.PendingInside) ?_ hs.inside⟩
  intro r _ img next hone himg
  obtain ⟨_, address, rfl⟩ := Reference.exists_patched_of_resolve hone
  exact himg.patched _ _

end Encode

namespace Call

theorem bounded_visits (call : Call) {s : Assembly} (hs : s.Bounded) :
    (∀ v ∈ call.visits s, v.2.Bounded) ∧ (Encode.finalState (call.run s)).Bounded := by
  cases call with
  | program body =>
      rw [run, Encode.program_eq_statements Encode.refer_keepsScopes]
      exact Encode.bounded_visits.statements body hs
  | statement x => exact Encode.bounded_visits.statement x hs
  | resolve => exact ⟨by simp [visits], Encode.bounded_resolve hs⟩

/-- In a session the symbols are in range whenever a statement's turn comes, and at the end. -/
theorem bounded_visitsOf (calls : List Call) {s : Assembly} (hs : s.Bounded) :
    (∀ v ∈ visitsOf calls s, v.2.Bounded) ∧ (after calls s).Bounded := by
  induction calls generalizing s with
  | nil => exact ⟨by simp [visitsOf], hs⟩
  | cons call rest ih =>
      obtain ⟨hvisits, hnext⟩ := call.bounded_visits hs
      obtain ⟨hrest, hlast⟩ := ih hnext
      exact ⟨List.forall_mem_append.mpr ⟨hvisits, hrest⟩, hlast⟩

end Call

/-! ## What is in range in a bounded state -/

theorem Assembly.Bounded.inRange_of_mem {s : Assembly} (hs : s.Bounded) {scope : Scope}
    (hscope : scope ∈ s.scopes.levels ++ s.shownScopes) {sym : Symbol}
    (hsym : sym ∈ scope.symbols) : sym.InRange := by
  have hlevels : ∀ scope ∈ s.scopes.levels, ∀ sym ∈ scope.symbols, sym.InRange := by
    intro scope hscope
    apply hs.ranged
    simp only [Scopes.levels, Scopes.lookupOrder, List.mem_cons, List.mem_reverse,
      List.mem_append, List.not_mem_nil, or_false] at hscope ⊢
    exact hscope.symm
  rcases List.mem_append.mp hscope with hopen | hshown
  · exact hlevels scope hopen sym hsym
  · unfold shownScopes at hshown
    split at hshown
    next => exact hlevels scope hshown sym hsym
    next f hf =>
      rcases List.mem_append.mp hshown with hopen | hleft
      · exact hlevels scope (List.mem_of_mem_take hopen) sym hsym
      · exact hs.failed f hf scope hleft sym hsym

theorem toNat_toUInt8_of_le {v : UInt16} (hv : v.toNat ≤ 0xFF) : v.toUInt8.toNat = v.toNat := by
  rw [UInt16.toNat_toUInt8]
  omega

/-- Whatever calls are made, and whether they fail or not: at every moment the values in all scopes
are at most 255 and the registers at most 31, and so is what an operand is worth as a value or a
register.  Of each statement, the bytes that stand for operands get into the image, up to a failure.
Such a byte is the number of its operand, unless it waits for a half of an address, and if it stands
for a register it is at most 31. -/
theorem no_number_is_cut_off (calls : List Call) :
    (∀ s, s = Call.after calls {} ∨ (∃ x, (x, s) ∈ Call.visitsOf calls {}) →
      (∀ scope ∈ s.scopes.levels ++ s.shownScopes, ∀ sym ∈ scope.symbols,
        (sym.kind = .value → sym.value.toNat ≤ 255) ∧
        (sym.kind = .register → sym.value.toNat ≤ 31)) ∧
      ∀ (x : Operand) (v : UInt16),
        (x.value s.scopes .value = .ok v → v.toNat ≤ 255 ∧ v.toUInt8.toNat = v.toNat) ∧
        (x.value s.scopes .register = .ok v → v.toNat ≤ 31 ∧ v.toUInt8.toNat = v.toNat)) ∧
    ∀ x s, (x, s) ∈ Call.visitsOf calls {} → ∀ t,
      Encode.finalState (Encode.statement .refer x s) = t →
      ∀ c ∈ x.cells s.scopes s.image.size,
        (Encode.statement .refer x s = .ok () t → c.pos < t.image.size) ∧
        (c.pos < t.image.size → c.Faithful s.scopes t.image ∧
          (c.kind = .register → ∃ b, t.image.bytes[c.pos]? = some b ∧ b.toNat ≤ 31)) := by
  obtain ⟨hvisits, hafter⟩ := Call.bounded_visitsOf calls Encode.bounded_initial
  refine ⟨fun s hs => ?_, fun x s hx t ht c hc => ⟨fun hrun => ?_, fun hlt => ?_⟩⟩
  · have hbounded : s.Bounded := by
      rcases hs with rfl | ⟨x, hx⟩
      · exact hafter
      · exact hvisits _ hx
    refine ⟨fun scope hscope sym hsym => ?_, fun x v => ⟨fun hv => ?_, fun hv => ?_⟩⟩
    · have hrange : sym.value.toNat ≤ sym.kind.greatest := hbounded.inRange_of_mem hscope hsym
      refine ⟨fun hkind => ?_, fun hkind => ?_⟩
      · rwa [hkind] at hrange
      · rwa [hkind] at hrange
    · have hle : v.toNat ≤ 255 := Operand.value_le hbounded.ranged hv
      exact ⟨hle, toNat_toUInt8_of_le hle⟩
    · have hle : v.toNat ≤ 31 := Operand.value_le hbounded.ranged hv
      exact ⟨hle, toNat_toUInt8_of_le (by omega)⟩
  · have hbounded := hvisits _ hx
    exact Encode.lt_size_of_mem_cells hbounded.ranged hbounded.inside hc hrun
  · have hbounded := hvisits _ hx
    subst ht
    have hfaithful := Encode.faithful_of_mem_cells hbounded.ranged hbounded.inside hc hlt
    refine ⟨hfaithful, fun hkind => ?_⟩
    rcases hfaithful with ⟨v, b, hv, hbyte, heq, _⟩ | ⟨⟨hvalue, _⟩, _⟩
    · rw [hkind] at hv
      have hle : v.toNat ≤ 31 := Operand.value_le hbounded.ranged hv
      exact ⟨b, hbyte, by omega⟩
    · rw [hkind] at hvalue
      contradiction

/-- A value is defined.  Then an instruction fails, because its second operand is too great, and
leaves a setup behind: register 31 twice, and a byte that waits for a half of an address. -/
theorem no_number_is_cut_off_before_failure :
    let top := utf8 "top"
    let last : Operand := .register {} (.numbered ⟨{}, utf8 "31", 10⟩)
    let later : Operand := .half {} .lo (.name {} (utf8 "later"))
    let x : Statement :=
      .instruction {} .set [.load {} last later, .number ⟨{}, utf8 "256", 10⟩]
    let calls : List Call :=
      [.statement (.defineValue {} top (.number ⟨{}, utf8 "ff", 16⟩)), .statement x]
    ∃ s t, (x, s) ∈ Call.visitsOf calls {} ∧
      Encode.finalState (Encode.statement .refer x s) = t ∧
      (Operand.name {} top).value s.scopes .value = .ok 255 ∧
      ((255 : UInt16).toNat ≤ 255 ∧ (255 : UInt16).toUInt8.toNat = (255 : UInt16).toNat) ∧
      t.image.bytes = #[1, 31, 0xFF, 1, 31] ∧
      (∀ c ∈ [(⟨1, .register, last⟩ : Cell), ⟨2, .value, later⟩],
        c ∈ x.cells s.scopes s.image.size ∧ c.pos < t.image.size ∧ c.Faithful s.scopes t.image) ∧
      ∃ b, t.image.bytes[1]? = some b ∧ b.toNat ≤ 31 := by
  intro top last later x calls
  have hvisits : (x, Encode.finalState ((calls.get ⟨0, by decide⟩).run {})) ∈
      Call.visitsOf calls {} := by
    simp [calls, Call.visitsOf, Call.visits, Encode.visits, x]
  obtain ⟨s, hs⟩ : ∃ s, Encode.finalState ((calls.get ⟨0, by decide⟩).run {}) = s := ⟨_, rfl⟩
  obtain ⟨t, ht⟩ : ∃ t, Encode.finalState (Encode.statement .refer x s) = t := ⟨_, rfl⟩
  have hrun : (Operand.name {} top).value s.scopes .value = .ok 255 ∧
      t.image.bytes = #[1, 31, 0xFF, 1, 31] ∧
      ∀ c ∈ [(⟨1, .register, last⟩ : Cell), ⟨2, .value, later⟩],
        c ∈ x.cells s.scopes s.image.size ∧ c.pos < t.image.size := by
    rw [← ht, ← hs]
    decide +kernel
  rw [hs] at hvisits
  obtain ⟨hvalue, hbytes, hcells⟩ := hrun
  obtain ⟨hmoment, hfaithful⟩ := no_number_is_cut_off calls
  have hall := hfaithful x s hvisits t ht
  have hregister := hcells _ List.mem_cons_self
  refine ⟨s, t, hvisits, ht, hvalue, ?_, hbytes, ?_, ?_⟩
  · exact ((hmoment s (Or.inr ⟨x, hvisits⟩)).2 (.name {} top) 255).1 hvalue
  · exact fun c hc => ⟨(hcells c hc).1, (hcells c hc).2,
      ((hall c (hcells c hc).1).2 (hcells c hc).2).1⟩
  · exact ((hall _ hregister.1).2 hregister.2).2 rfl

end Gx
