import Gx.Proofs.Resolve
import Gx.Proofs.Visits

/-!
# One pass and two passes

A second pass knows all addresses beforehand and needs no references.  The two passes are run side
by side: they bind the same names, their images have the same size, and they differ only in bytes
that a reference waits for (`Matches`).  Resolving the references then closes the gap.
-/

namespace Gx

/-- All names that occur in a statement. -/
def Statement.names (x : Statement) : List Bytes :=
  x.labelNames ++ x.definedNames ++ x.usedNames

namespace Encode

/-- The first pass is in state `s`, the second one in state `t`, and the second one takes addresses
from `known`. -/
structure Matches (known : Scopes) (s t : Assembly) : Prop where
  scopes : s.scopes = t.scopes
  size : t.image.size = s.image.size
  limit : t.image.limit = s.image.limit
  tiled : s.image.TiledBy s.references.toList
  settled : ∀ i, s.image.pending.contains i = false →
    t.image.bytes[i]? = s.image.bytes[i]?
  waiting : ∀ r ∈ s.references, ∀ sym, known.lookupGlobal r.name [.address] = .ok sym →
    ∀ i, r.Covers i → t.image.bytes[i]? = (r.part.bytes sym.value)[i - r.pos.toNat]?

/-- Some reference is to a name for which the second pass has no address. -/
def Stuck (known : Scopes) (s : Assembly) : Prop :=
  ∃ r ∈ s.references, ∀ sym, known.lookupGlobal r.name [.address] ≠ .ok sym

/-- The passes match until the first one makes a reference at which the second one fails. -/
def passes (known : Scopes) : Comparison where
  held := Matches known
  failed _ _ _ _ := True
  lost := Stuck known

section

variable {known : Scopes} {s t : Assembly}

theorem matches_initial (known : Scopes) : Matches known {} {} where
  scopes := rfl
  size := rfl
  limit := rfl
  tiled := tiledBy_initial
  settled _ _ := rfl
  waiting r hr := by simp at hr

theorem Matches.of_sameStore (h : Matches known s t) {s' t' : Assembly} (hs : SameStore s s')
    (ht : SameStore t t') (hscopes : s'.scopes = t'.scopes) : Matches known s' t' where
  scopes := hscopes
  size := by rw [hs.1, ht.1, h.size]
  limit := by rw [hs.1, ht.1, h.limit]
  tiled := by rw [hs.1, hs.2]; exact h.tiled
  settled := by rw [hs.1, ht.1]; exact h.settled
  waiting := by rw [hs.2, ht.1]; exact h.waiting

theorem Stuck.of_references_prefix (h : Stuck known s)
    (hstarts : s.references.toList <+: t.references.toList) : Stuck known t := by
  obtain ⟨r, hr, hname⟩ := h
  exact ⟨r, Array.mem_toList_iff.mp (hstarts.subset (Array.mem_toList_iff.mpr hr)), hname⟩

theorem Matches.push (h : Matches known s t) (data : Bytes) :
    Matches known { s with image := { s.image with bytes := s.image.bytes ++ data } }
      { t with image := { t.image with bytes := t.image.bytes ++ data } } where
  scopes := h.scopes
  size := by simp [h.size]
  limit := h.limit
  tiled := tiledBy_push h.tiled data
  settled i hi := by
    rw [Image.getElem?_push_bytes, Image.getElem?_push_bytes, h.size, h.settled i hi]
  waiting r hr sym hsym i hi := by
    have hinside := h.tiled.inside r (Array.mem_toList_iff.mpr hr)
    have hsize : i < t.image.size := by
      rw [h.size]
      unfold Reference.Covers at hi
      omega
    rw [Image.getElem?_push_bytes, if_pos hsize]
    exact h.waiting r hr sym hsym i hi

/-- The first pass refers to an address and the second one emits it. -/
theorem Matches.refer (h : Matches known s t) {name : Bytes} (part : Part) {sym : Symbol}
    (hsym : known.lookupGlobal name [.address] = .ok sym) :
    Matches known
      { s with
        image := s.image.fill part.width
        references := s.references.push (referenceAt s name part) }
      { t with
        image := { t.image with bytes := t.image.bytes ++ part.bytes sym.value } } where
  scopes := h.scopes
  size := by simp [h.size]
  limit := h.limit
  tiled := by
    have hfill := tiledBy_fill h.tiled (show (referenceAt s name part).pos = s.image.size from rfl)
    rwa [← Array.toList_push] at hfill
  settled i hi := by
    have hnot : ¬(s.image.fill part.width).pending.contains i = true := by simp [hi]
    rw [Image.contains_fill, not_or] at hnot
    by_cases hsize : i < s.image.size
    · rw [Image.getElem?_push_bytes, h.size, if_pos hsize, (Image.growsTo_fill _ _).bytes i hsize]
      exact h.settled i (by simpa using hnot.1)
    · have hend : s.image.size + part.width ≤ i := by omega
      have hfill : (s.image.fill part.width).size ≤ i := by rwa [Image.size_fill]
      rw [Image.getElem?_push_bytes, h.size, if_neg hsize,
        List.getElem?_eq_none (by rw [Part.length_bytes]; omega)]
      exact (Array.getElem?_eq_none hfill).symm
  waiting r hr sym' hsym' i hi := by
    rcases Array.mem_push.mp hr with hold | rfl
    · exact (h.push (part.bytes sym.value)).waiting r hold sym' hsym' i hi
    · obtain rfl : sym = sym' := Except.ok.inj (hsym.symm.trans hsym')
      unfold Reference.Covers referenceAt at hi
      rw [Image.getElem?_push_bytes, h.size, if_neg (by simp at hi; omega)]
      rfl

end

/-! ## The passes side by side -/

section

variable (known : Scopes)

/-- An action on scopes does the same to both passes. -/
theorem passes_simulates_of_sameStore {a : Encode Unit}
    (hstore : ∀ s, SameStore s (finalState (a s)))
    (hsame : ∀ {s t : Assembly}, s.scopes = t.scopes → s.image.size = t.image.size →
      (∃ s' t', a s = .ok () s' ∧ a t = .ok () t' ∧ s'.scopes = t'.scopes) ∨
        ∃ e s' e' t', a s = .error e s' ∧ a t = .error e' t') :
    (passes known).Simulates a a := by
  constructor
  · intro s t hheld
    rcases hsame hheld.scopes hheld.size.symm with
      ⟨s', t', hs, ht, hscopes⟩ | ⟨e, s', e', t', hs, ht⟩
    · have hs' := hstore s
      have ht' := hstore t
      rw [hs] at hs' ⊢
      rw [ht] at ht' ⊢
      exact Or.inr ⟨rfl, hheld.of_sameStore hs' ht' hscopes⟩
    · rw [hs, ht]
      exact Or.inr trivial
  · intro s hs
    apply Stuck.of_references_prefix hs
    rw [(hstore s).2]

theorem passes_push (data : Bytes) : (passes known).Simulates (push data) (push data) := by
  constructor
  · intro s t hheld
    by_cases hfits : ((s.image.size + data.length : Nat) : Int) ≤ s.image.limit
    · rw [push_of_fits hfits, push_of_fits (by rwa [hheld.size, hheld.limit])]
      exact Or.inr ⟨rfl, hheld.push data⟩
    · rw [push_of_not_fits hfits, push_of_not_fits (by rwa [hheld.size, hheld.limit])]
      exact Or.inr trivial
  · intro s hs
    by_cases hfits : ((s.image.size + data.length : Nat) : Int) ≤ s.image.limit
    · rw [push_of_fits hfits]
      exact hs
    · rw [push_of_not_fits hfits]
      exact hs

theorem known_of_ok {known : Scopes} {name : Bytes} {sym : Symbol} (part : Part)
    (hsym : known.lookupGlobal name [.address] = .ok sym) :
    Forward.known known name part = Encode.push (part.bytes sym.value) := by
  unfold Forward.known
  rw [hsym]

theorem known_of_error {known : Scopes} {name : Bytes} {e : ScopeError} (part : Part)
    (hsym : known.lookupGlobal name [.address] = .error e) :
    Forward.known known name part = throw (.scope e) := by
  unfold Forward.known
  rw [hsym]

theorem passes_forward (name : Bytes) (part : Part) :
    (passes known).Simulates (Forward.refer name part) (Forward.known known name part) := by
  constructor
  · intro s t hheld
    by_cases hfits : ((s.image.size + part.width : Nat) : Int) ≤ s.image.limit
    · rw [refer_of_fits name hfits]
      cases hsym : known.lookupGlobal name [.address] with
      | ok sym =>
          rw [known_of_ok part hsym,
            push_of_fits (by rwa [hheld.size, hheld.limit, Part.length_bytes])]
          exact Or.inr ⟨rfl, hheld.refer part hsym⟩
      | error e =>
          -- the second pass fails here, and the new reference shows that resolving would too
          rw [known_of_error part hsym]
          refine ⟨referenceAt s name part, Array.mem_push_self, fun sym => ?_⟩
          simp [referenceAt, hsym]
    · obtain ⟨fitting, _, hfailed⟩ := refer_of_not_fits name hfits
      rw [hfailed]
      cases hsym : known.lookupGlobal name [.address] with
      | ok sym =>
          rw [known_of_ok part hsym,
            push_of_not_fits (by rwa [hheld.size, hheld.limit, Part.length_bytes])]
          exact Or.inr trivial
      | error e =>
          rw [known_of_error part hsym]
          exact Or.inr trivial
  · intro s hs
    by_cases hfits : ((s.image.size + part.width : Nat) : Int) ≤ s.image.limit
    · rw [refer_of_fits name hfits]
      exact Stuck.of_references_prefix hs (by simp)
    · obtain ⟨fitting, _, hfailed⟩ := refer_of_not_fits name hfits
      rw [hfailed]
      exact hs

theorem passes_onScopes (change : Scopes → Except ScopeError Scopes) :
    (passes known).Simulates (onScopes change) (onScopes change) := by
  apply passes_simulates_of_sameStore known (sameStore_onScopes change)
  intro s t hscopes _
  unfold onScopes
  rw [hscopes]
  cases change t.scopes with
  | ok next => exact Or.inl ⟨_, _, rfl, rfl, rfl⟩
  | error e => exact Or.inr ⟨_, _, _, _, rfl, rfl⟩

theorem passes_defineLabel (name : Bytes) :
    (passes known).Simulates (defineLabel name) (defineLabel name) := by
  apply passes_simulates_of_sameStore known (sameStore_defineLabel name)
  intro s t hscopes hsize
  unfold defineLabel
  rw [hscopes, hsize]
  cases t.scopes.bindGlobal ⟨name, .address, UInt16.ofNat t.image.size⟩ with
  | ok next => exact Or.inl ⟨_, _, rfl, rfl, rfl⟩
  | error e => exact Or.inr ⟨_, _, _, _, rfl, rfl⟩

theorem passes_leaveScope : (passes known).Simulates leaveScope leaveScope := by
  apply passes_simulates_of_sameStore known sameStore_leaveScope
  intro s t hscopes _
  unfold leaveScope
  rw [hscopes]
  cases t.scopes.pop with
  | ok next => exact Or.inl ⟨_, _, rfl, rfl, rfl⟩
  | error e => exact Or.inr ⟨_, _, _, _, rfl, rfl⟩

theorem passes_lockstep : (passes known).Lockstep .refer (.known known) {} where
  emitting :=
    { scopes := fun hheld => hheld.scopes
      thrown := fun _ _ => trivial
      push := passes_push known
      forward := fun name part _ => passes_forward known name part }
  label name _ := passes_defineLabel known name
  define _ _ _ _ := passes_onScopes known _
  enter := passes_onScopes known _
  leave := passes_leaveScope known
  abandon _ := trivial
  abandonLost := by
    intro s hs
    apply Stuck.of_references_prefix hs
    rw [(sameStore_abandoned s).2]

end

/-! ## The result -/

theorem references_nonempty {body : List Statement} {s : Assembly}
    (hnames : ∀ x ∈ Statement.leavesOf body, [] ∉ x.names)
    (hrun : program .refer body {} = .ok () s) : ∀ r ∈ s.references, r.name ≠ [] := by
  rw [program_eq_statements refer_keepsScopes] at hrun
  refine ((referenceNames_invariant (· ≠ [])).statements body fun x hx => ?_).of_ok ?_ hrun
  · refine ⟨fun _ _ => trivial, fun _ _ => trivial, fun n hn hempty => hnames x hx ?_⟩
    rw [← hempty]
    simp [Statement.names, hn]
  · intro r hr
    simp at hr

/-- Where the first pass succeeds and makes no reference that stops the second one, the second one
succeeds too. -/
theorem exists_second_run {known : Scopes} {a b : Encode Unit} {s s' t : Assembly}
    (h : (passes known).Simulates a b) (hmatches : Matches known s t) (hrun : a s = .ok () s')
    (hfree : ¬Stuck known s') : ∃ t', b t = .ok () t' ∧ Matches known s' t' := by
  have hout := h.run hmatches
  rw [hrun] at hout
  cases hknown : b t with
  | ok x t' =>
      rw [hknown] at hout
      exact ⟨t', rfl, (hout.resolve_left hfree).2⟩
  | error e t' =>
      rw [hknown] at hout
      exact absurd hout hfree

/-- If the second pass has all addresses it needs, it succeeds and matches the first. -/
theorem exists_second_pass {body : List Statement} {s : Assembly} {known : Scopes}
    (hrun : program .refer body {} = .ok () s)
    (hbound : ∀ r ∈ s.references, ∃ sym, known.lookupGlobal r.name [.address] = .ok sym) :
    ∃ u, program (.known known) body {} = .ok () u ∧ Matches known s u := by
  rw [program_eq_statements refer_keepsScopes] at hrun
  rw [program_eq_statements (known_keepsScopes known)]
  have hfree : ¬Stuck known s := by
    rintro ⟨r, hr, hname⟩
    obtain ⟨sym, hsym⟩ := hbound r hr
    exact hname sym hsym
  exact exists_second_run
    ((passes_lockstep known).statements body fun x _ => NameRules.allow_of_trivial x)
    (matches_initial known) hrun hfree

theorem Matches.bytes_eq {known : Scopes} {s t u : Assembly} (hmatches : Matches known s u)
    (hcompletes : Completes s t)
    (haddress : ∀ r ∈ s.references, ∀ address, s.scopes.resolved r.name = .ok address →
      ∃ sym, known.lookupGlobal r.name [.address] = .ok sym ∧ sym.value = address) :
    t.image.bytes = u.image.bytes := by
  apply Array.ext_getElem?
  intro i
  cases hpending : s.image.pending.contains i with
  | false => rw [hcompletes.settled i hpending, hmatches.settled i hpending]
  | true =>
      obtain ⟨r, hr, hcovers⟩ := (hmatches.tiled.pending i).mp hpending
      rw [Array.mem_toList_iff] at hr
      obtain ⟨address, hname, hbytes⟩ := hcompletes.waiting r hr
      obtain ⟨sym, hsym, rfl⟩ := haddress r hr address hname
      rw [hbytes i hcovers, hmatches.waiting r hr sym hsym i hcovers]

end Encode

/-- Encoding in one pass and resolving the references gives the image of a second pass that knows
all addresses.  Resolving succeeds if and only if the names referred to are global addresses at the
end; then no byte is pending and no reference is left.  Each label gets as its address the number
of bytes in front of it. -/
theorem one_pass_eq_two_passes {body : List Statement} {s : Assembly}
    (hnames : ∀ x ∈ Statement.leavesOf body, [] ∉ x.names)
    (hrun : Encode.program .refer body {} = .ok () s) :
    ((∃ t, Encode.resolve s = .ok () t) ↔
      ∀ r ∈ s.references, ∃ sym, s.scopes.lookupGlobal r.name [.address] = .ok sym) ∧
    (∀ t, Encode.resolve s = .ok () t →
      (∃ u, Encode.program (.known s.scopes) body {} = .ok () u ∧
        t.image.bytes = u.image.bytes ∧ t.scopes = u.scopes) ∧
      (∀ i, t.image.pending.contains i = false) ∧ t.references = #[]) ∧
    ∀ span name start, (.label span name, start) ∈ Encode.visitsOf .refer body {} →
      ∃ next address, Encode.statement .refer (.label span name) start = .ok () next ∧
        next.scopes.lookupGlobal name [.address] = .ok ⟨name, .address, address⟩ ∧
        address.toNat = start.image.size := by
  have htiled := Encode.program_tiledBy hrun
  have hnonempty := Encode.references_nonempty hnames hrun
  have hresolvable : (∃ t, Encode.resolve s = .ok () t) ↔
      ∀ r ∈ s.references, ∃ sym, s.scopes.lookupGlobal r.name [.address] = .ok sym := by
    rw [Encode.resolve_ok_iff_of_tiledBy htiled]
    refine forall₂_congr fun r hr => ?_
    simp only [Scopes.resolved_eq_ok_iff (hnonempty r hr)]
    exact ⟨fun ⟨_, sym, hsym, _⟩ => ⟨sym, hsym⟩, fun ⟨sym, hsym⟩ => ⟨_, sym, hsym, rfl⟩⟩
  refine ⟨hresolvable, fun t hresolve => ?_, fun span name start hvisit => ?_⟩
  · have hcompletes := Encode.completes_of_tiledBy htiled hresolve
    obtain ⟨u, hsecond, hmatches⟩ :=
      Encode.exists_second_pass hrun (hresolvable.mp ⟨t, hresolve⟩)
    refine ⟨⟨u, hsecond, ?_, hcompletes.scopes.trans hmatches.scopes⟩, hcompletes.complete,
      hcompletes.references⟩
    apply hmatches.bytes_eq hcompletes
    intro r hr address haddress
    exact (Scopes.resolved_eq_ok_iff (hnonempty r hr)).mp haddress
  · rw [Encode.program_eq_statements Encode.refer_keepsScopes] at hrun
    have hchain := Encode.chain_of_statements body hrun
    obtain ⟨next, _, hlabel, _⟩ := hchain.visit hvisit
    refine ⟨next, _, hlabel, Encode.lookupGlobal_label hlabel, ?_⟩
    exact UInt16.toNat_ofNat_of_lt' (hchain.size_lt hvisit)

/-- Two references to a label inside a later block, and the image they lead to. -/
theorem one_pass_eq_two_passes_into_block :
    let x := utf8 "x"
    let body : List Statement :=
      [.data ⟨0, 0⟩ [.half ⟨0, 0⟩ .lo (.name ⟨0, 0⟩ x), .name ⟨0, 0⟩ x],
        .block ⟨0, 0⟩ [.label ⟨0, 0⟩ x, .words ⟨0, 0⟩ [.name ⟨0, 0⟩ x]]]
    ∃ s t u, Encode.program .refer body {} = .ok () s ∧ s.references.size = 2 ∧
      Encode.resolve s = .ok () t ∧ Encode.program (.known s.scopes) body {} = .ok () u ∧
      t.image.bytes = u.image.bytes ∧ u.image.bytes = #[3, 0, 3, 0, 3] := by
  intro x body
  obtain ⟨r, hr⟩ : ∃ r, Encode.program .refer body {} = r := ⟨_, rfl⟩
  have hfacts : Encode.succeeds (Encode.program .refer body {}) = true ∧
      (Encode.finalState (Encode.program .refer body {})).references.size = 2 ∧
      (∀ r ∈ (Encode.finalState (Encode.program .refer body {})).references.toList,
        (Encode.finalState (Encode.program .refer body {})).scopes.lookupGlobal r.name [.address] =
          .ok ⟨x, .address, 3⟩) ∧
      (Encode.finalState (Encode.program
        (.known (Encode.finalState (Encode.program .refer body {})).scopes) body {})).image.bytes =
          #[3, 0, 3, 0, 3] := by decide +kernel
  rw [hr] at hfacts
  obtain ⟨hsucceeds, hsize, hbound, hsecond⟩ := hfacts
  have hrun := hr.trans (Encode.eq_ok_of_succeeds hsucceeds)
  obtain ⟨hresolves, himages, _⟩ := one_pass_eq_two_passes (by decide) hrun
  obtain ⟨t, ht⟩ := hresolves.mpr fun r hr => ⟨_, hbound r (Array.mem_toList_iff.mpr hr)⟩
  obtain ⟨⟨u, hu, hbytes, _⟩, _⟩ := himages t ht
  rw [hu, Encode.finalState_ok] at hsecond
  exact ⟨_, t, u, hrun, hsize, ht, hu, hbytes, hsecond⟩

end Gx
