import Gx.Proofs.Scopes
import Gx.Proofs.Visits
import Gx.Proofs.WrittenNumbers

/-!
# References and the labels before them

A reference keeps its place in words, counted from the latest label.  Each reference was made by a
visit: the one during which the row of references came to be long enough for it.  The visits before
have all succeeded, so a chain leads up to this visit, and the marker at its start is the last
label of the chain.  Inside of the visit the marker stays and the image only grows, so what is
counted from the label is never negative.
-/

namespace Gx

/-- The place of a reference is its position alone, or it is counted from a label. -/
def Reference.PlacedFrom (r : Reference) : Option Marker → Prop
  | none => ∃ pos : Nat, r.pos = pos ∧ SpellsAddress r.place pos
  | some m => ∃ (pos k : Nat) (address count : Bytes), r.pos = pos ∧ m.pos + k = pos ∧
      SpellsAddress address pos ∧ Spells 10 1 count k ∧
      r.place = m.name ++ utf8 "+" ++ count ++ utf8 " (" ++ address ++ utf8 ")"

theorem Text.decimalWord_natCast {k : Nat} (hk : k < 2 ^ 63) :
    Text.decimalWord (k : Int) = Text.decimal k := by
  have hbmod : (k : Int).bmod 0x10000000000000000 = k := Int.bmod_eq_of_le (by omega) (by omega)
  unfold Text.decimalWord
  rw [hbmod]
  rfl

theorem Assembly.place_eq {s t : Assembly} (h : s.marker = t.marker) (pos : Int) :
    s.place pos = t.place pos := by
  unfold Assembly.place
  rw [h]

theorem Assembly.GrowsTo.getElem?_references {s t : Assembly} (h : s.GrowsTo t) {i : Nat}
    (hi : i < s.references.size) : t.references[i]? = s.references[i]? := by
  obtain ⟨rest, hrest⟩ := h.references
  rw [← Array.getElem?_toList, ← hrest, List.getElem?_append_left (by simpa using hi),
    Array.getElem?_toList]

namespace Encode

/-! ## What a statement adds -/

/-- A reference that was made behind the end of the image of `start`, with the marker of `start`. -/
structure MadeBehind (start : Assembly) (r : Reference) : Prop where
  place : r.place = start.place r.pos
  behind : (start.image.size : Int) ≤ r.pos
  inside : r.pos ≤ start.image.limit

theorem MadeBehind.placedFrom {start : Assembly} {r : Reference} (h : MadeBehind start r)
    (hlimit : start.image.limit = maxImage)
    (hmarker : ∀ m, start.marker = some m → m.pos ≤ start.image.size) :
    r.PlacedFrom start.marker := by
  have hplace := h.place
  have hbehind := h.behind
  have hinside := h.inside
  rw [hlimit] at hinside
  unfold maxImage at hinside
  obtain ⟨pos, hpos⟩ : ∃ pos : Nat, r.pos = pos := ⟨r.pos.toNat, by omega⟩
  rw [hpos] at hplace
  unfold Assembly.place at hplace
  cases hm : start.marker with
  | none =>
      rw [hm] at hplace
      refine ⟨pos, hpos, ?_⟩
      rw [hplace]
      exact SpellsAddress.address pos
  | some m =>
      have hbefore := hmarker m hm
      obtain ⟨k, hk⟩ : ∃ k : Nat, m.pos + k = pos := ⟨pos - m.pos, by omega⟩
      have hcount : (pos : Int) - m.pos = k := by omega
      rw [hm] at hplace
      simp only [hcount, Text.decimalWord_natCast (show k < 2 ^ 63 by omega)] at hplace
      exact ⟨pos, k, _, _, hpos, hk, SpellsAddress.address pos, Spells.decimal k, hplace⟩

/-- All that is new in `t` are bytes, and references with the marker of `start`. -/
structure AddsReferences (start t : Assembly) : Prop where
  marker : t.marker = start.marker
  grows : start.GrowsTo t
  made : ∀ i r, start.references.size ≤ i → t.references[i]? = some r → MadeBehind start r

theorem AddsReferences.of_references_eq {start s t : Assembly} (h : AddsReferences start s)
    (hmarker : t.marker = s.marker) (hgrows : s.image.GrowsTo t.image)
    (hreferences : t.references = s.references) : AddsReferences start t where
  marker := hmarker.trans h.marker
  grows := h.grows.trans ⟨hgrows, by rw [hreferences]⟩
  made := by
    rw [hreferences]
    exact h.made

theorem addsReferences_leaf (start : Assembly) :
    LeafInvariant (AddsReferences start) (fun _ => AddsReferences start) .refer
      { label := fun _ => False } where
  thrown _ hs := hs
  push data := by
    refine keeps_iff_finalState.mpr fun s hs => ?_
    by_cases hfits : ((s.image.size + data.length : Nat) : Int) ≤ s.image.limit
    · rw [push_of_fits hfits]
      exact hs.of_references_eq rfl (Image.growsTo_push_bytes _ _) rfl
    · rw [push_of_not_fits hfits]
      exact hs
  forward name part _ := by
    refine keeps_iff_finalState.mpr fun s hs => ?_
    by_cases hfits : ((s.image.size + part.width : Nat) : Int) ≤ s.image.limit
    · rw [refer_of_fits name hfits]
      refine ⟨hs.marker, hs.grows.trans ⟨Image.growsTo_fill _ _, by simp⟩, fun i r hi hr => ?_⟩
      rw [finalState_ok, Array.getElem?_push] at hr
      split at hr
      next =>
        cases hr
        have hsize := hs.grows.image.size
        have hlimit := hs.grows.image.limit
        exact ⟨Assembly.place_eq hs.marker _, by simp [referenceAt, hsize],
          by simp only [referenceAt]; omega⟩
      next => exact hs.made i r hi hr
    · obtain ⟨fitting, _, hfailed⟩ := refer_of_not_fits name hfits
      rw [hfailed]
      exact hs.of_references_eq rfl (Image.growsTo_fill _ _) rfl
  label _ hname := hname.elim
  define name kind value _ := by
    refine keeps_iff_finalState.mpr fun s hs => ?_
    rw [define_eq]
    cases s.scopes.bind ⟨name, kind, value⟩ with
    | error e => exact hs
    | ok scopes => exact hs.of_references_eq rfl (Image.GrowsTo.refl _) rfl

theorem addsReferences_of_leaf {x : Statement} (hleaf : x.isBlock = false)
    (hlabel : x.labelNames = []) (start : Assembly) :
    AddsReferences start (finalState (statement .refer x start)) := by
  have hallow : NameRules.Allow { label := fun _ => False } x :=
    ⟨by simp [hlabel], fun _ _ => trivial, fun _ _ => trivial⟩
  refine keeps_iff_finalState.mp ((addsReferences_leaf start).leaf hleaf hallow) start
    ⟨rfl, Assembly.GrowsTo.refl _, fun i r hi hr => ?_⟩
  rw [Array.getElem?_eq_none hi] at hr
  contradiction

/-! ## Labels and markers -/

/-- The marker that a visit leaves behind, if it is that of a label.  A label that fails leaves
none. -/
def labelMark? : Statement × Assembly → Option Marker
  | (.label span name, s) =>
      if succeeds (statement .refer (.label span name) s) then some ⟨name, s.image.size⟩ else none
  | _ => none

def lastMark (visits : List (Statement × Assembly)) : Option Marker :=
  visits.reverse.findSome? labelMark?

theorem lastMark_append (first second : List (Statement × Assembly)) :
    lastMark (first ++ second) = (lastMark second).or (lastMark first) := by
  unfold lastMark
  rw [List.reverse_append, List.findSome?_append]

theorem lastMark_singleton (v : Statement × Assembly) : lastMark [v] = labelMark? v := by
  simp [lastMark]

theorem marker_of_label (span : Span) {name : Bytes} (hname : name ≠ []) (s : Assembly) :
    (finalState (statement .refer (.label span name) s)).marker =
      (labelMark? (.label span name, s)).or s.marker := by
  have hrun : statement .refer (.label span name) s =
      mapError (fun t => .inStatement (t.place s.image.size)) (defineLabel name) s := by
    rw [statement, located_eq]
  simp only [labelMark?, hrun]
  unfold mapError defineLabel
  cases s.scopes.bindGlobal ⟨name, .address, UInt16.ofNat s.image.size⟩ with
  | error e => rfl
  | ok scopes => simp [succeeds, hname]

theorem marker_of_leaf {x : Statement} (hleaf : x.isBlock = false)
    (hnames : ∀ name ∈ x.labelNames, name ≠ []) (s : Assembly) :
    (finalState (statement .refer x s)).marker = (labelMark? (x, s)).or s.marker := by
  cases x with
  | label span name => exact marker_of_label span (hnames name List.mem_cons_self) s
  | _ => exact (addsReferences_of_leaf hleaf rfl s).marker

theorem marker_leaveScope (s : Assembly) : (finalState (leaveScope s)).marker = s.marker := by
  unfold leaveScope
  cases s.scopes.pop <;> rfl

theorem marker_abandoned (s : Assembly) : (abandoned s).marker = s.marker := by
  unfold abandoned
  rw [marker_leaveScope]
  unfold Assembly.rememberScopes
  cases s.failed <;> rfl

theorem Moves.marker {s t : Assembly} (h : Moves s t) : t.marker = s.marker := by
  induction h with
  | refl => rfl
  | enter _ ih => exact ih
  | @leave t u _ hleave ih =>
      have hkept := marker_leaveScope t
      rw [hleave] at hkept
      exact hkept.trans ih

/-- No label of these visits has an empty name. -/
def Marking (visits : List (Statement × Assembly)) : Prop :=
  ∀ v ∈ visits, ∀ name ∈ v.1.labelNames, name ≠ []

theorem Chain.marker {s t : Assembly} {vs : List (Statement × Assembly)}
    (h : Chain .refer s vs t) (hnames : Marking vs) :
    t.marker = (lastMark vs).or s.marker := by
  induction h with
  | nil hmoves => exact hmoves.marker
  | @cons s start u t x vs hmoves hleaf hrun _ ih =>
      unfold Marking at hnames
      rw [List.forall_mem_cons] at hnames
      have hleft := marker_of_leaf hleaf hnames.1 start
      rw [hrun, finalState_ok] at hleft
      rw [ih hnames.2, hleft, hmoves.marker, ← List.singleton_append, lastMark_append,
        lastMark_singleton, Option.or_assoc]

/-- The last label of a chain is not behind the end of the image. -/
theorem Chain.pos_le_size {s t : Assembly} {vs : List (Statement × Assembly)}
    (h : Chain .refer s vs t) {m : Marker} (hm : lastMark vs = some m) :
    m.pos ≤ t.image.size := by
  obtain ⟨⟨x, start⟩, hv, hmark⟩ := List.exists_of_findSome?_eq_some hm
  obtain ⟨u, ws, hrun, hrest⟩ := h.visit (List.mem_reverse.mp hv)
  cases x with
  | label span name =>
      simp only [labelMark?, Option.ite_none_right_eq_some, Option.some.injEq] at hmark
      have hgrows := ((growsTo_invariant start).leaf rfl (NameRules.allow_of_trivial _)).of_ok
        (Assembly.GrowsTo.refl start) hrun
      rw [← hmark.2]
      exact (hgrows.trans hrest.growsTo).image.size
  | _ => contradiction

/-! ## Where references come from -/

/-- Visit `v` makes the reference `r`, which is number `i`. -/
structure Makes (v : Statement × Assembly) (i : Nat) (r : Reference) : Prop where
  notBefore : v.2.references.size ≤ i
  made : (finalState (statement .refer v.1 v.2)).references[i]? = some r

mutual

theorem marker_statement (x : Statement) {s : Assembly} (hnames : Marking (visits .refer x s)) :
    (finalState (statement .refer x s)).marker = (lastMark (visits .refer x s)).or s.marker := by
  cases x with
  | block span body =>
      have hbody := marker_statements body (s := { s with scopes := s.scopes.push }) hnames
      rw [statement, inScope_eq, visits, ← hbody]
      cases statements .refer body { s with scopes := s.scopes.push } with
      | ok _ t => exact marker_leaveScope t
      | error _ t => exact marker_abandoned t
  | _ =>
      have hleaf := marker_of_leaf rfl (hnames _ List.mem_cons_self) s
      rw [← lastMark_singleton] at hleaf
      exact hleaf

/-- When a run has ended or failed, the marker is the last label that has succeeded. -/
theorem marker_statements (body : List Statement) {s : Assembly}
    (hnames : Marking (visitsOf .refer body s)) :
    (finalState (statements .refer body s)).marker =
      (lastMark (visitsOf .refer body s)).or s.marker := by
  cases body with
  | nil => rfl
  | cons x rest =>
      unfold Marking at hnames
      rw [visitsOf, List.forall_mem_append] at hnames
      have hfirst := marker_statement x hnames.1
      rw [statements, bind_eq, visitsOf, lastMark_append]
      cases hrun : statement .refer x s with
      | ok _ t =>
          rw [hrun] at hfirst hnames
          rw [Option.or_assoc, ← hfirst]
          exact marker_statements rest hnames.2
      | error e t =>
          rw [hrun] at hfirst
          exact hfirst

end

mutual

theorem exists_visit_of_statement (x : Statement) {s : Assembly} {i : Nat} {r : Reference}
    (hi : s.references.size ≤ i)
    (hr : (finalState (statement .refer x s)).references[i]? = some r) :
    ∃ before v, before ++ [v] <+: visits .refer x s ∧ Chain .refer s before v.2 ∧
      v.1.isBlock = false ∧ Makes v i r := by
  cases x with
  | block span body =>
      have hbody : (finalState (statements .refer body
          { s with scopes := s.scopes.push })).references[i]? = some r := by
        rw [statement, inScope_eq] at hr
        cases hrun : statements .refer body { s with scopes := s.scopes.push } with
        | ok _ t =>
            rw [hrun] at hr
            rw [finalState_ok, ← (sameStore_leaveScope t).2]
            exact hr
        | error e t =>
            rw [hrun] at hr
            rw [finalState_error, ← (sameStore_abandoned t).2]
            exact hr
      obtain ⟨before, v, hfront, hchain, hmakes⟩ :=
        exists_visit_of_statements body (s := { s with scopes := s.scopes.push }) hi hbody
      exact ⟨before, v, hfront, hchain.of_moves (Moves.refl s).enter, hmakes⟩
  | _ => exact ⟨[], (_, s), List.prefix_rfl, Chain.nil (Moves.refl s), rfl, hi, hr⟩

/-- A reference of a run that ended or failed was made by one of its visits. -/
theorem exists_visit_of_statements (body : List Statement) {s : Assembly} {i : Nat}
    {r : Reference} (hi : s.references.size ≤ i)
    (hr : (finalState (statements .refer body s)).references[i]? = some r) :
    ∃ before v, before ++ [v] <+: visitsOf .refer body s ∧ Chain .refer s before v.2 ∧
      v.1.isBlock = false ∧ Makes v i r := by
  cases body with
  | nil =>
      have hnone : s.references[i]? = none := Array.getElem?_eq_none hi
      have hsome : s.references[i]? = some r := hr
      rw [hnone] at hsome
      contradiction
  | cons x rest =>
      rw [visitsOf]
      by_cases hfirst : (finalState (statement .refer x s)).references[i]? = some r
      · obtain ⟨before, v, hfront, hmade⟩ := exists_visit_of_statement x hi hfirst
        exact ⟨before, v, hfront.trans (List.prefix_append _ _), hmade⟩
      · rw [statements, bind_eq] at hr
        cases hrun : statement .refer x s with
        | error e t =>
            rw [hrun] at hr hfirst
            exact absurd hr hfirst
        | ok _ t =>
            rw [hrun, finalState_ok] at hfirst
            rw [hrun] at hr
            have hgrows := keeps_iff_finalState.mp ((growsTo_invariant t).statements rest
              fun y _ => NameRules.allow_of_trivial y) t (Assembly.GrowsTo.refl t)
            have hlater : t.references.size ≤ i := by
              by_contra hlt
              rw [hgrows.getElem?_references (by omega)] at hr
              exact hfirst hr
            obtain ⟨before, v, hfront, hchain, hmade⟩ :=
              exists_visit_of_statements rest hlater hr
            refine ⟨visits .refer x s ++ before, v, ?_, (chain_of_statement x hrun).append hchain,
              hmade⟩
            rwa [List.append_assoc, List.prefix_append_right_inj]

end

theorem Makes.madeBehind {v : Statement × Assembly} {i : Nat} {r : Reference}
    (h : Makes v i r) (hleaf : v.1.isBlock = false) : MadeBehind v.2 r := by
  obtain ⟨x, start⟩ := v
  cases x with
  | label span name =>
      -- a label makes no reference
      have hstore := sameStore_defineLabel name start
      have hmade := h.made
      simp only [statement, finalState_located] at hmade
      rw [hstore.2, Array.getElem?_eq_none h.notBefore] at hmade
      contradiction
  | _ => exact (addsReferences_of_leaf hleaf rfl start).made i r h.notBefore h.made

theorem marking_visitsOf {body : List Statement}
    (h : ∀ x ∈ Statement.leavesOf body, ∀ name ∈ x.labelNames, name ≠ []) (s : Assembly) :
    Marking (visitsOf .refer body s) := by
  intro v hv
  exact h v.1 ((visitsOf_prefix_leaves .refer body s).subset (List.mem_map_of_mem hv))

end Encode

/-- Let no label of a program have an empty name.  Whether the program succeeds or fails, the marker
is then the last label that was bound; one that failed never is.  Each reference was made by a
visit, and all visits before it have succeeded.  If there is no label among them, the place of the
reference is its position alone; else it is counted from the last label, by a number that is not
negative. -/
theorem references_name_nearest_label {body : List Statement}
    (hnames : ∀ x ∈ Statement.leavesOf body, ∀ name ∈ x.labelNames, name ≠ []) :
    let t := Encode.finalState (Encode.program .refer body {})
    t.marker = Encode.lastMark (Encode.visitsOf .refer body {}) ∧
    ∀ i r, t.references[i]? = some r →
      ∃ before v, before ++ [v] <+: Encode.visitsOf .refer body {} ∧
        (∀ u ∈ before, Encode.succeeds (Encode.statement .refer u.1 u.2) = true) ∧
        Encode.Makes v i r ∧ r.PlacedFrom (Encode.lastMark before) := by
  intro t
  have hmarking := Encode.marking_visitsOf hnames {}
  have ht : t = Encode.finalState (Encode.statements .refer body {}) := by
    rw [← Encode.program_eq_statements Encode.refer_keepsScopes]
  rw [ht]
  refine ⟨?_, fun i r hr => ?_⟩
  · rw [Encode.marker_statements body hmarking, Option.or_none]
  · obtain ⟨before, v, hfront, hchain, hleaf, hmakes⟩ :=
      Encode.exists_visit_of_statements body (Nat.zero_le i) hr
    have hmarker : v.2.marker = Encode.lastMark before := by
      have hmark := hchain.marker fun u hu =>
        hmarking u (hfront.subset (List.mem_append_left _ hu))
      rwa [Option.or_none] at hmark
    refine ⟨before, v, hfront, fun u hu => ?_, hmakes, ?_⟩
    · obtain ⟨_, _, hrun, _⟩ := hchain.visit hu
      rw [hrun]
      rfl
    · rw [← hmarker]
      refine (hmakes.madeBehind hleaf).placedFrom hchain.growsTo.image.limit fun m hm => ?_
      rw [hmarker] at hm
      exact hchain.pos_le_size hm

/-- References before the first label, then in an instruction and its setup inside of a block.  The
last label of the block fails. -/
theorem references_name_nearest_label_until_failure :
    let x := utf8 "x"
    let body : List Statement :=
      [.defineValue {} (utf8 "v") (.number ⟨{}, utf8 "1", 10⟩), .words {} [.name {} x],
        .label {} (utf8 "a"),
        .block {} [.instruction {} .ld [.fetch {} (.register {} .high) (.name {} x), .name {} x],
          .label {} (utf8 "b"), .label {} (utf8 "v")]]
    let t := Encode.finalState (Encode.program .refer body {})
    (∀ x ∈ Statement.leavesOf body, ∀ name ∈ x.labelNames, name ≠ []) ∧
    Encode.succeeds (Encode.program .refer body {}) = false ∧
    t.references.toList.map Reference.place =
      [utf8 "0x0000", utf8 "a+2 (0x0004)", utf8 "a+6 (0x0008)"] ∧
    t.marker = some ⟨utf8 "b", 10⟩ ∧
    t.marker = Encode.lastMark (Encode.visitsOf .refer body {}) ∧
    ∀ i r, t.references[i]? = some r →
      ∃ before v, before ++ [v] <+: Encode.visitsOf .refer body {} ∧
        Encode.Makes v i r ∧ r.PlacedFrom (Encode.lastMark before) := by
  intro x body t
  have hnames : ∀ x ∈ Statement.leavesOf body, ∀ name ∈ x.labelNames, name ≠ [] := by decide
  obtain ⟨hmarker, hplaces⟩ := references_name_nearest_label hnames
  refine ⟨hnames, by decide +kernel, by decide +kernel, by decide +kernel, hmarker, ?_⟩
  intro i r hr
  obtain ⟨before, v, hfront, _, hmakes, hplaced⟩ := hplaces i r hr
  exact ⟨before, v, hfront, hmakes, hplaced⟩

end Gx
