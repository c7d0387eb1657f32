import Gx.Proofs.Renaming.Encoding
import Gx.Proofs.ResolveOutcome
import Gx.Proofs.TwoPasses

/-!
# Assembling under other names

Resolving takes references in the order of their names, so other names mean another order.  That
makes no difference: references which do not overlap do not disturb each other, and the one that is
reported is chosen by its position.  The empty name is an exception to resolving, so names that are
not empty have to stay so.
-/

namespace Gx

/-! ## References -/

/-- What is left after resolving is the same but for names, and for the order of references. -/
structure Assembly.SameUpTo (f : Bytes → Bytes) (s t : Assembly) : Prop where
  bytes : t.image.bytes = s.image.bytes
  pending : ∀ i, t.image.pending.contains i = s.image.pending.contains i
  references : ∃ refs, List.Forall₂ (Reference.Renames f) s.references.toList refs ∧
    refs.Perm t.references.toList

theorem Assembly.Renames.sameUpTo {f : Bytes → Bytes} {s t : Assembly} (h : s.Renames f t) :
    s.SameUpTo f t :=
  ⟨by rw [h.image], fun i => by rw [h.image], _, h.references, List.Perm.refl _⟩

theorem exists_of_mem_of_forall₂ {α β : Type} {R : α → β → Prop} {l : List α} {m : List β}
    (h : List.Forall₂ R l m) {a : α} (ha : a ∈ l) : ∃ b ∈ m, R a b := by
  induction h with
  | nil => contradiction
  | cons hab _ ih =>
      rcases List.mem_cons.mp ha with rfl | ha
      · exact ⟨_, List.mem_cons_self, hab⟩
      · obtain ⟨b, hb, hab⟩ := ih ha
        exact ⟨b, List.mem_cons_of_mem _ hb, hab⟩

theorem Scopes.resolved_rename {f : Bytes → Bytes} (hf : Function.Injective f)
    (hnonempty : ∀ n, n ≠ [] → f n ≠ []) (scopes : Scopes) {name : Bytes} (hname : name ≠ []) :
    (scopes.rename f).resolved (f name) =
      (scopes.resolved name).mapError (ScopeError.rename f) := by
  unfold resolved
  rw [if_neg hname, if_neg (hnonempty name hname), lookupGlobal_rename hf]
  cases scopes.lookupGlobal name [.address] <;> rfl

namespace Reference.Renames

variable {f : Bytes → Bytes} (hf : Function.Injective f) (hnonempty : ∀ n, n ≠ [] → f n ≠ [])
  {r q : Reference} (h : r.Renames f q)

include h

theorem covers (i : Nat) : q.Covers i ↔ r.Covers i := by
  unfold Covers
  rw [h.pos, h.part]

/-- A failure to resolve a reference is reported under the new name. -/
theorem complaint (e : EncodeError) :
    (r.complaint e).Renames f (q.complaint (e.rename f)) := by
  have hcause := e.renames_rename f
  unfold EncodeError.Renames at hcause ⊢
  cases e with
  | scope e =>
      cases e <;> simp_all [Reference.complaint, EncodeError.rename, ScopeError.rename, h.name]
  | _ => simp_all [Reference.complaint, EncodeError.rename, h.name]

include hf hnonempty

theorem ready (scopes : Scopes) (img : Image) (hname : r.name ≠ []) :
    q.ready (scopes.rename f) img = r.ready scopes img := by
  unfold Reference.ready
  rw [h.pos, h.part, h.name, Scopes.resolved_rename hf hnonempty scopes hname]
  cases scopes.resolved r.name <;> rfl

theorem resolve (scopes : Scopes) (img : Image) (hname : r.name ≠ []) :
    q.resolve (scopes.rename f) img =
      (r.resolve scopes img).mapError (EncodeError.rename f) := by
  unfold Reference.resolve
  rw [h.pos, h.part, h.name, Scopes.resolved_rename hf hnonempty scopes hname]
  cases scopes.resolved r.name with
  | error e => rfl
  | ok address =>
      simp only [Except.mapError]
      cases img.patch r.pos (r.part.bytes address) <;> rfl

end Reference.Renames

/-! ## Resolving -/

namespace Encode

/-- Both runs have succeeded, or both have failed for the same reason. -/
inductive Agree (f : Bytes → Bytes) :
    EStateM.Result EncodeError Assembly Unit → EStateM.Result EncodeError Assembly Unit → Prop where
  | ok {s t : Assembly} (hstate : s.SameUpTo f t) : Agree f (.ok () s) (.ok () t)
  | error {e e' : EncodeError} {s t : Assembly} (herror : e.Renames f e')
      (hstate : s.SameUpTo f t) : Agree f (.error e s) (.error e' t)

section

variable {f : Bytes → Bytes} (hf : Function.Injective f) (hnonempty : ∀ n, n ≠ [] → f n ≠ [])
  {s t : Assembly} (hstate : s.Renames f t) (hnames : ∀ r ∈ s.references, r.name ≠ [])
  (hs : s.image.TiledBy s.references.toList) (ht : t.image.TiledBy t.references.toList)

include hf hnonempty hstate hnames

theorem ready_eq {r q : Reference} (hr : r ∈ s.references) (hrq : r.Renames f q) :
    q.ready t.scopes t.image = r.ready s.scopes s.image := by
  rw [hstate.image, hstate.scopes]
  exact hrq.ready hf hnonempty s.scopes s.image (hnames r hr)

omit hf hnonempty hnames in
theorem exists_renamed {r : Reference} (hr : r ∈ s.references) :
    ∃ q ∈ t.references, r.Renames f q := by
  obtain ⟨q, hq, hrq⟩ :=
    exists_of_mem_of_forall₂ hstate.references (Array.mem_toList_iff.mpr hr)
  exact ⟨q, Array.mem_toList_iff.mp hq, hrq⟩

omit hf hnonempty hnames in
theorem exists_original {q : Reference} (hq : q ∈ t.references) :
    ∃ r ∈ s.references, r.Renames f q := by
  obtain ⟨r, hr, hrq⟩ :=
    exists_of_mem_of_forall₂ hstate.references.flip (Array.mem_toList_iff.mpr hq)
  exact ⟨r, Array.mem_toList_iff.mp hr, hrq⟩

/-- Both runs patch the same bytes. -/
theorem patched_iff (i : Nat) :
    (∃ q ∈ t.references, q.ready t.scopes t.image = true ∧ q.Covers i) ↔
      ∃ r ∈ s.references, r.ready s.scopes s.image = true ∧ r.Covers i := by
  have hready : ∀ r ∈ s.references, ∀ q, r.Renames f q →
      q.ready t.scopes t.image = r.ready s.scopes s.image :=
    fun r hr q hrq => ready_eq hf hnonempty hstate hnames hr hrq
  constructor
  · rintro ⟨q, hq, hq', hcovers⟩
    obtain ⟨r, hr, hrq⟩ := exists_original hstate hq
    exact ⟨r, hr, by rwa [← hready r hr q hrq], (hrq.covers i).mp hcovers⟩
  · rintro ⟨r, hr, hr', hcovers⟩
    obtain ⟨q, hq, hrq⟩ := exists_renamed hstate hr
    exact ⟨q, hq, by rwa [hready r hr q hrq], (hrq.covers i).mpr hcovers⟩

include hs ht

theorem bytes_resolve : (finalState (resolve t)).image.bytes =
    (finalState (resolve s)).image.bytes := by
  have hresolved := resolved_finalState hs.apart
  have hresolved' := resolved_finalState ht.apart
  have hpatched := patched_iff hf hnonempty hstate hnames
  apply Array.ext_getElem?
  intro i
  by_cases hi : i < s.image.size
  · by_cases hcovered : ∃ r ∈ s.references, r.ready s.scopes s.image = true ∧ r.Covers i
    · obtain ⟨r, hr, hready, hcovers⟩ := hcovered
      obtain ⟨q, hq, hrq⟩ := exists_renamed hstate hr
      obtain ⟨⟨address, haddress⟩, _⟩ := (r.ready_iff _ _).mp hready
      have haddress' : t.scopes.resolved q.name = .ok address := by
        rw [hstate.scopes, hrq.name, Scopes.resolved_rename hf hnonempty _ (hnames r hr), haddress]
        rfl
      have hready' : q.ready t.scopes t.image = true := by
        rwa [ready_eq hf hnonempty hstate hnames hr hrq]
      rw [hresolved.patched r hr hready address haddress i hi hcovers,
        hresolved'.patched q hq hready' address haddress' i (by rwa [hstate.image])
          ((hrq.covers i).mpr hcovers), hrq.pos, hrq.part]
    · have hcovered' := mt (hpatched i).mp hcovered
      rw [hresolved.unchanged i fun r hr hready hcovers => hcovered ⟨r, hr, hready, hcovers⟩,
        hresolved'.unchanged i fun q hq hready hcovers => hcovered' ⟨q, hq, hready, hcovers⟩,
        hstate.image]
  · have hsize : (finalState (resolve s)).image.bytes.size ≤ i := by
      have hsame := hresolved.size
      unfold Image.size at hsame hi
      omega
    have hsize' : (finalState (resolve t)).image.bytes.size ≤ i := by
      have hsame := hresolved'.size
      rw [hstate.image] at hsame
      unfold Image.size at hsame hi
      omega
    rw [Array.getElem?_eq_none hsize, Array.getElem?_eq_none hsize']

theorem sameUpTo_resolve :
    (finalState (resolve s)).SameUpTo f (finalState (resolve t)) := by
  have hresolved := resolved_finalState hs.apart
  have hresolved' := resolved_finalState ht.apart
  refine ⟨bytes_resolve hf hnonempty hstate hnames hs ht, fun i => ?_, ?_⟩
  · have hpatched := not_congr (patched_iff hf hnonempty hstate hnames i)
    simp only [not_exists, not_and] at hpatched
    rw [Bool.eq_iff_iff, hresolved'.pending, hresolved.pending, hpatched, hstate.image]
  · have hleft : List.Forall₂ (Reference.Renames f)
        (s.references.toList.filter fun r => !r.ready s.scopes s.image)
        (t.references.toList.filter fun q => !q.ready t.scopes t.image) := by
      have hboth := (List.forall₂_and_left (R := Reference.Renames f) (p := (· ∈ s.references))
        s.references.toList t.references.toList).mpr
          ⟨fun r hr => Array.mem_toList_iff.mp hr, hstate.references⟩
      refine List.Forall₂.imp (fun _ _ h => h.2) (List.rel_filter ?_ hboth)
      rintro r q ⟨hr, hrq⟩
      simp only [ready_eq hf hnonempty hstate hnames hr hrq]
    obtain ⟨refs, hrefs, hperm⟩ := List.perm_comp_forall₂ hresolved.references hleft
    exact ⟨refs, hrefs, hperm.trans hresolved'.references.symm⟩

theorem succeeds_resolve_iff :
    (∃ u, resolve s = .ok () u) ↔ ∃ u, resolve t = .ok () u := by
  rw [resolve_ok_iff hs.apart, resolve_ok_iff ht.apart]
  constructor
  · intro hall q hq
    obtain ⟨r, hr, hrq⟩ := exists_original hstate hq
    rw [ready_eq hf hnonempty hstate hnames hr hrq]
    exact hall r hr
  · intro hall r hr
    obtain ⟨q, hq, hrq⟩ := exists_renamed hstate hr
    rw [← ready_eq hf hnonempty hstate hnames hr hrq]
    exact hall q hq

/-- If resolving fails, then because of the same reference. -/
theorem same_report {e e' : EncodeError} {u v : Assembly} (hu : resolve s = .error e u)
    (hv : resolve t = .error e' v) :
    ∃ r ∈ u.references, ∃ q ∈ v.references, r.Renames f q ∧ (∀ p ∈ u.references, r.pos ≤ p.pos) ∧
      ∃ cause, e = r.complaint cause ∧ e' = q.complaint (cause.rename f) := by
  obtain ⟨r, hr, cause, hcause, rfl, hru, hlowest⟩ := exists_lowest_of_resolve_error hs.apart hu
  obtain ⟨q, hq, cause', hcause', rfl, hqv, hlowest'⟩ := exists_lowest_of_resolve_error ht.apart hv
  obtain ⟨refs, hrefs, hperm⟩ := (sameUpTo_resolve hf hnonempty hstate hnames hs ht).references
  rw [hu] at hrefs
  rw [hv] at hperm
  obtain ⟨q', hq', hrq'⟩ := exists_of_mem_of_forall₂ hrefs (Array.mem_toList_iff.mpr hru)
  obtain ⟨r', hr', hrq⟩ := exists_of_mem_of_forall₂ hrefs.flip
    (hperm.mem_iff.mpr (Array.mem_toList_iff.mpr hqv))
  -- both are lowest, so they have the same position, and there only one reference has it
  have hsame : r' = r := by
    have hle := hlowest r' (Array.mem_toList_iff.mp hr')
    have hge := hlowest' q' (Array.mem_toList_iff.mp (hperm.mem_iff.mp hq'))
    have hpos := hrq'.pos
    have hpos' := hrq.pos
    have hresolved := resolved_finalState hs.apart
    rw [hu] at hresolved
    have hmem : r' ∈ s.references.toList :=
      List.mem_of_mem_filter (hresolved.references.mem_iff.mp hr')
    refine Reference.eq_of_pos_eq (fun p hp => (hs.inside p hp).1) hs.apart hmem
      (Array.mem_toList_iff.mpr hr) ?_
    omega
  obtain rfl := hsame
  have hcause'' := hrq.resolve hf hnonempty s.scopes s.image (hnames r' hr)
  rw [← hstate.scopes, ← hstate.image, hcause', hstate.image, hcause] at hcause''
  obtain rfl : cause' = cause.rename f := Except.error.inj hcause''
  exact ⟨r', hru, q, hqv, hrq, hlowest, cause, rfl, rfl⟩

theorem agree_resolve : Agree f (resolve s) (resolve t) := by
  have hfinal := sameUpTo_resolve hf hnonempty hstate hnames hs ht
  have hsucceeds := succeeds_resolve_iff hf hnonempty hstate hnames hs ht
  cases hu : resolve s with
  | ok _ u =>
      obtain ⟨v, hv⟩ := hsucceeds.mp ⟨u, hu⟩
      rw [hu, hv] at hfinal
      rw [hv]
      exact .ok hfinal
  | error e u =>
      cases hv : resolve t with
      | ok _ v =>
          obtain ⟨_, hok⟩ := hsucceeds.mpr ⟨v, hv⟩
          rw [hu] at hok
          contradiction
      | error e' v =>
          obtain ⟨r, _, q, _, hrq, _, cause, rfl, rfl⟩ :=
            same_report hf hnonempty hstate hnames hs ht hu hv
          rw [hu, hv] at hfinal
          exact .error (hrq.complaint cause) hfinal

end

/-- Why an action has failed, if it has. -/
def failure? : EStateM.Result EncodeError Assembly Unit → Option EncodeError
  | .ok _ _ => none
  | .error e _ => some e

/-- Encodes a program and resolves its references. -/
def programAndResolve (body : List Statement) : Encode Unit := do
  program .refer body
  resolve

end Encode

/-- Under other names that are as different from each other as the old ones, and not empty either, a
program is assembled as before.  It succeeds with the same bytes or fails for the same reason; then
the bytes, the pending positions and the references that are left are the same, and resolving
reports the same reference. -/
theorem assembling_does_not_depend_on_names {f : Bytes → Bytes} (hf : Function.Injective f)
    (hnonempty : ∀ n, n ≠ [] → f n ≠ []) {body : List Statement}
    (hnames : ∀ x ∈ Statement.leavesOf body, [] ∉ x.names) :
    Encode.Agree f (Encode.programAndResolve body {})
      (Encode.programAndResolve (Statement.renameAll f body) {}) ∧
    ∀ s t, Encode.program .refer body {} = .ok () s →
      Encode.program .refer (Statement.renameAll f body) {} = .ok () t →
      ∀ e u e' v, Encode.resolve s = .error e u → Encode.resolve t = .error e' v →
        ∃ r ∈ u.references, ∃ q ∈ v.references, r.Renames f q ∧
          (∀ p ∈ u.references, r.pos ≤ p.pos) ∧
          ∃ cause, e = r.complaint cause ∧ e' = q.complaint (cause.rename f) := by
  have hinitial : ({} : Assembly).Renames f {} := ⟨rfl, rfl, .nil⟩
  have hprogram := Encode.mirrors_program hf body {} {} hinitial
  refine ⟨?_, fun s t hs ht e u e' v hu hv => ?_⟩
  · unfold Encode.programAndResolve
    rw [Encode.bind_eq, Encode.bind_eq]
    obtain ⟨s, t, hs, ht, hstate⟩ | ⟨e, s, e', t, hs, ht, herror, hstate⟩ := hprogram.ok_or_error
    · rw [hs, ht]
      exact Encode.agree_resolve hf hnonempty hstate (Encode.references_nonempty hnames hs)
        (Encode.program_tiledBy hs) (Encode.program_tiledBy ht)
    · rw [hs, ht]
      exact .error herror hstate.sameUpTo
  · rw [hs, ht] at hprogram
    cases hprogram with
    | ok hstate =>
        exact Encode.same_report hf hnonempty hstate (Encode.references_nonempty hnames hs)
          (Encode.program_tiledBy hs) (Encode.program_tiledBy ht) hu hv

/-- Names are written backwards, which turns their order around.  In both runs the reference at
position 0 is the one that is reported, and another one is left behind it. -/
theorem assembling_does_not_depend_on_names_backwards :
    let az := utf8 "az"
    let ba := utf8 "ba"
    let cc := utf8 "cc"
    let body : List Statement :=
      [.words {} [.name {} az, .name {} cc, .name {} ba], .block {} [.label {} cc]]
    Function.Injective (List.reverse : Bytes → Bytes) ∧
    (∀ n : Bytes, n ≠ [] → n.reverse ≠ []) ∧
    (∀ x ∈ Statement.leavesOf body, [] ∉ x.names) ∧
    ∃ e s e' t, Encode.programAndResolve body {} = .error e s ∧
      Encode.programAndResolve (Statement.renameAll List.reverse body) {} = .error e' t ∧
      e = .unresolved az (utf8 "0x0000") ∧ e' = .unresolved (utf8 "za") (utf8 "0x0000") ∧
      s.image.bytes = #[0xFF, 0xFF, 0, 6, 0xFF, 0xFF] ∧
      e.Renames List.reverse e' ∧ s.SameUpTo List.reverse t := by
  intro az ba cc body
  have hinjective : Function.Injective (List.reverse : Bytes → Bytes) := List.reverse_injective
  have hnonempty : ∀ n : Bytes, n ≠ [] → n.reverse ≠ [] := fun n hn => by simpa using hn
  have hnames : ∀ x ∈ Statement.leavesOf body, [] ∉ x.names := by
    simp [body, Statement.leavesOf, Statement.leaves, Statement.names, Statement.labelNames,
      Statement.definedNames, Statement.usedNames, Operand.names, az, ba, cc, utf8]
  have hrun :
      Encode.failure? (Encode.programAndResolve body {}) =
        some (.unresolved az (utf8 "0x0000")) ∧
      Encode.failure? (Encode.programAndResolve (Statement.renameAll List.reverse body) {}) =
        some (.unresolved (utf8 "za") (utf8 "0x0000")) ∧
      (Encode.finalState (Encode.programAndResolve body {})).image.bytes =
        #[0xFF, 0xFF, 0, 6, 0xFF, 0xFF] := by
    decide +kernel
  have hagree := (assembling_does_not_depend_on_names hinjective hnonempty hnames).1
  refine ⟨hinjective, hnonempty, hnames, ?_⟩
  obtain ⟨hfirst, hsecond, hbytes⟩ := hrun
  generalize Encode.programAndResolve body {} = r at *
  generalize Encode.programAndResolve (Statement.renameAll List.reverse body) {} = q at *
  cases hagree with
  | ok hstate => contradiction
  | error herror hstate =>
      exact ⟨_, _, _, _, rfl, rfl, Option.some.inj hfirst, Option.some.inj hsecond, hbytes,
        herror, hstate⟩

end Gx
