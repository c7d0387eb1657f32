import Gx.Proofs.Resolve

/-!
# Sessions

An assembly can be asked for more than one thing: to encode programs and single statements, and to
resolve its references, in any order.  A call that fails keeps what it has done, and the next call
goes on from there.  A statement may fail after it has made references, and resolving may patch
some references and keep others.  Nevertheless, the pending bytes stay those that references wait
for: each call keeps `Assembly.Tracks`, so every session does.  Only an image that gets too large
can lose track of a byte, because the first byte of a word may be reserved when the second one does
not fit.
-/

namespace Gx

/-- What an assembly can be asked for. -/
inductive Call where
  | program (body : List Statement)
  | statement (x : Statement)
  | resolve

namespace Call

def run : Call → Encode Unit
  | .program body => Encode.program .refer body
  | .statement x => Encode.statement .refer x
  | .resolve => Encode.resolve

/-- The state after calls, each of which starts where the one before has stopped. -/
def after : List Call → Assembly → Assembly
  | [], s => s
  | call :: rest, s => after rest (Encode.finalState (call.run s))

/-- The causes of those calls that fail. -/
def causes : List Call → Assembly → List EncodeError
  | [], _ => []
  | call :: rest, s =>
      match call.run s with
      | .ok _ t => causes rest t
      | .error e t => e.root :: causes rest t

section

variable {I : Assembly → Prop} {E : EncodeError → Assembly → Prop}

theorem keeps_run (h : Encode.Invariant I E .refer {}) (hresolve : Encode.Keeps I E Encode.resolve)
    (call : Call) : Encode.Keeps I E call.run := by
  cases call with
  | program body =>
      intro s hs
      have hbody := h.statements body (fun x _ => NameRules.allow_of_trivial x) s hs
      rwa [← Encode.program_eq_statements Encode.refer_keepsScopes] at hbody
  | statement x =>
      have hlockstep := h.lockstep.statement x fun y _ => NameRules.allow_of_trivial y
      exact Encode.keeps_iff_simulates.mpr hlockstep
  | resolve => exact hresolve

/-- What every call keeps unless it fails for a bad cause, a session without bad causes keeps. -/
theorem keeps_after {good : EncodeError → Prop} (hrun : ∀ call : Call, Encode.Keeps I E call.run)
    (hgood : ∀ {e s}, good e → E e s → I s) (calls : List Call) {s : Assembly} (hs : I s)
    (hcauses : ∀ e ∈ causes calls s, good e) : I (after calls s) := by
  induction calls generalizing s with
  | nil => exact hs
  | cons call rest ih =>
      have hnext := hrun call s hs
      rw [causes] at hcauses
      rw [after]
      cases hcall : call.run s with
      | ok x t =>
          simp only [hcall] at hnext hcauses
          exact ih hnext hcauses
      | error e t =>
          simp only [hcall, List.forall_mem_cons] at hnext hcauses
          exact ih (hgood hcauses.1 hnext) hcauses.2

end

end Call

/-! ## What a session keeps -/

def EncodeError.isTooLarge : EncodeError → Bool
  | .image (.tooLarge _ _) => true
  | _ => false

/-- The pending bytes are those that references wait for, and the image fits. -/
structure Assembly.Tracks (s : Assembly) : Prop where
  tiled : s.image.TiledBy s.references.toList
  fits : (s.image.size : Int) ≤ s.image.limit

theorem Assembly.Tracks.of_sameStore {s t : Assembly} (hs : s.Tracks)
    (hstore : Encode.SameStore s t) : t.Tracks := by
  refine ⟨?_, ?_⟩
  · rw [hstore.1, hstore.2]
    exact hs.tiled
  · rw [hstore.1]
    exact hs.fits

namespace Encode

theorem tracks_initial : ({} : Assembly).Tracks :=
  ⟨tiledBy_initial, by decide⟩

theorem tracks_invariant :
    Invariant Assembly.Tracks (fun e s => e.isTooLarge = true ∨ s.Tracks) .refer {} := by
  apply Invariant.ofRefer
  · intro s t hstore hs
    exact hs.of_sameStore hstore
  · intro e s t hstore hs
    exact hs.imp id (·.of_sameStore hstore)
  · intro s e hs
    exact Or.inr hs
  · intro s data hs hfits
    refine ⟨tiledBy_push hs.tiled data, ?_⟩
    rwa [Image.size_push_bytes]
  · intro s name part _ hs hfits
    have hfill := tiledBy_fill hs.tiled
      (show (referenceAt s name part).pos = s.image.size from rfl)
    rw [← Array.toList_push] at hfill
    refine ⟨hfill, ?_⟩
    rwa [Image.size_fill]
  · intro s n size limit _
    exact Or.inl rfl

section

variable {s : Assembly}

/-- Resolving patches the bytes of the references that are ready and keeps the others. -/
theorem tiledBy_resolve (h : s.image.TiledBy s.references.toList) :
    (finalState (resolve s)).image.TiledBy (finalState (resolve s)).references.toList := by
  have hresolved := resolved_finalState h.apart
  have hleft : ∀ r, r ∈ (finalState (resolve s)).references.toList ↔
      r ∈ s.references.toList ∧ r.ready s.scopes s.image = false := by
    intro r
    rw [Array.mem_toList_iff, Array.mem_toList_iff, mem_references_resolve_iff h.apart]
  refine ⟨?_, ?_, ?_⟩
  · intro r hr
    rw [hresolved.size]
    exact h.inside r ((hleft r).mp hr).1
  · exact hresolved.references.symm.pairwise (h.apart.filter _)
      fun {_ _} hapart => Reference.Apart.symm hapart
  · intro i
    rw [hresolved.pending, h.pending]
    constructor
    · rintro ⟨⟨r, hr, hcovers⟩, hfree⟩
      refine ⟨r, (hleft r).mpr ⟨hr, ?_⟩, hcovers⟩
      rw [← Bool.not_eq_true]
      intro hready
      exact hfree r (Array.mem_toList_iff.mp hr) hready hcovers
    · rintro ⟨r, hr, hcovers⟩
      obtain ⟨hmem, hnot⟩ := (hleft r).mp hr
      refine ⟨⟨r, hmem, hcovers⟩, ?_⟩
      intro q hq hready hq'
      -- a byte has one reference only, so the one that was patched would be `r`
      have hne : r ≠ q := by
        rintro rfl
        rw [hnot] at hready
        contradiction
      exact h.apart.forall hmem (Array.mem_toList_iff.mpr hq) hne i hcovers hq'

theorem tracks_resolve (hs : s.Tracks) : (finalState (resolve s)).Tracks := by
  have hresolved := resolved_finalState hs.tiled.apart
  refine ⟨tiledBy_resolve hs.tiled, ?_⟩
  rw [hresolved.size, hresolved.limit]
  exact hs.fits

theorem keeps_resolve :
    Keeps Assembly.Tracks (fun e s => e.isTooLarge = true ∨ s.Tracks) resolve := by
  intro s hs
  have hnext := tracks_resolve hs
  cases hresolve : resolve s with
  | ok x t =>
      rw [hresolve] at hnext
      exact hnext
  | error e t =>
      rw [hresolve] at hnext
      exact Or.inr hnext

/-- On the way through its references, resolving finds the bytes of the next one pending. -/
theorem patch_of_walk (h : s.image.TiledBy s.references.toList) {done rest : List Reference}
    {r : Reference} (htaken : Queue.Drains Reference.before s.references.toList (done ++ r :: rest))
    (address : UInt16) :
    ∃ img, (done.foldl (Resolution.step s.scopes) { image := s.image }).image.patch r.pos
      (r.part.bytes address) = .ok img := by
  have hapart : (done ++ r :: rest).Pairwise Reference.Apart :=
    htaken.perm.symm.pairwise h.apart fun {_ _} hapart => Reference.Apart.symm hapart
  have hempty := Reference.empty_first htaken
  have hmem : r ∈ s.references.toList := htaken.perm.subset (by simp)
  rw [List.pairwise_append] at hapart hempty
  have hwalk := Resolution.foldl_resolves (a := { image := s.image })
    (KnownName.fits_initial s.scopes done) hempty.1 hapart.1
  refine ⟨_, Image.patch_of_pending fun k hk => ?_⟩
  rw [Part.length_bytes] at hk
  have hpos := (h.inside r hmem).1
  have hcovers : r.Covers (r.pos + k).toNat := by
    unfold Reference.Covers
    omega
  rw [Image.isPending_eq_true_iff, hwalk.pending, h.pending]
  refine ⟨by omega, ⟨r, hmem, hcovers⟩, ?_⟩
  intro q hq _ hq'
  exact hapart.2.2 q hq r List.mem_cons_self _ hq' hcovers

end

end Encode

/-! ## The check of the image -/

theorem Image.check_incomplete_iff {img : Image} (hfits : (img.size : Int) ≤ img.limit) :
    (∃ count first, img.check = .error (.incomplete count first)) ↔
      ∃ i, img.pending.contains i = true := by
  have hnone := img.pending.min?_eq_none_iff
  unfold check
  rw [if_neg (by omega)]
  cases hmin : img.pending.min? with
  | none =>
      have hfree := hnone.mp hmin
      simp [hfree]
  | some first =>
      have hsome : ¬∀ i, img.pending.contains i = false := by
        rw [← hnone, hmin]
        simp
      simpa using hsome

theorem Image.TiledBy.exists_pending_iff {img : Image} {refs : List Reference}
    (h : img.TiledBy refs) : (∃ i, img.pending.contains i = true) ↔ refs ≠ [] := by
  constructor
  · rintro ⟨i, hi⟩ rfl
    rw [h.pending] at hi
    simp at hi
  · intro hrefs
    obtain ⟨r, hr⟩ := List.exists_mem_of_ne_nil refs hrefs
    have hpos := (h.inside r hr).1
    have hwidth := r.part.width_pos
    refine ⟨r.pos.toNat, (h.pending _).mpr ⟨r, hr, ?_⟩⟩
    unfold Reference.Covers
    omega

/-- In every session in which the image does not get too large, the references wait for bytes of
the image, no two of them for a common one, and these are the pending bytes.  So resolving never
tries to patch a byte that is not pending, in whatever order a queue brings the references, and the
image is incomplete if and only if there are references. -/
theorem references_are_the_pending_bytes {calls : List Call} {s : Assembly}
    (hafter : Call.after calls {} = s)
    (hsmall : ∀ e ∈ Call.causes calls {}, e.isTooLarge = false) :
    s.image.TiledBy s.references.toList ∧
    (∃ taken, Queue.Drains Reference.before s.references.toList taken ∧
      Encode.resolve s = Encode.resolveInOrder taken s) ∧
    (∀ done r rest, Queue.Drains Reference.before s.references.toList (done ++ r :: rest) →
      ∀ address, ∃ img, (done.foldl (Resolution.step s.scopes) { image := s.image }).image.patch
        r.pos (r.part.bytes address) = .ok img) ∧
    ((∃ count first, s.image.check = .error (.incomplete count first)) ↔
      s.references ≠ #[]) := by
  have hs : s.Tracks := by
    rw [← hafter]
    refine Call.keeps_after (Call.keeps_run Encode.tracks_invariant Encode.keeps_resolve) ?_ calls
      Encode.tracks_initial hsmall
    intro e t hsmall hfailed
    exact hfailed.resolve_left (by simp [hsmall])
  refine ⟨hs.tiled, Encode.exists_drains_resolve s,
    fun done r rest htaken => Encode.patch_of_walk hs.tiled htaken, ?_⟩
  rw [Image.check_incomplete_iff hs.fits, hs.tiled.exists_pending_iff, ne_eq, ne_eq,
    Array.toList_eq_nil_iff]

/-- A statement fails behind its reference, a program succeeds, and resolving patches one reference
and keeps two. -/
theorem references_are_the_pending_bytes_after_failures :
    let x := utf8 "x"
    let y := utf8 "y"
    let calls : List Call :=
      [.statement (.words {} [.name {} x, .register {} .high]),
        .program [.data {} [.half {} .lo (.name {} y), .name {} x], .block {} [.label {} y]],
        .resolve]
    Call.causes calls {} = [.registerUsedAs .address, .unresolved x (utf8 "0x0000")] ∧
    ∃ s, Call.after calls {} = s ∧
      s.references.toList.map (fun r => (r.pos, r.name)) = [(0, x), (3, x)] ∧
      s.image.bytes = #[0xFF, 0xFF, 5, 0xFF, 0xFF] ∧
      s.image.TiledBy s.references.toList ∧
      ∃ count first, s.image.check = .error (.incomplete count first) := by
  intro x y calls
  obtain ⟨s, hafter⟩ : ∃ s, Call.after calls {} = s := ⟨_, rfl⟩
  have hrun : Call.causes calls {} = [.registerUsedAs .address, .unresolved x (utf8 "0x0000")] ∧
      (Call.after calls {}).references.toList.map (fun r => (r.pos, r.name)) =
        [(0, x), (3, x)] ∧
      (Call.after calls {}).image.bytes = #[0xFF, 0xFF, 5, 0xFF, 0xFF] := by decide +kernel
  rw [hafter] at hrun
  obtain ⟨hcauses, hrefs, hbytes⟩ := hrun
  have hsmall : ∀ e ∈ Call.causes calls {}, e.isTooLarge = false := by
    rw [hcauses]
    decide
  obtain ⟨htiled, _, _, hcheck⟩ := references_are_the_pending_bytes hafter hsmall
  refine ⟨hcauses, s, hafter, hrefs, hbytes, htiled, hcheck.mpr ?_⟩
  intro hnone
  simp [hnone] at hrefs

end Gx
