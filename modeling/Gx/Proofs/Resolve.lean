import Gx.Assembly.Resolve
import Gx.Proofs.Queue
import Gx.Proofs.References
import Gx.Proofs.Scopes

/-!
# Resolving references that do not overlap

The walk over the references keeps the name looked up last, and patches one reference after the
other.  The queue brings references with the empty name first, so the name kept always has the
address that a fresh look-up gives.  References that do not overlap do not disturb each other, so
the outcome can be read off the image before the walk: `Resolution.Resolves`.
-/

namespace Gx

/-- The address of a name for the purpose of resolving references.  That of the empty name is zero,
whatever the name is bound to. -/
def Scopes.resolved (scopes : Scopes) (name : Bytes) : Except ScopeError UInt16 :=
  if name = [] then .ok 0 else (scopes.lookupGlobal name [.address]).map (·.value)

/-- The name has an address, and all bytes of the reference are pending. -/
def Reference.ready (scopes : Scopes) (img : Image) (r : Reference) : Bool :=
  (scopes.resolved r.name).isOk &&
    (List.range r.part.width).all fun (k : Nat) => img.isPending (r.pos + k)

/-- The image in which one reference is resolved, or what prevents it. -/
def Reference.resolve (scopes : Scopes) (img : Image) (r : Reference) :
    Except EncodeError Image :=
  match scopes.resolved r.name with
  | .error e => .error (.scope e)
  | .ok address =>
      match img.patch r.pos (r.part.bytes address) with
      | .ok next => .ok next
      | .error e => .error (.image e)

theorem Scopes.resolved_eq_ok_iff {scopes : Scopes} {name : Bytes} {address : UInt16}
    (hname : name ≠ []) :
    scopes.resolved name = .ok address ↔
      ∃ sym, scopes.lookupGlobal name [.address] = .ok sym ∧ sym.value = address := by
  rw [resolved, if_neg hname]
  cases scopes.lookupGlobal name [.address] with
  | ok sym => simp [Except.map]
  | error e => simp [Except.map]

namespace Reference

theorem ready_iff (scopes : Scopes) (img : Image) (r : Reference) :
    r.ready scopes img = true ↔
      (∃ address, scopes.resolved r.name = .ok address) ∧ 0 ≤ r.pos ∧
        ∀ i, r.Covers i → img.pending.contains i = true := by
  have hok : (scopes.resolved r.name).isOk = true ↔
      ∃ address, scopes.resolved r.name = .ok address := by
    cases scopes.resolved r.name <;> simp [Except.isOk, Except.toBool]
  have hwidth := r.part.width_pos
  unfold ready
  simp only [Bool.and_eq_true, hok, List.all_eq_true, List.mem_range,
    Image.isPending_eq_true_iff]
  refine and_congr_right fun _ => ?_
  constructor
  · intro hall
    have hpos := (hall 0 hwidth).1
    refine ⟨by omega, fun i hi => ?_⟩
    unfold Covers at hi
    have hbyte := (hall (i - r.pos.toNat) (by omega)).2
    rwa [show (r.pos + (i - r.pos.toNat : Nat)).toNat = i by omega] at hbyte
  · rintro ⟨hpos, hall⟩ k hk
    refine ⟨by omega, hall _ ?_⟩
    unfold Covers
    omega

theorem ready_of_covers_eq {scopes : Scopes} {img next : Image} {r : Reference}
    (h : ∀ i, r.Covers i → (next.pending.contains i = true ↔ img.pending.contains i = true)) :
    r.ready scopes next = r.ready scopes img := by
  rw [Bool.eq_iff_iff, ready_iff, ready_iff]
  refine and_congr_right fun _ => and_congr_right fun _ => ?_
  exact forall₂_congr h

theorem resolve_of_ready {scopes : Scopes} {img : Image} {r : Reference} {address : UInt16}
    (hready : r.ready scopes img = true) (haddress : scopes.resolved r.name = .ok address) :
    r.resolve scopes img = .ok (img.patched r.pos.toNat (r.part.bytes address)) := by
  have hpending : ∀ k < (r.part.bytes address).length, img.isPending (r.pos + k) = true := by
    unfold ready at hready
    simpa using (Bool.and_eq_true_iff.mp hready).2
  unfold resolve
  simp only [haddress, Image.patch_of_pending hpending]

/-- A reference that is not ready fails for its name or for its bytes. -/
theorem resolve_of_not_ready {scopes : Scopes} {img : Image} {r : Reference}
    (hready : r.ready scopes img = false) :
    (∃ e, scopes.resolved r.name = .error e ∧ r.resolve scopes img = .error (.scope e)) ∨
      ∃ address j, scopes.resolved r.name = .ok address ∧
        r.resolve scopes img = .error (.image (.noPlaceholder j)) := by
  unfold resolve
  cases haddress : scopes.resolved r.name with
  | error e => exact Or.inl ⟨e, rfl, rfl⟩
  | ok address =>
      right
      unfold ready at hready
      rw [haddress] at hready
      simp only [Except.isOk, Except.toBool, Bool.true_and, List.all_eq_false, List.mem_range]
        at hready
      obtain ⟨k, hk, hfree⟩ := hready
      rw [← Part.length_bytes r.part address] at hk
      obtain ⟨j, hpatch⟩ := Image.patch_of_not_pending hk (by simpa using hfree)
      exact ⟨address, j, rfl, by simp only [hpatch]⟩

/-- What prevents a reference from being resolved depends on its own bytes only. -/
theorem resolve_error_of_covers_eq {scopes : Scopes} {img next : Image} {r : Reference}
    {e : EncodeError}
    (h : ∀ i, r.Covers i → (next.pending.contains i = true ↔ img.pending.contains i = true))
    (herror : r.resolve scopes next = .error e) : r.resolve scopes img = .error e := by
  have hpending : ∀ k < r.part.width, next.isPending (r.pos + k) = img.isPending (r.pos + k) := by
    intro k hk
    rw [Bool.eq_iff_iff, Image.isPending_eq_true_iff, Image.isPending_eq_true_iff]
    refine and_congr_right fun hpos => h _ ?_
    unfold Covers
    omega
  unfold resolve at herror ⊢
  cases haddress : scopes.resolved r.name with
  | error cause => rwa [haddress] at herror
  | ok address =>
      simp only [haddress] at herror ⊢
      cases hpatch : next.patch r.pos (r.part.bytes address) with
      | ok patched => simp [hpatch] at herror
      | error cause =>
          rw [hpatch] at herror
          obtain ⟨k, hk, hfree, hbefore, rfl⟩ := Image.patch_eq_error_iff.mp hpatch
          rw [Part.length_bytes] at hk
          have hsame : img.patch r.pos (r.part.bytes address) =
              .error (.noPlaceholder (r.pos + k)) := by
            refine Image.patch_eq_error_iff.mpr ⟨k, by rwa [Part.length_bytes], ?_, ?_, rfl⟩
            · rw [← hpending k hk, hfree]
            · intro j hj
              rw [← hpending j (hj.trans hk), hbefore j hj]
          rwa [hsame]

theorem ready_of_resolve_error {scopes : Scopes} {img : Image} {r : Reference} {e : EncodeError}
    (herror : r.resolve scopes img = .error e) : r.ready scopes img = false := by
  rw [← Bool.not_eq_true]
  intro hready
  obtain ⟨⟨address, haddress⟩, _⟩ := (r.ready_iff scopes img).mp hready
  rw [resolve_of_ready hready haddress] at herror
  contradiction

end Reference

/-! ## The name that is kept -/

/-- The name kept has the address it should have, and the empty name does not come up again once
another name is kept. -/
structure KnownName.Fits (known : KnownName) (scopes : Scopes) (rest : List Reference) :
    Prop where
  address : known.address = scopes.resolved known.name
  nonempty : known.name ≠ [] → ∀ r ∈ rest, r.name ≠ []

theorem KnownName.fits_initial (scopes : Scopes) (refs : List Reference) :
    KnownName.initial.Fits scopes refs :=
  ⟨rfl, fun hname => absurd rfl hname⟩

theorem KnownName.Fits.next {known : KnownName} {scopes : Scopes} {r : Reference}
    {rest : List Reference} (h : known.Fits scopes (r :: rest))
    (hempty : ∀ q ∈ rest, q.name = [] → r.name = []) :
    (known.next scopes r.name).address = scopes.resolved r.name ∧
      (known.next scopes r.name).Fits scopes rest := by
  have hlater : r.name ≠ [] → ∀ q ∈ rest, q.name ≠ [] :=
    fun hr q hq hname => hr (hempty q hq hname)
  unfold KnownName.next
  by_cases hsame : r.name = known.name
  · rw [if_pos hsame, hsame]
    rw [hsame] at hlater
    exact ⟨h.address, h.address, hlater⟩
  · have hr : r.name ≠ [] := by
      intro hname
      rw [hname] at hsame
      exact h.nonempty (Ne.symm hsame) r List.mem_cons_self hname
    have hlookup : (scopes.lookupGlobal r.name [.address]).map (·.value) =
        scopes.resolved r.name := by
      rw [Scopes.resolved, if_neg hr]
    rw [if_neg hsame]
    exact ⟨hlookup, hlookup, fun _ => hlater hr⟩

theorem Reference.before_eq_true_iff (a b : Reference) :
    a.before b = true ↔ a.name < b.name ∨ a.name = b.name ∧ a.pos < b.pos := by
  unfold before
  by_cases hname : a.name = b.name
  · simp [hname, List.lt_irrefl]
  · simp [hname]

theorem Reference.before_eq_false_iff (a b : Reference) :
    a.before b = false ↔ b.name < a.name ∨ b.name = a.name ∧ b.pos ≤ a.pos := by
  rw [← Bool.not_eq_true, before_eq_true_iff, not_or]
  constructor
  · rintro ⟨hnot, hlevel⟩
    by_cases hless : b.name < a.name
    · exact Or.inl hless
    · have hname : a.name = b.name := List.le_antisymm hless hnot
      exact Or.inr ⟨hname.symm, not_lt.mp fun hpos => hlevel ⟨hname, hpos⟩⟩
  · rintro (hless | ⟨hname, hpos⟩)
    · exact ⟨List.lt_asymm hless, fun hlevel => List.lt_irrefl _ (hlevel.1 ▸ hless)⟩
    · rw [hname]
      exact ⟨List.lt_irrefl _, fun hlevel => hlevel.2.not_ge hpos⟩

theorem Reference.before_weakOrder : Queue.WeakOrder Reference.before where
  asymm a b hab := by
    rw [before_eq_true_iff] at hab
    rw [before_eq_false_iff]
    exact hab.imp id fun h => ⟨h.1, h.2.le⟩
  trans a b c hab hbc := by
    rw [before_eq_false_iff] at hab hbc ⊢
    rcases hab with hab | ⟨hab, hpos⟩
    · rcases hbc with hbc | ⟨hbc, _⟩
      · exact Or.inl (List.lt_trans hab hbc)
      · exact Or.inl (hbc ▸ hab)
    · rw [hab]
      exact hbc.imp id fun h => ⟨h.1, hpos.trans h.2⟩

theorem Reference.drains_order (refs : List Reference) :
    Queue.Drains before refs (Queue.order before refs) :=
  Queue.drains_order before_weakOrder refs

/-- The references with the empty name are taken first. -/
theorem Reference.empty_first {refs taken : List Reference}
    (htaken : Queue.Drains before refs taken) :
    taken.Pairwise fun a b => b.name = [] → a.name = [] := by
  refine htaken.pairwise.imp ?_
  intro a b hbefore hname
  rw [before_eq_false_iff, hname] at hbefore
  rcases hbefore with hless | ⟨hsame, _⟩
  · exact absurd hless (List.not_lt_nil _)
  · exact hsame

/-! ## The walk -/

namespace Resolution

theorem step_eq {scopes : Scopes} {a : Resolution} {r : Reference}
    (hknown : (a.known.next scopes r.name).address = scopes.resolved r.name) :
    step scopes a r =
      match r.resolve scopes a.image with
      | .ok image => { a with known := a.known.next scopes r.name, image }
      | .error e => { a with known := a.known.next scopes r.name }.keep r e := by
  unfold step Reference.resolve
  simp only [hknown]
  cases scopes.resolved r.name with
  | error e => rfl
  | ok address =>
      simp only
      cases a.image.patch r.pos (r.part.bytes address) <;> rfl

theorem keep_reported (a : Resolution) (r : Reference) (e : EncodeError) :
    ∃ report, (a.keep r e).reported = some report ∧
      (a.reported = some report ∨ report = (r, e)) := by
  unfold keep
  cases a.reported with
  | none => exact ⟨_, rfl, Or.inr rfl⟩
  | some report =>
      by_cases hlower : r.pos < report.1.pos
      · exact ⟨(r, e), by simp [hlower], Or.inr rfl⟩
      · exact ⟨report, by simp [hlower], Or.inl rfl⟩

/-- What a walk over `refs` makes of `a`.  Which references are ready is a matter of the image
before the walk. -/
structure Resolves (scopes : Scopes) (refs : List Reference) (a b : Resolution) : Prop where
  limit : b.image.limit = a.image.limit
  size : b.image.size = a.image.size
  unchanged : ∀ i, (∀ r ∈ refs, r.ready scopes a.image = true → ¬r.Covers i) →
    b.image.bytes[i]? = a.image.bytes[i]?
  patched : ∀ r ∈ refs, r.ready scopes a.image = true →
    ∀ address, scopes.resolved r.name = .ok address → ∀ i < a.image.size, r.Covers i →
      b.image.bytes[i]? = (r.part.bytes address)[i - r.pos.toNat]?
  pending : ∀ i, b.image.pending.contains i = true ↔
    a.image.pending.contains i = true ∧
      ∀ r ∈ refs, r.ready scopes a.image = true → ¬r.Covers i
  left : b.left = (refs.filter fun r => !r.ready scopes a.image).reverse ++ a.left
  reported : ∀ r e, b.reported = some (r, e) → a.reported = some (r, e) ∨
    r ∈ refs ∧ r.resolve scopes a.image = .error e
  silent : b.reported = none ↔
    a.reported = none ∧ ∀ r ∈ refs, r.ready scopes a.image = true

theorem Resolves.nil (scopes : Scopes) (a : Resolution) : Resolves scopes [] a a where
  limit := rfl
  size := rfl
  unchanged _ _ := rfl
  patched r hr := absurd hr List.not_mem_nil
  pending i := by simp
  left := rfl
  reported _ _ h := Or.inl h
  silent := by simp

theorem resolves_of_ready {scopes : Scopes} {a : Resolution} {r : Reference}
    (hknown : (a.known.next scopes r.name).address = scopes.resolved r.name)
    (hready : r.ready scopes a.image = true) : Resolves scopes [r] a (step scopes a r) := by
  obtain ⟨⟨address, haddress⟩, hpos, _⟩ := (r.ready_iff scopes a.image).mp hready
  have hcovers : ∀ i, r.Covers i ↔
      r.pos.toNat ≤ i ∧ i < r.pos.toNat + (r.part.bytes address).length := by
    intro i
    rw [Part.length_bytes]
    unfold Reference.Covers
    omega
  rw [step_eq hknown, Reference.resolve_of_ready hready haddress]
  refine
    { limit := rfl
      size := by simp
      unchanged := ?_
      patched := ?_
      pending := ?_
      left := by simp [hready]
      reported := fun q e h => Or.inl h
      silent := by simp [hready] }
  · intro i hfree
    have hnot := hfree r List.mem_cons_self hready
    rw [hcovers] at hnot
    rw [Image.getElem?_patched, if_neg (by omega)]
  · intro q hq _ address' haddress' i hsize hi
    obtain rfl := List.mem_singleton.mp hq
    obtain rfl : address = address' := Except.ok.inj (haddress.symm.trans haddress')
    rw [hcovers] at hi
    rw [Image.getElem?_patched, if_pos (by omega)]
  · intro i
    simp only [Image.contains_patched, ← hcovers, List.mem_singleton, forall_eq, hready,
      true_imp_iff]

theorem resolves_of_not_ready {scopes : Scopes} {a : Resolution} {r : Reference}
    (hknown : (a.known.next scopes r.name).address = scopes.resolved r.name)
    (hready : r.ready scopes a.image = false) : Resolves scopes [r] a (step scopes a r) := by
  obtain ⟨e, hresolve⟩ : ∃ e, r.resolve scopes a.image = .error e := by
    rcases Reference.resolve_of_not_ready hready with ⟨_, _, hfail⟩ | ⟨_, _, _, hfail⟩
    · exact ⟨_, hfail⟩
    · exact ⟨_, hfail⟩
  obtain ⟨report, hreport, hfrom⟩ :=
    keep_reported { a with known := a.known.next scopes r.name } r e
  rw [step_eq hknown, hresolve]
  refine
    { limit := rfl
      size := rfl
      unchanged := fun _ _ => rfl
      patched := ?_
      pending := ?_
      left := by simp [keep, hready]
      reported := ?_
      silent := ?_ }
  · intro q hq hq'
    rw [List.mem_singleton.mp hq, hready] at hq'
    contradiction
  · intro i
    simp [keep, hready]
  · intro q e' hreported
    obtain rfl := Option.some.inj (hreport.symm.trans hreported)
    refine hfrom.imp id fun hnew => ?_
    obtain ⟨rfl, rfl⟩ := Prod.mk.inj hnew
    exact ⟨List.mem_cons_self, hresolve⟩
  · rw [hreport]
    simp [hready]

/-- Walks over references that do not overlap can be put together. -/
theorem Resolves.cons {scopes : Scopes} {r : Reference} {refs : List Reference}
    {a b c : Resolution} (hab : Resolves scopes [r] a b) (hbc : Resolves scopes refs b c)
    (hapart : ∀ q ∈ refs, r.Apart q) : Resolves scopes (r :: refs) a c := by
  have hpending : ∀ i, b.image.pending.contains i = true ↔
      a.image.pending.contains i = true ∧ (r.ready scopes a.image = true → ¬r.Covers i) := by
    intro i
    rw [hab.pending]
    simp
  -- patching `r` does not touch the bytes of the others, so they are as ready as before
  have hcovered : ∀ q ∈ refs, ∀ i, q.Covers i →
      (b.image.pending.contains i = true ↔ a.image.pending.contains i = true) := by
    intro q hq i hi
    rw [hpending]
    exact and_iff_left fun _ hr => hapart q hq i hr hi
  have hready : ∀ q ∈ refs, q.ready scopes b.image = q.ready scopes a.image :=
    fun q hq => Reference.ready_of_covers_eq (hcovered q hq)
  have hfilter : (refs.filter fun q => !q.ready scopes b.image) =
      refs.filter fun q => !q.ready scopes a.image :=
    List.filter_congr fun q hq => by rw [hready q hq]
  refine
    { limit := hbc.limit.trans hab.limit
      size := hbc.size.trans hab.size
      unchanged := ?_
      patched := ?_
      pending := ?_
      left := ?_
      reported := ?_
      silent := ?_ }
  · intro i hfree
    rw [List.forall_mem_cons] at hfree
    have hrest : ∀ q ∈ refs, q.ready scopes b.image = true → ¬q.Covers i := by
      intro q hq hq'
      exact hfree.2 q hq (hready q hq ▸ hq')
    rw [hbc.unchanged i hrest, hab.unchanged i (by simpa using hfree.1)]
  · intro q hq hq' address haddress i hsize hi
    rcases List.mem_cons.mp hq with rfl | hrest
    · rw [hbc.unchanged i fun p hp _ => hapart p hp i hi]
      exact hab.patched q List.mem_cons_self hq' address haddress i hsize hi
    · rw [← hab.size] at hsize
      exact hbc.patched q hrest ((hready q hrest).trans hq') address haddress i hsize hi
  · intro i
    rw [hbc.pending, hpending, List.forall_mem_cons, and_assoc]
    refine and_congr_right fun _ => and_congr_right fun _ => ?_
    exact forall₂_congr fun q hq => by rw [hready q hq]
  · rw [hbc.left, hab.left, hfilter]
    cases hr : r.ready scopes a.image <;> simp [hr]
  · intro q e hreported
    rcases hbc.reported q e hreported with hearlier | ⟨hq, hresolve⟩
    · refine (hab.reported q e hearlier).imp id fun h => ?_
      exact ⟨by rw [List.mem_singleton.mp h.1]; exact List.mem_cons_self, h.2⟩
    · have hearly := Reference.resolve_error_of_covers_eq (hcovered q hq) hresolve
      exact Or.inr ⟨List.mem_cons_of_mem _ hq, hearly⟩
  · rw [hbc.silent, hab.silent, List.forall_mem_singleton, List.forall_mem_cons, and_assoc]
    refine and_congr_right fun _ => and_congr_right fun _ => ?_
    exact forall₂_congr fun q hq => by rw [hready q hq]

theorem foldl_resolves {scopes : Scopes} {refs : List Reference} {a : Resolution}
    (hknown : a.known.Fits scopes refs)
    (hempty : refs.Pairwise fun r q => q.name = [] → r.name = [])
    (hapart : refs.Pairwise Reference.Apart) :
    Resolves scopes refs a (refs.foldl (step scopes) a) := by
  induction refs generalizing a with
  | nil => exact Resolves.nil scopes a
  | cons r rest ih =>
      obtain ⟨haddress, hnext⟩ := hknown.next (List.pairwise_cons.mp hempty).1
      have hstep : Resolves scopes [r] a (step scopes a r) := by
        cases hready : r.ready scopes a.image with
        | true => exact resolves_of_ready haddress hready
        | false => exact resolves_of_not_ready haddress hready
      have hstepKnown : (step scopes a r).known = a.known.next scopes r.name := by
        rw [step_eq haddress]
        cases r.resolve scopes a.image <;> rfl
      refine hstep.cons (ih ?_ (List.pairwise_cons.mp hempty).2
        (List.pairwise_cons.mp hapart).2) (List.pairwise_cons.mp hapart).1
      rwa [hstepKnown]

/-! ## The reference that is reported -/

/-- The reference reported is one of those left, and none of them has a lower position. -/
structure ReportsLowest (a : Resolution) : Prop where
  silent : a.reported = none → a.left = []
  lowest : ∀ r e, a.reported = some (r, e) → r ∈ a.left ∧ ∀ q ∈ a.left, r.pos ≤ q.pos

theorem ReportsLowest.keep {a : Resolution} (h : a.ReportsLowest) (r : Reference)
    (e : EncodeError) : (a.keep r e).ReportsLowest := by
  unfold Resolution.keep
  cases hreported : a.reported with
  | none =>
      have hnone := h.silent hreported
      refine ⟨by simp, ?_⟩
      rintro q e' hq
      obtain ⟨rfl, rfl⟩ := Prod.mk.inj (Option.some.inj hq)
      simp [hnone]
  | some report =>
      obtain ⟨lowest, cause⟩ := report
      obtain ⟨hmem, hlowest⟩ := h.lowest lowest cause hreported
      by_cases hlower : r.pos < lowest.pos
      · refine ⟨by simp [hlower], ?_⟩
        simp only [hlower, if_true, Option.some.injEq, Prod.mk.injEq]
        rintro q e' ⟨rfl, rfl⟩
        refine ⟨List.mem_cons_self, List.forall_mem_cons.mpr ⟨le_rfl, fun p hp => ?_⟩⟩
        exact hlower.le.trans (hlowest p hp)
      · refine ⟨by simp [hlower], ?_⟩
        simp only [hlower, if_false, Option.some.injEq, Prod.mk.injEq]
        rintro q e' ⟨rfl, rfl⟩
        exact ⟨List.mem_cons_of_mem _ hmem,
          List.forall_mem_cons.mpr ⟨not_lt.mp hlower, hlowest⟩⟩

theorem ReportsLowest.step {a : Resolution} (h : a.ReportsLowest) (scopes : Scopes)
    (r : Reference) : (Resolution.step scopes a r).ReportsLowest := by
  -- what is known and the image do not matter
  have hsame : ∀ known image, ({ a with known, image } : Resolution).ReportsLowest :=
    fun _ _ => ⟨h.silent, h.lowest⟩
  unfold Resolution.step
  simp only
  split
  · exact (hsame _ a.image).keep r _
  · split
    · exact hsame _ _
    · exact (hsame _ a.image).keep r _

theorem ReportsLowest.foldl {a : Resolution} (h : a.ReportsLowest) (scopes : Scopes)
    (refs : List Reference) : (refs.foldl (Resolution.step scopes) a).ReportsLowest := by
  induction refs generalizing a with
  | nil => exact h
  | cons r rest ih => exact ih (h.step scopes r)

end Resolution

/-- How a failure to resolve the reference is reported. -/
def Reference.complaint (r : Reference) : EncodeError → EncodeError
  | .scope (.notFound _ _) => .unresolved r.name r.place
  | cause => .inReference r.name r.place cause

theorem Resolution.error?_eq (a : Resolution) :
    a.error? = a.reported.map fun report => report.1.complaint report.2 := by
  unfold error?
  cases a.reported with
  | none => rfl
  | some report =>
      obtain ⟨r, e⟩ := report
      cases e with
      | scope cause => cases cause <;> rfl
      | _ => rfl

/-! ## Resolving the references of an assembly -/

theorem Reference.Apart.symm {a b : Reference} (h : a.Apart b) : b.Apart a :=
  fun i hb ha => h i ha hb

instance : Std.Symm Reference.Apart := ⟨fun _ _ h => h.symm⟩

namespace Encode

/-- Exactly the ready references of `s` have been resolved in `t`. -/
structure Resolved (s t : Assembly) : Prop where
  scopes : t.scopes = s.scopes
  limit : t.image.limit = s.image.limit
  size : t.image.size = s.image.size
  unchanged : ∀ i, (∀ r ∈ s.references, r.ready s.scopes s.image = true → ¬r.Covers i) →
    t.image.bytes[i]? = s.image.bytes[i]?
  patched : ∀ r ∈ s.references, r.ready s.scopes s.image = true →
    ∀ address, s.scopes.resolved r.name = .ok address → ∀ i < s.image.size, r.Covers i →
      t.image.bytes[i]? = (r.part.bytes address)[i - r.pos.toNat]?
  pending : ∀ i, t.image.pending.contains i = true ↔
    s.image.pending.contains i = true ∧
      ∀ r ∈ s.references, r.ready s.scopes s.image = true → ¬r.Covers i
  references : t.references.toList.Perm
    (s.references.toList.filter fun r => !r.ready s.scopes s.image)

section

variable {s : Assembly}

/-- The walk over the references of an assembly. -/
def walk (s : Assembly) : Resolution :=
  (Queue.order Reference.before s.references.toList).foldl
    (Resolution.step s.scopes) { image := s.image }

theorem walk_resolves (hapart : s.references.toList.Pairwise Reference.Apart) :
    Resolution.Resolves s.scopes (Queue.order Reference.before s.references.toList)
      { image := s.image } (walk s) := by
  apply Resolution.foldl_resolves
  · exact KnownName.fits_initial _ _
  · exact Reference.empty_first (Reference.drains_order _)
  · exact (Queue.order_perm s.references.toList).symm.pairwise hapart
      (fun {_ _} h => Reference.Apart.symm h)

theorem resolve_eq (s : Assembly) :
    resolve s =
      match (walk s).error? with
      | none => .ok () { s with
          image := (walk s).image, references := (walk s).left.reverse.toArray }
      | some e => .error e { s with
          image := (walk s).image, references := (walk s).left.reverse.toArray } := rfl

/-- The references come as a queue brings them. -/
theorem exists_drains_resolve (s : Assembly) :
    ∃ taken, Queue.Drains Reference.before s.references.toList taken ∧
      resolve s = resolveInOrder taken s :=
  ⟨_, Reference.drains_order _, rfl⟩

theorem finalState_resolve (s : Assembly) :
    finalState (resolve s) =
      { s with image := (walk s).image, references := (walk s).left.reverse.toArray } := by
  rw [resolve_eq]
  cases (walk s).error? <;> rfl

theorem mem_order_iff {r : Reference} :
    r ∈ Queue.order Reference.before s.references.toList ↔ r ∈ s.references := by
  rw [(Queue.order_perm s.references.toList).mem_iff, Array.mem_toList_iff]

/-- The references that are not ready are left, in the order of the queue. -/
theorem references_resolve (hapart : s.references.toList.Pairwise Reference.Apart) :
    (finalState (resolve s)).references.toList =
      (Queue.order Reference.before s.references.toList).filter
        fun r => !r.ready s.scopes s.image := by
  rw [finalState_resolve]
  simp only [(walk_resolves hapart).left, List.append_nil, List.reverse_reverse]

theorem mem_references_resolve_iff (hapart : s.references.toList.Pairwise Reference.Apart)
    {r : Reference} :
    r ∈ (finalState (resolve s)).references ↔
      r ∈ s.references ∧ r.ready s.scopes s.image = false := by
  rw [← Array.mem_toList_iff, references_resolve hapart, List.mem_filter, mem_order_iff,
    Bool.not_eq_true']

theorem resolved_finalState (hapart : s.references.toList.Pairwise Reference.Apart) :
    Resolved s (finalState (resolve s)) := by
  have hwalk := walk_resolves hapart
  rw [finalState_resolve]
  refine
    { scopes := rfl
      limit := hwalk.limit
      size := hwalk.size
      unchanged := fun i hfree => hwalk.unchanged i fun r hr => hfree r (mem_order_iff.mp hr)
      patched := fun r hr => hwalk.patched r (mem_order_iff.mpr hr)
      pending := ?_
      references := ?_ }
  · intro i
    rw [hwalk.pending]
    simp only [mem_order_iff]
  · rw [← finalState_resolve, references_resolve hapart]
    exact (Queue.order_perm _).filter _

/-- Resolving succeeds if and only if all references are ready. -/
theorem resolve_ok_iff (hapart : s.references.toList.Pairwise Reference.Apart) :
    (∃ t, resolve s = .ok () t) ↔ ∀ r ∈ s.references, r.ready s.scopes s.image = true := by
  have hsilent := (walk_resolves hapart).silent
  simp only [mem_order_iff, true_and] at hsilent
  rw [resolve_eq, ← hsilent, Resolution.error?_eq]
  cases (walk s).reported with
  | none => simp
  | some report => simp

/-- A failure is that of the lowest reference which is left. -/
theorem exists_lowest_of_resolve_error {e : EncodeError} {t : Assembly}
    (hapart : s.references.toList.Pairwise Reference.Apart)
    (hresolve : resolve s = .error e t) :
    ∃ r ∈ s.references, ∃ cause, r.resolve s.scopes s.image = .error cause ∧
      e = r.complaint cause ∧ r ∈ t.references ∧ ∀ q ∈ t.references, r.pos ≤ q.pos := by
  have hfinal := finalState_resolve s
  have hlowest : (walk s).ReportsLowest :=
    Resolution.ReportsLowest.foldl ⟨fun _ => rfl, by simp⟩ _ _
  rw [resolve_eq, Resolution.error?_eq] at hresolve
  cases hreported : (walk s).reported with
  | none => simp [hreported] at hresolve
  | some report =>
      obtain ⟨r, cause⟩ := report
      have hr := ((walk_resolves hapart).reported r cause hreported).resolve_left (by simp)
      obtain ⟨hleft, hlow⟩ := hlowest.lowest r cause hreported
      simp only [hreported, Option.map_some, EStateM.Result.error.injEq] at hresolve
      obtain ⟨rfl, rfl⟩ := hresolve
      refine ⟨r, mem_order_iff.mp hr.1, cause, hr.2, rfl, by simpa using hleft, ?_⟩
      simpa using hlow

/-! ## Resolving when exactly the references' bytes are pending -/

theorem program_tiledBy {body : List Statement} {s : Assembly}
    (hrun : program .refer body {} = .ok () s) : s.image.TiledBy s.references.toList := by
  rw [program_eq_statements refer_keepsScopes] at hrun
  exact (tiledBy_invariant.statements body fun x _ => NameRules.allow_of_trivial x).of_ok
    tiledBy_initial hrun

theorem pending_lt_of_tiledBy (h : s.image.TiledBy s.references.toList) (i : Nat)
    (hi : s.image.pending.contains i = true) : i < s.image.size := by
  obtain ⟨r, hr, hcovers⟩ := (h.pending i).mp hi
  have hinside := h.inside r hr
  unfold Reference.Covers at hcovers
  omega

theorem ready_iff_of_tiledBy (h : s.image.TiledBy s.references.toList) {r : Reference}
    (hr : r ∈ s.references) :
    r.ready s.scopes s.image = true ↔ ∃ address, s.scopes.resolved r.name = .ok address := by
  have hmem := Array.mem_toList_iff.mpr hr
  rw [Reference.ready_iff]
  refine and_iff_left ⟨(h.inside r hmem).1, fun i hi => ?_⟩
  exact (h.pending i).mpr ⟨r, hmem, hi⟩

theorem resolve_ok_iff_of_tiledBy (h : s.image.TiledBy s.references.toList) :
    (∃ t, resolve s = .ok () t) ↔
      ∀ r ∈ s.references, ∃ address, s.scopes.resolved r.name = .ok address := by
  rw [resolve_ok_iff h.apart]
  exact forall₂_congr fun r hr => ready_iff_of_tiledBy h hr

/-- All references of `s` have been resolved in `t`, and nothing else has changed. -/
structure Completes (s t : Assembly) : Prop where
  scopes : t.scopes = s.scopes
  limit : t.image.limit = s.image.limit
  size : t.image.size = s.image.size
  settled : ∀ i, s.image.pending.contains i = false → t.image.bytes[i]? = s.image.bytes[i]?
  waiting : ∀ r ∈ s.references, ∃ address, s.scopes.resolved r.name = .ok address ∧
    ∀ i, r.Covers i → t.image.bytes[i]? = (r.part.bytes address)[i - r.pos.toNat]?
  complete : ∀ i, t.image.pending.contains i = false
  references : t.references = #[]

theorem completes_of_tiledBy (h : s.image.TiledBy s.references.toList) {t : Assembly}
    (hresolve : resolve s = .ok () t) : Completes s t := by
  have hready := (resolve_ok_iff h.apart).mp ⟨t, hresolve⟩
  have hresolved : Resolved s t := by
    have hfinal := resolved_finalState h.apart
    rwa [hresolve] at hfinal
  refine
    { scopes := hresolved.scopes
      limit := hresolved.limit
      size := hresolved.size
      settled := ?_
      waiting := ?_
      complete := ?_
      references := ?_ }
  · intro i hi
    apply hresolved.unchanged
    intro r hr _ hcovers
    rw [(h.pending i).mpr ⟨r, Array.mem_toList_iff.mpr hr, hcovers⟩] at hi
    contradiction
  · intro r hr
    obtain ⟨address, haddress⟩ := (ready_iff_of_tiledBy h hr).mp (hready r hr)
    refine ⟨address, haddress, fun i hi => ?_⟩
    have hsize := pending_lt_of_tiledBy h i
      ((h.pending i).mpr ⟨r, Array.mem_toList_iff.mpr hr, hi⟩)
    exact hresolved.patched r hr (hready r hr) address haddress i hsize hi
  · intro i
    rw [← Bool.not_eq_true, hresolved.pending]
    rintro ⟨hi, hfree⟩
    obtain ⟨r, hr, hcovers⟩ := (h.pending i).mp hi
    rw [Array.mem_toList_iff] at hr
    exact hfree r hr (hready r hr) hcovers
  · have hnone : (s.references.toList.filter fun r => !r.ready s.scopes s.image) = [] := by
      rw [List.filter_eq_nil_iff]
      intro r hr
      simp [hready r (Array.mem_toList_iff.mp hr)]
    have hperm := hresolved.references
    rw [hnone, List.perm_nil] at hperm
    exact Array.toList_eq_nil_iff.mp hperm

end

end Encode

end Gx
