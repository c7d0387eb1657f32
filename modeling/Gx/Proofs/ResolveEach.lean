import Gx.Proofs.Resolve

/-!
# Resolving each reference by itself

The walk over the references looks a name up only if it is not the one looked up last, and it picks
the reference to report on its way.  `Encode.resolveEach` does neither: each reference is resolved
by itself, and the first of the lowest failures is picked at the end.  The outcome is the same for
all references that there can be, overlapping ones included, and in every order in which a queue can
bring them, because references with the same name come one after the other.

The empty name makes a difference.  It passes for a name that has been looked up already, with the
address zero.  So the walk does as if it were bound to zero, whether it is bound or not.
-/

namespace Gx

/-- The image in which one reference is resolved by a look-up of its own, or what prevents it. -/
def Reference.resolveAfresh (scopes : Scopes) (img : Image) (r : Reference) :
    Except EncodeError Image :=
  match scopes.lookupGlobal r.name [.address] with
  | .error e => .error (.scope e)
  | .ok sym =>
      match img.patch r.pos (r.part.bytes sym.value) with
      | .ok next => .ok next
      | .error e => .error (.image e)

/-- The references that cannot be resolved, with the reasons, and the image in the end. -/
def Image.resolveEach (one : Image → Reference → Except EncodeError Image) (img : Image) :
    List Reference → Image × List (Reference × EncodeError)
  | [] => (img, [])
  | r :: rest =>
      match one img r with
      | .ok next => next.resolveEach one rest
      | .error e =>
          let later := img.resolveEach one rest
          (later.1, (r, e) :: later.2)

/-- Resolves the references in the order in which they are taken, each of them by `one`.  Those that
fail are left, and the first of the lowest ones is reported. -/
def Encode.resolveEach (one : Image → Reference → Except EncodeError Image)
    (taken : List Reference) : Encode Unit :=
  fun s =>
    let r := s.image.resolveEach one taken
    let t := { s with image := r.1, references := (r.2.map Prod.fst).toArray }
    match r.2.minOn? (·.1.pos) with
    | none => .ok () t
    | some (r, cause) => .error (r.complaint cause) t

/-! ## The walk does the same -/

namespace Resolution

/-- The lower of two failures, and the earlier one of those at the same position. -/
def lower : Option (Reference × EncodeError) → Reference × EncodeError →
    Option (Reference × EncodeError)
  | none, failure => some failure
  | some lowest, failure => some (minOn (·.1.pos) lowest failure)

theorem foldl_lower (failures : List (Reference × EncodeError)) :
    failures.foldl lower none = failures.minOn? (·.1.pos) := by
  have hsome : ∀ (rest : List (Reference × EncodeError)) lowest, rest.foldl lower (some lowest) =
      some (rest.foldl (minOn (·.1.pos)) lowest) := by
    intro rest
    induction rest with
    | nil => exact fun _ => rfl
    | cons failure rest ih => exact fun _ => ih _
  cases failures with
  | nil => rfl
  | cons failure rest => exact hsome rest failure

theorem keep_eq (a : Resolution) (r : Reference) (e : EncodeError) :
    a.keep r e = { a with left := r :: a.left, reported := lower a.reported (r, e) } := by
  unfold keep lower minOn
  cases a.reported with
  | none => rfl
  | some report =>
      by_cases hlower : r.pos < report.1.pos
      · simp [hlower]
      · simp [hlower, not_lt.mp hlower]

/-- What the walk finds out is what comes out when each reference is resolved by itself. -/
theorem foldl_step_eq {scopes : Scopes} {refs : List Reference} {a : Resolution} {image : Image}
    {failures : List (Reference × EncodeError)} (hknown : a.known.Fits scopes refs)
    (hempty : refs.Pairwise fun r q => q.name = [] → r.name = [])
    (heach : a.image.resolveEach (fun img r => r.resolve scopes img) refs = (image, failures)) :
    ∃ known, refs.foldl (step scopes) a =
      { image
        known
        left := (failures.map Prod.fst).reverse ++ a.left
        reported := failures.foldl lower a.reported } := by
  induction refs generalizing a failures with
  | nil =>
      obtain ⟨rfl, rfl⟩ := Prod.mk.inj heach
      exact ⟨a.known, rfl⟩
  | cons r rest ih =>
      obtain ⟨haddress, hnext⟩ := hknown.next (List.pairwise_cons.mp hempty).1
      have hrest := (List.pairwise_cons.mp hempty).2
      rw [List.foldl_cons, step_eq haddress]
      rw [Image.resolveEach] at heach
      cases hone : r.resolve scopes a.image with
      | ok next =>
          rw [hone] at heach
          exact ih hnext hrest heach
      | error e =>
          rw [hone] at heach
          obtain ⟨rfl, rfl⟩ := Prod.mk.inj heach
          obtain ⟨known, hwalk⟩ :=
            ih (a := { a with known := a.known.next scopes r.name }.keep r e) hnext hrest rfl
          refine ⟨known, hwalk.trans ?_⟩
          simp [keep_eq]

end Resolution

/-- The walk resolves each reference by itself, with the empty name taken for zero. -/
theorem Encode.resolveInOrder_eq_resolveEach {s : Assembly} {taken : List Reference}
    (htaken : Queue.Drains Reference.before s.references.toList taken) :
    resolveInOrder taken s = resolveEach (fun img r => r.resolve s.scopes img) taken s := by
  cases heach : s.image.resolveEach (fun img r => r.resolve s.scopes img) taken with
  | mk image failures =>
      obtain ⟨known, hwalk⟩ := Resolution.foldl_step_eq (a := { image := s.image })
        (KnownName.fits_initial s.scopes _) (Reference.empty_first htaken) heach
      simp only [resolveInOrder, hwalk, Resolution.error?_eq, Resolution.foldl_lower,
        List.append_nil, List.reverse_reverse, resolveEach, heach]
      cases failures.minOn? (·.1.pos) with
      | none => rfl
      | some failure => rfl

theorem Encode.resolve_eq_resolveEach (s : Assembly) :
    resolve s = resolveEach (fun img r => r.resolve s.scopes img)
      (Queue.order Reference.before s.references.toList) s :=
  resolveInOrder_eq_resolveEach (Reference.drains_order _)

/-! ## Names without an address -/

namespace Reference

variable {scopes : Scopes} {r : Reference}

/-- A look-up of its own makes a difference for the empty name only. -/
theorem resolveAfresh_eq_resolve
    (h : r.name = [] → ∃ sym, scopes.lookupGlobal [] [.address] = .ok sym ∧ sym.value = 0)
    (img : Image) : r.resolveAfresh scopes img = r.resolve scopes img := by
  unfold resolveAfresh resolve Scopes.resolved
  by_cases hname : r.name = []
  · obtain ⟨sym, hsym, hzero⟩ := h hname
    cases hpatch : img.patch r.pos (r.part.bytes 0) with
    | ok next => simp [hname, hsym, hzero, hpatch]
    | error e => simp [hname, hsym, hzero, hpatch]
  · rw [if_neg hname]
    cases scopes.lookupGlobal r.name [.address] <;> rfl

theorem exists_patched_of_resolve {img next : Image} (h : r.resolve scopes img = .ok next) :
    0 ≤ r.pos ∧ ∃ address, next = img.patched r.pos.toNat (r.part.bytes address) := by
  have hready : r.ready scopes img = true := by
    by_contra hnot
    rcases resolve_of_not_ready (Bool.not_eq_true _ ▸ hnot) with ⟨e, _, hfail⟩ | ⟨_, j, _, hfail⟩
    · rw [h] at hfail
      contradiction
    · rw [h] at hfail
      contradiction
  obtain ⟨⟨address, haddress⟩, hpos, _⟩ := (r.ready_iff scopes img).mp hready
  rw [resolve_of_ready hready haddress] at h
  exact ⟨hpos, address, (Except.ok.inj h).symm⟩

/-- Resolving a reference touches no byte but its own. -/
theorem unchanged_of_resolve {img next : Image} (h : r.resolve scopes img = .ok next) {i : Nat}
    (hi : ¬r.Covers i) :
    next.bytes[i]? = img.bytes[i]? ∧ next.pending.contains i = img.pending.contains i := by
  obtain ⟨hpos, address, rfl⟩ := exists_patched_of_resolve h
  have hout : ¬(r.pos.toNat ≤ i ∧ i < r.pos.toNat + (r.part.bytes address).length) := by
    rw [Part.length_bytes]
    unfold Covers at hi
    omega
  constructor
  · rw [Image.getElem?_patched, if_neg (by tauto)]
  · rw [Bool.eq_iff_iff, Image.contains_patched]
    exact and_iff_left hout

theorem resolve_of_unbound (hname : r.name ≠ [])
    (hunbound : ∀ sym, scopes.lookupGlobal r.name [.address] ≠ .ok sym) (img : Image) :
    ∃ e, r.resolve scopes img = .error e := by
  unfold resolve Scopes.resolved
  rw [if_neg hname]
  cases hlookup : scopes.lookupGlobal r.name [.address] with
  | ok sym => exact absurd hlookup (hunbound sym)
  | error e => exact ⟨_, rfl⟩

end Reference

namespace Image

variable {one : Image → Reference → Except EncodeError Image}

/-- A reference that cannot be resolved in any image is left as often as it comes up. -/
theorem count_failures {r : Reference} (hfails : ∀ img, ∃ e, one img r = .error e) (img : Image)
    (refs : List Reference) :
    ((img.resolveEach one refs).2.map Prod.fst).count r = refs.count r := by
  induction refs generalizing img with
  | nil => rfl
  | cons q rest ih =>
      rw [resolveEach]
      cases hone : one img q with
      | ok next =>
          have hne : q ≠ r := by
            rintro rfl
            obtain ⟨e, herror⟩ := hfails img
            rw [hone] at herror
            contradiction
          rw [List.count_cons_of_ne hne]
          exact ih next
      | error e => simp only [List.map_cons, List.count_cons, ih]

/-- What every single reference keeps, all of them keep. -/
theorem keeps_resolveEach {P : Image → Prop} {refs : List Reference}
    (h : ∀ r ∈ refs, ∀ img next, one img r = .ok next → P img → P next) {img : Image}
    (himg : P img) : P (img.resolveEach one refs).1 := by
  induction refs generalizing img with
  | nil => exact himg
  | cons r rest ih =>
      rw [List.forall_mem_cons] at h
      rw [resolveEach]
      cases hone : one img r with
      | ok next => exact ih h.2 (h.1 img next hone himg)
      | error e => exact ih h.2 himg

end Image

namespace Encode

theorem finalState_resolveEach (one : Image → Reference → Except EncodeError Image)
    (taken : List Reference) (s : Assembly) :
    finalState (resolveEach one taken s) =
      { s with
        image := (s.image.resolveEach one taken).1
        references := ((s.image.resolveEach one taken).2.map Prod.fst).toArray } := by
  unfold resolveEach
  simp only
  split <;> rfl

theorem resolveEach_congr {one other : Image → Reference → Except EncodeError Image}
    {taken : List Reference} (h : ∀ r ∈ taken, ∀ img, one img r = other img r) (s : Assembly) :
    resolveEach one taken s = resolveEach other taken s := by
  have himage : ∀ (refs : List Reference), (∀ r ∈ refs, ∀ img, one img r = other img r) →
      ∀ img : Image, img.resolveEach one refs = img.resolveEach other refs := by
    intro refs hrefs
    induction refs with
    | nil => exact fun _ => rfl
    | cons r rest ih =>
        intro img
        rw [List.forall_mem_cons] at hrefs
        simp only [Image.resolveEach, hrefs.1 img, ih hrefs.2]
  unfold resolveEach
  rw [himage taken h]

end Encode

/-- For all references that there can be, and in whatever order a queue brings them, resolving does
what it does when the empty name is taken for zero and each reference is resolved by itself.  So if
no reference is to the empty name, or if that name is bound to zero, resolving gives the image, the
references that are left and the error of a walk which looks up every name.  A reference to another
name without a global address is never patched: it is left, and bytes which only such references
wait for stay as they are. -/
theorem resolve_agrees_with_lookups (s : Assembly) :
    (∃ taken, Queue.Drains Reference.before s.references.toList taken ∧
      Encode.resolve s = Encode.resolveInOrder taken s) ∧
    ∀ taken, Queue.Drains Reference.before s.references.toList taken →
      Encode.resolveInOrder taken s =
        Encode.resolveEach (fun img r => r.resolve s.scopes img) taken s ∧
      ((∀ r ∈ s.references, r.name = [] →
          ∃ sym, s.scopes.lookupGlobal [] [.address] = .ok sym ∧ sym.value = 0) →
        Encode.resolveInOrder taken s =
          Encode.resolveEach (fun img r => r.resolveAfresh s.scopes img) taken s) ∧
      (∀ r, r.name ≠ [] → (∀ sym, s.scopes.lookupGlobal r.name [.address] ≠ .ok sym) →
        (Encode.finalState (Encode.resolveInOrder taken s)).references.toList.count r =
          s.references.toList.count r) ∧
      ∀ i, (∀ r ∈ s.references, r.Covers i → r.name ≠ [] ∧
          ∀ sym, s.scopes.lookupGlobal r.name [.address] ≠ .ok sym) →
        (Encode.finalState (Encode.resolveInOrder taken s)).image.bytes[i]? = s.image.bytes[i]? ∧
        (Encode.finalState (Encode.resolveInOrder taken s)).image.pending.contains i =
          s.image.pending.contains i := by
  refine ⟨Encode.exists_drains_resolve s, fun taken htaken => ?_⟩
  have hsame := Encode.resolveInOrder_eq_resolveEach htaken
  have hmem : ∀ r ∈ taken, r ∈ s.references := fun r hr =>
    Array.mem_toList_iff.mp (htaken.perm.subset hr)
  refine ⟨hsame, ?_, ?_, ?_⟩
  · intro hzero
    rw [hsame]
    apply Encode.resolveEach_congr
    intro r hr img
    exact (Reference.resolveAfresh_eq_resolve (hzero r (hmem r hr)) img).symm
  · intro r hname hunbound
    rw [hsame, Encode.finalState_resolveEach]
    simp only
    rw [Image.count_failures (Reference.resolve_of_unbound hname hunbound)]
    exact htaken.perm.count_eq r
  · intro i hall
    rw [hsame, Encode.finalState_resolveEach]
    refine Image.keeps_resolveEach (P := fun img => img.bytes[i]? = s.image.bytes[i]? ∧
      img.pending.contains i = s.image.pending.contains i) ?_ ⟨rfl, rfl⟩
    rintro r hr img next hone ⟨hbyte, hmark⟩
    have houtside : ¬r.Covers i := by
      intro hcovers
      obtain ⟨hname, hunbound⟩ := hall r (hmem r hr) hcovers
      obtain ⟨e, herror⟩ := Reference.resolve_of_unbound hname hunbound img
      rw [hone] at herror
      contradiction
    obtain ⟨hbyte', hmark'⟩ := Reference.unchanged_of_resolve hone houtside
    exact ⟨hbyte'.trans hbyte, hmark'.trans hmark⟩

/-- Two references overlap, so one of them is left, and a third one is to a name without an
address. -/
theorem resolve_agrees_with_lookups_of_overlapping :
    let x := utf8 "x"
    let unbound : Reference := ⟨3, utf8 "y", [], .lo⟩
    let s : Assembly :=
      { image := ({} : Image).fill 4
        scopes := { outermost := ⟨[⟨x, .address, 0x1234⟩]⟩ }
        references := #[⟨1, x, [], .word⟩, unbound, ⟨0, x, [], .word⟩] }
    let taken := [⟨0, x, [], .word⟩, ⟨1, x, [], .word⟩, unbound]
    Queue.Drains Reference.before s.references.toList taken ∧
      Encode.resolveInOrder taken s =
        Encode.resolveEach (fun img r => r.resolveAfresh s.scopes img) taken s ∧
      (Encode.finalState (Encode.resolveInOrder taken s)).references.toList.count unbound = 1 ∧
      (Encode.finalState (Encode.resolveInOrder taken s)).image.pending.contains 3 = true ∧
      (Encode.finalState (Encode.resolveInOrder taken s)).image.bytes =
        #[0x12, 0x34, 0xFF, 0xFF] := by
  intro x unbound s taken
  have htaken : Queue.Drains Reference.before s.references.toList taken :=
    Queue.Drains.of_perm (by decide) (by decide)
  obtain ⟨_, hafresh, hleft, hbytes⟩ := (resolve_agrees_with_lookups s).2 taken htaken
  have hunbound : ∀ sym, s.scopes.lookupGlobal unbound.name [.address] ≠ .ok sym := by
    intro sym
    have herror : s.scopes.lookupGlobal unbound.name [.address] =
        .error (.notFound unbound.name [.address]) := by decide
    simp [herror]
  have hnames : ∀ r ∈ s.references, r.name ≠ [] := by decide
  refine ⟨htaken, hafresh fun r hr hname => absurd hname (hnames r hr), ?_, ?_,
    by decide +kernel⟩
  · rw [hleft unbound (by decide) hunbound]
    decide
  · refine (hbytes 3 fun r hr hcovers => ?_).2.trans (by decide)
    simp only [s, List.mem_toArray, List.mem_cons, List.not_mem_nil, or_false] at hr
    rcases hr with rfl | rfl | rfl
    · simp [Reference.Covers, Part.width] at hcovers
    · exact ⟨by decide, hunbound⟩
    · simp [Reference.Covers, Part.width] at hcovers

/-- A reference to the empty name is patched with zero although the name is not bound.  A walk that
looks up every name leaves it. -/
theorem empty_name_is_patched_unbound :
    let s := Encode.finalState (Encode.program .refer [.words {} [.name {} []]] {})
    let afresh := Encode.resolveEach (fun img r => r.resolveAfresh s.scopes img)
      (Queue.order Reference.before s.references.toList) s
    s.scopes.lookupGlobal [] [.address] = .error (.notFound [] [.address]) ∧
      Encode.succeeds (Encode.resolve s) = true ∧
      (Encode.finalState (Encode.resolve s)).image.bytes = #[0, 0] ∧
      (Encode.finalState (Encode.resolve s)).references = #[] ∧
      Encode.succeeds afresh = false ∧ (Encode.finalState afresh).image.bytes = #[0xFF, 0xFF] ∧
      (Encode.finalState afresh).references = s.references := by
  decide +kernel

end Gx
