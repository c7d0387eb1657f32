import Gx.Proofs.Resolve
import Gx.Proofs.Uses
import Gx.Proofs.Visits

/-!
# Uses before and behind a label

A name that is bound by one label only has no address up to that label, and the label's address from
there on.  So the uses in front of the label become references and those behind it are emitted at
once.  Once the references are resolved, all of them show the same address; the empty name is the
exception, because references to it are resolved to zero.
-/

namespace Gx

/-- The bytes of the image at the place of the use. -/
def Use.bytesIn (u : Use) (img : Image) : Bytes :=
  (img.bytes.toList.drop u.pos).take u.part.width

theorem Use.bytesIn_eq {u : Use} {img : Image} {address : UInt16}
    (h : ∀ i, u.pos ≤ i → i < u.pos + u.part.width →
      img.bytes[i]? = (u.part.bytes address)[i - u.pos]?) :
    u.bytesIn img = u.part.bytes address := by
  apply List.ext_getElem?
  intro k
  unfold bytesIn
  rw [List.getElem?_take]
  split
  next hk =>
    have hbyte := h (u.pos + k) (by omega) (by omega)
    rw [Nat.add_sub_cancel_left] at hbyte
    rw [List.getElem?_drop, Array.getElem?_toList, hbyte]
  next hk =>
    rw [List.getElem?_eq_none]
    rw [Part.length_bytes]
    omega

/-! ## What binds a name -/

/-- The name is not bound again. -/
def NameRules.keeping (name : Bytes) : NameRules where
  label n := n ≠ name
  define n := n ≠ name

theorem NameRules.allow_keeping {name : Bytes} {x : Statement} (hlabel : name ∉ x.labelNames)
    (hdefined : name ∉ x.definedNames) : (keeping name).Allow x where
  label _ hn := ne_of_mem_of_not_mem hn hlabel
  define _ hn := ne_of_mem_of_not_mem hn hdefined
  use _ _ := trivial

namespace Scopes.Binds

variable {scopes next : Scopes} {name : Bytes} {address : Option UInt16} {sym : Symbol}

theorem push (h : scopes.Binds name address) : scopes.push.Binds name address where
  blocks block hblock := by
    rcases List.mem_cons.mp hblock with rfl | hold
    · rfl
    · exact h.blocks block hold
  outermost := h.outermost

theorem pop (h : scopes.Binds name address) (hpop : scopes.pop = .ok next) :
    next.Binds name address := by
  unfold Scopes.pop at hpop
  split at hpop
  next => contradiction
  next innermost rest hblocks =>
    cases hpop
    refine ⟨fun block hblock => h.blocks block ?_, h.outermost⟩
    rw [hblocks]
    exact List.mem_cons_of_mem _ hblock

theorem bindGlobal (h : scopes.Binds name address) (hbind : scopes.bindGlobal sym = .ok next)
    (hsym : sym.name ≠ name) : next.Binds name address := by
  obtain ⟨outermost, hscope, rfl⟩ := bindGlobal_eq_ok_iff.mp hbind
  refine ⟨h.blocks, ?_⟩
  rw [Scope.find?_bind hscope, if_neg hsym]
  exact h.outermost

theorem bind (h : scopes.Binds name address) (hbind : scopes.bind sym = .ok next)
    (hsym : sym.name ≠ name) : next.Binds name address := by
  rcases bind_eq_ok hbind with ⟨_, hglobal⟩ | ⟨innermost, rest, changed, hblocks, hscope, rfl⟩
  · exact h.bindGlobal hglobal hsym
  · have hold := h.blocks
    rw [hblocks, List.forall_mem_cons] at hold
    refine ⟨?_, h.outermost⟩
    rw [List.forall_mem_cons, Scope.find?_bind hscope, if_neg hsym]
    exact hold

theorem bindGlobal_self (h : scopes.Binds name none) {a : UInt16}
    (hbind : scopes.bindGlobal ⟨name, .address, a⟩ = .ok next) : next.Binds name (some a) := by
  obtain ⟨outermost, hscope, rfl⟩ := bindGlobal_eq_ok_iff.mp hbind
  refine ⟨h.blocks, ?_⟩
  rw [Scope.find?_bind hscope, if_pos rfl]
  rfl

theorem resolved {a : UInt16} (h : scopes.Binds name (some a)) :
    scopes.resolved name = .ok (if name = [] then 0 else a) := by
  unfold Scopes.resolved
  split
  next => rfl
  next =>
    rw [lookupGlobal_of_find? h.outermost (by simp)]
    rfl

end Scopes.Binds

namespace Encode

theorem binds_invariant (name : Bytes) (address : Option UInt16) :
    Invariant (fun s => s.scopes.Binds name address) (fun _ _ => True) .refer
      (.keeping name) := by
  have hsame : ∀ {a : Encode Unit}, (∀ s, (finalState (a s)).scopes = s.scopes) →
      Keeps (fun s => s.scopes.Binds name address) (fun _ _ => True) a :=
    keeps_of_scopes (fun hscopes hs => hscopes ▸ hs) fun _ => trivial
  refine
    { thrown := fun _ _ => trivial
      push := fun data => hsame (scopes_onImage _)
      forward := fun n part _ => hsame (refer_keepsScopes n part)
      label := fun n hn s hs => ?_
      define := fun n kind value hn s hs => ?_
      enter := fun s hs => hs.push
      leave := fun s hs => ?_
      abandon := fun _ => trivial }
  · unfold defineLabel
    cases hbind : s.scopes.bindGlobal ⟨n, .address, UInt16.ofNat s.image.size⟩ with
    | error => trivial
    | ok next => exact hs.bindGlobal hbind hn
  · rw [define_eq]
    cases hbind : s.scopes.bind ⟨n, kind, value⟩ with
    | error => trivial
    | ok next => exact hs.bind hbind hn
  · unfold leaveScope
    cases hpop : s.scopes.pop with
    | error => trivial
    | ok next => exact hs.pop hpop

/-- The label puts its address in force and emits nothing. -/
theorem binds_of_label {name : Bytes} {span : Span} {s t : Assembly}
    (hs : s.scopes.Binds name none) (h : statement .refer (.label span name) s = .ok () t) :
    t.scopes.Binds name (some (UInt16.ofNat s.image.size)) ∧ SameStore s t := by
  rw [statement, located_eq_ok] at h
  have hstore := sameStore_defineLabel name s
  rw [h] at hstore
  refine ⟨?_, hstore⟩
  unfold defineLabel at h
  split at h
  next => contradiction
  next next hbind =>
    cases h
    exact hs.bindGlobal_self hbind

/-! ## Stretches in which a name keeps its binding -/

section

variable {name : Bytes} {address : Option UInt16} {s t : Assembly}
  {vs : List (Statement × Assembly)}

theorem Chain.binds (hchain : Chain .refer s vs t)
    (hallow : ∀ v ∈ vs, (NameRules.keeping name).Allow v.1) (hs : s.scopes.Binds name address) :
    (∀ v ∈ vs, v.2.scopes.Binds name address) ∧ t.scopes.Binds name address :=
  hchain.keeps (binds_invariant name address) hallow hs

theorem Chain.tiledBy (hchain : Chain .refer s vs t)
    (hs : s.image.TiledBy s.references.toList) :
    (∀ v ∈ vs, v.2.image.TiledBy v.2.references.toList) ∧
      t.image.TiledBy t.references.toList :=
  hchain.keeps tiledBy_invariant (fun v _ => NameRules.allow_of_trivial v.1) hs

/-- While the binding of a name does not change, all its uses are placed according to it. -/
theorem Chain.places (hchain : Chain .refer s vs t)
    (hallow : ∀ v ∈ vs, (NameRules.keeping name).Allow v.1) (hs : s.scopes.Binds name address)
    (htiled : s.image.TiledBy s.references.toList) {v : Statement × Assembly} (hv : v ∈ vs)
    {u : Use} (hu : u ∈ v.1.uses v.2) (hname : u.name = name) :
    s.image.size ≤ u.pos ∧ u.pos + u.part.width ≤ t.image.size ∧ u.Placed address t := by
  have hready : Ready name address v.2 :=
    ⟨(hchain.binds hallow hs).1 v hv, pending_lt_of_tiledBy ((hchain.tiledBy htiled).1 v hv)⟩
  obtain ⟨pre, post, rfl⟩ := List.append_of_mem hv
  obtain ⟨next, hpre, hleaf, hrun, hpost⟩ := hchain.splitAt
  have hplaces := placesUses_of_statement hready hleaf hrun
  have hwithin := hplaces.within u hu hname
  have hbefore := hpre.growsTo.image.size
  have hafter := hpost.growsTo.image.size
  exact ⟨by omega, by omega, (hplaces.placed u hu hname).mono hpost.growsTo⟩

end

/-! ## The stretches around a label -/

theorem exists_split_of_count_eq_one {α β : Type} [BEq β] [LawfulBEq β] {f : α → List β} {b : β}
    {xs : List α} (h : (xs.flatMap f).count b = 1) :
    ∃ pre x post, xs = pre ++ x :: post ∧ b ∈ f x ∧ (∀ y ∈ pre, b ∉ f y) ∧
      ∀ y ∈ post, b ∉ f y := by
  have hmem : b ∈ xs.flatMap f := List.count_pos_iff.mp (by omega)
  obtain ⟨x, hx, hb⟩ := List.mem_flatMap.mp hmem
  obtain ⟨pre, post, rfl⟩ := List.append_of_mem hx
  have hone := List.count_pos_iff.mpr hb
  rw [List.flatMap_append, List.flatMap_cons, List.count_append, List.count_append] at h
  refine ⟨pre, x, post, rfl, hb, fun y hy hmem => ?_, fun y hy hmem => ?_⟩
  · have hpre := List.count_pos_iff.mpr (List.mem_flatMap.mpr ⟨y, hy, hmem⟩)
    omega
  · have hpost := List.count_pos_iff.mpr (List.mem_flatMap.mpr ⟨y, hy, hmem⟩)
    omega

/-- A run to `t` that comes to the label of the name in state `start` and goes on in state `next`.
The visits `pre` and `post` in front of the label and behind it do not bind the name. -/
structure AroundLabel (name : Bytes) (pre : List (Statement × Assembly)) (start next : Assembly)
    (post : List (Statement × Assembly)) (t : Assembly) : Prop where
  front : Chain .refer {} pre start
  allowFront : ∀ v ∈ pre, (NameRules.keeping name).Allow v.1
  bound : next.scopes.Binds name (some (UInt16.ofNat start.image.size))
  store : SameStore start next
  behind : Chain .refer next post t
  allowBehind : ∀ v ∈ post, (NameRules.keeping name).Allow v.1

theorem binds_initial (name : Bytes) : ({} : Assembly).scopes.Binds name none :=
  ⟨by simp, rfl⟩

theorem exists_aroundLabel {name : Bytes} {vs : List (Statement × Assembly)} {t : Assembly}
    (hchain : Chain .refer {} vs t)
    (hlabel : (vs.flatMap fun v => v.1.labelNames).count name = 1)
    (hdefined : ∀ v ∈ vs, name ∉ v.1.definedNames) :
    ∃ pre span start next post, vs = pre ++ (.label span name, start) :: post ∧
      AroundLabel name pre start next post t := by
  obtain ⟨pre, ⟨x, start⟩, post, rfl, hx, hpre, hpost⟩ := exists_split_of_count_eq_one hlabel
  obtain ⟨span, rfl⟩ : ∃ span, x = .label span name := by
    cases x with
    | label span n => exact ⟨span, by rw [List.mem_singleton.mp hx]⟩
    | _ => contradiction
  rw [List.forall_mem_append, List.forall_mem_cons] at hdefined
  obtain ⟨next, hfront, _, hrun, hbehind⟩ := hchain.splitAt
  have hallow : ∀ v ∈ pre, (NameRules.keeping name).Allow v.1 :=
    fun v hv => NameRules.allow_keeping (hpre v hv) (hdefined.1 v hv)
  obtain ⟨hbound, hstore⟩ := binds_of_label (hfront.binds hallow (binds_initial name)).2 hrun
  exact ⟨pre, span, start, next, post, rfl, hfront, hallow, hbound, hstore, hbehind,
    fun v hv => NameRules.allow_keeping (hpost v hv) (hdefined.2.2 v hv)⟩

namespace AroundLabel

variable {name : Bytes} {pre post : List (Statement × Assembly)} {start next s t : Assembly}
  {v : Statement × Assembly} {u : Use}

theorem bytesIn_front (h : AroundLabel name pre start next post s) (hcompletes : Completes s t)
    (hv : v ∈ pre) (hu : u ∈ v.1.uses v.2) (hname : u.name = name) :
    u.pos < start.image.size ∧ u.bytesIn t.image =
      u.part.bytes (if name = [] then 0 else UInt16.ofNat start.image.size) := by
  obtain ⟨_, hwithin, hplaced⟩ :=
    h.front.places h.allowFront (binds_initial name) tiledBy_initial hv hu hname
  have hwidth := u.part.width_pos
  refine ⟨by omega, ?_⟩
  -- the reference made in front of the label is still there at the end of the run
  have hgrows := (growsTo_of_sameStore h.store).trans h.behind.growsTo
  obtain ⟨r, hr, hpos, hrname, hpart⟩ := hplaced.mono hgrows
  obtain ⟨address, hresolved, hbytes⟩ := hcompletes.waiting r hr
  rw [hrname, hname, (h.behind.binds h.allowBehind h.bound).2.resolved] at hresolved
  obtain rfl := Except.ok.inj hresolved
  apply Use.bytesIn_eq
  intro i hle hlt
  have hcovers : r.Covers i := by
    unfold Reference.Covers
    rw [hpos, hpart]
    omega
  rw [hbytes i hcovers, hpart, hpos, Int.toNat_natCast]

theorem bytesIn_behind (h : AroundLabel name pre start next post s)
    (hcompletes : Completes s t) (hv : v ∈ post) (hu : u ∈ v.1.uses v.2) (hname : u.name = name) :
    start.image.size ≤ u.pos ∧
      u.bytesIn t.image = u.part.bytes (UInt16.ofNat start.image.size) := by
  have htiled : next.image.TiledBy next.references.toList := by
    rw [h.store.1, h.store.2]
    exact (h.front.tiledBy tiledBy_initial).2
  obtain ⟨hwithin, _, hplaced⟩ := h.behind.places h.allowBehind h.bound htiled hv hu hname
  rw [h.store.1] at hwithin
  refine ⟨hwithin, Use.bytesIn_eq fun i hle hlt => ?_⟩
  obtain ⟨hbytes, hpending⟩ := hplaced i hle hlt
  rw [hcompletes.settled i hpending, hbytes]

end AroundLabel

end Encode

/-! ## The result -/

/-- Let a name be bound by one label only.  Then, in the final image, every use of the name in front
of the label or behind it shows the size of the image at the label, unless the name is empty: then
the uses in front of the label show zero. -/
theorem uses_show_label_address (name : Bytes) {body : List Statement} {s t : Assembly}
    (hrun : Encode.program .refer body {} = .ok () s) (hresolve : Encode.resolve s = .ok () t)
    (hlabel : ((Statement.leavesOf body).flatMap Statement.labelNames).count name = 1)
    (hdefined : ∀ x ∈ Statement.leavesOf body, name ∉ x.definedNames) :
    ∃ span start, (.label span name, start) ∈ Encode.visitsOf .refer body {} ∧
      start.image.size < 2 ^ 16 ∧
      ∀ v ∈ Encode.visitsOf .refer body {}, ∀ u ∈ v.1.uses v.2, u.name = name →
        u.bytesIn t.image = u.part.bytes
          (if name = [] ∧ u.pos < start.image.size then 0
            else UInt16.ofNat start.image.size) := by
  have hcompletes := Encode.completes_of_tiledBy (Encode.program_tiledBy hrun) hresolve
  rw [Encode.program_eq_statements Encode.refer_keepsScopes] at hrun
  have hchain := Encode.chain_of_statements body hrun
  rw [← Encode.map_fst_visitsOf body hrun, List.flatMap_map] at hlabel
  rw [← Encode.map_fst_visitsOf body hrun, List.forall_mem_map] at hdefined
  obtain ⟨pre, span, start, next, post, hvisits, haround⟩ :=
    Encode.exists_aroundLabel hchain hlabel hdefined
  have hvisit : (.label span name, start) ∈ Encode.visitsOf .refer body {} := by simp [hvisits]
  refine ⟨span, start, hvisit, hchain.size_lt hvisit, fun v hv u hu hname => ?_⟩
  rw [hvisits, List.mem_append, List.mem_cons] at hv
  rcases hv with hv | rfl | hv
  · obtain ⟨hfront, hbytes⟩ := haround.bytesIn_front hcompletes hv hu hname
    simpa only [hfront, and_true] using hbytes
  · simp [Statement.uses] at hu
  · obtain ⟨hbehind, hbytes⟩ := haround.bytesIn_behind hcompletes hv hu hname
    rw [if_neg (by omega)]
    exact hbytes

/-- Uses of all kinds in front of a label inside of a block, and one behind it. -/
theorem uses_show_label_address_into_block :
    let x := utf8 "x"
    let h : Operand := .register {} .high
    let body : List Statement :=
      [.instruction {} .ld [.fetch {} h (.name {} x), .name {} x],
        .instruction {} .set [.load {} h (.half {} .lo (.name {} x)), .half {} .hi (.name {} x)],
        .data {} [.half {} .lo (.name {} x), .name {} x], .block {} [.label {} x],
        .words {} [.name {} x]]
    (Encode.visitsOf .refer body {}).flatMap (fun v => v.1.uses v.2) =
      [⟨2, x, .word⟩, ⟨6, x, .word⟩, ⟨10, x, .lo⟩, ⟨13, x, .hi⟩, ⟨14, x, .lo⟩, ⟨15, x, .word⟩,
        ⟨17, x, .word⟩] ∧
    ∃ s t, Encode.program .refer body {} = .ok () s ∧ Encode.resolve s = .ok () t ∧
      t.image.bytes = #[2, 30, 0, 17, 2, 30, 0, 17, 1, 30, 17, 1, 30, 0, 17, 0, 17, 0, 17] ∧
      ∃ span start, (.label span x, start) ∈ Encode.visitsOf .refer body {} ∧
        ∀ v ∈ Encode.visitsOf .refer body {}, ∀ u ∈ v.1.uses v.2, u.name = x →
          u.bytesIn t.image = u.part.bytes (UInt16.ofNat start.image.size) := by
  intro x h body
  have hrun := Encode.eq_ok_of_succeeds (r := Encode.program .refer body {}) (by decide +kernel)
  have hresolve := Encode.eq_ok_of_succeeds
    (r := Encode.resolve (Encode.finalState (Encode.program .refer body {}))) (by decide +kernel)
  obtain ⟨span, start, hvisit, _, hbytes⟩ :=
    uses_show_label_address x hrun hresolve (by decide) (by decide)
  refine ⟨by decide +kernel, _, _, hrun, hresolve, by decide +kernel, span, start, hvisit, ?_⟩
  intro v hv u hu hname
  rw [hbytes v hv u hu hname, if_neg fun h => absurd h.1 (by decide)]

/-- A word in front of the label of the empty name does not show the address of the label, and a
word behind it does. -/
theorem empty_name_in_front_of_label :
    let body : List Statement :=
      [.words {} [.name {} []], .label {} [], .words {} [.name {} []]]
    let s := Encode.finalState (Encode.program .refer body {})
    let t := Encode.finalState (Encode.resolve s)
    Encode.program .refer body {} = .ok () s ∧ Encode.resolve s = .ok () t ∧
      ((Statement.leavesOf body).flatMap Statement.labelNames).count [] = 1 ∧
      (∀ x ∈ Statement.leavesOf body, [] ∉ x.definedNames) ∧
      (Encode.visitsOf .refer body {}).map (fun v => (v.2.image.size, v.1.uses v.2)) =
        [(0, [⟨0, [], .word⟩]), (2, []), (2, [⟨2, [], .word⟩])] ∧
      (⟨0, [], .word⟩ : Use).bytesIn t.image ≠ Part.word.bytes 2 ∧
      (⟨2, [], .word⟩ : Use).bytesIn t.image = Part.word.bytes 2 := by
  intro body s t
  exact ⟨Encode.eq_ok_of_succeeds (by decide), Encode.eq_ok_of_succeeds (by decide +kernel),
    by decide, by decide, by decide, by decide +kernel, by decide +kernel⟩

end Gx
