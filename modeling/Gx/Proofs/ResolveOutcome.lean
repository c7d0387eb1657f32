import Gx.Proofs.Resolve

/-!
# What resolving does to any references

References need not come from the encoder.  As long as their names are not empty, their positions
are not negative and no two of them wait for the same byte, the outcome of resolving can be read off
the state before: `Reference.Resolvable` says which references are consumed, and
`Reference.Complaint` what is wrong with one that is left.  Different references have different
positions, so they can be taken from a queue in one order only.  Hence neither the queue nor the
order of the references makes a difference.
-/

namespace Gx

/-- The name is a global address, and all bytes of the reference are pending. -/
def Reference.Resolvable (s : Assembly) (r : Reference) : Prop :=
  (∃ sym, s.scopes.lookupGlobal r.name [.address] = .ok sym) ∧
    ∀ i, r.Covers i → s.image.pending.contains i = true

/-- The error by which a reference that cannot be resolved is reported.  If bytes that are not
pending are to blame, it names the first of them. -/
inductive Reference.Complaint (s : Assembly) (r : Reference) : EncodeError → Prop where
  | unbound (hfind : s.scopes.outermost.find? r.name = none) :
      Complaint s r (.unresolved r.name r.place)
  | otherKind {sym : Symbol} (hfind : s.scopes.outermost.find? r.name = some sym)
      (hkind : sym.kind ≠ .address) :
      Complaint s r
        (.inReference r.name r.place (.scope (.kindMismatch r.name sym.kind [.address])))
  | notPending {sym : Symbol} {i : Nat} (hfind : s.scopes.outermost.find? r.name = some sym)
      (hkind : sym.kind = .address) (hcovers : r.Covers i)
      (hfree : s.image.pending.contains i = false)
      (hfirst : ∀ j < i, r.Covers j → s.image.pending.contains j = true) :
      Complaint s r (.inReference r.name r.place (.image (.noPlaceholder i)))

theorem Scopes.lookupGlobal_eq (scopes : Scopes) (name : Bytes) (wanted : List Kind) :
    scopes.lookupGlobal name wanted =
      match scopes.outermost.find? name with
      | none => .error (.notFound name wanted)
      | some sym =>
          if sym.kind ∈ wanted then .ok sym else .error (.kindMismatch name sym.kind wanted) := by
  unfold lookupGlobal lookupIn
  cases hfind : scopes.outermost.find? name with
  | none => simp [hfind]
  | some sym => simp [hfind]

namespace Reference

variable {s : Assembly} {r : Reference}

theorem ready_iff_resolvable (hname : r.name ≠ []) (hpos : 0 ≤ r.pos) :
    r.ready s.scopes s.image = true ↔ r.Resolvable s := by
  rw [ready_iff, Resolvable]
  simp only [Scopes.resolved_eq_ok_iff hname, hpos, true_and]
  refine and_congr_left fun _ => ?_
  exact ⟨fun ⟨_, sym, hsym, _⟩ => ⟨sym, hsym⟩, fun ⟨sym, hsym⟩ => ⟨_, sym, hsym, rfl⟩⟩

/-- A patch that fails does so at the first byte of the reference that is not pending. -/
theorem exists_first_of_patch_error (hpos : 0 ≤ r.pos) {address : UInt16} {e : ImageError}
    (hpatch : s.image.patch r.pos (r.part.bytes address) = .error e) :
    ∃ i : Nat, r.Covers i ∧ s.image.pending.contains i = false ∧
      (∀ j < i, r.Covers j → s.image.pending.contains j = true) ∧ e = .noPlaceholder i := by
  obtain ⟨k, hk, hfree, hbefore, rfl⟩ := Image.patch_eq_error_iff.mp hpatch
  rw [Part.length_bytes] at hk
  have hat : r.pos + k = ((r.pos.toNat + k : Nat) : Int) := by omega
  rw [hat] at hfree ⊢
  refine ⟨r.pos.toNat + k, ?_, hfree, fun j hj hcovers => ?_, rfl⟩
  · unfold Covers
    omega
  · unfold Covers at hcovers
    have hearlier := hbefore (j - r.pos.toNat) (by omega)
    have hj' : r.pos + (j - r.pos.toNat : Nat) = (j : Int) := by omega
    rwa [hj'] at hearlier

theorem complaint_of_resolve_error (hname : r.name ≠ []) (hpos : 0 ≤ r.pos) {cause : EncodeError}
    (h : r.resolve s.scopes s.image = .error cause) : r.Complaint s (r.complaint cause) := by
  unfold resolve Scopes.resolved at h
  rw [if_neg hname, Scopes.lookupGlobal_eq] at h
  cases hfind : s.scopes.outermost.find? r.name with
  | none =>
      simp only [hfind, Except.map, Except.error.injEq] at h
      obtain rfl := h
      exact .unbound hfind
  | some sym =>
      by_cases hkind : sym.kind = .address
      · simp only [hfind, hkind, List.mem_singleton, if_true, Except.map] at h
        cases hpatch : s.image.patch r.pos (r.part.bytes sym.value) with
        | ok next => simp [hpatch] at h
        | error e =>
            simp only [hpatch, Except.error.injEq] at h
            obtain ⟨i, hcovers, hfree, hfirst, rfl⟩ := exists_first_of_patch_error hpos hpatch
            obtain rfl := h
            exact .notPending hfind hkind hcovers hfree hfirst
      · simp only [hfind, hkind, List.mem_singleton, if_false, Except.map,
          Except.error.injEq] at h
        obtain rfl := h
        exact .otherKind hfind hkind

/-! ## References that do not overlap have one order -/

theorem covers_pos (hpos : 0 ≤ r.pos) : r.Covers r.pos.toNat := by
  have hwidth := r.part.width_pos
  unfold Covers
  omega

theorem nodup_of_apart {refs : List Reference} (hpos : ∀ r ∈ refs, 0 ≤ r.pos)
    (hapart : refs.Pairwise Apart) : refs.Nodup := by
  refine List.Pairwise.imp_of_mem ?_ hapart
  rintro a b ha _ hab rfl
  have hcovers := covers_pos (hpos a ha)
  exact hab _ hcovers hcovers

theorem eq_of_pos_eq {refs : List Reference} (hpos : ∀ r ∈ refs, 0 ≤ r.pos)
    (hapart : refs.Pairwise Apart) {a b : Reference} (ha : a ∈ refs) (hb : b ∈ refs)
    (heq : a.pos = b.pos) : a = b := by
  by_contra hne
  have hcovers := covers_pos (hpos b hb)
  refine hapart.forall ha hb hne b.pos.toNat ?_ hcovers
  rw [← heq]
  exact covers_pos (hpos a ha)

theorem eq_of_perm_of_ordered {refs l m : List Reference} (hpos : ∀ r ∈ refs, 0 ≤ r.pos)
    (hapart : refs.Pairwise Apart) (hsubset : m ⊆ refs) (hperm : l.Perm m)
    (hl : l.Pairwise fun a b => before b a = false)
    (hm : m.Pairwise fun a b => before b a = false) : l = m := by
  refine List.Perm.eq_of_pairwise ?_ hl hm hperm
  intro a b ha hb hba hab
  refine eq_of_pos_eq hpos hapart (hsubset (hperm.subset ha)) (hsubset hb) ?_
  -- neither comes before the other, so name and position are the same
  rw [before_eq_false_iff] at hab hba
  rcases hab with hless | ⟨hname, hle⟩
  · rcases hba with hless' | ⟨hname, _⟩
    · exact absurd hless' (List.lt_asymm hless)
    · rw [hname] at hless
      exact absurd hless (List.lt_irrefl _)
  · rcases hba with hless | ⟨_, hle'⟩
    · rw [hname] at hless
      exact absurd hless (List.lt_irrefl _)
    · exact le_antisymm hle' hle

theorem eq_order_of_drains {refs other taken : List Reference} (hpos : ∀ r ∈ refs, 0 ≤ r.pos)
    (hapart : refs.Pairwise Apart) (hperm : other.Perm refs)
    (htaken : Queue.Drains before other taken) : taken = Queue.order before refs := by
  have horder : (Queue.order before refs).Perm refs := Queue.order_perm refs
  exact eq_of_perm_of_ordered hpos hapart horder.subset
    ((htaken.perm.trans hperm).trans horder.symm) htaken.pairwise
    (Queue.order_pairwise before_weakOrder refs)

end Reference

namespace Encode

variable {s : Assembly}

theorem resolveInOrder_eq_resolve (hpos : ∀ r ∈ s.references, 0 ≤ r.pos)
    (hapart : s.references.toList.Pairwise Reference.Apart) {refs : Array Reference}
    {taken : List Reference} (hperm : refs.toList.Perm s.references.toList)
    (htaken : Queue.Drains Reference.before refs.toList taken) :
    resolveInOrder taken { s with references := refs } = resolve s := by
  have hpos' : ∀ r ∈ s.references.toList, 0 ≤ r.pos :=
    fun r hr => hpos r (Array.mem_toList_iff.mp hr)
  rw [Reference.eq_order_of_drains hpos' hapart hperm htaken]
  rfl

theorem resolve_ok_iff_references (hapart : s.references.toList.Pairwise Reference.Apart) :
    (∃ t, resolve s = .ok () t) ↔ (finalState (resolve s)).references = #[] := by
  have hleft := (resolved_finalState hapart).references
  rw [resolve_ok_iff hapart, ← Array.toList_eq_nil_iff, ← List.perm_nil, hleft.congr_left,
    List.perm_nil, List.filter_eq_nil_iff]
  simp

end Encode

/-- Resolving consumes the references whose name is a global address and whose bytes are all
pending, and no other.  The bytes of a consumed reference hold their part of the address and are not
pending any more; all other bytes and marks, and the scopes, are as before.  The references left are
there once each.  There is an error if and only if there are any, and it is that of the lowest one.
Whatever the order of the references, and whatever queue brings the least one of them each time, the
outcome is the same. -/
theorem resolve_consumes_the_resolvable {s t : Assembly}
    (hnames : ∀ r ∈ s.references, r.name ≠ []) (hpos : ∀ r ∈ s.references, 0 ≤ r.pos)
    (hapart : s.references.toList.Pairwise Reference.Apart)
    (hfinal : Encode.finalState (Encode.resolve s) = t) :
    (∀ r ∈ s.references, r ∉ t.references ↔ r.Resolvable s) ∧
    (∀ r ∈ t.references, r ∈ s.references ∧ t.references.toList.count r = 1) ∧
    (∀ r ∈ s.references, r.Resolvable s → ∀ i, r.Covers i →
      t.image.pending.contains i = false ∧
      ∀ sym, s.scopes.lookupGlobal r.name [.address] = .ok sym → i < s.image.size →
        t.image.bytes[i]? = (r.part.bytes sym.value)[i - r.pos.toNat]?) ∧
    (∀ i, (∀ r ∈ s.references, r.Resolvable s → ¬r.Covers i) →
      t.image.bytes[i]? = s.image.bytes[i]? ∧
      t.image.pending.contains i = s.image.pending.contains i) ∧
    t.image.size = s.image.size ∧ t.image.limit = s.image.limit ∧
    t = { s with image := t.image, references := t.references } ∧
    ((∃ u, Encode.resolve s = .ok () u) ↔ t.references = #[]) ∧
    (∀ e u, Encode.resolve s = .error e u →
      ∃ r ∈ t.references, (∀ q ∈ t.references, q ≠ r → r.pos < q.pos) ∧ r.Complaint s e) ∧
    ∀ (refs : Array Reference) (taken : List Reference),
      refs.toList.Perm s.references.toList → Queue.Drains Reference.before refs.toList taken →
      Encode.resolveInOrder taken { s with references := refs } = Encode.resolve s := by
  have hresolved := Encode.resolved_finalState hapart
  have hready : ∀ r ∈ s.references, r.ready s.scopes s.image = true ↔ r.Resolvable s :=
    fun r hr => Reference.ready_iff_resolvable (hnames r hr) (hpos r hr)
  have hpos' : ∀ r ∈ s.references.toList, 0 ≤ r.pos :=
    fun r hr => hpos r (Array.mem_toList_iff.mp hr)
  have hsilent := Encode.resolve_ok_iff_references hapart
  have hshape := Encode.finalState_resolve s
  rw [hfinal] at hresolved hsilent hshape
  have hleft : ∀ r, r ∈ t.references ↔
      r ∈ s.references ∧ r.ready s.scopes s.image = false := by
    intro r
    rw [← Array.mem_toList_iff, hresolved.references.mem_iff, List.mem_filter,
      Array.mem_toList_iff, Bool.not_eq_true']
  refine ⟨?_, ?_, ?_, ?_, hresolved.size, hresolved.limit, ?_, hsilent, ?_,
    fun refs taken => Encode.resolveInOrder_eq_resolve hpos hapart⟩
  · intro r hr
    rw [hleft, ← hready r hr]
    simp [hr]
  · intro r hr
    have hnodup : t.references.toList.Nodup :=
      hresolved.references.nodup_iff.mpr ((Reference.nodup_of_apart hpos' hapart).filter _)
    exact ⟨((hleft r).mp hr).1,
      List.count_eq_one_of_mem hnodup (Array.mem_toList_iff.mpr hr)⟩
  · intro r hr hresolvable i hi
    have hrready := (hready r hr).mpr hresolvable
    refine ⟨?_, fun sym hsym hsize => ?_⟩
    · rw [← Bool.not_eq_true, hresolved.pending]
      rintro ⟨_, hfree⟩
      exact hfree r hr hrready hi
    · have haddress := (Scopes.resolved_eq_ok_iff (hnames r hr)).mpr ⟨sym, hsym, rfl⟩
      exact hresolved.patched r hr hrready sym.value haddress i hsize hi
  · intro i hfree
    have hfree' : ∀ r ∈ s.references, r.ready s.scopes s.image = true → ¬r.Covers i :=
      fun r hr hrready => hfree r hr ((hready r hr).mp hrready)
    refine ⟨hresolved.unchanged i hfree', ?_⟩
    rw [Bool.eq_iff_iff, hresolved.pending]
    exact and_iff_left hfree'
  · rw [hshape]
  · intro e u herror
    obtain ⟨r, hr, cause, hcause, rfl, hmem, hlowest⟩ :=
      Encode.exists_lowest_of_resolve_error hapart herror
    obtain rfl : u = t := by
      rw [herror] at hfinal
      exact hfinal
    refine ⟨r, hmem, fun q hq hne => lt_of_le_of_ne (hlowest q hq) fun heq => hne ?_,
      Reference.complaint_of_resolve_error (hnames r hr) (hpos r hr) hcause⟩
    have hqs := ((hleft q).mp hq).1
    exact (Reference.eq_of_pos_eq hpos' hapart (Array.mem_toList_iff.mpr hr)
      (Array.mem_toList_iff.mpr hqs) heq).symm

/-- One reference is resolved.  Two are left, because of a name that is not bound and of a byte that
is not pending; the first of them lies lower. -/
theorem resolve_consumes_the_resolvable_of_three :
    let x := utf8 "x"
    let low : Reference := ⟨2, utf8 "y", utf8 "here", .lo⟩
    let high : Reference := ⟨3, x, [], .hi⟩
    let whole : Reference := ⟨0, x, [], .word⟩
    let s : Assembly :=
      { image :=
          { bytes := #[0xFF, 0xFF, 0xFF, 7]
            pending := (({} : Bitmap).insert 0).insert 1 |>.insert 2 }
        scopes := { outermost := ⟨[⟨x, .address, 0x1234⟩]⟩ }
        references := #[high, low, whole] }
    (∀ r ∈ s.references, r.name ≠ []) ∧ (∀ r ∈ s.references, 0 ≤ r.pos) ∧
    s.references.toList.Pairwise Reference.Apart ∧
    ∃ t, Encode.finalState (Encode.resolve s) = t ∧ t.references = #[high, low] ∧
      t.image.bytes = #[0x12, 0x34, 0xFF, 7] ∧
      whole.Resolvable s ∧ ¬low.Resolvable s ∧ ¬high.Resolvable s ∧
      (∀ e u, Encode.resolve s = .error e u → low.Complaint s e) ∧
      Encode.resolve { s with references := #[whole, high, low] } = Encode.resolve s := by
  intro x low high whole s
  have hnames : ∀ r ∈ s.references, r.name ≠ [] := by decide
  have hpos : ∀ r ∈ s.references, 0 ≤ r.pos := by decide
  have hapart : s.references.toList.Pairwise Reference.Apart := by
    simp only [s, low, high, whole, List.pairwise_cons, List.mem_cons, List.not_mem_nil, or_false,
      forall_eq_or_imp, forall_eq, Reference.Apart, Reference.Covers, Part.width, false_imp_iff,
      implies_true, List.Pairwise.nil, and_true]
    grind
  obtain ⟨t, hfinal⟩ : ∃ t, Encode.finalState (Encode.resolve s) = t := ⟨_, rfl⟩
  have hrun : (Encode.finalState (Encode.resolve s)).references = #[high, low] ∧
      (Encode.finalState (Encode.resolve s)).image.bytes = #[0x12, 0x34, 0xFF, 7] := by
    decide +kernel
  rw [hfinal] at hrun
  obtain ⟨hleft, hbytes⟩ := hrun
  obtain ⟨hconsumed, _, _, _, _, _, _, _, herror, horder⟩ :=
    resolve_consumes_the_resolvable hnames hpos hapart hfinal
  rw [hleft] at hconsumed herror
  refine ⟨hnames, hpos, hapart, t, hfinal, hleft, hbytes, ?_, ?_, ?_, ?_, ?_⟩
  · exact (hconsumed whole (by simp [s])).mp (by simp [whole, low, high])
  · exact fun h => (hconsumed low (by simp [s])).mpr h (by simp)
  · exact fun h => (hconsumed high (by simp [s])).mpr h (by simp)
  · intro e u hresolve
    obtain ⟨r, hr, hlowest, hcomplaint⟩ := herror e u hresolve
    simp only [List.mem_toArray, List.mem_cons, List.not_mem_nil, or_false] at hr
    rcases hr with rfl | rfl
    · exact absurd (hlowest low (by simp) (by simp [low, high])) (by simp [low, high])
    · exact hcomplaint
  · exact horder #[whole, high, low] _ (by decide) (Reference.drains_order _)

end Gx
