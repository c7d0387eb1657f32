import Gx.Proofs.ResolveEach
import Gx.Proofs.ResolveOutcome
import Gx.Proofs.Sessions

/-!
# Resolving early

Encoding reads neither the bytes in front of it nor the references made so far.  So a program that
goes on behind resolved references appends the same bytes and makes the same references as one that
goes on behind pending ones: `GrowsAlike`.  What the early walk has patched, the late one patches
with the same address, and what it has left is still there.  Hence resolving at the end gives the
same state and the same error, with or without resolving before.
-/

namespace Gx

attribute [ext] Image Assembly

namespace Encode

/-- The state `a` has grown from `e` as `b` has grown from `s`. -/
structure GrowsAlike (e s a b : Assembly) : Prop where
  scopes : a.scopes = b.scopes
  marker : a.marker = b.marker
  failed : a.failed = b.failed
  limit : a.image.limit = b.image.limit
  size : a.image.size = b.image.size
  words : a.image.pending.words.size = b.image.pending.words.size
  bytes : ∃ more : Array UInt8, a.image.bytes = e.image.bytes ++ more ∧
    b.image.bytes = s.image.bytes ++ more
  references : ∃ more : Array Reference, a.references = e.references ++ more ∧
    b.references = s.references ++ more

/-- The comparison of two runs that start in front of `e` and `s`. -/
def alike (e s : Assembly) : Comparison where
  held := GrowsAlike e s
  failed _ _ _ _ := True

/-! ## Encoding behind different bytes -/

section

variable {e s a b : Assembly}

theorem GrowsAlike.push (h : GrowsAlike e s a b) (data : Bytes) :
    GrowsAlike e s { a with image := { a.image with bytes := a.image.bytes ++ data } }
      { b with image := { b.image with bytes := b.image.bytes ++ data } } where
  scopes := h.scopes
  marker := h.marker
  failed := h.failed
  limit := h.limit
  size := by rw [Image.size_push_bytes, Image.size_push_bytes, h.size]
  words := h.words
  bytes := by
    obtain ⟨more, ha, hb⟩ := h.bytes
    refine ⟨more ++ data, Array.ext' ?_, Array.ext' ?_⟩
    · simp [ha]
    · simp [hb]
  references := h.references

theorem GrowsAlike.referenceAt_eq (h : GrowsAlike e s a b) (name : Bytes) (part : Part) :
    referenceAt a name part = referenceAt b name part := by
  unfold referenceAt Assembly.place
  rw [h.size, h.marker]

theorem GrowsAlike.refer (h : GrowsAlike e s a b) (name : Bytes) (part : Part) :
    GrowsAlike e s
      { a with
        image := a.image.fill part.width
        references := a.references.push (referenceAt a name part) }
      { b with
        image := b.image.fill part.width
        references := b.references.push (referenceAt b name part) } where
  scopes := h.scopes
  marker := h.marker
  failed := h.failed
  limit := h.limit
  size := by rw [Image.size_fill, Image.size_fill, h.size]
  words := by
    simp only [Image.fill]
    rw [h.size]
    exact Bitmap.size_words_insert_run h.words _
  bytes := by
    obtain ⟨more, ha, hb⟩ := h.bytes
    exact ⟨more ++ Array.replicate part.width Image.placeholder, by simp [Image.fill, ha],
      by simp [Image.fill, hb]⟩
  references := by
    obtain ⟨more, ha, hb⟩ := h.references
    refine ⟨more.push (referenceAt b name part), ?_, ?_⟩
    · rw [h.referenceAt_eq, ha, Array.append_push]
    · rw [hb, Array.append_push]

theorem alike_push (data : Bytes) : (alike e s).Simulates (push data) (push data) := by
  refine ⟨?_, fun hlost => hlost.elim⟩
  intro a b hheld
  by_cases hfits : ((b.image.size + data.length : Nat) : Int) ≤ b.image.limit
  · rw [push_of_fits hfits, push_of_fits (by rwa [hheld.size, hheld.limit])]
    exact Or.inr ⟨rfl, hheld.push data⟩
  · rw [push_of_not_fits hfits, push_of_not_fits (by rwa [hheld.size, hheld.limit])]
    exact Or.inr trivial

theorem alike_refer (name : Bytes) (part : Part) :
    (alike e s).Simulates (Forward.refer name part) (Forward.refer name part) := by
  refine ⟨?_, fun hlost => hlost.elim⟩
  intro a b hheld
  by_cases hfits : ((b.image.size + part.width : Nat) : Int) ≤ b.image.limit
  · rw [refer_of_fits name hfits, refer_of_fits name (by rwa [hheld.size, hheld.limit])]
    exact Or.inr ⟨rfl, hheld.refer name part⟩
  · obtain ⟨_, _, hfailed⟩ := refer_of_not_fits name hfits
    obtain ⟨_, _, hfailed'⟩ :=
      refer_of_not_fits (s := a) name (by rwa [hheld.size, hheld.limit])
    rw [hfailed, hfailed']
    exact Or.inr trivial

theorem alike_onScopes (change : Scopes → Except ScopeError Scopes) :
    (alike e s).Simulates (onScopes change) (onScopes change) := by
  refine ⟨?_, fun hlost => hlost.elim⟩
  intro a b hheld
  unfold onScopes
  rw [hheld.scopes]
  cases change b.scopes with
  | ok next => exact Or.inr ⟨rfl, { hheld with scopes := rfl }⟩
  | error e => exact Or.inr trivial

theorem alike_defineLabel (name : Bytes) :
    (alike e s).Simulates (defineLabel name) (defineLabel name) := by
  refine ⟨?_, fun hlost => hlost.elim⟩
  intro a b hheld
  unfold defineLabel
  rw [hheld.scopes, hheld.size]
  cases b.scopes.bindGlobal ⟨name, .address, UInt16.ofNat b.image.size⟩ with
  | ok next => exact Or.inr ⟨rfl, { hheld with scopes := rfl, marker := rfl }⟩
  | error e => exact Or.inr trivial

theorem alike_leaveScope : (alike e s).Simulates leaveScope leaveScope := by
  refine ⟨?_, fun hlost => hlost.elim⟩
  intro a b hheld
  unfold leaveScope
  rw [hheld.scopes, hheld.failed]
  cases b.scopes.pop with
  | ok next => exact Or.inr ⟨rfl, { hheld with scopes := rfl, failed := rfl }⟩
  | error e => exact Or.inr trivial

theorem alike_lockstep (e s : Assembly) : (alike e s).Lockstep .refer .refer {} where
  emitting :=
    { scopes := fun hheld => hheld.scopes
      thrown := fun _ _ => trivial
      push := alike_push
      forward := fun name part _ => alike_refer name part }
  label name _ := alike_defineLabel name
  define _ _ _ _ := alike_onScopes _
  enter := alike_onScopes _
  leave := alike_leaveScope
  abandon _ := trivial
  abandonLost hlost := hlost.elim

/-- A program that succeeds behind `b` succeeds behind `a`, and adds the same. -/
theorem GrowsAlike.exists_program (h : GrowsAlike e s a b) {body : List Statement} {t : Assembly}
    (hrun : program .refer body b = .ok () t) :
    ∃ u, program .refer body a = .ok () u ∧ GrowsAlike e s u t := by
  rw [program_eq_statements refer_keepsScopes] at hrun ⊢
  have hout := ((alike_lockstep e s).statements body fun x _ => NameRules.allow_of_trivial x).run h
  rw [hrun] at hout
  cases hfirst : statements .refer body a with
  | ok _ u =>
      rw [hfirst] at hout
      exact ⟨u, rfl, (hout.resolve_left id).2⟩
  | error _ _ =>
      rw [hfirst] at hout
      exact hout.elim

/-- A byte lies in what `e` and `s` had, or in what has been added to both. -/
theorem GrowsAlike.getElem?_cases (h : GrowsAlike e s a b) (hsize : e.image.size = s.image.size)
    (i : Nat) :
    (a.image.bytes[i]? = e.image.bytes[i]? ∧ b.image.bytes[i]? = s.image.bytes[i]?) ∨
      s.image.size ≤ i ∧ a.image.bytes[i]? = b.image.bytes[i]? := by
  obtain ⟨more, ha, hb⟩ := h.bytes
  unfold Image.size at hsize ⊢
  rw [ha, hb]
  by_cases hi : i < s.image.bytes.size
  · left
    rw [Array.getElem?_append_left (hsize ▸ hi), Array.getElem?_append_left hi]
    exact ⟨rfl, rfl⟩
  · right
    rw [Array.getElem?_append_right (by omega), Array.getElem?_append_right (by omega), hsize]
    exact ⟨by omega, rfl⟩

end

/-! ## Two walks with the same outcome -/

section

variable {s t : Assembly}

theorem size_words_resolve (s : Assembly) :
    (finalState (resolve s)).image.pending.words.size = s.image.pending.words.size := by
  rw [resolve_eq_resolveEach, finalState_resolveEach]
  refine Image.keeps_resolveEach
    (P := fun img => img.pending.words.size = s.image.pending.words.size) ?_ rfl
  intro r _ img next hone himg
  obtain ⟨_, address, rfl⟩ := Reference.exists_patched_of_resolve hone
  exact (Bitmap.size_words_erase_run _ _).trans himg

theorem tiledBy_program (h : s.image.TiledBy s.references.toList) {body : List Statement}
    (hrun : program .refer body s = .ok () t) : t.image.TiledBy t.references.toList := by
  rw [program_eq_statements refer_keepsScopes] at hrun
  exact (tiledBy_invariant.statements body fun x _ => NameRules.allow_of_trivial x).of_ok h hrun

theorem growsAlike_resolve (h : s.image.TiledBy s.references.toList) :
    GrowsAlike (finalState (resolve s)) s (finalState (resolve s)) s := by
  have hresolved := resolved_finalState h.apart
  have hshape := finalState_resolve s
  refine
    { scopes := hresolved.scopes
      marker := by rw [hshape]
      failed := by rw [hshape]
      limit := hresolved.limit
      size := hresolved.size
      words := size_words_resolve s
      bytes := ⟨#[], by simp, by simp⟩
      references := ⟨#[], by simp, by simp⟩ }

theorem ordered_references_resolve (h : s.image.TiledBy s.references.toList) :
    (finalState (resolve s)).references.toList.Pairwise fun a b => b.before a = false := by
  rw [references_resolve h.apart]
  exact (Queue.order_pairwise Reference.before_weakOrder _).filter _

theorem nodup_references_resolve (h : s.image.TiledBy s.references.toList) :
    (finalState (resolve s)).references.toList.Nodup := by
  rw [(resolved_finalState h.apart).references.nodup_iff]
  exact (Reference.nodup_of_apart (fun r hr => (h.inside r hr).1) h.apart).filter _

/-- Where the pending bytes are those of the references, only a name can be to blame. -/
theorem cause_of_tiledBy (h : s.image.TiledBy s.references.toList) {r : Reference}
    (hr : r ∈ s.references) {cause : EncodeError}
    (hcause : r.resolve s.scopes s.image = .error cause) :
    ∃ e, s.scopes.resolved r.name = .error e ∧ cause = .scope e := by
  have hready := Reference.ready_of_resolve_error hcause
  cases hname : s.scopes.resolved r.name with
  | ok address =>
      rw [(ready_iff_of_tiledBy h hr).mpr ⟨address, hname⟩] at hready
      contradiction
  | error e =>
      unfold Reference.resolve at hcause
      rw [hname] at hcause
      exact ⟨e, rfl, (Except.error.inj hcause).symm⟩

/-- The references that are left decide about success and about the error. -/
theorem resolve_eq_of_finalState_eq (hs : s.image.TiledBy s.references.toList)
    (ht : t.image.TiledBy t.references.toList)
    (hfinal : finalState (resolve s) = finalState (resolve t)) : resolve s = resolve t := by
  have hscopes : s.scopes = t.scopes := by
    rw [← (resolved_finalState hs.apart).scopes, ← (resolved_finalState ht.apart).scopes, hfinal]
  have hmem : ∀ p ∈ (finalState (resolve s)).references, p ∈ s.references.toList := fun p hp =>
    Array.mem_toList_iff.mpr ((mem_references_resolve_iff hs.apart).mp hp).1
  have hok := resolve_ok_iff_references hs.apart
  have hok' := resolve_ok_iff_references ht.apart
  rw [← hfinal, ← hok] at hok'
  cases hsrun : resolve s with
  | ok _ u =>
      obtain ⟨v, hv⟩ := hok'.mpr ⟨u, hsrun⟩
      rw [hsrun, hv] at hfinal
      rw [hv]
      exact congrArg _ hfinal
  | error e u =>
      cases htrun : resolve t with
      | ok _ v =>
          obtain ⟨_, hv⟩ := hok'.mp ⟨v, htrun⟩
          rw [hsrun] at hv
          contradiction
      | error e' v =>
          rw [hsrun] at hmem hfinal
          rw [htrun] at hfinal
          obtain rfl : u = v := hfinal
          obtain ⟨r, hr, cause, hcause, rfl, hru, hlow⟩ :=
            exists_lowest_of_resolve_error hs.apart hsrun
          obtain ⟨q, hq, cause', hcause', rfl, hqu, hlow'⟩ :=
            exists_lowest_of_resolve_error ht.apart htrun
          obtain ⟨e, hname, rfl⟩ := cause_of_tiledBy hs hr hcause
          obtain ⟨e', hname', rfl⟩ := cause_of_tiledBy ht hq hcause'
          -- both are the lowest of the same references
          obtain rfl : r = q :=
            Reference.eq_of_pos_eq (fun p hp => (hs.inside p hp).1) hs.apart (hmem r hru)
              (hmem q hqu) (le_antisymm (hlow q hqu) (hlow' r hru))
          rw [hscopes, hname'] at hname
          obtain rfl := Except.error.inj hname
          rfl

end

/-! ## The early walk and the late one -/

/-- The state `t` has grown from `s`, and `u` has grown alike after an early walk.  The names that
this walk has resolved still have their addresses. -/
structure Resumes (s t u : Assembly) : Prop where
  early : s.image.TiledBy s.references.toList
  plain : t.image.TiledBy t.references.toList
  resumed : u.image.TiledBy u.references.toList
  alike : GrowsAlike (finalState (resolve s)) s u t
  same : ∀ r ∈ s.references, r.ready s.scopes s.image = true →
    t.scopes.resolved r.name = s.scopes.resolved r.name

namespace Resumes

variable {s t u : Assembly} (h : Resumes s t u)

include h

theorem mem_of_mem_early {r : Reference} (hr : r ∈ s.references) : r ∈ t.references := by
  obtain ⟨more, _, hmore⟩ := h.alike.references
  rw [hmore]
  exact Array.mem_append_left more hr

/-- The late walk meets the references that the early one has left, and the new ones. -/
theorem mem_references_iff {r : Reference} :
    r ∈ u.references ↔
      r ∈ t.references ∧ ¬(r ∈ s.references ∧ r.ready s.scopes s.image = true) := by
  have hearly := mem_references_resolve_iff (r := r) h.early.apart
  obtain ⟨more, hleft, hall⟩ := h.alike.references
  have hnodup : (s.references.toList ++ more.toList).Nodup := by
    rw [← Array.toList_append, ← hall]
    exact Reference.nodup_of_apart (fun q hq => (h.plain.inside q hq).1) h.plain.apart
  have hnew : r ∈ more → r ∉ s.references := fun hr hold =>
    (List.nodup_append.mp hnodup).2.2 r (Array.mem_toList_iff.mpr hold) r
      (Array.mem_toList_iff.mpr hr) rfl
  rw [hleft, hall, Array.mem_append, Array.mem_append, hearly, ← Bool.not_eq_true]
  tauto

theorem ready_eq {r : Reference} (hr : r ∈ u.references) :
    r.ready u.scopes u.image = r.ready t.scopes t.image := by
  have hr' := (h.mem_references_iff.mp hr).1
  rw [Bool.eq_iff_iff, ready_iff_of_tiledBy h.resumed hr, ready_iff_of_tiledBy h.plain hr',
    h.alike.scopes]

/-- What the early walk has patched, the late one would patch. -/
theorem ready_of_early {r : Reference} (hr : r ∈ s.references)
    (hready : r.ready s.scopes s.image = true) : r.ready t.scopes t.image = true := by
  obtain ⟨address, haddress⟩ := (ready_iff_of_tiledBy h.early hr).mp hready
  rw [ready_iff_of_tiledBy h.plain (h.mem_of_mem_early hr), h.same r hr hready]
  exact ⟨address, haddress⟩

theorem mem_references_resolve_iff {r : Reference} :
    r ∈ (finalState (resolve u)).references ↔ r ∈ (finalState (resolve t)).references := by
  rw [Encode.mem_references_resolve_iff h.resumed.apart,
    Encode.mem_references_resolve_iff h.plain.apart]
  constructor
  · rintro ⟨hr, hready⟩
    rw [h.ready_eq hr] at hready
    exact ⟨(h.mem_references_iff.mp hr).1, hready⟩
  · rintro ⟨hr, hready⟩
    have hru : r ∈ u.references := by
      refine h.mem_references_iff.mpr ⟨hr, fun hearly => ?_⟩
      rw [h.ready_of_early hearly.1 hearly.2] at hready
      contradiction
    rw [h.ready_eq hru]
    exact ⟨hru, hready⟩

/-- The references left are the same, and a queue gives them back in one order only. -/
theorem references_resolve :
    (finalState (resolve u)).references = (finalState (resolve t)).references := by
  apply Array.toList_inj.mp
  refine Reference.eq_of_perm_of_ordered (fun r hr => (h.plain.inside r hr).1) h.plain.apart ?_ ?_
    (ordered_references_resolve h.resumed) (ordered_references_resolve h.plain)
  · intro r hr
    rw [Array.mem_toList_iff, Encode.mem_references_resolve_iff h.plain.apart] at hr
    exact Array.mem_toList_iff.mpr hr.1
  · rw [List.perm_ext_iff_of_nodup (nodup_references_resolve h.resumed)
      (nodup_references_resolve h.plain)]
    simp only [Array.mem_toList_iff, h.mem_references_resolve_iff, implies_true]

/-- Whether a byte is patched early or late, it gets the same value. -/
theorem bytes_resolve :
    (finalState (resolve u)).image.bytes = (finalState (resolve t)).image.bytes := by
  have hearly := resolved_finalState h.early.apart
  have hplain := resolved_finalState h.plain.apart
  have hresumed := resolved_finalState h.resumed.apart
  apply Array.ext_getElem?
  intro i
  have hcases := h.alike.getElem?_cases hearly.size i
  by_cases hcovered : ∃ r ∈ t.references, r.ready t.scopes t.image = true ∧ r.Covers i
  · obtain ⟨r, hr, hready, hcovers⟩ := hcovered
    obtain ⟨address, haddress⟩ := (ready_iff_of_tiledBy h.plain hr).mp hready
    have hsize : i < t.image.size :=
      pending_lt_of_tiledBy h.plain i
        ((h.plain.pending i).mpr ⟨r, Array.mem_toList_iff.mpr hr, hcovers⟩)
    rw [hplain.patched r hr hready address haddress i hsize hcovers]
    by_cases hru : r ∈ u.references
    · rw [← h.alike.scopes] at haddress
      rw [← h.ready_eq hru] at hready
      rw [← h.alike.size] at hsize
      exact hresumed.patched r hru hready address haddress i hsize hcovers
    · -- the early walk has patched the byte, and the late one leaves it alone
      obtain ⟨hrs, hready'⟩ : r ∈ s.references ∧ r.ready s.scopes s.image = true := by
        by_contra hnot
        exact hru (h.mem_references_iff.mpr ⟨hr, hnot⟩)
      have hfree : ∀ q ∈ u.references, q.ready u.scopes u.image = true → ¬q.Covers i := by
        intro q hq _ hq'
        have hne : q ≠ r := by
          rintro rfl
          exact hru hq
        exact h.plain.apart.forall (Array.mem_toList_iff.mpr (h.mem_references_iff.mp hq).1)
          (Array.mem_toList_iff.mpr hr) hne i hq' hcovers
      have hsize' : i < s.image.size :=
        pending_lt_of_tiledBy h.early i
          ((h.early.pending i).mpr ⟨r, Array.mem_toList_iff.mpr hrs, hcovers⟩)
      rw [h.same r hrs hready'] at haddress
      rw [hresumed.unchanged i hfree, (hcases.resolve_right (by omega)).1]
      exact hearly.patched r hrs hready' address haddress i hsize' hcovers
  · have hplain' : ∀ r ∈ t.references, r.ready t.scopes t.image = true → ¬r.Covers i :=
      fun r hr hready hcovers => hcovered ⟨r, hr, hready, hcovers⟩
    have hresumed' : ∀ r ∈ u.references, r.ready u.scopes u.image = true → ¬r.Covers i := by
      intro r hr hready
      rw [h.ready_eq hr] at hready
      exact hplain' r (h.mem_references_iff.mp hr).1 hready
    rw [hplain.unchanged i hplain', hresumed.unchanged i hresumed']
    rcases hcases with ⟨hfront, hfront'⟩ | ⟨_, hback⟩
    · rw [hfront, hfront']
      exact hearly.unchanged i fun r hr hready =>
        hplain' r (h.mem_of_mem_early hr) (h.ready_of_early hr hready)
    · exact hback

theorem pending_resolve :
    (finalState (resolve u)).image.pending = (finalState (resolve t)).image.pending := by
  have hplain := tiledBy_resolve h.plain
  have hresumed := tiledBy_resolve h.resumed
  rw [h.references_resolve] at hresumed
  apply Bitmap.ext_contains
  · rw [size_words_resolve, size_words_resolve, h.alike.words]
  · intro i
    rw [Bool.eq_iff_iff, hresumed.pending, hplain.pending]

/-- The late walk ends in the same state, with the same error. -/
theorem resolve_eq : resolve u = resolve t := by
  refine resolve_eq_of_finalState_eq h.resumed h.plain ?_
  have himage : (finalState (resolve u)).image = (finalState (resolve t)).image := by
    refine Image.ext h.bytes_resolve ?_ h.pending_resolve
    rw [(resolved_finalState h.resumed.apart).limit, (resolved_finalState h.plain.apart).limit,
      h.alike.limit]
  have hreferences := h.references_resolve
  rw [finalState_resolve, finalState_resolve] at himage hreferences ⊢
  exact Assembly.ext himage h.alike.scopes hreferences h.alike.marker h.alike.failed

end Resumes

end Encode

/-- Resolving between two programs makes no difference to what resolving at the end leads to, the
state and the error, as long as the names resolved in between still have the same global address at
the end.  (The empty name always counts as zero.)  In particular, resolving twice in a row is the
same as resolving once. -/
theorem resolving_early_changes_nothing {first second : List Statement} {s t : Assembly}
    (hfirst : Encode.program .refer first {} = .ok () s)
    (hsecond : Encode.program .refer second s = .ok () t)
    (hsame : ∀ r ∈ s.references, r ∉ (Encode.finalState (Encode.resolve s)).references →
      r.name ≠ [] →
      t.scopes.lookupGlobal r.name [.address] = s.scopes.lookupGlobal r.name [.address]) :
    (∃ u, Encode.program .refer second (Encode.finalState (Encode.resolve s)) = .ok () u ∧
      Encode.resolve u = Encode.resolve t) ∧
    Encode.resolve (Encode.finalState (Encode.resolve s)) = Encode.resolve s := by
  have hs := Encode.program_tiledBy hfirst
  have hearly := Encode.tiledBy_resolve hs
  have halike := Encode.growsAlike_resolve hs
  constructor
  · obtain ⟨u, hrun, hgrown⟩ := halike.exists_program hsecond
    refine ⟨u, hrun, Encode.Resumes.resolve_eq (s := s) ?_⟩
    refine ⟨hs, Encode.tiledBy_program hs hsecond, Encode.tiledBy_program hearly hrun, hgrown, ?_⟩
    intro r hr hready
    unfold Scopes.resolved
    by_cases hname : r.name = []
    · rw [if_pos hname, if_pos hname]
    · rw [if_neg hname, if_neg hname, hsame r hr ?_ hname]
      rw [Encode.mem_references_resolve_iff hs.apart, hready]
      simp
  · exact Encode.Resumes.resolve_eq (s := s) ⟨hs, hs, hearly, halike, fun _ _ _ => rfl⟩

/-- The early walk patches `x` and leaves `y`, which is a label of the second program.  In the end
`z` is left in both ways. -/
theorem resolving_early_changes_nothing_between_labels :
    let word (name : String) : Statement := .words {} [.name {} (utf8 name)]
    let first := [word "x", .label {} (utf8 "x"), word "y"]
    let second := [.label {} (utf8 "y"), word "z", word "x"]
    ∃ s t u, Encode.program .refer first {} = .ok () s ∧
      Encode.program .refer second s = .ok () t ∧
      (Encode.finalState (Encode.resolve s)).image.bytes = #[0, 2, 0xFF, 0xFF] ∧
      Encode.program .refer second (Encode.finalState (Encode.resolve s)) = .ok () u ∧
      Encode.resolve u = Encode.resolve t ∧
      (Encode.finalState (Encode.resolve u)).image.bytes = #[0, 2, 0, 4, 0xFF, 0xFF, 0, 2] := by
  intro word first second
  obtain ⟨a, ha⟩ : ∃ a, a = Encode.program .refer first {} := ⟨_, rfl⟩
  obtain ⟨b, hb⟩ : ∃ b, b = Encode.program .refer second (Encode.finalState a) := ⟨_, rfl⟩
  have hfacts : Encode.succeeds a = true ∧ Encode.succeeds b = true ∧
      (∀ r ∈ (Encode.finalState a).references,
        (Encode.finalState b).scopes.lookupGlobal r.name [.address] =
          (Encode.finalState a).scopes.lookupGlobal r.name [.address] ∨
        r ∈ (Encode.finalState (Encode.resolve (Encode.finalState a))).references) ∧
      (Encode.finalState (Encode.resolve (Encode.finalState a))).image.bytes =
        #[0, 2, 0xFF, 0xFF] ∧
      (Encode.finalState (Encode.resolve (Encode.finalState b))).image.bytes =
        #[0, 2, 0, 4, 0xFF, 0xFF, 0, 2] := by
    rw [hb, ha]
    decide +kernel
  obtain ⟨hfirst, hsecond, hsame, hearly, hfinal⟩ := hfacts
  have hfirst' := ha.symm.trans (Encode.eq_ok_of_succeeds hfirst)
  have hsecond' := hb.symm.trans (Encode.eq_ok_of_succeeds hsecond)
  obtain ⟨⟨u, hu, heq⟩, _⟩ := resolving_early_changes_nothing hfirst' hsecond'
    fun r hr hgone _ => (hsame r hr).resolve_right hgone
  exact ⟨_, _, u, hfirst', hsecond', hearly, hu, heq, heq ▸ hfinal⟩

end Gx
