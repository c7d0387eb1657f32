import Gx.Proofs.Encoding
import Gx.Proofs.Image

/-!
# References and pending bytes

Encoding only adds to the image and to the references.  Every reference waits for bytes of its own,
and there are no other pending bytes: `Image.TiledBy`.  Both hold for all programs, by what pushing
and reserving do; binding names and leaving blocks touch neither the image nor the references.
-/

namespace Gx

/-- The position `i` is one of those a reference waits for. -/
def Reference.Covers (r : Reference) (i : Nat) : Prop :=
  r.pos ≤ i ∧ (i : Int) < r.pos + r.part.width

/-- The references do not wait for a common byte. -/
def Reference.Apart (a b : Reference) : Prop :=
  ∀ i, a.Covers i → ¬b.Covers i

/-- The references wait for bytes inside the image, no two of them for the same one, and these are
exactly the pending bytes. -/
structure Image.TiledBy (img : Image) (refs : List Reference) : Prop where
  inside : ∀ r ∈ refs, 0 ≤ r.pos ∧ r.pos + r.part.width ≤ img.size
  apart : refs.Pairwise Reference.Apart
  pending : ∀ i, img.pending.contains i = true ↔ ∃ r ∈ refs, r.Covers i

theorem Part.width_pos (part : Part) : 0 < part.width := by
  cases part <;> decide

@[simp]
theorem Part.length_bytes (part : Part) (a : UInt16) : (part.bytes a).length = part.width := by
  cases part <;> rfl

/-- The state `t` has the bytes and the references of `s`, and possibly more behind them. -/
structure Assembly.GrowsTo (s t : Assembly) : Prop where
  image : s.image.GrowsTo t.image
  references : s.references.toList <+: t.references.toList

theorem Assembly.GrowsTo.refl (s : Assembly) : s.GrowsTo s :=
  ⟨Image.GrowsTo.refl _, List.prefix_rfl⟩

theorem Assembly.GrowsTo.trans {s t u : Assembly} (hst : s.GrowsTo t) (htu : t.GrowsTo u) :
    s.GrowsTo u :=
  ⟨hst.image.trans htu.image, hst.references.trans htu.references⟩

namespace Encode

/-! ## Pushing and referring -/

theorem onImage_eq (change : Image → Except ImageError Image) (s : Assembly) :
    onImage change s =
      match change s.image with
      | .ok image => .ok () { s with image }
      | .error e => .error (.image e) s := rfl

theorem reserve_eq (n : Nat) (s : Assembly) :
    reserve n s =
      match s.image.reserve n with
      | (image, .ok pos) => .ok pos { s with image }
      | (image, .error e) => .error (.image e) { s with image } := rfl

theorem push_of_fits {s : Assembly} {data : Bytes}
    (hfits : ((s.image.size + data.length : Nat) : Int) ≤ s.image.limit) :
    push data s =
      .ok () { s with image := { s.image with bytes := s.image.bytes ++ data } } := by
  unfold push
  rw [onImage_eq, Image.push_eq_ok_iff.mpr ⟨hfits, rfl⟩]

theorem push_of_not_fits {s : Assembly} {data : Bytes}
    (hlarge : ¬((s.image.size + data.length : Nat) : Int) ≤ s.image.limit) :
    push data s =
      .error (.image (.tooLarge (s.image.size + data.length) s.image.limit)) s := by
  unfold push
  rw [onImage_eq, Image.push_of_not_fits hlarge]

def referenceAt (s : Assembly) (name : Bytes) (part : Part) : Reference :=
  ⟨s.image.size, name, s.place s.image.size, part⟩

theorem refer_of_fits {s : Assembly} {part : Part} (name : Bytes)
    (hfits : ((s.image.size + part.width : Nat) : Int) ≤ s.image.limit) :
    Forward.refer name part s =
      .ok () { s with
        image := s.image.fill part.width
        references := s.references.push (referenceAt s name part) } := by
  unfold Forward.refer
  rw [bind_eq, reserve_eq, Image.reserve_of_fits hfits]
  rfl

theorem refer_of_not_fits {s : Assembly} {part : Part} (name : Bytes)
    (hlarge : ¬((s.image.size + part.width : Nat) : Int) ≤ s.image.limit) :
    ∃ fitting < part.width, Forward.refer name part s =
      .error (.image (.tooLarge (s.image.size + fitting + 1) s.image.limit))
        { s with image := s.image.fill fitting } := by
  obtain ⟨fitting, hfitting, hreserve⟩ := Image.reserve_of_not_fits part.width_pos hlarge
  refine ⟨fitting, hfitting, ?_⟩
  unfold Forward.refer
  rw [bind_eq, reserve_eq, hreserve]

/-- Whether all bytes of a part fit or not, those that do are reserved, and scopes stay as they
are. -/
theorem finalState_refer (name : Bytes) (part : Part) (s : Assembly) :
    ∃ n ≤ part.width, ∃ references, finalState (Forward.refer name part s) =
      { s with image := s.image.fill n, references } := by
  by_cases hfits : ((s.image.size + part.width : Nat) : Int) ≤ s.image.limit
  · rw [refer_of_fits name hfits]
    exact ⟨part.width, le_rfl, _, rfl⟩
  · obtain ⟨fitting, hfitting, hfailed⟩ := refer_of_not_fits name hfits
    rw [hfailed]
    exact ⟨fitting, hfitting.le, _, rfl⟩

/-! ## What does not touch the image -/

/-- The image and the references are those of `s`. -/
def SameStore (s t : Assembly) : Prop :=
  t.image = s.image ∧ t.references = s.references

theorem sameStore_onScopes (change : Scopes → Except ScopeError Scopes) (s : Assembly) :
    SameStore s (finalState (onScopes change s)) := by
  unfold onScopes
  cases change s.scopes <;> exact ⟨rfl, rfl⟩

theorem sameStore_defineLabel (name : Bytes) (s : Assembly) :
    SameStore s (finalState (defineLabel name s)) := by
  unfold defineLabel
  cases s.scopes.bindGlobal ⟨name, .address, UInt16.ofNat s.image.size⟩ <;> exact ⟨rfl, rfl⟩

theorem sameStore_leaveScope (s : Assembly) : SameStore s (finalState (leaveScope s)) := by
  unfold leaveScope
  cases s.scopes.pop <;> exact ⟨rfl, rfl⟩

theorem sameStore_abandoned (s : Assembly) : SameStore s (abandoned s) := by
  have hleave := sameStore_leaveScope s.rememberScopes
  have hremember : SameStore s s.rememberScopes := by
    unfold Assembly.rememberScopes
    cases s.failed <;> exact ⟨rfl, rfl⟩
  exact ⟨hleave.1.trans hremember.1, hleave.2.trans hremember.2⟩

/-- What is said about the image and the references only is an invariant if pushing and the forward
policy keep it. -/
theorem Invariant.ofStore {I : Assembly → Prop} {E : EncodeError → Assembly → Prop}
    {f : Forward} {rules : NameRules}
    (hI : ∀ {s t}, SameStore s t → I s → I t)
    (hE : ∀ {e s t}, SameStore s t → E e s → E e t)
    (hthrown : ∀ {s} e, I s → E e s)
    (hpush : ∀ data, Keeps I E (push data))
    (hforward : ∀ name part, rules.use name → Keeps I E (f name part)) :
    Invariant I E f rules := by
  have hsame : ∀ {a : Encode Unit}, (∀ s, SameStore s (finalState (a s))) → Keeps I E a := by
    intro a ha s hs
    have hstore := ha s
    cases hrun : a s with
    | ok x t =>
        rw [hrun] at hstore
        exact hI hstore hs
    | error e t =>
        rw [hrun] at hstore
        exact hE hstore (hthrown e.root hs)
  exact
    { thrown := hthrown
      push := hpush
      forward := hforward
      label := fun name _ => hsame (sameStore_defineLabel name)
      define := fun name kind value _ => hsame (sameStore_onScopes _)
      enter := hsame (sameStore_onScopes _)
      leave := hsame sameStore_leaveScope
      abandon := fun hfailed => hE (sameStore_abandoned _) hfailed }

/-- The same for the policy that makes references, in terms of what pushing and referring do to a
state. -/
theorem Invariant.ofRefer {I : Assembly → Prop} {E : EncodeError → Assembly → Prop}
    {rules : NameRules}
    (hI : ∀ {s t}, SameStore s t → I s → I t)
    (hE : ∀ {e s t}, SameStore s t → E e s → E e t)
    (hthrown : ∀ {s} e, I s → E e s)
    (hpush : ∀ {s : Assembly} (data : Bytes), I s →
      ((s.image.size + data.length : Nat) : Int) ≤ s.image.limit →
      I { s with image := { s.image with bytes := s.image.bytes ++ data } })
    (hrefer : ∀ {s : Assembly} name (part : Part), rules.use name → I s →
      ((s.image.size + part.width : Nat) : Int) ≤ s.image.limit →
      I { s with
        image := s.image.fill part.width
        references := s.references.push (referenceAt s name part) })
    (hpartial : ∀ {s : Assembly} n size limit, I s →
      E (.image (.tooLarge size limit)) { s with image := s.image.fill n }) :
    Invariant I E .refer rules := by
  refine Invariant.ofStore hI hE hthrown (fun data s hs => ?_) (fun name part hname s hs => ?_)
  · by_cases hfits : ((s.image.size + data.length : Nat) : Int) ≤ s.image.limit
    · rw [push_of_fits hfits]
      exact hpush data hs hfits
    · rw [push_of_not_fits hfits]
      exact hthrown _ hs
  · by_cases hfits : ((s.image.size + part.width : Nat) : Int) ≤ s.image.limit
    · rw [refer_of_fits name hfits]
      exact hrefer name part hname hs hfits
    · obtain ⟨fitting, _, hfailed⟩ := refer_of_not_fits name hfits
      rw [hfailed]
      exact hpartial fitting _ _ hs

/-! ## Growth and limits -/

theorem growsTo_of_sameStore {s t : Assembly} (h : SameStore s t) : s.GrowsTo t := by
  constructor
  · rw [h.1]
    exact Image.GrowsTo.refl _
  · rw [h.2]

theorem growsTo_invariant (start : Assembly) :
    Invariant (fun s => start.GrowsTo s) (fun _ s => start.GrowsTo s) .refer {} := by
  apply Invariant.ofRefer
  · intro s t hstore hs
    exact hs.trans (growsTo_of_sameStore hstore)
  · intro e s t hstore hs
    exact hs.trans (growsTo_of_sameStore hstore)
  · intro s e hs
    exact hs
  · intro s data hs _
    exact hs.trans ⟨Image.growsTo_push_bytes _ _, List.prefix_rfl⟩
  · intro s name part _ hs _
    exact hs.trans ⟨Image.growsTo_fill _ _, by simp⟩
  · intro s n size limit hs
    exact hs.trans ⟨Image.growsTo_fill _ _, List.prefix_rfl⟩

theorem fits_invariant :
    Invariant (fun s => (s.image.size : Int) ≤ s.image.limit) (fun _ _ => True) .refer {} := by
  apply Invariant.ofRefer
  · intro s t hstore hs
    rwa [hstore.1]
  · intro e s t _ _
    trivial
  · intro s e _
    trivial
  · intro s data _ hfits
    rwa [Image.size_push_bytes]
  · intro s name part _ _ hfits
    rwa [Image.size_fill]
  · intro s n size limit _
    trivial

/-! ## Every pending byte has its reference -/

theorem tiledBy_push {img : Image} {refs : List Reference} (h : img.TiledBy refs)
    (data : Bytes) : ({ img with bytes := img.bytes ++ data } : Image).TiledBy refs where
  inside r hr := by
    have hin := h.inside r hr
    rw [Image.size_push_bytes]
    omega
  apart := h.apart
  pending := h.pending

theorem tiledBy_fill {img : Image} {refs : List Reference} (h : img.TiledBy refs)
    {r : Reference} (hr : r.pos = img.size) :
    (img.fill r.part.width).TiledBy (refs ++ [r]) where
  inside q hq := by
    rw [Image.size_fill]
    rcases List.mem_append.mp hq with hq | hq
    · have hin := h.inside q hq
      omega
    · rw [List.mem_singleton.mp hq, hr]
      omega
  apart := by
    rw [List.pairwise_append]
    refine ⟨h.apart, List.pairwise_singleton _ _, ?_⟩
    intro q hq q' hq' i hold hnew
    have hin := h.inside q hq
    rw [List.mem_singleton.mp hq'] at hnew
    unfold Reference.Covers at hold hnew
    omega
  pending i := by
    have hcovers : r.Covers i ↔ img.size ≤ i ∧ i < img.size + r.part.width := by
      unfold Reference.Covers
      omega
    rw [Image.contains_fill, h.pending, ← hcovers]
    simp only [List.mem_append, List.mem_singleton, or_and_right, exists_or, exists_eq_left]

/-- Unless the image gets too large, the pending bytes are those that references wait for. -/
theorem tiledBy_invariant :
    Invariant (fun s => s.image.TiledBy s.references.toList)
      (fun e s => (∃ size limit, e = .image (.tooLarge size limit)) ∨
        s.image.TiledBy s.references.toList) .refer {} := by
  apply Invariant.ofRefer
  · intro s t hstore hs
    rwa [hstore.1, hstore.2]
  · intro e s t hstore hs
    rwa [hstore.1, hstore.2]
  · intro s e hs
    exact Or.inr hs
  · intro s data hs _
    exact tiledBy_push hs data
  · intro s name part _ hs _
    have hfill := tiledBy_fill hs (show (referenceAt s name part).pos = s.image.size from rfl)
    rwa [← Array.toList_push] at hfill
  · intro s n size limit _
    exact Or.inl ⟨size, limit, rfl⟩

theorem tiledBy_initial : ({} : Assembly).image.TiledBy ({} : Assembly).references.toList where
  inside r hr := by simp at hr
  apart := List.Pairwise.nil
  pending i := by
    have hempty : ({} : Assembly).image.pending.contains i = false := Bitmap.contains_empty i
    simp [hempty]

theorem referenceNames_invariant (use : Bytes → Prop) :
    Invariant (fun s => ∀ r ∈ s.references, use r.name)
      (fun _ s => ∀ r ∈ s.references, use r.name) .refer { use := use } := by
  apply Invariant.ofRefer
  · intro s t hstore hs
    rwa [hstore.2]
  · intro e s t hstore hs
    rwa [hstore.2]
  · intro s e hs
    exact hs
  · intro s data hs _
    exact hs
  · intro s name part hname hs _ r hr
    rcases Array.mem_push.mp hr with hold | rfl
    · exact hs r hold
    · exact hname
  · intro s n size limit hs
    exact hs

end Encode

end Gx
