import Gx.Proofs.Grammar.Lexer

/-!
# Where trees lie in a text

The layout of a tree is the row of its tokens, with a landmark wherever a node starts or stops.
`Lies` says that a layout fits the text between two cursors: every token stands behind a gap, and
every landmark names the position where it is passed.  A text leaves no choice for the positions of
a layout, and what is laid out does not depend on the bytes behind it.
-/

namespace Gx

/-! ## Cursors on the way -/

namespace Cursor

/-- The cursor `d` stands in the same text as `c`, at the same place or further on. -/
def Reaches (c d : Cursor) : Prop :=
  d.rest <:+ c.rest ∧ d.pos + d.rest.length = c.pos + c.rest.length

variable {c d e : Cursor}

theorem Reaches.refl (c : Cursor) : c.Reaches c := ⟨List.suffix_rfl, rfl⟩

theorem Reaches.trans (hcd : c.Reaches d) (hde : d.Reaches e) : c.Reaches e :=
  ⟨hde.1.trans hcd.1, hde.2.trans hcd.2⟩

theorem Reaches.pos_le (h : c.Reaches d) : c.pos ≤ d.pos := by
  have hlength := h.1.length_le
  have hpos := h.2
  omega

theorem reaches_leaving {rest : Bytes} (h : rest <:+ c.rest) : c.Reaches (c.leaving rest) := by
  refine ⟨h, ?_⟩
  have hlength := h.length_le
  simp only [leaving]
  omega

theorem ofPos_reaches {text : Bytes} (h : (ofPos text 0).Reaches c) :
    c = .ofPos text c.pos ∧ c.pos + c.rest.length = text.length := by
  obtain ⟨hsuffix, hpos⟩ := h
  simp only [ofPos, List.drop_zero, Nat.zero_add] at hsuffix hpos
  refine ⟨?_, hpos⟩
  have hdrop : c.rest = text.drop c.pos := by
    rw [List.suffix_iff_eq_drop.mp hsuffix]
    congr 1
    omega
  rw [ofPos, ← hdrop]

theorem pos_le_of_reaches {text : Bytes} (h : (ofPos text 0).Reaches c) :
    c.pos ≤ text.length := by
  have hpos := (ofPos_reaches h).2
  omega

end Cursor

theorem Gap.suffix {t rest : Bytes} (h : Gap t rest) : rest <:+ t := by
  induction h with
  | nil t => exact List.suffix_rfl
  | space _ _ ih => exact ih.trans (List.suffix_cons _ _)
  | comment _ _ _ ih => exact ih.trans (List.suffix_append _ _)

theorem Token.Heads.suffix {k : Token} {t rest : Bytes} (h : k.Heads t rest) : rest <:+ t := by
  obtain ⟨b, _, rfl, _⟩ := h
  exact List.suffix_append b rest

theorem reaches_skip (c : Cursor) : c.Reaches (Blank.gap.skip c) := by
  obtain ⟨rest, hskip, hgap, _⟩ := skip_eq c
  rw [hskip]
  exact Cursor.reaches_leaving hgap.suffix

theorem skip_of_isSolid {c : Cursor} (h : isSolid c.rest = true) : Blank.gap.skip c = c := by
  rw [skip_of_gap (Gap.nil _) h, Cursor.leaving_self]

theorem isSolid_skip (c : Cursor) : isSolid (Blank.gap.skip c).rest = true := by
  obtain ⟨rest, hskip, _, hsolid⟩ := skip_eq c
  rw [hskip]
  exact hsolid

@[simp]
theorem skip_skip (c : Cursor) : Blank.gap.skip (Blank.gap.skip c) = Blank.gap.skip c :=
  skip_of_isSolid (isSolid_skip c)

/-! ## Tokens end where they end -/

theorem length_radixMarker {radix : Int} {marker : Bytes} (h : marker ∈ radixMarkers radix) :
    marker.length = if radix = 10 then 0 else 2 := by
  rcases mem_radixMarkers h with ⟨rfl, rfl⟩ | ⟨rfl, _, _, rfl⟩ | ⟨rfl, _, _, rfl⟩
  · rfl
  · rfl
  · rfl

theorem WrittenNumber.length_eq {radix : Int} {digits b b' : Bytes}
    (h : WrittenNumber radix digits b) (h' : WrittenNumber radix digits b') :
    b.length = b'.length := by
  obtain ⟨_, _, marker, hmarker, rfl⟩ := h
  obtain ⟨_, _, marker', hmarker', rfl⟩ := h'
  rw [List.length_append, List.length_append, length_radixMarker hmarker,
    length_radixMarker hmarker']

theorem eq_of_spaces {spaces spaces' rest rest' : Bytes}
    (hspaces : ∀ s ∈ spaces, s = 0x20 ∨ s = 0x09) (hspaces' : ∀ s ∈ spaces', s = 0x20 ∨ s = 0x09)
    (h : spaces ++ ascii ':' :: rest = spaces' ++ ascii ':' :: rest') : rest = rest' := by
  have hdrop : ∀ {spaces rest : Bytes}, (∀ s ∈ spaces, s = 0x20 ∨ s = 0x09) →
      (spaces ++ ascii ':' :: rest).dropWhile (fun b => b == 0x20 || b == 0x09) =
        ascii ':' :: rest := by
    intro spaces rest hspaces
    refine (span_append ?_ rfl).2
    intro s hs
    simpa using hspaces s hs
  have hcolon : ascii ':' :: rest = ascii ':' :: rest' := by
    rw [← hdrop hspaces, h, hdrop hspaces']
  exact (List.cons.inj hcolon).2

/-- A text that starts with a token leaves no choice for what follows it. -/
theorem Token.Heads.unique {k : Token} {t rest rest' : Bytes} (h : k.Heads t rest)
    (h' : k.Heads t rest') : rest = rest' := by
  have hlength : ∀ {b b' : Bytes}, t = b ++ rest → t = b' ++ rest' → b.length = b'.length →
      rest = rest' :=
    fun hb hb' hlength => (List.append_inj (hb.symm.trans hb') hlength).2
  cases k with
  | text value =>
      obtain ⟨_, x, rfl, hx⟩ := Parse.finds_quotedText (c := ⟨0, t⟩) h
      obtain ⟨_, y, _, hy⟩ := Parse.finds_quotedText (c := ⟨0, t⟩) h'
      rw [hx] at hy
      exact congrArg Cursor.rest (Reply.ok.inj hy).2
  | word w =>
      obtain ⟨b, ⟨_, hw⟩, hb, _⟩ := h
      obtain ⟨b', ⟨_, hw'⟩, hb', _⟩ := h'
      have hmap := congrArg List.length (hw.trans hw'.symm)
      rw [List.length_map, List.length_map] at hmap
      exact hlength hb hb' hmap
  | name n =>
      obtain ⟨b, ⟨_, rfl⟩, hb, _⟩ := h
      obtain ⟨b', ⟨_, rfl⟩, hb', _⟩ := h'
      exact hlength hb hb' rfl
  | number radix digits =>
      obtain ⟨b, hn, hb, _⟩ := h
      obtain ⟨b', hn', hb', _⟩ := h'
      exact hlength hb hb' (WrittenNumber.length_eq hn hn')
  | letter l =>
      obtain ⟨_, ⟨_, _, rfl⟩, hb, _⟩ := h
      obtain ⟨_, ⟨_, _, rfl⟩, hb', _⟩ := h'
      exact hlength hb hb' rfl
  | register radix digits =>
      obtain ⟨_, ⟨n, hn, rfl⟩, hb, _⟩ := h
      obtain ⟨_, ⟨n', hn', rfl⟩, hb', _⟩ := h'
      exact hlength hb hb' (congrArg (· + 1) (WrittenNumber.length_eq hn hn'))
  | label n =>
      obtain ⟨_, ⟨_, spaces, hspaces, rfl⟩, hb, _⟩ := h
      obtain ⟨_, ⟨_, spaces', hspaces', rfl⟩, hb', _⟩ := h'
      rw [hb, List.append_assoc, List.append_assoc, List.append_assoc, List.append_assoc] at hb'
      exact eq_of_spaces hspaces hspaces' (List.append_cancel_left hb')
  | mark m =>
      obtain ⟨_, ⟨_, rfl⟩, hb, _⟩ := h
      obtain ⟨_, ⟨_, rfl⟩, hb', _⟩ := h'
      exact hlength hb hb' rfl

/-! ## Nothing depends on what is cut off behind -/

theorem Gap.cut {u w tail : Bytes} (h : Gap (u ++ tail) (w ++ tail)) (hw : w ≠ []) :
    Gap u w := by
  generalize htext : u ++ tail = t, hrest : w ++ tail = rest at h
  induction h generalizing u with
  | nil t =>
      obtain rfl : u = w := List.append_cancel_right (htext.trans hrest.symm)
      exact Gap.nil u
  | @space b t rest hspace hgap ih =>
      subst hrest
      obtain ⟨a, rfl⟩ := hgap.suffix
      obtain rfl : u = b :: (a ++ w) := by
        apply (List.append_left_inj tail).mp
        simpa using htext
      exact Gap.space hspace (ih (by simp) rfl)
  | @comment body t rest hbody hend hgap ih =>
      subst hrest
      obtain ⟨a, rfl⟩ := hgap.suffix
      obtain rfl : u = ascii ';' :: body ++ (a ++ w) := by
        apply (List.append_left_inj tail).mp
        simpa using htext
      refine Gap.comment hbody (Or.inr ?_) (ih (by simp) rfl)
      have hline := hend.resolve_left (by simp [hw])
      cases a with
      | nil =>
          obtain ⟨b, w, rfl⟩ := List.exists_cons_of_ne_nil hw
          exact hline
      | cons b a => exact hline

theorem startsName_append_left {u tail : Bytes} (h : startsName (u ++ tail) = false) :
    startsName u = false := by
  cases u with
  | nil => rfl
  | cons b u => exact h

theorem Token.Heads.cut {k : Token} {u v tail : Bytes} (h : k.Heads (u ++ tail) (v ++ tail)) :
    k.Heads u v := by
  obtain ⟨b, hspells, htext, hopen⟩ := h
  refine ⟨b, hspells, ?_, fun hk => startsName_append_left (hopen hk)⟩
  apply (List.append_left_inj tail).mp
  rw [htext, List.append_assoc]

/-- The text behind `tail` is cut off, and `s` bytes in front of the cursor. -/
theorem skip_cut {c : Cursor} {u w tail : Bytes} {s : Nat} (hs : s ≤ c.pos)
    (hc : c.rest = u ++ tail) (hskip : (Blank.gap.skip c).rest = w ++ tail) (hw : w ≠ []) :
    Blank.gap.skip ⟨c.pos - s, u⟩ = ⟨(Blank.gap.skip c).pos - s, w⟩ := by
  obtain ⟨rest, hleaving, hgap, hsolid⟩ := skip_eq c
  rw [hleaving, Cursor.rest_leaving] at hskip
  subst hskip
  rw [hc] at hgap
  have hsolidw : isSolid w = true := by
    obtain ⟨b, w, rfl⟩ := List.exists_cons_of_ne_nil hw
    exact hsolid
  have hlength := (hgap.cut hw).length_le
  rw [skip_of_gap (c := ⟨c.pos - s, u⟩) (hgap.cut hw) hsolidw, hleaving]
  simp only [Cursor.leaving, hc, List.length_append, Cursor.mk.injEq, and_true]
  omega

/-! ## Layouts -/

inductive Landmark where
  | token (k : Token)
  /-- A node starts at `pos`, which is `ahead` bytes behind the start of the next token. -/
  | start (ahead pos : Nat)
  | stop (pos : Nat)

namespace Landmark

def token? : Landmark → Option Token
  | .token k => some k
  | _ => none

def relocate (f : Nat → Nat) : Landmark → Landmark
  | .token k => .token k
  | .start ahead pos => .start ahead (f pos)
  | .stop pos => .stop (f pos)

/-- Whether the next token comes before any node stops. -/
def leads : List Landmark → Bool
  | .token _ :: _ => true
  | .start _ _ :: row => leads row
  | _ => false

/-- Whether every node that starts has a first token. -/
def isAnchored : List Landmark → Bool
  | .start _ _ :: row => leads row && isAnchored row
  | _ :: row => isAnchored row
  | [] => true

theorem leads_append {row : List Landmark} (h : leads row = true) (row' : List Landmark) :
    leads (row ++ row') = true := by
  induction row with
  | nil => contradiction
  | cons m row ih =>
      cases m with
      | token k => rfl
      | start ahead pos => exact ih h
      | stop pos => contradiction

theorem isAnchored_append {row row' : List Landmark} (h : isAnchored row = true)
    (h' : isAnchored row' = true) : isAnchored (row ++ row') = true := by
  induction row with
  | nil => exact h'
  | cons m row ih =>
      cases m with
      | token k => exact ih h
      | stop pos => exact ih h
      | start ahead pos =>
          simp only [isAnchored, Bool.and_eq_true] at h
          simp only [List.cons_append, isAnchored, Bool.and_eq_true]
          exact ⟨leads_append h.1 row', ih h.2⟩

end Landmark

/-- The row of landmarks is passed on the way from one cursor to the other. -/
def Lies : List Landmark → Cursor → Cursor → Prop
  | [], c, next => next = c
  | .token k :: row, c, next =>
      ∃ rest, k.Heads (Blank.gap.skip c).rest rest ∧ Lies row ((Blank.gap.skip c).leaving rest) next
  | .start ahead pos :: row, c, next => pos = (Blank.gap.skip c).pos + ahead ∧ Lies row c next
  | .stop pos :: row, c, next => pos = c.pos ∧ Lies row c next

section

variable {row row' : List Landmark} {c next : Cursor}

theorem lies_append {last : Cursor} :
    Lies (row ++ row') c last ↔ ∃ mid, Lies row c mid ∧ Lies row' mid last := by
  induction row generalizing c with
  | nil => simp [Lies]
  | cons m row ih =>
      cases m with
      | token k =>
          simp only [List.cons_append, Lies, ih]
          constructor
          · rintro ⟨rest, hk, mid, hrow, hrow'⟩
            exact ⟨mid, ⟨rest, hk, hrow⟩, hrow'⟩
          · rintro ⟨mid, ⟨rest, hk, hrow⟩, hrow'⟩
            exact ⟨rest, hk, mid, hrow, hrow'⟩
      | start ahead pos => simp only [List.cons_append, Lies, ih, and_assoc, exists_and_left]
      | stop pos => simp only [List.cons_append, Lies, ih, and_assoc, exists_and_left]

theorem Lies.append {mid : Cursor} (h : Lies row c mid) (h' : Lies row' mid next) :
    Lies (row ++ row') c next :=
  lies_append.mpr ⟨mid, h, h'⟩

theorem Lies.cons {m : Landmark} {mid : Cursor} (h : Lies [m] c mid) (h' : Lies row mid next) :
    Lies (m :: row) c next :=
  h.append h'

theorem reaches_of_heads {k : Token} {rest : Bytes}
    (h : k.Heads (Blank.gap.skip c).rest rest) :
    c.Reaches ((Blank.gap.skip c).leaving rest) :=
  (reaches_skip c).trans (Cursor.reaches_leaving h.suffix)

theorem Lies.reaches (h : Lies row c next) : c.Reaches next := by
  induction row generalizing c with
  | nil =>
      obtain rfl : next = c := h
      exact Cursor.Reaches.refl next
  | cons m row ih =>
      cases m with
      | token k =>
          obtain ⟨rest, hk, hrow⟩ := h
          exact (reaches_of_heads hk).trans (ih hrow)
      | start ahead pos => exact ih h.2
      | stop pos => exact ih h.2

/-- A row that leads to a token goes beyond the place where the token starts. -/
theorem Lies.reaches_of_skip (h : Lies row c next) (hleads : Landmark.leads row = true) :
    (Blank.gap.skip c).Reaches next ∧ (Blank.gap.skip c).pos < next.pos := by
  induction row with
  | nil => contradiction
  | cons m row ih =>
      cases m with
      | token k =>
          obtain ⟨rest, hk, hrow⟩ := h
          have hfirst := Cursor.reaches_leaving hk.suffix
          refine ⟨hfirst.trans hrow.reaches, ?_⟩
          have hlength := hk.length_lt
          have hnext := hrow.reaches.pos_le
          simp only [Cursor.leaving] at hnext
          omega
      | start ahead pos => exact ih h.2 hleads
      | stop pos => contradiction

/-- Whether a row starts at a gap or behind it makes no difference. -/
theorem lies_skip (hleads : Landmark.leads row = true) :
    Lies row (Blank.gap.skip c) next ↔ Lies row c next := by
  induction row with
  | nil => contradiction
  | cons m row ih =>
      cases m with
      | token k => simp only [Lies, skip_skip]
      | start ahead pos => simp only [Lies, skip_skip, ih hleads]
      | stop pos => contradiction

theorem Lies.reads (h : Lies row c next) :
    Reads (row.filterMap Landmark.token?) c.rest next.rest := by
  induction row generalizing c with
  | nil => exact congrArg Cursor.rest (show c = next from h.symm)
  | cons m row ih =>
      cases m with
      | token k =>
          obtain ⟨rest, hk, hrow⟩ := h
          obtain ⟨u, hskip, hgap, _⟩ := skip_eq c
          rw [hskip] at hk
          exact ⟨u, rest, hgap, hk, ih hrow⟩
      | start ahead pos => exact ih h.2
      | stop pos => exact ih h.2

/-- The text decides about all positions of a row. -/
theorem Lies.unique {next' : Cursor} (h : Lies row c next) (h' : Lies row' c next')
    (hshape : row.map (Landmark.relocate fun _ => 0) = row'.map (Landmark.relocate fun _ => 0)) :
    row = row' ∧ next = next' := by
  induction row generalizing row' c with
  | nil =>
      obtain rfl : row' = [] := List.map_eq_nil_iff.mp hshape.symm
      exact ⟨rfl, Eq.trans h h'.symm⟩
  | cons m row ih =>
      cases row' with
      | nil => contradiction
      | cons m' row' =>
          obtain ⟨hm, hrow⟩ := List.cons.inj hshape
          cases m with
          | token k =>
              cases m' with
              | token k' =>
                  obtain rfl := Landmark.token.inj hm
                  obtain ⟨rest, hk, hlies⟩ := h
                  obtain ⟨rest', hk', hlies'⟩ := h'
                  obtain rfl := hk.unique hk'
                  obtain ⟨rfl, hnext⟩ := ih hlies hlies' hrow
                  exact ⟨rfl, hnext⟩
              | _ => contradiction
          | start ahead pos =>
              cases m' with
              | start ahead' pos' =>
                  obtain ⟨rfl, _⟩ := Landmark.start.inj hm
                  obtain ⟨rfl, hnext⟩ := ih h.2 h'.2 hrow
                  exact ⟨by rw [h.1, h'.1], hnext⟩
              | _ => contradiction
          | stop pos =>
              cases m' with
              | stop pos' =>
                  obtain ⟨rfl, hnext⟩ := ih h.2 h'.2 hrow
                  exact ⟨by rw [h.1, h'.1], hnext⟩
              | _ => contradiction

/-- A row lies in the same way in the part of the text that it takes, from where `s` bytes in front
are cut off. -/
theorem Lies.cut {u : Bytes} {s : Nat} (h : Lies row c next)
    (hanchored : Landmark.isAnchored row = true) (hs : s ≤ c.pos) (hc : c.rest = u ++ next.rest) :
    Lies (row.map (Landmark.relocate (· - s))) ⟨c.pos - s, u⟩ ⟨next.pos - s, []⟩ := by
  have hpos := (reaches_skip c).pos_le
  induction row generalizing c u with
  | nil =>
      obtain rfl : next = c := h
      obtain rfl : u = [] := List.self_eq_append_left.mp hc
      rfl
  | cons m row ih =>
      cases m with
      | token k =>
          obtain ⟨rest, hk, hrow⟩ := h
          obtain ⟨a, rfl⟩ := hrow.reaches.1
          obtain ⟨b, hspells, hb, _⟩ := id hk
          have hskip : (Blank.gap.skip c).rest = b ++ a ++ next.rest := by
            rw [List.append_assoc]
            exact hb
          have hne : b ++ a ≠ [] := by
            obtain ⟨first, more, rfl, _⟩ := hspells.head
            simp
          have hcut := skip_cut hs hc hskip hne
          have hbehind := Cursor.reaches_leaving (c := Blank.gap.skip c) hk.suffix
          have hlies := ih hrow hanchored (by have := hbehind.pos_le; omega) rfl
            (reaches_skip _).pos_le
          refine ⟨a, ?_, ?_⟩
          · rw [hcut]
            rw [hskip] at hk
            exact hk.cut
          · have hleaving : (Blank.gap.skip ⟨c.pos - s, u⟩).leaving a =
                ⟨((Blank.gap.skip c).leaving (a ++ next.rest)).pos - s, a⟩ := by
              rw [hcut]
              simp only [Cursor.leaving, hskip, List.length_append, Cursor.mk.injEq, and_true]
              omega
            rw [hleaving]
            exact hlies
      | start ahead pos =>
          simp only [Landmark.isAnchored, Bool.and_eq_true] at hanchored
          obtain ⟨rfl, hrow⟩ := h
          obtain ⟨⟨⟨a, hskip⟩, hlength⟩, hlt⟩ := hrow.reaches_of_skip hanchored.1
          have hne : a ≠ [] := by
            rintro rfl
            rw [← hskip, List.nil_append] at hlength
            omega
          refine ⟨?_, ih hrow hanchored.2 hs hc hpos⟩
          rw [skip_cut hs hc hskip.symm hne]
          change _ + ahead - s = _ - s + ahead
          omega
      | stop pos =>
          obtain ⟨rfl, hrow⟩ := h
          exact ⟨rfl, ih hrow hanchored hs hc hpos⟩

end

end Gx
