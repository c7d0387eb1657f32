import Gx.Proofs.Grammar.Layout

/-!
# The layouts of trees

Every node of a tree starts at its first token and stops behind its last one.  A tree is determined
by its shape and its layout, and the children of a node lie inside of it, one behind the other.
-/

namespace Gx

/-! ## Spans -/

namespace Span

def relocate (f : Nat → Nat) (s : Span) : Span := ⟨f s.start, f s.stop⟩

/-- The bytes of the text that the span covers. -/
def slice (s : Span) (text : Bytes) : Bytes := (text.drop s.start).take (s.stop - s.start)

/-- The layout of a node with this span and the given contents. -/
def around (s : Span) (row : List Landmark) : List Landmark :=
  .start 0 s.start :: row ++ [.stop s.stop]

variable {s : Span} {row : List Landmark}

theorem lies_around {c next : Cursor} :
    Lies (s.around row) c next ↔ s = ⟨(Blank.gap.skip c).pos, next.pos⟩ ∧ Lies row c next := by
  unfold around
  rw [List.cons_append, Lies, lies_append]
  constructor
  · rintro ⟨hstart, mid, hrow, hstop, rfl⟩
    refine ⟨?_, hrow⟩
    rw [Nat.add_zero] at hstart
    rw [← hstart, ← hstop]
  · rintro ⟨rfl, hrow⟩
    exact ⟨rfl, next, hrow, rfl, rfl⟩

theorem leads_around (h : Landmark.leads row = true) : Landmark.leads (s.around row) = true :=
  Landmark.leads_append h [.stop s.stop]

theorem isAnchored_around (hleads : Landmark.leads row = true)
    (h : Landmark.isAnchored row = true) : Landmark.isAnchored (s.around row) = true := by
  unfold around
  rw [List.cons_append, Landmark.isAnchored, Bool.and_eq_true]
  exact ⟨Landmark.leads_append hleads _, Landmark.isAnchored_append h rfl⟩

theorem filterMap_around :
    (s.around row).filterMap Landmark.token? = row.filterMap Landmark.token? := by
  simp [around, List.filterMap_cons, Landmark.token?]

theorem map_around (f : Nat → Nat) :
    (s.around row).map (Landmark.relocate f) =
      (s.relocate f).around (row.map (Landmark.relocate f)) := by
  simp [around, relocate, Landmark.relocate]

/-- A node that looks like another one with its positions moved has its span and contents moved. -/
theorem eq_of_around {s' : Span} {row' : List Landmark} {f : Nat → Nat}
    (h : s'.around row' = (s.around row).map (Landmark.relocate f)) :
    s' = s.relocate f ∧ row' = row.map (Landmark.relocate f) := by
  rw [map_around] at h
  obtain ⟨hstart, hrest⟩ := List.cons.inj h
  obtain ⟨hrow, hstop⟩ := List.append_inj' hrest rfl
  refine ⟨?_, hrow⟩
  cases s'
  simp_all [relocate]

end Span

/-! ## Operands -/

def Numeral.relocate (f : Nat → Nat) (n : Numeral) : Numeral := { n with span := n.span.relocate f }

def RegisterName.relocate (f : Nat → Nat) : RegisterName → RegisterName
  | .numbered n => .numbered (n.relocate f)
  | r => r

/-- The number of a register stands behind the percent sign, which is a part of its token. -/
def RegisterName.layout : RegisterName → List Landmark
  | .numbered n =>
      [.start 1 n.span.start, .token (.register n.radix n.digits), .stop n.span.stop]
  | r => [.token r.token]

theorem Numeral.eq_relocate {n m : Numeral} {f : Nat → Nat} (hshape : m.unspanned = n.unspanned)
    (hspan : m.span = n.span.relocate f) : m = n.relocate f := by
  cases m
  cases n
  simp_all [unspanned, relocate]

theorem RegisterName.eq_relocate {r q : RegisterName} {f : Nat → Nat}
    (hshape : q.unspanned = r.unspanned)
    (hlayout : q.layout = r.layout.map (Landmark.relocate f)) : q = r.relocate f := by
  cases r with
  | numbered n =>
      cases q with
      | numbered m =>
          have hm : m.unspanned = n.unspanned := RegisterName.numbered.inj hshape
          simp only [layout, List.map_cons, Landmark.relocate, List.cons.injEq,
            Landmark.start.injEq, Landmark.stop.injEq] at hlayout
          have hspan : m.span = n.span.relocate f := by
            rw [Span.relocate, ← hlayout.1.2, ← hlayout.2.2.1]
          rw [relocate, ← Numeral.eq_relocate hm hspan]
      | _ => contradiction
  | high =>
      cases q with
      | high => rfl
      | _ => contradiction
  | remainder =>
      cases q with
      | remainder => rfl
      | _ => contradiction

namespace Operand

def span : Operand → Span
  | .number n => n.span
  | .name span _ | .half span _ _ | .text span _ | .register span _ | .load span _ _
  | .fetch span _ _ => span
  | .missing => {}

def relocate (f : Nat → Nat) : Operand → Operand
  | .number n => .number (n.relocate f)
  | .name span n => .name (span.relocate f) n
  | .half span side address => .half (span.relocate f) side (address.relocate f)
  | .text span value => .text (span.relocate f) value
  | .register span r => .register (span.relocate f) (r.relocate f)
  | .load span target value =>
      .load (span.relocate f) (target.relocate f) (value.relocate f)
  | .fetch span target address =>
      .fetch (span.relocate f) (target.relocate f) (address.relocate f)
  | .missing => .missing

def layout : Operand → List Landmark
  | .number n => n.span.around [.token (.number n.radix n.digits)]
  | .name span n => span.around [.token (.name n)]
  | .half span side address =>
      span.around (.token (.word side.word) :: .token (.mark (ascii '(')) :: address.layout ++
        [.token (.mark (ascii ')'))])
  | .text span value => span.around [.token (.text value)]
  | .register span r => span.around r.layout
  | .load span target value =>
      span.around (.token (.mark (ascii '(')) :: target.layout ++
        .token (.mark (ascii ':')) :: value.layout ++ [.token (.mark (ascii ')'))])
  | .fetch span target address =>
      span.around (.token (.mark (ascii '[')) :: target.layout ++
        .token (.mark (ascii ':')) :: address.layout ++ [.token (.mark (ascii ']'))])
  | .missing => []

theorem filterMap_layout (x : Operand) : x.layout.filterMap Landmark.token? = x.tokens := by
  induction x with
  | register _ r => cases r <;> rfl
  | half _ _ _ ih => simp [layout, tokens, Span.filterMap_around, Landmark.token?, ih]
  | load _ _ _ iht ihv => simp [layout, tokens, Span.filterMap_around, Landmark.token?, iht, ihv]
  | fetch _ _ _ iht iha => simp [layout, tokens, Span.filterMap_around, Landmark.token?, iht, iha]
  | _ => rfl

theorem isAnchored_layout (x : Operand) : Landmark.isAnchored x.layout = true := by
  induction x with
  | register _ r => cases r <;> rfl
  | half _ _ _ ih => exact Span.isAnchored_around rfl (Landmark.isAnchored_append ih rfl)
  | load _ _ _ iht ihv =>
      exact Span.isAnchored_around rfl (Landmark.isAnchored_append
        (Landmark.isAnchored_append iht ihv) rfl)
  | fetch _ _ _ iht iha =>
      exact Span.isAnchored_around rfl (Landmark.isAnchored_append
        (Landmark.isAnchored_append iht iha) rfl)
  | _ => rfl

/-- A node that is there has its first token before anything inside of it stops. -/
theorem layout_eq_around {x : Operand} (hx : x ≠ .missing) :
    ∃ row, x.layout = x.span.around row ∧ Landmark.leads row = true := by
  cases x with
  | missing => contradiction
  | register _ r => exact ⟨r.layout, rfl, by cases r <;> rfl⟩
  | _ => exact ⟨_, rfl, rfl⟩

theorem layout_unspanned (x : Operand) :
    x.unspanned.layout = x.layout.map (Landmark.relocate fun _ => 0) := by
  induction x with
  | register _ r => cases r <;> rfl
  | half _ _ _ ih => simp [layout, unspanned, Span.map_around, Landmark.relocate, Span.relocate, ih]
  | load _ _ _ iht ihv =>
      simp [layout, unspanned, Span.map_around, Landmark.relocate, Span.relocate, iht, ihv]
  | fetch _ _ _ iht iha =>
      simp [layout, unspanned, Span.map_around, Landmark.relocate, Span.relocate, iht, iha]
  | _ => rfl

theorem length_layout_eq {x y : Operand} (h : y.unspanned = x.unspanned) (f : Nat → Nat) :
    y.layout.length = (x.layout.map (Landmark.relocate f)).length := by
  have hlength := congrArg (fun z => z.layout.length) h
  simpa [layout_unspanned] using hlength

theorem bracket_inj {row row' inner inner' : List Landmark} {m m' k k' : Landmark}
    (hlength : row.length = row'.length)
    (h : row ++ m :: inner ++ [k] = row' ++ m' :: inner' ++ [k']) :
    row = row' ∧ inner = inner' := by
  obtain ⟨hfront, _⟩ := List.append_inj' h rfl
  obtain ⟨hrow, hback⟩ := List.append_inj hfront hlength
  exact ⟨hrow, (List.cons.inj hback).2⟩

/-- A shape and a layout make a tree. -/
theorem eq_relocate {x y : Operand} {f : Nat → Nat} (hshape : y.unspanned = x.unspanned)
    (hlayout : y.layout = x.layout.map (Landmark.relocate f)) : y = x.relocate f := by
  induction x generalizing y with
  | number n =>
      cases y with
      | number m =>
          have hspan := (Span.eq_of_around hlayout).1
          rw [relocate, ← Numeral.eq_relocate (number.inj hshape) hspan]
      | _ => contradiction
  | name span n =>
      cases y with
      | name span' n' =>
          obtain ⟨rfl, _⟩ := Span.eq_of_around hlayout
          rw [relocate, (name.inj hshape).2]
      | _ => contradiction
  | half span side address ih =>
      cases y with
      | half span' side' address' =>
          obtain ⟨_, rfl, haddress⟩ := half.inj hshape
          obtain ⟨rfl, hrow⟩ := Span.eq_of_around hlayout
          rw [List.map_append] at hrow
          obtain ⟨hfront, _⟩ := List.append_inj' hrow rfl
          rw [relocate, ih haddress (List.cons.inj (List.cons.inj hfront).2).2]
      | _ => contradiction
  | text span value =>
      cases y with
      | text span' value' =>
          obtain ⟨rfl, _⟩ := Span.eq_of_around hlayout
          rw [relocate, (text.inj hshape).2]
      | _ => contradiction
  | register span r =>
      cases y with
      | register span' r' =>
          obtain ⟨rfl, hrow⟩ := Span.eq_of_around hlayout
          rw [relocate, RegisterName.eq_relocate (register.inj hshape).2 hrow]
      | _ => contradiction
  | load span target value iht ihv =>
      cases y with
      | load span' target' value' =>
          obtain ⟨_, htarget, hvalue⟩ := load.inj hshape
          obtain ⟨rfl, hrow⟩ := Span.eq_of_around hlayout
          rw [List.map_append, List.map_append] at hrow
          obtain ⟨hfront, hback⟩ := bracket_inj
            (congrArg (· + 1) (length_layout_eq htarget f)) hrow
          rw [relocate, iht htarget (List.cons.inj hfront).2, ihv hvalue hback]
      | _ => contradiction
  | fetch span target address iht iha =>
      cases y with
      | fetch span' target' address' =>
          obtain ⟨_, htarget, haddress⟩ := fetch.inj hshape
          obtain ⟨rfl, hrow⟩ := Span.eq_of_around hlayout
          rw [List.map_append, List.map_append] at hrow
          obtain ⟨hfront, hback⟩ := bracket_inj
            (congrArg (· + 1) (length_layout_eq htarget f)) hrow
          rw [relocate, iht htarget (List.cons.inj hfront).2, iha haddress hback]
      | _ => contradiction
  | missing =>
      cases y with
      | missing => rfl
      | _ => contradiction

/-! ### Rows of operands -/

/-- Operands with the given tokens in front of each. -/
def layouts (ks : List Token) (xs : List Operand) : List Landmark :=
  xs.flatMap fun x => ks.map .token ++ x.layout

/-- Items with commas between them. -/
def listLayout : List Operand → List Landmark
  | [] => []
  | first :: rest => first.layout ++ layouts [.mark (ascii ',')] rest

theorem filterMap_layouts (ks : List Token) (xs : List Operand) :
    (layouts ks xs).filterMap Landmark.token? = xs.flatMap fun x => ks ++ x.tokens := by
  have hks : (ks.map Landmark.token).filterMap Landmark.token? = ks := by
    rw [List.filterMap_map]
    exact List.filterMap_some
  induction xs with
  | nil => rfl
  | cons x xs ih =>
      rw [layouts, List.flatMap_cons, List.filterMap_append, List.filterMap_append, hks,
        filterMap_layout, List.flatMap_cons]
      exact congrArg _ ih

theorem isAnchored_layouts (ks : List Token) (xs : List Operand) :
    Landmark.isAnchored (layouts ks xs) = true := by
  have hks : Landmark.isAnchored (ks.map Landmark.token) = true := by
    induction ks with
    | nil => rfl
    | cons k ks ih => exact ih
  induction xs with
  | nil => rfl
  | cons x xs ih =>
      exact Landmark.isAnchored_append (Landmark.isAnchored_append hks x.isAnchored_layout) ih

theorem layouts_unspanned (ks : List Token) (xs : List Operand) :
    layouts ks (xs.map unspanned) = (layouts ks xs).map (Landmark.relocate fun _ => 0) := by
  have hks : (ks.map Landmark.token).map (Landmark.relocate fun _ => 0) = ks.map .token := by
    rw [List.map_map]
    rfl
  induction xs with
  | nil => rfl
  | cons x xs ih =>
      rw [layouts, List.map_cons, List.flatMap_cons, layouts, List.flatMap_cons, List.map_append,
        List.map_append, hks, layout_unspanned]
      exact congrArg _ ih

theorem layouts_eq_relocate {ks : List Token} {xs ys : List Operand} {f : Nat → Nat}
    (hshape : ys.map unspanned = xs.map unspanned)
    (hlayout : layouts ks ys = (layouts ks xs).map (Landmark.relocate f)) :
    ys = xs.map (relocate f) := by
  induction xs generalizing ys with
  | nil => exact List.map_eq_nil_iff.mp hshape
  | cons x xs ih =>
      cases ys with
      | nil => contradiction
      | cons y ys =>
          obtain ⟨hy, hys⟩ := List.cons.inj hshape
          rw [layouts, layouts, List.flatMap_cons, List.flatMap_cons, List.map_append,
            List.map_append] at hlayout
          have hlength := length_layout_eq hy f
          obtain ⟨hfirst, hrest⟩ := List.append_inj hlayout (by simp_all)
          obtain ⟨_, hrow⟩ := List.append_inj hfirst (by simp)
          rw [List.map_cons, eq_relocate hy hrow, ih hys hrest]

theorem filterMap_listLayout (xs : List Operand) :
    (listLayout xs).filterMap Landmark.token? = listTokens xs := by
  cases xs with
  | nil => rfl
  | cons first rest =>
      rw [listLayout, List.filterMap_append, filterMap_layout, filterMap_layouts]
      rfl

theorem isAnchored_listLayout (xs : List Operand) :
    Landmark.isAnchored (listLayout xs) = true := by
  cases xs with
  | nil => rfl
  | cons first rest =>
      exact Landmark.isAnchored_append first.isAnchored_layout (isAnchored_layouts _ rest)

theorem listLayout_unspanned (xs : List Operand) :
    listLayout (xs.map unspanned) = (listLayout xs).map (Landmark.relocate fun _ => 0) := by
  cases xs with
  | nil => rfl
  | cons first rest =>
      rw [List.map_cons, listLayout, listLayout, List.map_append, layout_unspanned,
        layouts_unspanned]

theorem listLayout_eq_relocate {xs ys : List Operand} {f : Nat → Nat}
    (hshape : ys.map unspanned = xs.map unspanned)
    (hlayout : listLayout ys = (listLayout xs).map (Landmark.relocate f)) :
    ys = xs.map (relocate f) := by
  cases xs with
  | nil => exact List.map_eq_nil_iff.mp hshape
  | cons x xs =>
      cases ys with
      | nil => contradiction
      | cons y ys =>
          obtain ⟨hy, hys⟩ := List.cons.inj hshape
          rw [listLayout, listLayout, List.map_append] at hlayout
          obtain ⟨hfirst, hrest⟩ := List.append_inj hlayout (length_layout_eq hy f)
          rw [List.map_cons, eq_relocate hy hfirst, layouts_eq_relocate hys hrest]

end Operand

/-! ## Statements -/

namespace Statement

def span : Statement → Span
  | .label span _ | .block span _ | .instruction span _ _ | .data span _ | .words span _
  | .defineValue span _ _ | .defineAddress span _ _ | .defineRegister span _ _ => span
  | .missing => {}

mutual

def relocate (f : Nat → Nat) : Statement → Statement
  | .label span n => .label (span.relocate f) n
  | .block span body => .block (span.relocate f) (relocateAll f body)
  | .instruction span i operands =>
      .instruction (span.relocate f) i (operands.map (Operand.relocate f))
  | .data span items => .data (span.relocate f) (items.map (Operand.relocate f))
  | .words span items => .words (span.relocate f) (items.map (Operand.relocate f))
  | .defineValue span n x => .defineValue (span.relocate f) n (x.relocate f)
  | .defineAddress span n x => .defineAddress (span.relocate f) n (x.relocate f)
  | .defineRegister span n x => .defineRegister (span.relocate f) n (x.relocate f)
  | .missing => .missing

def relocateAll (f : Nat → Nat) : List Statement → List Statement
  | [] => []
  | x :: rest => x.relocate f :: relocateAll f rest

end

/-- A definition of a name. -/
def definitionLayout (span : Span) (word n : Bytes) (x : Operand) : List Landmark :=
  span.around (.token (.word word) :: .token (.name n) :: x.layout)

mutual

def layout : Statement → List Landmark
  | .label span n => span.around [.token (.label n)]
  | .block span body =>
      span.around (.token (.mark (ascii '\x7b')) :: layoutOf body ++
        [.token (.mark (ascii '\x7d'))])
  | .instruction span i operands =>
      span.around (.token (.word i.name) :: Operand.layouts [] operands)
  | .data span items => span.around (.token (.word (utf8 "dat")) :: Operand.listLayout items)
  | .words span items => span.around (.token (.word (utf8 "datl")) :: Operand.listLayout items)
  | .defineValue span n x => definitionLayout span (utf8 "val") n x
  | .defineAddress span n x => definitionLayout span (utf8 "addr") n x
  | .defineRegister span n x => definitionLayout span (utf8 "reg") n x
  | .missing => []

def layoutOf : List Statement → List Landmark
  | [] => []
  | x :: rest => x.layout ++ layoutOf rest

end

theorem layoutOf_eq (body : List Statement) : layoutOf body = body.flatMap layout := by
  induction body with
  | nil => rfl
  | cons x body ih => rw [layoutOf, ih, List.flatMap_cons]

theorem filterMap_definitionLayout (span : Span) (word n : Bytes) (x : Operand) :
    (definitionLayout span word n x).filterMap Landmark.token? =
      .word word :: .name n :: x.tokens := by
  simp [definitionLayout, Span.filterMap_around, Landmark.token?, Operand.filterMap_layout]

theorem definitionLayout_eq_relocate {span span' : Span} {word n : Bytes} {x y : Operand}
    {f : Nat → Nat} (hshape : y.unspanned = x.unspanned)
    (hlayout : definitionLayout span' word n y =
      (definitionLayout span word n x).map (Landmark.relocate f)) :
    span' = span.relocate f ∧ y = x.relocate f := by
  obtain ⟨rfl, hrow⟩ := Span.eq_of_around hlayout
  exact ⟨rfl, Operand.eq_relocate hshape (List.cons.inj (List.cons.inj hrow).2).2⟩

mutual

theorem filterMap_layout (x : Statement) : x.layout.filterMap Landmark.token? = x.tokens := by
  cases x with
  | label _ _ => rfl
  | block _ body =>
      simp [layout, tokens, Span.filterMap_around, Landmark.token?, filterMap_layoutOf body]
  | instruction _ _ operands =>
      simp [layout, tokens, Span.filterMap_around, Landmark.token?, Operand.filterMap_layouts]
  | data _ items =>
      simp [layout, tokens, Span.filterMap_around, Landmark.token?, Operand.filterMap_listLayout]
  | words _ items =>
      simp [layout, tokens, Span.filterMap_around, Landmark.token?, Operand.filterMap_listLayout]
  | missing => rfl
  | _ => exact filterMap_definitionLayout _ _ _ _

theorem filterMap_layoutOf (body : List Statement) :
    (layoutOf body).filterMap Landmark.token? = tokensOf body := by
  cases body with
  | nil => rfl
  | cons x body =>
      rw [layoutOf, List.filterMap_append, filterMap_layout x, filterMap_layoutOf body, tokensOf]

end

mutual

theorem isAnchored_layout (x : Statement) : Landmark.isAnchored x.layout = true := by
  cases x with
  | block _ body =>
      exact Span.isAnchored_around rfl (Landmark.isAnchored_append (isAnchored_layoutOf body) rfl)
  | instruction _ _ operands =>
      exact Span.isAnchored_around rfl (Operand.isAnchored_layouts [] operands)
  | data _ items => exact Span.isAnchored_around rfl (Operand.isAnchored_listLayout items)
  | words _ items => exact Span.isAnchored_around rfl (Operand.isAnchored_listLayout items)
  | defineValue _ _ x => exact Span.isAnchored_around rfl x.isAnchored_layout
  | defineAddress _ _ x => exact Span.isAnchored_around rfl x.isAnchored_layout
  | defineRegister _ _ x => exact Span.isAnchored_around rfl x.isAnchored_layout
  | _ => rfl

theorem isAnchored_layoutOf (body : List Statement) :
    Landmark.isAnchored (layoutOf body) = true := by
  cases body with
  | nil => rfl
  | cons x body =>
      exact Landmark.isAnchored_append (isAnchored_layout x) (isAnchored_layoutOf body)

end

theorem layout_eq_around {x : Statement} (hx : x ≠ .missing) :
    ∃ row, x.layout = x.span.around row ∧ Landmark.leads row = true := by
  cases x with
  | missing => contradiction
  | _ => exact ⟨_, rfl, rfl⟩

theorem definitionLayout_unspanned (span : Span) (word n : Bytes) (x : Operand) :
    definitionLayout {} word n x.unspanned =
      (definitionLayout span word n x).map (Landmark.relocate fun _ => 0) := by
  simp [definitionLayout, Span.map_around, Span.relocate, Landmark.relocate,
    Operand.layout_unspanned]

mutual

theorem layout_unspanned (x : Statement) :
    x.unspanned.layout = x.layout.map (Landmark.relocate fun _ => 0) := by
  cases x with
  | label _ _ => rfl
  | block _ body =>
      simp [layout, unspanned, Span.map_around, Span.relocate, Landmark.relocate,
        layoutOf_unspanned body]
  | instruction _ _ operands =>
      simp [layout, unspanned, Span.map_around, Span.relocate, Landmark.relocate,
        Operand.layouts_unspanned]
  | data _ items =>
      simp [layout, unspanned, Span.map_around, Span.relocate, Landmark.relocate,
        Operand.listLayout_unspanned]
  | words _ items =>
      simp [layout, unspanned, Span.map_around, Span.relocate, Landmark.relocate,
        Operand.listLayout_unspanned]
  | missing => rfl
  | _ => exact definitionLayout_unspanned _ _ _ _

theorem layoutOf_unspanned (body : List Statement) :
    layoutOf (unspannedAll body) = (layoutOf body).map (Landmark.relocate fun _ => 0) := by
  cases body with
  | nil => rfl
  | cons x body =>
      rw [unspannedAll, layoutOf, layoutOf, List.map_append, layout_unspanned x,
        layoutOf_unspanned body]

end

theorem length_layout_eq {x y : Statement} (h : y.unspanned = x.unspanned) (f : Nat → Nat) :
    y.layout.length = (x.layout.map (Landmark.relocate f)).length := by
  have hlength := congrArg (fun z => z.layout.length) h
  simpa [layout_unspanned] using hlength

mutual

theorem eq_relocate {x y : Statement} {f : Nat → Nat} (hshape : y.unspanned = x.unspanned)
    (hlayout : y.layout = x.layout.map (Landmark.relocate f)) : y = x.relocate f := by
  cases x with
  | label span n =>
      cases y with
      | label span' n' =>
          obtain ⟨rfl, _⟩ := Span.eq_of_around hlayout
          rw [relocate, (label.inj hshape).2]
      | _ => contradiction
  | block span body =>
      cases y with
      | block span' body' =>
          obtain ⟨rfl, hrow⟩ := Span.eq_of_around hlayout
          rw [List.map_append] at hrow
          obtain ⟨hfront, _⟩ := List.append_inj' hrow rfl
          rw [relocate, relocateAll_eq (block.inj hshape).2 (List.cons.inj hfront).2]
      | _ => contradiction
  | instruction span i operands =>
      cases y with
      | instruction span' i' operands' =>
          obtain ⟨_, rfl, hoperands⟩ := instruction.inj hshape
          obtain ⟨rfl, hrow⟩ := Span.eq_of_around hlayout
          rw [relocate, Operand.layouts_eq_relocate hoperands (List.cons.inj hrow).2]
      | _ => contradiction
  | data span items =>
      cases y with
      | data span' items' =>
          obtain ⟨rfl, hrow⟩ := Span.eq_of_around hlayout
          rw [relocate, Operand.listLayout_eq_relocate (data.inj hshape).2 (List.cons.inj hrow).2]
      | _ => contradiction
  | words span items =>
      cases y with
      | words span' items' =>
          obtain ⟨rfl, hrow⟩ := Span.eq_of_around hlayout
          rw [relocate, Operand.listLayout_eq_relocate (words.inj hshape).2 (List.cons.inj hrow).2]
      | _ => contradiction
  | defineValue span n x =>
      cases y with
      | defineValue span' n' x' =>
          obtain ⟨_, rfl, hx⟩ := defineValue.inj hshape
          obtain ⟨rfl, rfl⟩ := definitionLayout_eq_relocate hx hlayout
          rfl
      | _ => contradiction
  | defineAddress span n x =>
      cases y with
      | defineAddress span' n' x' =>
          obtain ⟨_, rfl, hx⟩ := defineAddress.inj hshape
          obtain ⟨rfl, rfl⟩ := definitionLayout_eq_relocate hx hlayout
          rfl
      | _ => contradiction
  | defineRegister span n x =>
      cases y with
      | defineRegister span' n' x' =>
          obtain ⟨_, rfl, hx⟩ := defineRegister.inj hshape
          obtain ⟨rfl, rfl⟩ := definitionLayout_eq_relocate hx hlayout
          rfl
      | _ => contradiction
  | missing =>
      cases y with
      | missing => rfl
      | _ => contradiction

theorem relocateAll_eq {body read : List Statement} {f : Nat → Nat}
    (hshape : unspannedAll read = unspannedAll body)
    (hlayout : layoutOf read = (layoutOf body).map (Landmark.relocate f)) :
    read = relocateAll f body := by
  cases body with
  | nil =>
      cases read with
      | nil => rfl
      | cons y read => contradiction
  | cons x body =>
      cases read with
      | nil => contradiction
      | cons y read =>
          obtain ⟨hy, hread⟩ := List.cons.inj hshape
          rw [layoutOf, layoutOf, List.map_append] at hlayout
          obtain ⟨hfirst, hrest⟩ := List.append_inj hlayout (length_layout_eq hy f)
          rw [relocateAll, eq_relocate hy hfirst, relocateAll_eq hread hrest]

end

end Statement

end Gx
