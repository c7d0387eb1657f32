import Gx.Grammar.Pattern
import Gx.Proofs.Grammar.Placement

/-!
# Every node can be read on its own

The nodes of a program that was read from a text lie in it one inside of the other.  The bytes of a
node alone are enough to read it again: they have the tokens of the node, a rule that can read a
node finds it where its tokens stand, and the text leaves no choice for the positions.
-/

namespace Gx

/-! ## Nodes -/

/-- A statement or an operand of a program. -/
inductive Node where
  | statement (x : Statement)
  | operand (x : Operand)

namespace Node

def span : Node → Span
  | .statement x => x.span
  | .operand x => x.span

def relocate (f : Nat → Nat) : Node → Node
  | .statement x => .statement (x.relocate f)
  | .operand x => .operand (x.relocate f)

def unspanned : Node → Node
  | .statement x => .statement x.unspanned
  | .operand x => .operand x.unspanned

def tokens : Node → List Token
  | .statement x => x.tokens
  | .operand x => x.tokens

def layout : Node → List Landmark
  | .statement x => x.layout
  | .operand x => x.layout

/-- The node as a rule of the grammar returns it. -/
def value : Node → Match
  | .statement x => .statement x
  | .operand x => .operand x

/-- The nodes right below a node, in source order. -/
def children : Node → List Node
  | .statement (.block _ body) => body.map .statement
  | .statement (.instruction _ _ operands) => operands.map .operand
  | .statement (.data _ items) | .statement (.words _ items) => items.map .operand
  | .statement (.defineValue _ _ x) | .statement (.defineAddress _ _ x)
  | .statement (.defineRegister _ _ x) => [.operand x]
  | .operand (.half _ _ address) => [.operand address]
  | .operand (.register _ (.numbered n)) => [.operand (.number n)]
  | .operand (.load _ target x) | .operand (.fetch _ target x) => [.operand target, .operand x]
  | _ => []

/-- The rule of the grammar for nodes of this kind. -/
def rule : Node → Rule
  | .statement (.label _ _) => .label
  | .statement (.block _ _) => .block
  | .statement (.instruction _ _ _) => .instruction
  | .statement (.data _ _) => .data
  | .statement (.words _ _) => .words
  | .statement (.defineValue _ _ _) => .valueDefinition
  | .statement (.defineAddress _ _ _) => .addressDefinition
  | .statement (.defineRegister _ _ _) => .registerDefinition
  | .statement .missing => .statement
  | .operand (.number _) => .number
  | .operand (.name _ _) => .name
  | .operand (.half _ _ _) => .half
  | .operand (.text _ _) => .text
  | .operand (.register _ _) => .registerLiteral
  | .operand (.load _ _ _) => .load
  | .operand (.fetch _ _ _) => .fetch
  | .operand .missing => .value

/-- Whether the node has the parts that the grammar asks for. -/
def isGrammatical : Node → Bool
  | .statement x => x.isGrammatical
  | .operand x => x.isDataItem || x.isRegister

end Node

/-- Whether the rule is a choice, and the node is one of the things to choose from. -/
def Rule.offers : Rule → Node → Bool
  | .statement, .statement _ => true
  | .address, .operand x => x.isAddress
  | .value, .operand x => x.isValue
  | .dataItem, .operand x => x.isDataItem
  | .register, .operand x => x.isRegister
  | _, _ => false

/-- The node is a part of the program. -/
inductive Program.Has (p : Program) : Node → Prop where
  | statement {x : Statement} (h : x ∈ p.body) : Has p (.statement x)
  | child {n m : Node} (h : Has p n) (hm : m ∈ n.children) : Has p m

/-- The nodes lie inside of the span, disjoint and in this order. -/
def Span.Arranges (s : Span) (ns : List Node) : Prop :=
  (∀ n ∈ ns, s.start ≤ n.span.start ∧ n.span.stop ≤ s.stop) ∧
    ns.Pairwise fun n m => n.span.stop ≤ m.span.start

namespace Node

variable {n : Node}

theorem layout_eq_around (hn : n.isGrammatical = true) :
    ∃ row, n.layout = n.span.around row ∧ Landmark.leads row = true := by
  cases n with
  | statement x =>
      refine Statement.layout_eq_around ?_
      rintro rfl
      contradiction
  | operand x =>
      refine Operand.layout_eq_around ?_
      rintro rfl
      contradiction

theorem isAnchored_layout (n : Node) : Landmark.isAnchored n.layout = true := by
  cases n with
  | statement x => exact x.isAnchored_layout
  | operand x => exact x.isAnchored_layout

theorem filterMap_layout (n : Node) : n.layout.filterMap Landmark.token? = n.tokens := by
  cases n with
  | statement x => exact x.filterMap_layout
  | operand x => exact x.filterMap_layout

/-- A text leaves no choice for the positions of a node. -/
theorem eq_relocate {m : Node} {f : Nat → Nat} {c next next' : Cursor}
    (hshape : m.unspanned = n.unspanned) (hm : Lies m.layout c next)
    (hn : Lies (n.layout.map (Landmark.relocate f)) c next') : m = n.relocate f := by
  have herase : ∀ row : List Landmark,
      (row.map (Landmark.relocate f)).map (Landmark.relocate fun _ => 0) =
        row.map (Landmark.relocate fun _ => 0) := by
    intro row
    rw [List.map_map]
    congr 1
    funext k
    cases k <;> rfl
  cases n with
  | statement x =>
      cases m with
      | statement y =>
          have hy : y.unspanned = x.unspanned := statement.inj hshape
          obtain ⟨hlayout, _⟩ := hm.unique hn (by
            rw [herase]
            change y.layout.map _ = x.layout.map _
            rw [← Statement.layout_unspanned, hy, Statement.layout_unspanned])
          exact congrArg statement (Statement.eq_relocate hy hlayout)
      | operand y => contradiction
  | operand x =>
      cases m with
      | statement y => contradiction
      | operand y =>
          have hy : y.unspanned = x.unspanned := operand.inj hshape
          obtain ⟨hlayout, _⟩ := hm.unique hn (by
            rw [herase]
            change y.layout.map _ = x.layout.map _
            rw [← Operand.layout_unspanned, hy, Operand.layout_unspanned])
          exact congrArg operand (Operand.eq_relocate hy hlayout)

end Node

/-! ## Nodes inside of nodes -/

/-- The nodes have their layouts in the row, one behind the other. -/
inductive Holds : List Landmark → List Node → Prop where
  | nil : Holds [] []
  | mark {row : List Landmark} {ns : List Node} (m : Landmark) (h : Holds row ns) :
      Holds (m :: row) ns
  | node {row : List Landmark} {ns : List Node} {n : Node} (hn : n.isGrammatical = true)
      (h : Holds row ns) : Holds (n.layout ++ row) (n :: ns)
  | register {row : List Landmark} {ns : List Node} (n : Numeral) (h : Holds row ns) :
      Holds ((RegisterName.numbered n).layout ++ row) (.operand (.number n) :: ns)

section

variable {row row' : List Landmark} {ns ns' : List Node} {c next : Cursor}

theorem Holds.append (h : Holds row ns) (h' : Holds row' ns') : Holds (row ++ row') (ns ++ ns') := by
  induction h with
  | nil => exact h'
  | mark m _ ih => exact ih.mark m
  | node hn _ ih =>
      rw [List.append_assoc]
      exact ih.node hn
  | register n _ ih => exact ih.register n

theorem holds_single {n : Node} (hn : n.isGrammatical = true) : Holds n.layout [n] := by
  have hrow := Holds.nil.node hn
  rwa [List.append_nil] at hrow

theorem Holds.around (h : Holds row ns) (s : Span) : Holds (s.around row) ns := by
  have hrow := (h.mark (.start 0 s.start)).append (Holds.nil.mark (.stop s.stop))
  rwa [List.append_nil] at hrow

theorem Holds.isGrammatical (h : Holds row ns) : ∀ n ∈ ns, n.isGrammatical = true := by
  induction h with
  | nil => simp
  | mark _ _ ih => exact ih
  | node hn _ ih => exact List.forall_mem_cons.mpr ⟨hn, ih⟩
  | register n _ ih => exact List.forall_mem_cons.mpr ⟨rfl, ih⟩

/-- The number of a register lies behind the percent sign. -/
theorem lies_number_of_register {n : Numeral}
    (h : Lies (RegisterName.numbered n).layout c next) :
    ∃ d, c.Reaches d ∧ (Blank.gap.skip c).pos ≤ n.span.start ∧
      Lies (Operand.number n).layout d next := by
  obtain ⟨hstart, rest, hk, hstop, hnext⟩ := h
  obtain ⟨_, ⟨b, hb, rfl⟩, hc, hopen⟩ := hk
  obtain rfl : next = (Blank.gap.skip c).leaving rest := hnext
  have hheads : (Token.number n.radix n.digits).Heads (b ++ rest) rest :=
    ⟨b, hb, rfl, fun _ => hopen rfl⟩
  have hpercent : (Blank.gap.skip c).Reaches ((Blank.gap.skip c).leaving (b ++ rest)) :=
    Cursor.reaches_leaving (hc ▸ List.suffix_cons _ _)
  have hskip := skip_of_isSolid (c := (Blank.gap.skip c).leaving (b ++ rest)) hheads.isSolid
  have hpos : ((Blank.gap.skip c).leaving (b ++ rest)).pos = (Blank.gap.skip c).pos + 1 := by
    rw [Cursor.leaving, hc]
    simp
  refine ⟨_, (reaches_skip c).trans hpercent, by omega, ?_⟩
  rw [Operand.layout, Span.lies_around, hskip, hpos, ← hstart]
  refine ⟨by rw [← hstop], rest, ?_, ?_⟩
  · rw [hskip]
    exact hheads
  · rw [hskip]
    exact (Cursor.leaving_leaving _ hpercent.1.length_le hheads.length_lt.le).symm

/-- A node starts behind the gap and stops where its layout does. -/
theorem Node.span_of_lies {n : Node} (hn : n.isGrammatical = true) (h : Lies n.layout c next) :
    n.span = ⟨(Blank.gap.skip c).pos, next.pos⟩ ∧ (Blank.gap.skip c).Reaches next ∧
      n.span.start < n.span.stop := by
  obtain ⟨row, hlayout, hleads⟩ := layout_eq_around hn
  rw [hlayout, Span.lies_around] at h
  obtain ⟨hspan, hrow⟩ := h
  obtain ⟨hreaches, hlt⟩ := hrow.reaches_of_skip hleads
  refine ⟨hspan, hreaches, ?_⟩
  rw [hspan]
  exact hlt

/-- The nodes lie in the text between the two cursors, disjoint and in this order. -/
def Placed (c next : Cursor) (ns : List Node) : Prop :=
  (∀ n ∈ ns, ∃ d last, c.Reaches d ∧ Lies n.layout d last) ∧
    Span.Arranges ⟨(Blank.gap.skip c).pos, next.pos⟩ ns

theorem Placed.of_reaches {d : Cursor} (h : Placed d next ns) (hcd : c.Reaches d)
    (hskip : (Blank.gap.skip c).pos ≤ (Blank.gap.skip d).pos) : Placed c next ns := by
  obtain ⟨hplaces, hinside, hordered⟩ := h
  refine ⟨fun n hn => ?_, fun n hn => ?_, hordered⟩
  · obtain ⟨e, last, he, hlies⟩ := hplaces n hn
    exact ⟨e, last, hcd.trans he, hlies⟩
  · exact ⟨hskip.trans (hinside n hn).1, (hinside n hn).2⟩

theorem Placed.cons {n : Node} {d mid : Cursor} (h : Placed mid next ns)
    (hn : n.isGrammatical = true) (hcd : c.Reaches d)
    (hstart : (Blank.gap.skip c).pos ≤ n.span.start) (hlies : Lies n.layout d mid)
    (hnext : mid.Reaches next) : Placed c next (n :: ns) := by
  obtain ⟨hspan, _, hlt⟩ := Node.span_of_lies hn hlies
  have hstop : n.span.stop = mid.pos := by rw [hspan]
  have hmid := (reaches_skip mid).pos_le
  have hrest := h.of_reaches (hcd.trans hlies.reaches) (by omega)
  refine ⟨List.forall_mem_cons.mpr ⟨⟨d, mid, hcd, hlies⟩, hrest.1⟩, ?_, ?_⟩
  · refine List.forall_mem_cons.mpr ⟨⟨hstart, ?_⟩, hrest.2.1⟩
    rw [hstop]
    exact hnext.pos_le
  · refine List.pairwise_cons.mpr ⟨fun m hm => ?_, hrest.2.2⟩
    rw [hstop]
    exact hmid.trans (h.2.1 m hm).1

/-- Where a row lies, its nodes lie as well. -/
theorem Holds.placed (h : Holds row ns) (hlies : Lies row c next) : Placed c next ns := by
  induction h generalizing c with
  | nil => exact ⟨by simp, by simp [Span.Arranges]⟩
  | mark m _ ih =>
      cases m with
      | token k =>
          obtain ⟨rest, hk, hrest⟩ := hlies
          have hstep := Cursor.reaches_leaving (c := Blank.gap.skip c) hk.suffix
          exact (ih hrest).of_reaches (reaches_of_heads hk) (hstep.trans (reaches_skip _)).pos_le
      | start ahead pos => exact ih hlies.2
      | stop pos => exact ih hlies.2
  | node hn _ ih =>
      obtain ⟨mid, hfirst, hrest⟩ := lies_append.mp hlies
      have hspan := (Node.span_of_lies hn hfirst).1
      refine (ih hrest).cons hn (Cursor.Reaches.refl c) ?_ hfirst hrest.reaches
      rw [hspan]
  | register n _ ih =>
      obtain ⟨mid, hfirst, hrest⟩ := lies_append.mp hlies
      obtain ⟨d, hcd, hstart, hnumber⟩ := lies_number_of_register hfirst
      exact (ih hrest).cons (n := .operand (.number n)) rfl hcd hstart hnumber hrest.reaches

end

/-! ## The children of a node -/

theorem Operand.isGrammatical_of_isAddress {x : Operand} (h : x.isAddress = true) :
    (Node.operand x).isGrammatical = true := by
  cases x with
  | number n => rfl
  | name span n => rfl
  | _ => contradiction

theorem Operand.isGrammatical_of_isDataItem {x : Operand} (h : x.isDataItem = true) :
    (Node.operand x).isGrammatical = true := by
  rw [Node.isGrammatical, h, Bool.true_or]

theorem Operand.isGrammatical_of_isValue {x : Operand} (h : x.isValue = true) :
    (Node.operand x).isGrammatical = true := by
  apply isGrammatical_of_isDataItem
  cases x with
  | text span v => rfl
  | _ => exact h

theorem Operand.isGrammatical_of_isRegister {x : Operand} (h : x.isRegister = true) :
    (Node.operand x).isGrammatical = true := by
  rw [Node.isGrammatical, h, Bool.or_true]

theorem Operand.isAddress_of_half {span : Span} {side : Half} {address : Operand}
    (h : (Node.operand (.half span side address)).isGrammatical = true) :
    address.isAddress = true := by
  simpa [Node.isGrammatical, isDataItem, isValue, isRegister] using h

theorem Operand.parts_of_load {span : Span} {target y : Operand}
    (h : (Node.operand (.load span target y)).isGrammatical = true) :
    target.isRegister = true ∧ y.isValue = true := by
  simpa [Node.isGrammatical, isDataItem, isValue, isRegister] using h

theorem Operand.parts_of_fetch {span : Span} {target y : Operand}
    (h : (Node.operand (.fetch span target y)).isGrammatical = true) :
    target.isRegister = true ∧ y.isAddress = true := by
  simpa [Node.isGrammatical, isDataItem, isValue, isRegister] using h

theorem Operand.isGrammatical_of_allFit {kinds : List Kind} {xs : List Operand}
    (h : Operand.allFit kinds xs = true) : ∀ x ∈ xs, (Node.operand x).isGrammatical = true := by
  induction kinds generalizing xs with
  | nil =>
      cases xs with
      | nil => simp
      | cons x xs => contradiction
  | cons kind kinds ih =>
      cases xs with
      | nil => contradiction
      | cons x xs =>
          simp only [Operand.allFit, Bool.and_eq_true] at h
          refine List.forall_mem_cons.mpr ⟨?_, ih h.2⟩
          cases kind with
          | register => exact isGrammatical_of_isRegister h.1
          | address => exact isGrammatical_of_isAddress h.1
          | value => exact isGrammatical_of_isValue h.1
          | other _ => exact isGrammatical_of_isValue h.1

theorem holds_layouts (ks : List Token) {xs : List Operand}
    (h : ∀ x ∈ xs, (Node.operand x).isGrammatical = true) :
    Holds (Operand.layouts ks xs) (xs.map .operand) := by
  have hks : Holds (ks.map .token) [] := by
    induction ks with
    | nil => exact Holds.nil
    | cons k ks ih => exact ih.mark _
  induction xs with
  | nil => exact Holds.nil
  | cons x xs ih =>
      rw [List.forall_mem_cons] at h
      exact (hks.append (holds_single h.1)).append (ih h.2)

theorem holds_listLayout {xs : List Operand}
    (h : ∀ x ∈ xs, (Node.operand x).isGrammatical = true) :
    Holds (Operand.listLayout xs) (xs.map .operand) := by
  cases xs with
  | nil => exact Holds.nil
  | cons x xs =>
      rw [List.forall_mem_cons] at h
      exact (holds_single h.1).append (holds_layouts _ h.2)

theorem holds_body {body : List Statement} (h : ∀ x ∈ body, x.isGrammatical = true) :
    Holds (body.flatMap Statement.layout) (body.map .statement) := by
  induction body with
  | nil => exact Holds.nil
  | cons x body ih =>
      rw [List.forall_mem_cons] at h
      rw [List.flatMap_cons]
      exact (ih h.2).node (n := .statement x) h.1

theorem Operand.holds_children {x : Operand} (h : (Node.operand x).isGrammatical = true) :
    Holds x.layout (Node.operand x).children := by
  cases x with
  | number n => exact (Holds.nil.mark _).around _
  | name span n => exact (Holds.nil.mark _).around _
  | half span side address =>
      have hrow := holds_single (isGrammatical_of_isAddress (isAddress_of_half h))
      exact Holds.around (((hrow.mark _).mark _).append (Holds.nil.mark _)) _
  | text span v => exact (Holds.nil.mark _).around _
  | register span r =>
      cases r with
      | numbered n => exact (Holds.nil.register n).around _
      | high => exact (Holds.nil.mark _).around _
      | remainder => exact (Holds.nil.mark _).around _
  | load span target y =>
      have hparts := parts_of_load h
      have htarget := holds_single (isGrammatical_of_isRegister hparts.1)
      have hy := holds_single (isGrammatical_of_isValue hparts.2)
      exact Holds.around (((htarget.mark _).append (hy.mark _)).append (Holds.nil.mark _)) _
  | fetch span target y =>
      have hparts := parts_of_fetch h
      have htarget := holds_single (isGrammatical_of_isRegister hparts.1)
      have hy := holds_single (isGrammatical_of_isAddress hparts.2)
      exact Holds.around (((htarget.mark _).append (hy.mark _)).append (Holds.nil.mark _)) _
  | missing => contradiction

theorem Statement.holds_children {x : Statement} (h : x.isGrammatical = true) :
    Holds x.layout (Node.statement x).children := by
  cases x with
  | label span n => exact (Holds.nil.mark _).around _
  | block span body =>
      have hbody := holds_body ((Grammar.areGrammatical_iff body).mp h)
      rw [← Statement.layoutOf_eq] at hbody
      have hrow := (hbody.mark (.token (.mark (ascii '\x7b')))).append
        (Holds.nil.mark (.token (.mark (ascii '\x7d'))))
      rw [List.append_nil] at hrow
      exact hrow.around span
  | instruction span i operands =>
      rw [isGrammatical, Bool.and_eq_true] at h
      exact Holds.around ((holds_layouts [] (Operand.isGrammatical_of_allFit h.2)).mark _) span
  | data span items =>
      have hitems := fun x hx =>
        Operand.isGrammatical_of_isDataItem ((Grammar.data_items h).2 x hx)
      exact Holds.around ((holds_listLayout hitems).mark _) span
  | words span items =>
      have hitems := fun x hx =>
        Operand.isGrammatical_of_isAddress ((Grammar.words_items h).2 x hx)
      exact Holds.around ((holds_listLayout hitems).mark _) span
  | defineValue span n x =>
      have hx := holds_single (Operand.isGrammatical_of_isValue h)
      exact Holds.around ((hx.mark _).mark _) span
  | defineAddress span n x =>
      have hx := holds_single (Operand.isGrammatical_of_isAddress h)
      exact Holds.around ((hx.mark _).mark _) span
  | defineRegister span n x =>
      have hx := holds_single (Operand.isGrammatical_of_isRegister h)
      exact Holds.around ((hx.mark _).mark _) span
  | missing => contradiction

theorem Node.holds_children {n : Node} (hn : n.isGrammatical = true) :
    Holds n.layout n.children := by
  cases n with
  | statement x => exact Statement.holds_children hn
  | operand x => exact Operand.holds_children hn

/-! ## Rules that read a node again -/

/-- From the tokens of the node and nothing behind them, the rule reads a node of its shape. -/
def Rule.Rereads (r : Rule) (n : Node) : Prop :=
  ∀ u, isSolid u = true → Reads n.tokens u [] →
    ∃ m : Node, m.unspanned = n.unspanned ∧ Lies m.layout ⟨0, u⟩ ⟨u.length, []⟩ ∧
      r.parser.run ⟨0, u⟩ = .ok m.value ⟨u.length, []⟩

section

open Parse Grammar

theorem notNext_nil (m : UInt8) : NotNext m [] := by
  intro u hgap _
  rw [List.suffix_nil.mp hgap.suffix]
  simp

theorem follows_nil : Follows [] := by
  intro u hgap _ b hb
  rw [List.suffix_nil.mp hgap.suffix] at hb
  contradiction

theorem Rule.rereads {α : Type} {r : Rule} {n : Node} {q : Parser α} (wrap : α → Node)
    (hr : r.parser = q.map fun y => (wrap y).value) (hlays : q.run.Lays fun y => (wrap y).layout)
    {S : α → Prop} (hS : ∀ y, S y → (wrap y).unspanned = n.unspanned)
    (hfinds : ∀ c : Cursor, isSolid c.rest = true → Reads n.tokens c.rest [] →
      q.run.Finds S c []) : r.Rereads n := by
  intro u hsolid hreads
  obtain ⟨_, y, hy, hok⟩ := hfinds ⟨0, u⟩ hsolid hreads
  have hend : Cursor.leaving ⟨0, u⟩ [] = ⟨u.length, []⟩ := by simp [Cursor.leaving]
  rw [hend] at hok
  refine ⟨wrap y, hS y hy, hlays _ _ _ hok, ?_⟩
  rw [hr]
  exact bind_eq_ok.mpr ⟨y, _, hok, rfl⟩

theorem rereads_operand {r : Rule} {q : Parser Operand} {x : Operand}
    (hr : r.parser = q.map .operand) (hlays : q.run.Lays Operand.layout)
    (hfinds : ∀ c : Cursor, isSolid c.rest = true → Reads x.tokens c.rest [] →
      q.run.Finds (fun y => y.unspanned = x.unspanned) c []) : r.Rereads (.operand x) :=
  Rule.rereads .operand hr hlays (fun _ hy => congrArg Node.operand hy) hfinds

theorem rereads_statement {r : Rule} {q : Parser Statement} {x : Statement}
    (hr : r.parser = q.map .statement) (hlays : q.run.Lays Statement.layout)
    (hfinds : ∀ c : Cursor, isSolid c.rest = true → Reads x.tokens c.rest [] →
      q.run.Finds (fun y => y.unspanned = x.unspanned) c []) : r.Rereads (.statement x) :=
  Rule.rereads .statement hr hlays (fun _ hy => congrArg Node.statement hy) hfinds

theorem finds_statement {x : Statement} (hx : x.isGrammatical = true) {c : Cursor} {rest : Bytes}
    (hsolid : isSolid c.rest = true) (h : Reads x.tokens c.rest rest) (hrest : Follows rest) :
    statement.run.Finds (fun y => y.unspanned = x.unspanned) c rest :=
  complete x hx c.budget c rest (by simp [Cursor.budget]) hsolid h hrest

theorem Operand.rereads_rule {x : Operand} (h : (Node.operand x).isGrammatical = true) :
    (Node.operand x).rule.Rereads (.operand x) := by
  cases x with
  | number n =>
      refine rereads_operand rfl lays_number fun c hsolid hreads => ?_
      obtain ⟨_, hheads, rfl⟩ := hreads.heads hsolid
      exact finds_number hheads
  | name span n =>
      refine rereads_operand rfl lays_name fun c hsolid hreads => ?_
      obtain ⟨_, hheads, rfl⟩ := hreads.heads hsolid
      exact finds_name hheads span
  | half span side address =>
      exact rereads_operand rfl lays_half fun c => finds_half (isAddress_of_half h)
  | text span v =>
      refine rereads_operand rfl lays_text fun c hsolid hreads => ?_
      obtain ⟨_, hheads, rfl⟩ := hreads.heads hsolid
      exact finds_text hheads span
  | register span r =>
      refine rereads_operand rfl lays_registerLiteral fun c hsolid hreads => ?_
      obtain ⟨_, hheads, rfl⟩ := hreads.heads hsolid
      exact finds_registerLiteral span hheads
  | load span target y =>
      have hparts := parts_of_load h
      exact rereads_operand rfl (lays_load lays_register sound_register) fun c =>
        finds_load hparts.1 (fun d mid _ => finds_register hparts.1) hparts.2
  | fetch span target y =>
      have hparts := parts_of_fetch h
      exact rereads_operand rfl (lays_fetch lays_register sound_register) fun c =>
        finds_fetch hparts.1 (fun d mid _ => finds_register hparts.1) hparts.2
  | missing => contradiction

theorem Statement.rereads_rule {x : Statement} (h : x.isGrammatical = true) :
    (Node.statement x).rule.Rereads (.statement x) := by
  cases x with
  | label span n =>
      refine rereads_statement rfl lays_label fun c hsolid hreads => ?_
      obtain ⟨_, hheads, rfl⟩ := Reads.heads hreads hsolid
      exact finds_label hheads
  | block span body =>
      have hbody := (areGrammatical_iff body).mp h
      exact rereads_statement rfl (lays_block lays_statement sound_statement) fun c =>
        finds_block hbody (fun x hx d mid _ => finds_statement (hbody x hx))
          (fun d hd => rejects_statementTo d.budget hd)
  | instruction span i operands =>
      exact rereads_statement rfl lays_instruction fun c hsolid hreads =>
        finds_instruction h hsolid hreads (notNext_nil _)
  | data span items =>
      exact rereads_statement rfl lays_data fun c hsolid hreads =>
        finds_data hsolid h hreads follows_nil
  | words span items =>
      exact rereads_statement rfl lays_words fun c hsolid hreads =>
        finds_words hsolid h hreads follows_nil
  | defineValue span n x =>
      exact rereads_statement rfl lays_valueDefinition fun c hsolid hreads =>
        finds_valueDefinition hsolid h hreads follows_nil
  | defineAddress span n x =>
      exact rereads_statement rfl lays_addressDefinition fun c hsolid hreads =>
        finds_addressDefinition hsolid h hreads
  | defineRegister span n x =>
      exact rereads_statement rfl lays_registerDefinition fun c hsolid hreads =>
        finds_registerDefinition hsolid h hreads
  | missing => contradiction

theorem Node.rereads_rule {n : Node} (hn : n.isGrammatical = true) : n.rule.Rereads n := by
  cases n with
  | statement x => exact Statement.rereads_rule hn
  | operand x => exact Operand.rereads_rule hn

theorem Rule.rereads_of_offers {r : Rule} {n : Node} (hn : n.isGrammatical = true)
    (h : r.offers n = true) : r.Rereads n := by
  cases n with
  | statement x =>
      cases r with
      | statement =>
          exact rereads_statement rfl lays_statement fun c hsolid hreads =>
            finds_statement hn hsolid hreads follows_nil
      | _ => contradiction
  | operand x =>
      cases r with
      | address => exact rereads_operand rfl lays_address fun c => finds_address h
      | value =>
          exact rereads_operand rfl lays_value fun c hsolid hreads =>
            finds_value h hsolid hreads (notNext_nil _)
      | dataItem =>
          exact rereads_operand rfl lays_dataItem fun c hsolid hreads =>
            finds_dataItem h hsolid hreads (notNext_nil _)
      | register => exact rereads_operand rfl lays_register fun c => finds_register h
      | _ => contradiction

end

/-! ## Slices -/

theorem Landmark.filterMap_relocate (f : Nat → Nat) (row : List Landmark) :
    (row.map (Landmark.relocate f)).filterMap Landmark.token? = row.filterMap Landmark.token? := by
  rw [List.filterMap_map]
  congr 1
  funext m
  cases m <;> rfl

theorem isSolid_append_left {u v : Bytes} (h : isSolid (u ++ v) = true) : isSolid u = true := by
  cases u with
  | nil => rfl
  | cons b u => exact h

/-- The slice of a stretch of text is what the first cursor has in front of the second. -/
theorem Span.slice_eq {text u : Bytes} {c next : Cursor} (htext : (Cursor.ofPos text 0).Reaches c)
    (h : c.Reaches next) (hu : c.rest = u ++ next.rest) :
    Span.slice ⟨c.pos, next.pos⟩ text = u := by
  have hrest : text.drop c.pos = c.rest :=
    (congrArg Cursor.rest (Cursor.ofPos_reaches htext).1).symm
  have hlength : next.pos - c.pos = u.length := by
    have hpos := h.2
    rw [hu, List.length_append] at hpos
    omega
  unfold slice
  rw [hrest, hu]
  exact List.take_left' hlength.symm

/-- A rule that can read a node again reads it from its slice, with all positions moved. -/
theorem Rule.Rereads.matchAt_slice {text : Bytes} {n : Node} {c next : Cursor} {r : Rule}
    (hr : r.Rereads n) (hn : n.isGrammatical = true) (htext : (Cursor.ofPos text 0).Reaches c)
    (hlies : Lies n.layout c next) :
    (Pattern.rule r).matchAt (n.span.slice text) 0 =
      .ok (n.relocate (· - n.span.start)).value ⟨(n.span.slice text).length, []⟩ := by
  obtain ⟨hspan, hreaches, _⟩ := Node.span_of_lies hn hlies
  obtain ⟨row, hlayout, hleads⟩ := Node.layout_eq_around hn
  obtain ⟨u, hu⟩ := hreaches.1
  have hslice : n.span.slice text = u := by
    rw [hspan]
    exact Span.slice_eq (htext.trans (reaches_skip c)) hreaches hu.symm
  have hfront : Lies n.layout (Blank.gap.skip c) next :=
    (lies_skip (hlayout ▸ Span.leads_around hleads)).mpr hlies
  have hcut := hfront.cut n.isAnchored_layout le_rfl hu.symm
  rw [Nat.sub_self] at hcut
  have hreads := hcut.reads
  rw [Landmark.filterMap_relocate, n.filterMap_layout] at hreads
  have hsolid : isSolid u = true := by
    apply isSolid_append_left (v := next.rest)
    rw [hu]
    exact isSolid_skip c
  obtain ⟨m, hshape, hm, hok⟩ := hr u hsolid hreads
  have hstart : n.span.start = (Blank.gap.skip c).pos := by rw [hspan]
  rw [hslice, hstart, ← Node.eq_relocate hshape hm hcut]
  exact hok

/-! ## Programs -/

section

open Parse Grammar

variable {text : Bytes} {p : Program}

/-- The statements of a program lie one behind the other, and the text ends behind them. -/
theorem lies_of_ofText (h : Program.ofText text = .ok p) :
    (∀ x ∈ p.body, x.isGrammatical = true) ∧ p.span = ⟨0, text.length⟩ ∧
      ∃ next, Lies (p.body.flatMap Statement.layout) (.ofPos text 0) next := by
  obtain ⟨last, hok⟩ := ofText_eq_ok.mp h
  rw [program_run] at hok
  obtain ⟨body, hbody, rfl⟩ := spanned_eq_ok.mp hok
  unfold statementsToEnd at hbody
  simp only [bind_eq_ok, pure_eq_ok, endOfText_eq_ok] at hbody
  obtain ⟨body, mid, hmany, _, _, hskip, _, _, ⟨hend, rfl⟩, rfl, rfl⟩ := hbody
  obtain ⟨_, rfl⟩ := Reply.ok.inj hskip
  have hsound := sound_statement.token fun x hx => statement_tokens_ne_nil hx
  have hlies := (lays_tokenStatement lays_statement sound_statement).many _ _ _ hmany
  have hpos := (Cursor.ofPos_reaches (hlies.reaches.trans (reaches_skip mid))).2
  rw [hend, List.length_nil, Nat.add_zero] at hpos
  refine ⟨(hsound.many _ _ _ hmany).1, ?_, mid, hlies⟩
  rw [hpos]
  rfl

/-- Every node of a program lies somewhere in the text. -/
theorem Program.Has.lies (h : Program.ofText text = .ok p) {n : Node} (hn : p.Has n) :
    n.isGrammatical = true ∧
      ∃ c next, (Cursor.ofPos text 0).Reaches c ∧ Lies n.layout c next := by
  induction hn with
  | @statement x hx =>
      obtain ⟨hbody, _, last, hlies⟩ := lies_of_ofText h
      have hmem : Node.statement x ∈ p.body.map .statement := List.mem_map_of_mem hx
      exact ⟨hbody x hx, ((holds_body hbody).placed hlies).1 _ hmem⟩
  | child _ hm ih =>
      obtain ⟨hn, c, next, htext, hlies⟩ := ih
      have hchildren := Node.holds_children hn
      obtain ⟨d, last, hcd, hchild⟩ := (hchildren.placed hlies).1 _ hm
      exact ⟨hchildren.isGrammatical _ hm, d, last, htext.trans hcd, hchild⟩

/-- The spans of a program are exact.  The program covers the text and its statements lie in it,
disjoint and in order; so do the children of every node inside of the node.  No node is empty, and
each is read again from the bytes of its span, by its own rule and by every rule that offers it. -/
theorem spans_are_exact (h : Program.ofText text = .ok p) :
    p.span = ⟨0, text.length⟩ ∧ p.span.Arranges (p.body.map .statement) ∧
      ∀ n, p.Has n →
        n.span.start < n.span.stop ∧ n.span.stop ≤ text.length ∧ n.span.Arranges n.children ∧
        ∀ r : Rule, r = n.rule ∨ r.offers n = true →
          (Pattern.rule r).matchAt (n.span.slice text) 0 =
            .ok (n.relocate (· - n.span.start)).value ⟨(n.span.slice text).length, []⟩ := by
  obtain ⟨hbody, hspan, last, hlies⟩ := lies_of_ofText h
  refine ⟨hspan, ?_, fun n hn => ?_⟩
  · obtain ⟨_, hinside, hordered⟩ := (holds_body hbody).placed hlies
    refine ⟨fun n hn => ?_, hordered⟩
    rw [hspan]
    exact ⟨Nat.zero_le _, (hinside n hn).2.trans (Cursor.pos_le_of_reaches hlies.reaches)⟩
  · obtain ⟨hgrammatical, c, next, htext, hnode⟩ := hn.lies h
    obtain ⟨hnspan, _, hlt⟩ := Node.span_of_lies hgrammatical hnode
    refine ⟨hlt, ?_, ?_, fun r hr => ?_⟩
    · rw [hnspan]
      exact Cursor.pos_le_of_reaches (htext.trans hnode.reaches)
    · rw [hnspan]
      exact ((Node.holds_children hgrammatical).placed hnode).2
    · have hrereads : r.Rereads n := by
        rcases hr with rfl | hoffers
        · exact Node.rereads_rule hgrammatical
        · exact Rule.rereads_of_offers hgrammatical hoffers
      exact hrereads.matchAt_slice hgrammatical htext hnode

/-- The number of a register, three levels below a statement that stands behind a comment. -/
theorem spans_are_exact_for_number_of_register :
    (Pattern.rule .number).matchAt (Span.slice ⟨10, 14⟩ (utf8 ";1\n set (%0x1F : lo(b)) 7")) 0 =
      .ok (.operand (.number ⟨⟨0, 4⟩, utf8 "1F", 16⟩)) ⟨4, []⟩ := by
  have hparse : Program.ofText (utf8 ";1\n set (%0x1F : lo(b)) 7") =
      .ok ⟨⟨0, 25⟩, [.instruction ⟨4, 25⟩ .set
        [.load ⟨8, 23⟩ (.register ⟨9, 14⟩ (.numbered ⟨⟨10, 14⟩, utf8 "1F", 16⟩))
          (.half ⟨17, 22⟩ .lo (.name ⟨20, 21⟩ (utf8 "b"))), .number ⟨⟨24, 25⟩, utf8 "7", 10⟩]]⟩ :=
    rfl
  refine ((spans_are_exact hparse).2.2 (.operand (.number ⟨⟨10, 14⟩, utf8 "1F", 16⟩)) ?_).2.2.2
    .number (Or.inl rfl)
  -- the number is the first child of the register, which is the first of the load, and so on
  apply Program.Has.child
  · apply Program.Has.child
    · apply Program.Has.child
      · exact Program.Has.statement List.mem_cons_self
      · exact List.mem_cons_self
    · exact List.mem_cons_self
  · exact List.mem_cons_self

end

end Gx
