import Gx.Proofs.Grammar.Nodes
import Gx.Proofs.Grammar.Program

/-!
# Parsers lay out what they read

Whatever a rule of the grammar reads lies in the text between the place where the rule starts and
the place where it stops.  A rule starts with a token, so its node starts where the rule does: the
blank in front has been skipped before.
-/

namespace Gx

namespace Parse

variable {α β : Type} {p : Parse α} {layout : α → List Landmark} {c next : Cursor}

/-! ## Rules for parsers -/

/-- What the parser reads is laid out between where it starts and where it stops. -/
def Lays (p : Parse α) (layout : α → List Landmark) : Prop :=
  ∀ c x next, p c = .ok x next → Lies (layout x) c next

/-- The parser succeeds only where no gap starts. -/
def Tight (p : Parse α) : Prop :=
  ∀ c x next, p c = .ok x next → isSolid c.rest = true

theorem Tight.bind {f : α → Parse β} (h : p.Tight) : (p >>= f).Tight := by
  intro c y next hok
  obtain ⟨x, mid, hx, _⟩ := bind_eq_ok.mp hok
  exact h c x mid hx

theorem Tight.mapError {f : SyntaxError → SyntaxError} (h : p.Tight) :
    (Parse.mapError f p).Tight :=
  fun c x next hok => h c x next (mapError_eq_ok.mp hok)

theorem Tight.choice {ps : List (Parser α)} (h : ∀ q ∈ ps, q.run.Tight) :
    (Parse.choice ps).Tight := by
  intro c x next hok
  obtain ⟨q, hq, hx⟩ := choice_eq_ok hok
  exact h q hq c x next hx

theorem Lays.named {name : Bytes} (h : p.Lays layout) : (Parse.named name p).Lays layout :=
  fun c x next hok => h c x next (named_eq_ok.mp hok)

theorem Lays.choice {ps : List (Parser α)} (h : ∀ q ∈ ps, q.run.Lays layout) :
    (Parse.choice ps).Lays layout := by
  intro c x next hok
  obtain ⟨q, hq, hx⟩ := choice_eq_ok hok
  exact h q hq c x next hx

/-- The blank that is skipped in front does not belong to a node. -/
theorem Lays.token {P : α → Prop} {tokens : α → List Token} (h : p.Lays layout)
    (hsound : p.Sound P tokens) (hleads : ∀ x, P x → Landmark.leads (layout x) = true) :
    (Parse.token p).Lays layout := by
  intro c x next hok
  rw [token_eq_ok] at hok
  have hx := (hsound _ _ _ hok).1
  exact (lies_skip (hleads x hx)).mp (h _ _ _ hok)

theorem Lays.spanned {build : Span → α → β} {outer : β → List Landmark} (h : p.Lays layout)
    (htight : p.Tight) (hbuild : ∀ span x, outer (build span x) = span.around (layout x)) :
    (Parse.spanned build p).Lays outer := by
  intro c y next hok
  obtain ⟨x, hx, rfl⟩ := spanned_eq_ok.mp hok
  rw [hbuild, Span.lies_around, skip_of_isSolid (htight c x next hx)]
  exact ⟨rfl, h c x next hx⟩

theorem Lays.many (h : p.Lays layout) : (Parse.many p).Lays fun xs => xs.flatMap layout := by
  intro c xs next hok
  refine many_induct (R := fun xs c next => Lies (xs.flatMap layout) c next) ?_ ?_ hok
  · intro c
    exact rfl
  · intro x xs c mid next hp hrest
    rw [List.flatMap_cons]
    exact (h c x mid hp).append hrest

/-! ## Tokens -/

theorem Finds.eq_leaving {S : α → Prop} {rest : Bytes} {x : α} (h : p.Finds S c rest)
    (hok : p c = .ok x next) : next = c.leaving rest := by
  obtain ⟨_, y, _, hy⟩ := h
  rw [hok] at hy
  exact (Reply.ok.inj hy).2

theorem Finds.lies {S : α → Prop} {k : Token} {x : α} (h : p.Finds S c next.rest)
    (hok : p c = .ok x next) (hheads : k.Heads c.rest next.rest) : Lies [.token k] c next := by
  have hskip := skip_of_isSolid hheads.isSolid
  refine ⟨next.rest, ?_, ?_⟩
  · rw [hskip]
    exact hheads
  · rw [hskip]
    exact h.eq_leaving hok

theorem lays_identifier : identifier.Lays fun n => [.token (.name n)] := by
  intro c n next hok
  have hheads := heads_of_identifier hok
  exact (finds_identifier hheads).lies hok hheads

theorem lays_keyword {w : Bytes} (hw : IsKeyword w) :
    (keyword w).Lays fun _ => [.token (.word w)] := by
  intro c x next hok
  have hheads := heads_of_keyword hw hok
  exact (finds_keyword hw hheads).lies hok hheads

theorem lays_literal {m : UInt8} (hm : m ∈ marks) :
    (literal [m]).Lays fun _ => [.token (.mark m)] := by
  intro c x next hok
  have hheads := heads_of_literal hm hok
  exact (finds_literal hheads).lies hok hheads

theorem lays_quotedText : quotedText.Lays fun v => [.token (.text v)] := by
  intro c v next hok
  have hheads := heads_of_quotedText hok
  exact (finds_quotedText hheads).lies hok hheads

theorem span_of_numeral {n : Numeral} (h : numeral c = .ok n next) :
    n.span = ⟨c.pos, next.pos⟩ := by
  rw [numeral_eq] at h
  split at h
  next =>
    unfold digitsAt at h
    dsimp only at h
    split at h
    next => contradiction
    next =>
      split at h
      next => contradiction
      next =>
        obtain ⟨rfl, rfl⟩ := Reply.ok.inj h
        rfl
  next => contradiction

theorem lays_numeral :
    numeral.Lays fun n => n.span.around [.token (.number n.radix n.digits)] := by
  intro c n next hok
  have hheads := heads_of_numeral hok
  rw [Span.lies_around, skip_of_isSolid hheads.isSolid]
  exact ⟨span_of_numeral hok, (finds_numeral hheads).lies hok hheads⟩

theorem tight_identifier : identifier.Tight :=
  fun _ _ _ hok => (heads_of_identifier hok).isSolid

theorem tight_keyword {w : Bytes} (hw : IsKeyword w) : (keyword w).Tight :=
  fun _ _ _ hok => (heads_of_keyword hw hok).isSolid

theorem tight_quotedText : quotedText.Tight :=
  fun _ _ _ hok => (heads_of_quotedText hok).isSolid

theorem tight_literal {m : UInt8} (hm : isSolid [m] = true) : (literal [m]).Tight := by
  intro c x next hok
  rw [of_literal hok]
  exact hm

end Parse

namespace Grammar

open Parse

/-! ## Operands -/

theorem lays_tokenMark {m : UInt8} (hm : m ∈ marks) :
    (token (literal [m])).Lays fun _ => [.token (.mark m)] :=
  (lays_literal hm).token (sound_literal hm) fun _ _ => rfl

theorem leads_operand {x : Operand} (hx : x ≠ .missing) : Landmark.leads x.layout = true := by
  obtain ⟨row, hlayout, hleads⟩ := Operand.layout_eq_around hx
  rw [hlayout]
  exact Span.leads_around hleads

theorem lays_tokenOperand {p : Parse Operand} {P : Operand → Prop} (h : p.Lays Operand.layout)
    (hsound : p.Sound P Operand.tokens) (hP : ∀ x, P x → x ≠ .missing) :
    (token p).Lays Operand.layout :=
  h.token hsound fun x hx => leads_operand (hP x hx)

theorem lays_name : name.run.Lays Operand.layout :=
  lays_identifier.spanned tight_identifier fun _ _ => rfl

theorem lays_number : number.run.Lays Operand.layout := by
  intro c x next hok
  obtain ⟨n, mid, hn, hpure⟩ := bind_eq_ok.mp hok
  obtain ⟨rfl, rfl⟩ := pure_eq_ok.mp hpure
  exact lays_numeral c n next hn

theorem lays_text : text.run.Lays Operand.layout :=
  lays_quotedText.spanned tight_quotedText fun _ _ => rfl

theorem lays_address : address.run.Lays Operand.layout := by
  refine Lays.named (Lays.choice ?_)
  simp only [List.forall_mem_cons, List.not_mem_nil, false_imp_iff, implies_true, and_true]
  exact ⟨lays_number, lays_name⟩

theorem tight_side : side.Tight := by
  refine Tight.choice ?_
  simp only [List.forall_mem_cons, List.not_mem_nil, false_imp_iff, implies_true, and_true]
  exact ⟨(tight_keyword (isKeyword_side .lo)).bind, (tight_keyword (isKeyword_side .hi)).bind⟩

theorem lays_side : side.Lays fun which => [.token (.word which.word)] := by
  intro c which next hok
  have hheads := heads_of_side hok
  exact (finds_side hheads).lies hok hheads

theorem lays_sideOfAddress :
    sideOfAddress.Lays fun p => .token (.word p.1.word) :: .token (.mark (ascii '(')) ::
      p.2.layout ++ [.token (.mark (ascii ')'))] := by
  intro c p next hok
  unfold sideOfAddress at hok
  simp only [bind_eq_ok, pure_eq_ok] at hok
  obtain ⟨which, _, hside, _, _, hopen, x, _, hx, _, _, hclose, rfl, rfl⟩ := hok
  have hside' := lays_side _ _ _ hside
  have hopen' := lays_tokenMark (by decide) _ _ _ hopen
  have hx' := lays_tokenOperand lays_address sound_address (fun _ => isAddress_ne_missing) _ _ _ hx
  have hclose' := lays_tokenMark (by decide) _ _ _ hclose
  exact (hside'.cons (hopen'.cons hx')).append hclose'

theorem lays_half : half.run.Lays Operand.layout := by
  rw [half_run]
  exact lays_sideOfAddress.spanned tight_side.bind fun _ _ => rfl

theorem lays_value : value.run.Lays Operand.layout := by
  refine Lays.named (Lays.choice ?_)
  simp only [List.forall_mem_cons, List.not_mem_nil, false_imp_iff, implies_true, and_true]
  exact ⟨lays_number, lays_half, lays_name⟩

theorem lays_dataItem : dataItem.run.Lays Operand.layout := by
  refine Lays.choice ?_
  simp only [List.forall_mem_cons, List.not_mem_nil, false_imp_iff, implies_true, and_true]
  exact ⟨lays_text, lays_value⟩

theorem span_of_registerName {c next : Cursor} {n : Numeral}
    (h : registerName c = .ok (.numbered n) next) : n.span = ⟨c.pos, next.pos⟩ := by
  unfold registerName at h
  split at h
  next r halias =>
    obtain ⟨rfl, _⟩ := Reply.ok.inj h
    obtain ⟨_, _, _, _, htoken⟩ := aliasOf_eq_some halias
    contradiction
  next =>
    rw [mapError_eq_ok] at h
    obtain ⟨m, mid, hm, hpure⟩ := bind_eq_ok.mp h
    obtain ⟨heq, rfl⟩ := pure_eq_ok.mp hpure
    rw [RegisterName.numbered.inj heq]
    exact span_of_numeral hm

/-- The number of a register starts one byte behind the percent sign. -/
theorem lays_registerLiteral : registerLiteral.run.Lays Operand.layout := by
  intro c x next hok
  obtain ⟨r, hr, rfl⟩ := spanned_eq_ok.mp hok
  obtain ⟨_, r', heq, hheads⟩ := registerLiteral_eq_ok hok
  obtain ⟨_, rfl⟩ := Operand.register.inj heq
  have htoken := (finds_registerLiteral ⟨0, 0⟩ hheads).lies hok hheads
  have hskip := skip_of_isSolid hheads.isSolid
  rw [Operand.layout, Span.lies_around, hskip]
  refine ⟨rfl, ?_⟩
  cases r with
  | high => exact htoken
  | remainder => exact htoken
  | numbered n =>
      obtain ⟨_, mid, hpercent, hname⟩ := bind_eq_ok.mp hr
      have hmid : mid = c.leaving mid.rest :=
        (Reply.ok.inj (hpercent.symm.trans (literal_of_cons (of_literal hpercent)))).2
      have hspan := span_of_registerName hname
      have hpos : mid.pos = c.pos + 1 := by
        rw [hmid, Cursor.leaving, of_literal hpercent]
        simp
      rw [hpos] at hspan
      refine ⟨?_, htoken.append ⟨?_, rfl⟩⟩
      · rw [hskip, hspan]
      · rw [hspan]

/-- The layout of a register and an operand in brackets. -/
def bracketLayout (opening closing : UInt8) (p : Operand × Operand) : List Landmark :=
  .token (.mark opening) :: p.1.layout ++ .token (.mark (ascii ':')) :: p.2.layout ++
    [.token (.mark closing)]

theorem lays_inBrackets {opening closing : UInt8} {register operand : Parse Operand}
    (hregister : (token register).Lays Operand.layout)
    (hoperand : (token operand).Lays Operand.layout) (hopening : opening ∈ marks)
    (hclosing : closing ∈ marks) :
    (inBrackets [opening] [closing] register operand).Lays (bracketLayout opening closing) := by
  intro c p next hok
  unfold inBrackets at hok
  simp only [bind_eq_ok, pure_eq_ok] at hok
  obtain ⟨_, _, hopen, x, _, hx, _, _, hcolon, y, _, hy, _, _, hclose, rfl, rfl⟩ := hok
  have hopen' := lays_literal hopening _ _ _ hopen
  have hcolon' := lays_tokenMark (m := ascii ':') (by decide) _ _ _ hcolon
  have hclose' := lays_tokenMark hclosing _ _ _ hclose
  exact ((hopen'.cons (hregister _ _ _ hx)).append (hcolon'.cons (hoperand _ _ _ hy))).append
    hclose'

section

variable {register : Parse Operand} (h : register.Lays Operand.layout)
  (hsound : register.Sound (·.isRegister = true) Operand.tokens)

include h hsound

theorem lays_load : (loadOf register).run.Lays Operand.layout := by
  have hregister := lays_tokenOperand h hsound fun _ => isRegister_ne_missing
  have hvalue := lays_tokenOperand lays_value sound_value fun _ => isValue_ne_missing
  rw [load_run]
  exact (lays_inBrackets hregister hvalue (by decide) (by decide)).spanned
    (tight_literal (by decide)).bind fun _ _ => rfl

theorem lays_fetch : (fetchOf register).run.Lays Operand.layout := by
  have hregister := lays_tokenOperand h hsound fun _ => isRegister_ne_missing
  have haddress := lays_tokenOperand lays_address sound_address fun _ => isAddress_ne_missing
  rw [fetch_run]
  exact (lays_inBrackets hregister haddress (by decide) (by decide)).spanned
    (tight_literal (by decide)).bind fun _ _ => rfl

end

theorem lays_registerTo (levels : Bytes) : (registerTo levels).Lays Operand.layout := by
  induction levels with
  | nil =>
      intro c x next hok
      rw [registerTo] at hok
      contradiction
  | cons level levels ih =>
      rw [registerTo_cons]
      refine Lays.named (Lays.choice ?_)
      simp only [List.forall_mem_cons, List.not_mem_nil, false_imp_iff, implies_true, and_true]
      exact ⟨lays_registerLiteral, lays_load ih (sound_registerTo levels),
        lays_fetch ih (sound_registerTo levels), lays_name⟩

theorem lays_register : register.run.Lays Operand.layout :=
  fun c => lays_registerTo c.budget c

theorem lays_operandOf (kind : Kind) : (operandOf kind).run.Lays Operand.layout := by
  cases kind with
  | register => exact lays_register
  | address => exact lays_address
  | value => exact lays_value
  | other _ => exact lays_value

/-! ## Statements -/

theorem lays_label : label.run.Lays Statement.layout := by
  intro c x next hok
  have hreads := (sound_label c x next hok).2
  have hinner := hok
  rw [label_run, atomic_eq_ok] at hinner
  obtain ⟨n, hn, rfl⟩ := spanned_eq_ok.mp hinner
  have hsolid := tight_identifier.bind c n next hn
  obtain ⟨_, hheads, rfl⟩ := Reads.heads hreads hsolid
  rw [Statement.layout, Span.lies_around, skip_of_isSolid hsolid]
  have hfinds : label.run.Finds (fun y => y.unspanned = (Statement.label {} n).unspanned) c
      next.rest := finds_label hheads
  exact ⟨rfl, hfinds.lies hok hheads⟩

theorem lays_operandsFrom (instruction : Bytes) (index : Nat) (kinds : List Kind) :
    (operandsFrom instruction index kinds).Lays (Operand.layouts []) := by
  induction kinds generalizing index with
  | nil =>
      intro c xs next hok
      obtain ⟨rfl, rfl⟩ := pure_eq_ok.mp hok
      rfl
  | cons kind kinds ih =>
      intro c xs next hok
      simp only [operandsFrom, bind_eq_ok, pure_eq_ok, mapError_eq_ok] at hok
      obtain ⟨x, mid, hx, xs, _, hxs, rfl, rfl⟩ := hok
      have hx' := lays_tokenOperand (lays_operandOf kind) (sound_operandOf kind)
        (fun _ => fits_ne_missing) _ _ _ hx
      exact hx'.append (ih (index + 1) _ _ _ hxs)

theorem lays_mnemonicWithOperands :
    mnemonicWithOperands.Lays fun p => .token (.word p.1.name) :: Operand.layouts [] p.2 := by
  intro c p next hok
  obtain ⟨n, mid, hname, hok⟩ := bind_eq_ok.mp hok
  have hheads := heads_of_identifier hname
  obtain ⟨b, ⟨hn, rfl⟩, hc, hopen⟩ := id hheads
  cases hfind : Instruction.find? b with
  | none =>
      rw [hfind] at hok
      contradiction
  | some i =>
      rw [hfind] at hok
      simp only [bind_eq_ok, pure_eq_ok] at hok
      obtain ⟨xs, _, hxs, rfl, rfl⟩ := hok
      have hlower := ((find?_eq_some_iff hn).mp hfind).2
      have hword : (Token.word i.name).Heads c.rest mid.rest :=
        ⟨b, ⟨hn, hlower⟩, hc, fun _ => hopen rfl⟩
      have hfirst := (finds_identifier hheads).lies hname hword
      exact hfirst.cons (lays_operandsFrom _ _ _ _ _ _ hxs)

theorem lays_instruction : instruction.run.Lays Statement.layout := by
  rw [instruction_run]
  exact lays_mnemonicWithOperands.spanned tight_identifier.bind fun _ _ => rfl

theorem lays_list {word : Bytes} (hword : IsKeyword word) {item : Parse Operand}
    (hitem : (token item).Lays Operand.layout) :
    (list word item).Lays fun xs => .token (.word word) :: Operand.listLayout xs := by
  have hnext : (do let _ ← token (literal [ascii ',']); token item : Parse Operand).Lays
      fun x => .token (.mark (ascii ',')) :: x.layout := by
    intro c x next hok
    obtain ⟨_, _, hcomma, hx⟩ := bind_eq_ok.mp hok
    exact (lays_tokenMark (by decide) _ _ _ hcomma).cons (hitem _ _ _ hx)
  intro c xs next hok
  rw [list_eq, mapError_eq_ok] at hok
  simp only [bind_eq_ok, pure_eq_ok] at hok
  obtain ⟨_, _, hkey, first, _, hfirst, more, _, hmore, rfl, rfl⟩ := hok
  exact (lays_keyword hword _ _ _ hkey).cons
    ((hitem _ _ _ hfirst).append (hnext.many _ _ _ hmore))

theorem tight_list {word : Bytes} (hword : IsKeyword word) (item : Parse Operand) :
    (list word item).Tight := by
  rw [list_eq]
  exact (tight_keyword hword).bind.mapError

theorem lays_definition {word : Bytes} (hword : IsKeyword word) {operand : Parse Operand}
    (hoperand : (token operand).Lays Operand.layout) :
    (definition word operand).Lays
      fun p => .token (.word word) :: .token (.name p.1) :: p.2.layout := by
  have hname : (token identifier).Lays fun n => [.token (.name n)] :=
    lays_identifier.token sound_identifier fun _ _ => rfl
  intro c p next hok
  unfold definition at hok
  rw [mapError_eq_ok] at hok
  simp only [bind_eq_ok, pure_eq_ok] at hok
  obtain ⟨_, _, hkey, n, _, hn, x, _, hx, rfl, rfl⟩ := hok
  exact (lays_keyword hword _ _ _ hkey).cons ((hname _ _ _ hn).cons (hoperand _ _ _ hx))

theorem tight_definition {word : Bytes} (hword : IsKeyword word) (operand : Parse Operand) :
    (definition word operand).Tight :=
  (tight_keyword hword).bind.mapError

theorem lays_data : data.run.Lays Statement.layout := by
  have hkey : IsKeyword (utf8 "dat") := isKeyword_of_mem (by decide)
  have hitem := lays_tokenOperand lays_dataItem sound_dataItem fun _ => isDataItem_ne_missing
  exact (lays_list hkey hitem).spanned (tight_list hkey _) fun _ _ => rfl

theorem lays_words : words.run.Lays Statement.layout := by
  have hkey : IsKeyword (utf8 "datl") := isKeyword_of_mem (by decide)
  have hitem := lays_tokenOperand lays_address sound_address fun _ => isAddress_ne_missing
  exact (lays_list hkey hitem).spanned (tight_list hkey _) fun _ _ => rfl

theorem lays_valueDefinition : valueDefinition.run.Lays Statement.layout := by
  have hkey : IsKeyword (utf8 "val") := isKeyword_of_mem (by decide)
  have hvalue := lays_tokenOperand lays_value sound_value fun _ => isValue_ne_missing
  rw [valueDefinition_run]
  exact (lays_definition hkey hvalue).spanned (tight_definition hkey _) fun _ _ => rfl

theorem lays_addressDefinition : addressDefinition.run.Lays Statement.layout := by
  have hkey : IsKeyword (utf8 "addr") := isKeyword_of_mem (by decide)
  have haddress := lays_tokenOperand lays_address sound_address fun _ => isAddress_ne_missing
  rw [addressDefinition_run]
  exact (lays_definition hkey haddress).spanned (tight_definition hkey _) fun _ _ => rfl

theorem lays_registerDefinition : registerDefinition.run.Lays Statement.layout := by
  have hkey : IsKeyword (utf8 "reg") := isKeyword_of_mem (by decide)
  have hregister := lays_tokenOperand lays_register sound_register fun _ => isRegister_ne_missing
  rw [registerDefinition_run]
  exact (lays_definition hkey hregister).spanned (tight_definition hkey _) fun _ _ => rfl

theorem lays_keywordParser {p : Bytes × Parser Statement} (hp : p ∈ keywordParsers) :
    p.2.run.Lays Statement.layout := by
  simp only [keywordParsers, List.mem_cons, List.not_mem_nil, or_false] at hp
  rcases hp with rfl | rfl | rfl | rfl | rfl
  · exact lays_data.named
  · exact lays_words.named
  · exact lays_valueDefinition.named
  · exact lays_addressDefinition.named
  · exact lays_registerDefinition.named

theorem lays_tokenStatement {p : Parse Statement} (h : p.Lays Statement.layout)
    (hsound : p.Sound (·.isGrammatical = true) Statement.tokens) :
    (token p).Lays Statement.layout := by
  refine h.token hsound fun x hx => ?_
  have hpresent : x ≠ .missing := by
    rintro rfl
    contradiction
  obtain ⟨row, hlayout, hleads⟩ := Statement.layout_eq_around hpresent
  rw [hlayout]
  exact Span.leads_around hleads

theorem lays_block {statement : Parse Statement} (h : statement.Lays Statement.layout)
    (hsound : statement.Sound (·.isGrammatical = true) Statement.tokens) :
    (blockOf statement).run.Lays Statement.layout := by
  have hbraces : (inBraces statement).Lays fun body => .token (.mark (ascii '\x7b')) ::
      Statement.layoutOf body ++ [.token (.mark (ascii '\x7d'))] := by
    intro c body next hok
    unfold inBraces at hok
    simp only [bind_eq_ok, pure_eq_ok] at hok
    obtain ⟨_, _, hopen, body, _, hbody, _, _, hclose, rfl, rfl⟩ := hok
    dsimp only
    rw [Statement.layoutOf_eq]
    have hopen' := lays_literal (by decide) _ _ _ hopen
    have hbody' := (lays_tokenStatement h hsound).many _ _ _ hbody
    exact (hopen'.cons hbody').append (lays_tokenMark (by decide) _ _ _ hclose)
  rw [block_run]
  exact hbraces.spanned (tight_literal (by decide)).bind fun _ _ => rfl

theorem lays_statementTo (levels : Bytes) : (statementTo levels).Lays Statement.layout := by
  induction levels with
  | nil =>
      intro c x next hok
      rw [statementTo] at hok
      contradiction
  | cons level levels ih =>
      rw [statementTo_cons]
      refine Lays.choice ?_
      intro q hq
      simp only [List.mem_append, List.mem_cons, List.not_mem_nil, or_false] at hq
      rcases hq with ((rfl | rfl) | hq) | rfl
      · exact lays_label.named
      · exact (lays_block ih (sound_statementTo levels)).named
      · obtain ⟨p, hp, rfl⟩ := List.mem_map.mp hq
        exact lays_keywordParser hp
      · exact lays_instruction.named

theorem sound_statement : statement.run.Sound (·.isGrammatical = true) Statement.tokens :=
  fun c => sound_statementTo c.budget c

theorem lays_statement : statement.run.Lays Statement.layout :=
  fun c => lays_statementTo c.budget c

end Grammar

end Gx
