import Gx.Grammar.Statement
import Gx.Proofs.Grammar.Operands

/-!
# Reading statements

A statement starts with a name or a brace.  So what follows a statement is never a colon, a
parenthesis or a comma, and this is all that the statement before it depends on.  A name is a label
if a colon stands behind it; otherwise it is a keyword or a mnemonic, and these all differ.
-/

namespace Gx.Grammar

open Parse

variable {c next : Cursor} {rest : Bytes}

/-! ## Labels -/

/-- The colon of a label, with the spaces in front of it. -/
def colon : Parse Bytes :=
  between (fun c => .ok () (Spaces.inLine.skip c)) (literal [ascii ':']) (pure ())

theorem label_run :
    label.run = atomic (spanned .label do
      let name ← identifier
      let _ ← colon
      return name) := rfl

theorem colon_eq (c : Cursor) :
    colon c = applyFrom (literal [ascii ':']) c
      (c.leaving (c.rest.dropWhile (Spaces.inLine.bytes.contains ·))) := by
  rw [← Cursor.skipWhile_eq]
  change _ = applyFrom (literal [ascii ':']) c (Spaces.inLine.skip c)
  unfold colon between
  dsimp only
  cases applyFrom (literal [ascii ':']) c (Spaces.inLine.skip c) <;> rfl

theorem of_colon {x : Bytes} (h : colon c = .ok x next) :
    ∃ spaces : Bytes, (∀ s ∈ spaces, s = 0x20 ∨ s = 0x09) ∧
      c.rest = spaces ++ ascii ':' :: next.rest := by
  rw [colon_eq, applyFrom_eq_ok] at h
  refine ⟨c.rest.takeWhile (Spaces.inLine.bytes.contains ·), ?_, ?_⟩
  · intro s hs
    have hspace := List.all_eq_true.mp List.all_takeWhile s hs
    simpa [Spaces.inLine] using hspace
  · rw [← of_literal h]
    exact List.takeWhile_append_dropWhile.symm

theorem finds_colon {spaces : Bytes} (hspaces : ∀ s ∈ spaces, s = 0x20 ∨ s = 0x09)
    (hc : c.rest = spaces ++ ascii ':' :: rest) : colon.Finds (fun _ => True) c rest := by
  have hdrop : c.rest.dropWhile (Spaces.inLine.bytes.contains ·) = ascii ':' :: rest := by
    rw [hc]
    refine (span_append ?_ rfl).2
    intro s hs
    simpa [Spaces.inLine] using hspaces s hs
  have hlength : (ascii ':' :: rest).length ≤ c.rest.length := by simp [hc]
  have hliteral : literal [ascii ':'] (c.leaving (ascii ':' :: rest)) =
      .ok [ascii ':'] (c.leaving rest) := by
    rw [literal_of_cons rfl, Cursor.leaving_leaving _ hlength (by simp)]
  refine ⟨(Nat.le_succ _).trans hlength, [ascii ':'], trivial, ?_⟩
  rw [colon_eq, applyFrom_eq_ok, hdrop]
  exact hliteral

/-- Spaces within a line are blank. -/
theorem gap_inLine (t : Bytes) : Gap t (t.dropWhile (Spaces.inLine.bytes.contains ·)) := by
  induction t with
  | nil => exact Gap.nil []
  | cons b t ih =>
      by_cases hb : Spaces.inLine.bytes.contains b = true
      · rw [List.dropWhile_cons_of_pos hb]
        refine Gap.space ?_ ih
        simp only [Spaces.inLine, List.contains_cons, List.contains_nil, Bool.or_false,
          Bool.or_eq_true] at hb
        simp only [isSpace, Bool.or_eq_true]
        tauto
      · rw [List.dropWhile_cons_of_neg hb]
        exact Gap.nil _

theorem fails_colon (h : NotNext (ascii ':') c.rest) : colon.Fails c := by
  have hhead : (c.leaving (c.rest.dropWhile (Spaces.inLine.bytes.contains ·))).rest.head? ≠
      some (ascii ':') := by
    intro hcolon
    refine h _ (gap_inLine c.rest) ?_ hcolon
    obtain ⟨more, hmore⟩ := List.head?_eq_some_iff.mp hcolon
    rw [Cursor.rest_leaving] at hmore
    rw [hmore]
    rfl
  obtain ⟨e, hfail⟩ := rejects_literal hhead
  rw [Fails, colon_eq, applyFrom, hfail]
  exact ⟨_, e, rfl⟩

theorem sound_label : label.run.Sound (·.isGrammatical = true) Statement.tokens := by
  intro c x next h
  rw [label_run, atomic_eq_ok] at h
  obtain ⟨n, hok, rfl⟩ := spanned_eq_ok.mp h
  simp only [bind_eq_ok, pure_eq_ok] at hok
  obtain ⟨n', mid, hname, _, _, hcolon, rfl, rfl⟩ := hok
  obtain ⟨b, ⟨hn, rfl⟩, hc, _⟩ := heads_of_identifier hname
  obtain ⟨spaces, hspaces, hmid⟩ := of_colon hcolon
  refine ⟨rfl, Token.Heads.reads ⟨_, ⟨hn, spaces, hspaces, rfl⟩, ?_, ?_⟩⟩
  · simp [hc, hmid]
  · simp [Token.isOpen]

theorem finds_label {n : Bytes} {span : Span} (h : (Token.label n).Heads c.rest rest) :
    label.run.Finds (fun y => y.unspanned = (Statement.label span n).unspanned) c rest := by
  obtain ⟨_, ⟨hn, spaces, hspaces, rfl⟩, hc, _⟩ := h
  have hsplit : c.rest = n ++ (spaces ++ ascii ':' :: rest) := by simp [hc]
  have hname : (Token.name n).Heads c.rest (spaces ++ ascii ':' :: rest) := by
    refine ⟨n, ⟨hn, rfl⟩, hsplit, fun _ => ?_⟩
    cases spaces with
    | nil => rfl
    | cons s more =>
        rcases hspaces s List.mem_cons_self with rfl | rfl
        · rfl
        · rfl
  rw [label_run]
  refine (Finds.spanned (S := (· = n)) ?_ ?_).atomic
  · refine (finds_identifier hname).bind fun n' hn' => ?_
    refine (finds_colon hspaces (by rw [Cursor.rest_leaving])).bind fun _ _ => ?_
    exact finds_pure hn'
  · rintro _ span' rfl
    rfl

/-- Without its colon, a name is no label. -/
theorem rejects_label {n : Bytes} (h : (Token.name n).Heads c.rest rest)
    (hrest : NotNext (ascii ':') rest) : label.run.Rejects c := by
  rw [label_run]
  refine Fails.atomic (Fails.spanned (Fails.bind fun n' mid hname => Fails.bind ?_))
  have hmid : mid.rest = rest := by
    obtain ⟨hlength, x, rfl, hok⟩ := finds_identifier h
    rw [hok] at hname
    rw [← (Reply.ok.inj hname).2, Cursor.rest_leaving]
  intro x last hcolon
  obtain ⟨pos, e, hfail⟩ := fails_colon (hmid ▸ hrest)
  rw [hfail] at hcolon
  contradiction

theorem rejects_label_of_head (h : c.rest.head?.any isNameStart = false) :
    label.run.Rejects c := by
  rw [label_run]
  exact Fails.atomic (((rejects_identifier h).bind).spanned).fails

/-! ## Instructions -/

theorem sound_operandsFrom (instruction : Bytes) (index : Nat) (kinds : List Kind) :
    (operandsFrom instruction index kinds).Sound (fun xs => Operand.allFit kinds xs = true)
      (fun xs => xs.flatMap Operand.tokens) := by
  induction kinds generalizing index with
  | nil =>
      intro c xs next h
      obtain ⟨rfl, rfl⟩ := pure_eq_ok.mp h
      exact ⟨rfl, rfl⟩
  | cons kind kinds ih =>
      intro c xs next h
      simp only [operandsFrom, bind_eq_ok, pure_eq_ok, mapError_eq_ok] at h
      obtain ⟨x, mid, hx, xs', _, hxs, rfl, rfl⟩ := h
      have hx' := (sound_operandOf kind).token
        (fun x hx => Operand.tokens_ne_nil (fits_ne_missing hx)) _ _ _ hx
      have hxs' := ih (index + 1) _ _ _ hxs
      exact ⟨by simp [Operand.allFit, hx'.1, hxs'.1], hx'.2.append hxs'.2⟩

/-- Whether only the last of the kinds needs care about what follows. -/
def carefulLast : List Kind → Bool
  | [] => true
  | kind :: kinds => (endsAnywhere kind || kinds.isEmpty) && carefulLast kinds

theorem finds_operandsFrom (instruction : Bytes) (index : Nat) {kinds : List Kind}
    {xs : List Operand} (hkinds : carefulLast kinds = true)
    (hxs : Operand.allFit kinds xs = true) (h : Reads (xs.flatMap Operand.tokens) c.rest rest)
    (hrest : NotNext (ascii '(') rest) :
    (operandsFrom instruction index kinds).Finds
      (fun ys => ys.map Operand.unspanned = xs.map Operand.unspanned) c rest := by
  induction kinds generalizing index xs c with
  | nil =>
      cases xs with
      | nil =>
          obtain rfl : c.rest = rest := h
          exact finds_pure rfl
      | cons x xs => simp [Operand.allFit] at hxs
  | cons kind kinds ih =>
      cases xs with
      | nil => simp [Operand.allFit] at hxs
      | cons x xs =>
          simp only [Operand.allFit, Bool.and_eq_true] at hxs
          simp only [carefulLast, Bool.and_eq_true, Bool.or_eq_true] at hkinds
          rw [List.flatMap_cons] at h
          obtain ⟨mid, hx, hmore⟩ := reads_append.mp h
          have hmid : endsAnywhere kind = true ∨ NotNext (ascii '(') mid := by
            refine hkinds.1.imp id fun hlast => ?_
            rw [List.isEmpty_iff] at hlast
            subst hlast
            cases xs with
            | nil =>
                obtain rfl : mid = rest := hmore
                exact hrest
            | cons y ys => simp [Operand.allFit] at hxs
          have hfirst : (token (operandOf kind).run).Finds
              (fun y => y.unspanned = x.unspanned) c mid :=
            finds_token (Operand.tokens_ne_nil (fits_ne_missing hxs.1))
              (fun d hd hreads => finds_operandOf hxs.1 hd hreads hmid) hx
          refine hfirst.mapError.bind fun y hy => ?_
          refine (ih (index + 1) hkinds.2 hxs.2 hmore).bind fun ys hys => ?_
          exact finds_pure (by simp [hy, hys])

theorem table_carefulLast : ∀ i ∈ Instruction.table, carefulLast i.operands = true := by
  decide

/-- A mnemonic and its operands. -/
def mnemonicWithOperands : Parse (Instruction × List Operand) := do
  let name ← identifier
  match Instruction.find? name with
  | none => failure (mnemonicError name)
  | some instruction =>
      return (instruction, ← operandsFrom instruction.name 1 instruction.operands)

theorem instruction_run :
    instruction.run = spanned (fun span p => .instruction span p.1 p.2) mnemonicWithOperands := rfl

theorem sound_instruction :
    instruction.run.Sound (·.isGrammatical = true) Statement.tokens := by
  intro c x next h
  rw [instruction_run] at h
  obtain ⟨⟨i, operands⟩, hok, rfl⟩ := spanned_eq_ok.mp h
  obtain ⟨n, mid, hname, hok⟩ := bind_eq_ok.mp hok
  obtain ⟨b, ⟨hn, rfl⟩, hc, hopen⟩ := heads_of_identifier hname
  cases hfind : Instruction.find? b with
  | none =>
      rw [hfind] at hok
      contradiction
  | some j =>
      rw [hfind] at hok
      simp only [bind_eq_ok, pure_eq_ok] at hok
      obtain ⟨xs, _, hxs, heq, rfl⟩ := hok
      obtain ⟨rfl, rfl⟩ := Prod.mk.inj heq
      obtain ⟨hmem, hlower⟩ := (find?_eq_some_iff hn).mp hfind
      obtain ⟨hfit, hreads⟩ := sound_operandsFrom _ _ _ _ _ _ hxs
      have hword : (Token.word i.name).Heads c.rest mid.rest :=
        ⟨b, ⟨hn, hlower⟩, hc, fun _ => hopen rfl⟩
      refine ⟨?_, hword.reads.cons hreads⟩
      simp [Statement.isGrammatical, hmem, hfit]

theorem finds_instruction {i : Instruction} {operands : List Operand} {span : Span}
    (hx : (Statement.instruction span i operands).isGrammatical = true)
    (hsolid : isSolid c.rest = true)
    (h : Reads (Statement.instruction span i operands).tokens c.rest rest)
    (hrest : NotNext (ascii '(') rest) :
    instruction.run.Finds
      (fun y => y.unspanned = (Statement.instruction span i operands).unspanned) c rest := by
  simp only [Statement.isGrammatical, Bool.and_eq_true, List.contains_iff_mem] at hx
  obtain ⟨mid, hword, hoperands⟩ := Reads.heads h hsolid
  obtain ⟨n, ⟨hn, hlower⟩, hc, hopen⟩ := hword
  have hname : (Token.name n).Heads c.rest mid := ⟨n, ⟨hn, rfl⟩, hc, fun _ => hopen rfl⟩
  have hfind : Instruction.find? n = some i := (find?_eq_some_iff hn).mpr ⟨hx.1, hlower⟩
  rw [instruction_run]
  refine Finds.spanned (S := fun p =>
    p.1 = i ∧ p.2.map Operand.unspanned = operands.map Operand.unspanned) ?_ ?_
  · refine (finds_identifier hname).bind ?_
    rintro _ rfl
    rw [hfind]
    refine (finds_operandsFrom _ _ (table_carefulLast i hx.1) hx.2 hoperands hrest).bind ?_
    intro ys hys
    exact finds_pure ⟨rfl, hys⟩
  · rintro ⟨_, ys⟩ span' ⟨rfl, hys⟩
    simp only [Statement.unspanned]
    rw [hys]

theorem rejects_instruction (h : c.rest.head?.any isNameStart = false) :
    instruction.run.Rejects c := by
  rw [instruction_run]
  exact Rejects.spanned ((rejects_identifier h).bind)

/-! ## Items and definitions -/

theorem list_eq (word : Bytes) (item : Parse Operand) :
    list word item = mapError (.inStatement word) (do
      let _ ← keyword word
      let first ← token item
      let rest ← many (do
        let _ ← token (literal [ascii ','])
        token item)
      return first :: rest) := rfl

theorem sound_list {word : Bytes} (hword : IsKeyword word) {item : Parse Operand}
    {P : Operand → Prop} (hitem : item.Sound P Operand.tokens) (hP : ∀ x, P x → x ≠ .missing) :
    (list word item).Sound (fun xs => xs ≠ [] ∧ ∀ x ∈ xs, P x)
      (fun xs => .word word :: Operand.listTokens xs) := by
  intro c xs next h
  rw [list_eq, mapError_eq_ok] at h
  simp only [bind_eq_ok, pure_eq_ok] at h
  obtain ⟨_, _, hkey, first, _, hfirst, more, _, hmore, rfl, rfl⟩ := h
  have htoken := hitem.token fun x hx => Operand.tokens_ne_nil (hP x hx)
  have hnext : (do let _ ← token (literal [ascii ',']); token item : Parse Operand).Sound P
      (fun x => .mark (ascii ',') :: x.tokens) := by
    intro c x next hok
    obtain ⟨_, _, hcomma, hx⟩ := bind_eq_ok.mp hok
    have hx' := htoken _ _ _ hx
    exact ⟨hx'.1, (sound_tokenMark (by decide) _ _ _ hcomma).2.cons hx'.2⟩
  have hfirst' := htoken _ _ _ hfirst
  have hmore' := hnext.many _ _ _ hmore
  refine ⟨⟨List.cons_ne_nil _ _, List.forall_mem_cons.mpr ⟨hfirst'.1, hmore'.1⟩⟩, ?_⟩
  exact (heads_of_keyword hword hkey).reads.cons (hfirst'.2.append hmore'.2)

theorem map_unspanned_eq {xs ys : List Operand}
    (h : List.Forall₂ (fun x y : Operand => y.unspanned = x.unspanned) xs ys) :
    ys.map Operand.unspanned = xs.map Operand.unspanned := by
  induction h with
  | nil => rfl
  | cons hx _ ih => rw [List.map_cons, List.map_cons, hx, ih]

theorem finds_list {word : Bytes} (hword : IsKeyword word) {item : Parse Operand}
    {xs : List Operand} (hne : xs ≠ []) (hmissing : ∀ x ∈ xs, x ≠ .missing)
    (hitem : ∀ x ∈ xs, ∀ (d : Cursor) mid, isSolid d.rest = true → Reads x.tokens d.rest mid →
      NotNext (ascii '(') mid → item.Finds (fun y => y.unspanned = x.unspanned) d mid)
    (hsolid : isSolid c.rest = true)
    (h : Reads (.word word :: Operand.listTokens xs) c.rest rest)
    (hparen : NotNext (ascii '(') rest) (hcomma : NotNext (ascii ',') rest) :
    (list word item).Finds (fun ys => ys.map Operand.unspanned = xs.map Operand.unspanned) c
      rest := by
  obtain ⟨first, more, rfl⟩ := List.exists_cons_of_ne_nil hne
  obtain ⟨start, hkey, hitems⟩ := h.heads hsolid
  obtain ⟨mid, hfirst, hmore⟩ := reads_append.mp hitems
  have htoken : ∀ x ∈ first :: more, ∀ (d : Cursor) mid, Reads x.tokens d.rest mid →
      NotNext (ascii '(') mid → (token item).Finds (fun y => y.unspanned = x.unspanned) d mid :=
    fun x hx d mid hreads hmid => finds_token (Operand.tokens_ne_nil (hmissing x hx))
      (fun d' hd' hreads' => hitem x hx d' mid hd' hreads' hmid) hreads
  have hrepeats : (do let _ ← token (literal [ascii ',']); token item : Parse Operand).Repeats
      (fun x => .mark (ascii ',') :: x.tokens) (fun x y => y.unspanned = x.unspanned)
      (NotNext (ascii '(')) mid.length more rest := by
    refine ⟨?_, fun _ _ => List.cons_ne_nil _ _, ?_, hparen, ?_⟩
    · intro x hx d mid' _ hreads hmid
      obtain ⟨behind, hcomma, hx'⟩ := reads_cons.mp hreads
      exact (finds_tokenMark hcomma).bind fun _ _ =>
        htoken x (List.mem_cons_of_mem _ hx) _ _ hx' hmid
    · intro x _ t mid' hreads
      exact notNext_of_mark hreads (by decide)
    · rintro d rfl
      exact (rejects_tokenMark hcomma).bind
  rw [list_eq]
  apply Finds.mapError
  refine (finds_keyword hword hkey).bind fun _ _ => ?_
  refine (htoken first List.mem_cons_self _ _ hfirst (hrepeats.follows_of_reads hmore)).bind
    fun y hy => ?_
  refine (hrepeats.many le_rfl hmore).bind fun ys hys => finds_pure ?_
  rw [List.map_cons, List.map_cons, hy, map_unspanned_eq hys]

theorem sound_identifier : identifier.Sound (fun _ => True) fun n => [.name n] :=
  fun _ _ _ h => ⟨trivial, (heads_of_identifier h).reads⟩

theorem sound_definition {word : Bytes} (hword : IsKeyword word) {operand : Parse Operand}
    {P : Operand → Prop} (hoperand : operand.Sound P Operand.tokens)
    (hP : ∀ x, P x → x ≠ .missing) :
    (definition word operand).Sound (fun p => P p.2)
      (fun p => .word word :: .name p.1 :: p.2.tokens) := by
  intro c p next h
  unfold definition at h
  rw [mapError_eq_ok] at h
  simp only [bind_eq_ok, pure_eq_ok] at h
  obtain ⟨_, _, hkey, n, _, hname, x, _, hx, rfl, rfl⟩ := h
  have hname' := (sound_identifier.token (fun _ _ => List.cons_ne_nil _ _) _ _ _ hname).2
  have hx' := hoperand.token (fun x hx => Operand.tokens_ne_nil (hP x hx)) _ _ _ hx
  exact ⟨hx'.1, (heads_of_keyword hword hkey).reads.cons (hname'.cons hx'.2)⟩

theorem finds_definition {word n : Bytes} (hword : IsKeyword word) {operand : Parse Operand}
    {x : Operand} (hx : x ≠ .missing)
    (hoperand : ∀ d : Cursor, isSolid d.rest = true → Reads x.tokens d.rest rest →
      operand.Finds (fun y => y.unspanned = x.unspanned) d rest)
    (hsolid : isSolid c.rest = true)
    (h : Reads (.word word :: .name n :: x.tokens) c.rest rest) :
    (definition word operand).Finds (fun p => p.1 = n ∧ p.2.unspanned = x.unspanned) c rest := by
  obtain ⟨start, hkey, hback⟩ := h.heads hsolid
  obtain ⟨mid, hname, hreads⟩ := reads_cons.mp hback
  unfold definition
  apply Finds.mapError
  refine (finds_keyword hword hkey).bind fun _ _ => ?_
  have hname' : (token identifier).Finds (· = n) (c.leaving start) mid := by
    refine finds_token (List.cons_ne_nil _ _) ?_ hname
    intro d hd hreads
    obtain ⟨_, hheads, rfl⟩ := hreads.heads hd
    exact finds_identifier hheads
  refine hname'.bind fun n' hn' => ?_
  refine (finds_token (Operand.tokens_ne_nil hx) hoperand hreads).bind fun y hy => ?_
  exact finds_pure ⟨hn', hy⟩

theorem valueDefinition_run :
    valueDefinition.run = spanned (fun span p => .defineValue span p.1 p.2)
      (definition (utf8 "val") value.run) := rfl

theorem addressDefinition_run :
    addressDefinition.run = spanned (fun span p => .defineAddress span p.1 p.2)
      (definition (utf8 "addr") address.run) := rfl

theorem registerDefinition_run :
    registerDefinition.run = spanned (fun span p => .defineRegister span p.1 p.2)
      (definition (utf8 "reg") register.run) := rfl

theorem rejects_list {word : Bytes} {item : Parse Operand} (h : (keyword word).Rejects c) :
    (list word item).Rejects c := by
  rw [list_eq]
  exact h.bind.mapError

theorem rejects_definition {word : Bytes} {operand : Parse Operand}
    (h : (keyword word).Rejects c) : (definition word operand).Rejects c := by
  unfold definition
  exact h.bind.mapError

/-! ## What follows a statement -/

/-- Behind the gap, the text goes on as it may behind a statement. -/
def Follows (t : Bytes) : Prop :=
  ∀ u, Gap t u → isSolid u = true →
    ∀ b ∈ u.head?, isNameStart b = true ∨ b = ascii '\x7b' ∨ b = ascii '\x7d'

theorem Follows.notNext {m : UInt8} {t : Bytes} (h : Follows t)
    (hm : isNameStart m = false ∧ m ≠ ascii '\x7b' ∧ m ≠ ascii '\x7d') : NotNext m t := by
  intro u hgap hsolid hhead
  rcases h u hgap hsolid m hhead with hstart | hopen | hclose
  · rw [hm.1] at hstart
    contradiction
  · exact hm.2.1 hopen
  · exact hm.2.2 hclose

theorem follows_of_gap {t u : Bytes} (hgap : Gap t u) (hsolid : isSolid u = true)
    (hu : ∀ b ∈ u.head?, isNameStart b = true ∨ b = ascii '\x7b' ∨ b = ascii '\x7d') :
    Follows t := by
  intro v hv hvsolid
  rw [hv.unique hgap hvsolid hsolid]
  exact hu

theorem follows_of_isNameStart {t u : Bytes} (hgap : Gap t u) (hsolid : isSolid u = true)
    (hu : u.head?.any isNameStart = true) : Follows t := by
  refine follows_of_gap hgap hsolid fun b hb => Or.inl ?_
  rw [hb] at hu
  exact hu

theorem follows_of_statement {x : Statement} (hx : x.isGrammatical = true) {t : Bytes}
    (h : Reads x.tokens t rest) : Follows t := by
  have hword : ∀ {w : Bytes} {ks : List Token}, Reads (.word w :: ks) t rest → Follows t := by
    rintro w ks ⟨u, v, hgap, hk, _⟩
    exact follows_of_isNameStart hgap hk.isSolid hk.head?_word
  cases x with
  | label span n =>
      obtain ⟨u, v, hgap, hk, _⟩ := h
      exact follows_of_isNameStart hgap hk.isSolid hk.head?_label
  | block span body =>
      obtain ⟨u, v, hgap, hk, _⟩ := h
      refine follows_of_gap hgap hk.isSolid fun b hb => Or.inr (Or.inl ?_)
      rw [hk.head?_mark] at hb
      exact (Option.some.inj hb).symm
  | missing => contradiction
  | _ => exact hword h

/-- Only the mark itself starts with a colon. -/
theorem ne_colon_of_heads {k : Token} {t : Bytes} (h : k.Heads t rest)
    (hk : k ≠ .mark (ascii ':')) : t.head? ≠ some (ascii ':') := by
  cases k with
  | word w => exact head?_ne_of_isNameStart h.head?_word (by decide)
  | name n => exact head?_ne_of_isNameStart h.head?_name (by decide)
  | label n => exact head?_ne_of_isNameStart h.head?_label (by decide)
  | number radix digits =>
      have hdigit := h.head?_number
      cases t with
      | nil => simp
      | cons b t =>
          rw [List.head?_cons, Option.any_some] at hdigit
          exact head?_ne_of_isNameByte (isNameByte_of_isDecimalDigit hdigit) (by decide)
  | text value =>
      obtain ⟨_, ⟨_, _, rfl⟩, rfl, _⟩ := h
      exact fun heq => absurd (Option.some.inj heq) (by decide)
  | letter l =>
      obtain ⟨_, ⟨_, _, rfl⟩, rfl, _⟩ := h
      exact fun heq => absurd (Option.some.inj heq) (by decide)
  | register radix digits =>
      obtain ⟨_, ⟨_, _, rfl⟩, rfl, _⟩ := h
      exact fun heq => absurd (Option.some.inj heq) (by decide)
  | mark m =>
      rw [h.head?_mark]
      exact fun heq => hk (by rw [Option.some.inj heq])

theorem notNext_colon {ks : List Token} {t : Bytes} (h : Reads ks t rest)
    (hks : ks.head? ≠ some (.mark (ascii ':'))) (hrest : NotNext (ascii ':') rest) :
    NotNext (ascii ':') t := by
  cases ks with
  | nil =>
      obtain rfl : t = rest := h
      exact hrest
  | cons k ks =>
      obtain ⟨u, v, hgap, hk, _⟩ := h
      exact notNext_of_heads hgap hk (ne_colon_of_heads hk fun heq => hks (by rw [heq]; rfl))

end Gx.Grammar
