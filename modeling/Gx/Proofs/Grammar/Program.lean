import Gx.Proofs.Grammar.Statements

/-!
# Programs are what their texts say

A text is read as a program exactly if it is a written form of that program, and it is a written
form of at most one.  Both directions go through the choice between the kinds of statements: the
words that statements start with differ, so only one alternative can apply.
-/

namespace Gx.Grammar

open Parse

variable {c next : Cursor} {rest : Bytes}

/-! ## Rows of statements -/

theorem tokensOf_eq (body : List Statement) :
    Statement.tokensOf body = body.flatMap Statement.tokens := by
  induction body with
  | nil => rfl
  | cons x body ih => rw [Statement.tokensOf, ih, List.flatMap_cons]

theorem areGrammatical_iff (body : List Statement) :
    Statement.areGrammatical body = true ↔ ∀ x ∈ body, x.isGrammatical = true := by
  induction body with
  | nil => simp [Statement.areGrammatical]
  | cons x body ih => simp [Statement.areGrammatical, ih]

theorem unspannedAll_eq {body read : List Statement}
    (h : List.Forall₂ (fun x y : Statement => y.unspanned = x.unspanned) body read) :
    Statement.unspannedAll read = Statement.unspannedAll body := by
  induction h with
  | nil => rfl
  | cons hx _ ih => rw [Statement.unspannedAll, Statement.unspannedAll, hx, ih]

theorem statement_tokens_ne_nil {x : Statement} (hx : x.isGrammatical = true) :
    x.tokens ≠ [] := by
  cases x with
  | missing => contradiction
  | _ => exact List.cons_ne_nil _ _

/-! ## Alternatives -/

/-- The statements that start with a keyword. -/
def keywordParsers : List (Bytes × Parser Statement) :=
  [(utf8 "dat", under "dat" data), (utf8 "datl", under "datl" words),
    (utf8 "val", under "val" valueDefinition), (utf8 "addr", under "addr" addressDefinition),
    (utf8 "reg", under "reg" registerDefinition)]

theorem isKeyword_of_mem {w : Bytes} (h : w ∈ keywordParsers.map Prod.fst) : IsKeyword w := by
  have hall : ∀ w ∈ keywordParsers.map Prod.fst, w ≠ [] ∧ w.all isLowerLetter = true := by decide
  exact hall w h

theorem keywords_nodup : (keywordParsers.map Prod.fst).Nodup := by decide

theorem mnemonic_not_keyword :
    ∀ i ∈ Instruction.table, i.name ∉ keywordParsers.map Prod.fst := by
  decide

theorem statementTo_cons (level : UInt8) (levels : Bytes) :
    statementTo (level :: levels) =
      choice ([under "label" label, under "block" (blockOf (statementTo levels))] ++
        keywordParsers.map Prod.snd ++ [under "instruction" instruction]) := by
  rw [statementTo]
  rfl

theorem rejects_keywordParser {p : Bytes × Parser Statement} (hp : p ∈ keywordParsers)
    (h : (keyword p.1).Rejects c) : p.2.run.Rejects c := by
  simp only [keywordParsers, List.mem_cons, List.not_mem_nil, or_false] at hp
  rcases hp with rfl | rfl | rfl | rfl | rfl
  · exact (rejects_list h).spanned.named
  · exact (rejects_list h).spanned.named
  · refine Rejects.named (p := valueDefinition.run) ?_
    rw [valueDefinition_run]
    exact (rejects_definition h).spanned
  · refine Rejects.named (p := addressDefinition.run) ?_
    rw [addressDefinition_run]
    exact (rejects_definition h).spanned
  · refine Rejects.named (p := registerDefinition.run) ?_
    rw [registerDefinition_run]
    exact (rejects_definition h).spanned

/-! ## Blocks -/

/-- Statements in braces, without the block around them. -/
def inBraces (statement : Parse Statement) : Parse (List Statement) := do
  let _ ← literal [ascii '\x7b']
  let body ← many (token statement)
  let _ ← token (literal [ascii '\x7d'])
  return body

theorem block_run (statement : Parse Statement) :
    (blockOf statement).run = spanned .block (inBraces statement) := rfl

theorem sound_block {statement : Parse Statement}
    (h : statement.Sound (·.isGrammatical = true) Statement.tokens) :
    (blockOf statement).run.Sound (·.isGrammatical = true) Statement.tokens := by
  intro c x next hok
  rw [block_run] at hok
  obtain ⟨body, hbody, rfl⟩ := spanned_eq_ok.mp hok
  unfold inBraces at hbody
  simp only [bind_eq_ok, pure_eq_ok] at hbody
  obtain ⟨_, _, hopen, body', _, hmany, _, _, hclose, rfl, rfl⟩ := hbody
  have hmany' := (h.token fun x hx => statement_tokens_ne_nil hx).many _ _ _ hmany
  have hclose' := (sound_tokenMark (by decide) _ _ _ hclose).2
  refine ⟨(areGrammatical_iff body).mpr hmany'.1, ?_⟩
  rw [Statement.tokens, tokensOf_eq]
  exact ((heads_of_literal (by decide) hopen).reads.cons hmany'.2).append hclose'

theorem rejects_block {statement : Parse Statement} (h : c.rest.head? ≠ some (ascii '\x7b')) :
    (blockOf statement).run.Rejects c := by
  rw [block_run]
  exact Rejects.spanned (rejects_literal h).bind

/-! ## Soundness -/

theorem sound_keywordParser {p : Bytes × Parser Statement} (hp : p ∈ keywordParsers) :
    p.2.run.Sound (·.isGrammatical = true) Statement.tokens := by
  intro c x next h
  have hkey := isKeyword_of_mem (List.mem_map_of_mem hp)
  simp only [keywordParsers, List.mem_cons, List.not_mem_nil, or_false] at hp
  rcases hp with rfl | rfl | rfl | rfl | rfl
  · obtain ⟨items, hitems, rfl⟩ := spanned_eq_ok.mp (named_eq_ok.mp h)
    obtain ⟨⟨hne, hall⟩, hreads⟩ :=
      sound_list hkey sound_dataItem (fun _ => isDataItem_ne_missing) _ _ _ hitems
    exact ⟨by simpa [Statement.isGrammatical, hne] using hall, hreads⟩
  · obtain ⟨items, hitems, rfl⟩ := spanned_eq_ok.mp (named_eq_ok.mp h)
    obtain ⟨⟨hne, hall⟩, hreads⟩ :=
      sound_list hkey sound_address (fun _ => isAddress_ne_missing) _ _ _ hitems
    exact ⟨by simpa [Statement.isGrammatical, hne] using hall, hreads⟩
  · obtain ⟨p, hp, rfl⟩ := spanned_eq_ok.mp (valueDefinition_run ▸ named_eq_ok.mp h)
    exact sound_definition hkey sound_value (fun _ => isValue_ne_missing) _ _ _ hp
  · obtain ⟨p, hp, rfl⟩ := spanned_eq_ok.mp (addressDefinition_run ▸ named_eq_ok.mp h)
    exact sound_definition hkey sound_address (fun _ => isAddress_ne_missing) _ _ _ hp
  · obtain ⟨p, hp, rfl⟩ := spanned_eq_ok.mp (registerDefinition_run ▸ named_eq_ok.mp h)
    exact sound_definition hkey sound_register (fun _ => isRegister_ne_missing) _ _ _ hp

theorem sound_statementTo (levels : Bytes) :
    (statementTo levels).Sound (·.isGrammatical = true) Statement.tokens := by
  induction levels with
  | nil =>
      intro c x next h
      rw [statementTo] at h
      contradiction
  | cons level levels ih =>
      intro c x next h
      rw [statementTo_cons] at h
      obtain ⟨q, hq, hok⟩ := choice_eq_ok h
      simp only [List.mem_append, List.mem_cons, List.not_mem_nil, or_false] at hq
      rcases hq with ((rfl | rfl) | hq) | rfl
      · exact sound_label _ _ _ (named_eq_ok.mp hok)
      · exact sound_block ih _ _ _ (named_eq_ok.mp hok)
      · obtain ⟨p, hp, rfl⟩ := List.mem_map.mp hq
        exact sound_keywordParser hp _ _ _ hok
      · exact sound_instruction _ _ _ (named_eq_ok.mp hok)

/-! ## Completeness -/

/-- The choice between statements takes what an alternative finds behind a word, unless the word is
a keyword of an alternative before it. -/
theorem finds_behind_word {w : Bytes} {ks : List Token} {S : Statement → Prop}
    {pre post : List (Parser Statement)} {q : Parser Statement}
    (hsplit : keywordParsers.map Prod.snd ++ [under "instruction" instruction] = pre ++ q :: post)
    (hpre : ∀ r ∈ pre, ∃ p ∈ keywordParsers, r = p.2 ∧ w ≠ p.1)
    (hsolid : isSolid c.rest = true) (h : Reads (.word w :: ks) c.rest rest)
    (hks : ks.head? ≠ some (.mark (ascii ':'))) (hrest : Follows rest)
    (hq : q.run.Finds S c rest) (level : UInt8) (levels : Bytes) :
    (statementTo (level :: levels)).Finds S c rest := by
  obtain ⟨mid, hword, hmore⟩ := h.heads hsolid
  have hmid := notNext_colon hmore hks (hrest.notNext (by decide))
  rw [statementTo_cons, List.append_assoc, hsplit, ← List.append_assoc]
  refine hq.choice _ ?_
  intro r hr
  simp only [List.mem_append, List.mem_cons, List.not_mem_nil, or_false] at hr
  rcases hr with (rfl | rfl) | hr
  · obtain ⟨n, ⟨hn, _⟩, hc, hopen⟩ := hword
    exact (rejects_label ⟨n, ⟨hn, rfl⟩, hc, fun _ => hopen rfl⟩ hmid).named.fails
  · exact (rejects_block (head?_ne_of_isNameStart hword.head?_word (by decide))).named.fails
  · obtain ⟨p, hp, rfl, hne⟩ := hpre r hr
    have hkey := isKeyword_of_mem (List.mem_map_of_mem hp)
    exact (rejects_keywordParser hp (rejects_keyword hkey hne hword)).fails

theorem finds_behind_keyword {w : Bytes} {ks : List Token} {S : Statement → Prop}
    {q : Parser Statement} (hmem : (w, q) ∈ keywordParsers) (hsolid : isSolid c.rest = true)
    (h : Reads (.word w :: ks) c.rest rest) (hks : ks.head? ≠ some (.mark (ascii ':')))
    (hrest : Follows rest) (hq : q.run.Finds S c rest) (level : UInt8) (levels : Bytes) :
    (statementTo (level :: levels)).Finds S c rest := by
  obtain ⟨pre, post, hsplit⟩ := List.append_of_mem hmem
  have halternatives : keywordParsers.map Prod.snd ++ [under "instruction" instruction] =
      pre.map Prod.snd ++ q :: (post.map Prod.snd ++ [under "instruction" instruction]) := by
    rw [hsplit]
    simp
  refine finds_behind_word halternatives ?_ hsolid h hks hrest hq level levels
  intro r hr
  obtain ⟨p, hp, rfl⟩ := List.mem_map.mp hr
  refine ⟨p, by rw [hsplit]; exact List.mem_append_left _ hp, rfl, ?_⟩
  have hnodup := keywords_nodup
  rw [hsplit, List.map_append, List.map_cons] at hnodup
  have hne := (List.nodup_append.mp hnodup).2.2 p.1 (List.mem_map_of_mem hp) w
    List.mem_cons_self
  exact hne.symm

theorem head?_tokens_ne_colon (x : Operand) : x.tokens.head? ≠ some (.mark (ascii ':')) := by
  cases x with
  | load _ _ _ => exact fun heq => absurd (Option.some.inj heq) (by decide)
  | fetch _ _ _ => exact fun heq => absurd (Option.some.inj heq) (by decide)
  | register _ r => cases r <;> simp [Operand.tokens, RegisterName.token]
  | _ => simp [Operand.tokens]

theorem head?_flatMap_ne_colon (xs : List Operand) :
    (xs.flatMap Operand.tokens).head? ≠ some (.mark (ascii ':')) := by
  induction xs with
  | nil => simp
  | cons x xs ih =>
      rw [List.flatMap_cons, List.head?_append]
      cases hx : x.tokens.head? with
      | none =>
          rw [Option.none_or]
          exact ih
      | some k =>
          have hfirst := head?_tokens_ne_colon x
          rw [hx] at hfirst
          rw [Option.some_or]
          exact hfirst

theorem head?_listTokens_ne_colon {xs : List Operand} (hne : xs ≠ [])
    (hmissing : ∀ x ∈ xs, x ≠ .missing) :
    (Operand.listTokens xs).head? ≠ some (.mark (ascii ':')) := by
  obtain ⟨first, more, rfl⟩ := List.exists_cons_of_ne_nil hne
  obtain ⟨k, ks, hks⟩ :=
    List.exists_cons_of_ne_nil (Operand.tokens_ne_nil (hmissing first List.mem_cons_self))
  have hfirst := head?_tokens_ne_colon first
  rw [Operand.listTokens, hks]
  rwa [hks] at hfirst

/-! ## Statements behind a keyword -/

theorem data_items {span : Span} {items : List Operand}
    (h : (Statement.data span items).isGrammatical = true) :
    items ≠ [] ∧ ∀ x ∈ items, x.isDataItem = true := by
  simpa [Statement.isGrammatical] using h

theorem words_items {span : Span} {items : List Operand}
    (h : (Statement.words span items).isGrammatical = true) :
    items ≠ [] ∧ ∀ x ∈ items, x.isAddress = true := by
  simpa [Statement.isGrammatical] using h

section

variable {span : Span} {n : Bytes} {x : Operand} {items : List Operand}
  (hsolid : isSolid c.rest = true)

include hsolid

theorem finds_data (hx : (Statement.data span items).isGrammatical = true)
    (h : Reads (Statement.data span items).tokens c.rest rest) (hrest : Follows rest) :
    data.run.Finds (fun y => y.unspanned = (Statement.data span items).unspanned) c rest := by
  obtain ⟨hne, hitems⟩ := data_items hx
  have hlist := finds_list (isKeyword_of_mem (by decide)) hne
    (fun x hmem => isDataItem_ne_missing (hitems x hmem))
    (fun x hmem d mid hd hreads => finds_dataItem (hitems x hmem) hd hreads) hsolid h
    (hrest.notNext (by decide)) (hrest.notNext (by decide))
  refine hlist.spanned fun ys span' hys => ?_
  simp only [Statement.unspanned]
  rw [hys]

theorem finds_words (hx : (Statement.words span items).isGrammatical = true)
    (h : Reads (Statement.words span items).tokens c.rest rest) (hrest : Follows rest) :
    words.run.Finds (fun y => y.unspanned = (Statement.words span items).unspanned) c rest := by
  obtain ⟨hne, hitems⟩ := words_items hx
  have hlist := finds_list (isKeyword_of_mem (by decide)) hne
    (fun x hmem => isAddress_ne_missing (hitems x hmem))
    (fun x hmem d mid hd hreads _ => finds_address (hitems x hmem) hd hreads) hsolid h
    (hrest.notNext (by decide)) (hrest.notNext (by decide))
  refine hlist.spanned fun ys span' hys => ?_
  simp only [Statement.unspanned]
  rw [hys]

theorem finds_valueDefinition (hx : x.isValue = true)
    (h : Reads (Statement.defineValue span n x).tokens c.rest rest) (hrest : Follows rest) :
    valueDefinition.run.Finds
      (fun y => y.unspanned = (Statement.defineValue span n x).unspanned) c rest := by
  have hfound := finds_definition (isKeyword_of_mem (by decide)) (isValue_ne_missing hx)
    (fun d hd hreads => finds_value hx hd hreads (hrest.notNext (by decide))) hsolid h
  rw [valueDefinition_run]
  refine hfound.spanned ?_
  rintro ⟨_, y⟩ span' ⟨rfl, hy⟩
  simp only [Statement.unspanned]
  rw [hy]

theorem finds_addressDefinition (hx : x.isAddress = true)
    (h : Reads (Statement.defineAddress span n x).tokens c.rest rest) :
    addressDefinition.run.Finds
      (fun y => y.unspanned = (Statement.defineAddress span n x).unspanned) c rest := by
  have hfound := finds_definition (isKeyword_of_mem (by decide)) (isAddress_ne_missing hx)
    (fun d hd hreads => finds_address hx hd hreads) hsolid h
  rw [addressDefinition_run]
  refine hfound.spanned ?_
  rintro ⟨_, y⟩ span' ⟨rfl, hy⟩
  simp only [Statement.unspanned]
  rw [hy]

theorem finds_registerDefinition (hx : x.isRegister = true)
    (h : Reads (Statement.defineRegister span n x).tokens c.rest rest) :
    registerDefinition.run.Finds
      (fun y => y.unspanned = (Statement.defineRegister span n x).unspanned) c rest := by
  have hfound := finds_definition (isKeyword_of_mem (by decide)) (isRegister_ne_missing hx)
    (fun d hd hreads => finds_register hx hd hreads) hsolid h
  rw [registerDefinition_run]
  refine hfound.spanned ?_
  rintro ⟨_, y⟩ span' ⟨rfl, hy⟩
  simp only [Statement.unspanned]
  rw [hy]

end

/-- The statement is read where it is written, with enough levels for the text. -/
def Complete (x : Statement) : Prop :=
  ∀ (levels : Bytes) (c : Cursor) (rest : Bytes), c.rest.length < levels.length →
    isSolid c.rest = true → Reads x.tokens c.rest rest → Follows rest →
    (statementTo levels).Finds (fun y => y.unspanned = x.unspanned) c rest

theorem complete_label (span : Span) (n : Bytes) : Complete (.label span n) := by
  intro levels c rest hlevels hsolid h _
  obtain ⟨level, levels, rfl⟩ := List.exists_cons_of_length_pos (Nat.zero_lt_of_lt hlevels)
  obtain ⟨rest, hheads, rfl⟩ := Reads.heads h hsolid
  have hlabel : (under "label" label).run.Finds
      (fun y => y.unspanned = (Statement.label span n).unspanned) c rest :=
    (finds_label hheads).named
  rw [statementTo_cons, List.append_assoc, List.cons_append]
  exact hlabel.choice [] (by simp)

theorem complete_instruction {span : Span} {i : Instruction} {operands : List Operand}
    (hx : (Statement.instruction span i operands).isGrammatical = true) :
    Complete (.instruction span i operands) := by
  intro levels c rest hlevels hsolid h hrest
  obtain ⟨level, levels, rfl⟩ := List.exists_cons_of_length_pos (Nat.zero_lt_of_lt hlevels)
  have hmem : i ∈ Instruction.table := by
    simp only [Statement.isGrammatical, Bool.and_eq_true, List.contains_iff_mem] at hx
    exact hx.1
  refine finds_behind_word rfl ?_ hsolid h (head?_flatMap_ne_colon operands) hrest
    (Finds.named (finds_instruction hx hsolid h (hrest.notNext (by decide)))) level levels
  intro r hr
  obtain ⟨p, hp, rfl⟩ := List.mem_map.mp hr
  exact ⟨p, hp, rfl, fun heq => mnemonic_not_keyword i hmem (heq ▸ List.mem_map_of_mem hp)⟩

theorem complete_of_keyword {x : Statement} {w : Bytes} {q : Parser Statement} {ks : List Token}
    (hmem : (w, q) ∈ keywordParsers) (htokens : x.tokens = .word w :: ks)
    (hks : ks.head? ≠ some (.mark (ascii ':')))
    (hq : ∀ (c : Cursor) (rest : Bytes), IsKeyword w → isSolid c.rest = true →
      Reads (.word w :: ks) c.rest rest → Follows rest →
      q.run.Finds (fun y => y.unspanned = x.unspanned) c rest) :
    Complete x := by
  intro levels c rest hlevels hsolid h hrest
  obtain ⟨level, levels, rfl⟩ := List.exists_cons_of_length_pos (Nat.zero_lt_of_lt hlevels)
  rw [htokens] at h
  have hkey := isKeyword_of_mem (List.mem_map_of_mem hmem)
  exact finds_behind_keyword hmem hsolid h hks hrest (hq c rest hkey hsolid h hrest) level levels

theorem complete_data {span : Span} {items : List Operand}
    (hx : (Statement.data span items).isGrammatical = true) : Complete (.data span items) := by
  obtain ⟨hne, hitems⟩ := data_items hx
  have hmissing : ∀ x ∈ items, x ≠ .missing := fun x hmem => isDataItem_ne_missing (hitems x hmem)
  refine complete_of_keyword List.mem_cons_self rfl (head?_listTokens_ne_colon hne hmissing) ?_
  intro c rest _ hsolid h hrest
  exact (finds_data hsolid hx h hrest).named

theorem complete_words {span : Span} {items : List Operand}
    (hx : (Statement.words span items).isGrammatical = true) : Complete (.words span items) := by
  obtain ⟨hne, hitems⟩ := words_items hx
  have hmissing : ∀ x ∈ items, x ≠ .missing := fun x hmem => isAddress_ne_missing (hitems x hmem)
  refine complete_of_keyword (List.mem_cons_of_mem _ List.mem_cons_self) rfl
    (head?_listTokens_ne_colon hne hmissing) ?_
  intro c rest _ hsolid h hrest
  exact (finds_words hsolid hx h hrest).named

theorem complete_defineValue {span : Span} {n : Bytes} {x : Operand}
    (hx : x.isValue = true) : Complete (.defineValue span n x) := by
  refine complete_of_keyword (q := under "val" valueDefinition) (by simp [keywordParsers]) rfl
    (fun heq => Token.noConfusion (Option.some.inj heq)) ?_
  intro c rest _ hsolid h hrest
  exact (finds_valueDefinition hsolid hx h hrest).named

theorem complete_defineAddress {span : Span} {n : Bytes} {x : Operand}
    (hx : x.isAddress = true) : Complete (.defineAddress span n x) := by
  refine complete_of_keyword (q := under "addr" addressDefinition) (by simp [keywordParsers]) rfl
    (fun heq => Token.noConfusion (Option.some.inj heq)) ?_
  intro c rest _ hsolid h _
  exact (finds_addressDefinition hsolid hx h).named

theorem complete_defineRegister {span : Span} {n : Bytes} {x : Operand}
    (hx : x.isRegister = true) : Complete (.defineRegister span n x) := by
  refine complete_of_keyword (q := under "reg" registerDefinition) (by simp [keywordParsers]) rfl
    (fun heq => Token.noConfusion (Option.some.inj heq)) ?_
  intro c rest _ hsolid h _
  exact (finds_registerDefinition hsolid hx h).named

/-- Nothing more is read where a block or the text ends. -/
theorem rejects_statementTo (levels : Bytes) (h : ∀ b ∈ c.rest.head?, b = ascii '\x7d') :
    (statementTo levels).Rejects c := by
  have hstart : c.rest.head?.any isNameStart = false := by
    cases hhead : c.rest.head? with
    | none => rfl
    | some b =>
        rw [h b hhead]
        decide
  have hopen : c.rest.head? ≠ some (ascii '\x7b') := fun hhead => absurd (h _ hhead) (by decide)
  cases levels with
  | nil => exact ⟨_, rfl⟩
  | cons level levels =>
      rw [statementTo_cons]
      apply Rejects.choice
      intro q hq
      simp only [List.mem_append, List.mem_cons, List.not_mem_nil, or_false] at hq
      rcases hq with ((rfl | rfl) | hq) | rfl
      · exact (rejects_label_of_head hstart).named
      · exact (rejects_block hopen).named
      · obtain ⟨p, hp, rfl⟩ := List.mem_map.mp hq
        exact rejects_keywordParser hp
          (rejects_keyword_of_head (isKeyword_of_mem (List.mem_map_of_mem hp)) hstart)
      · exact (rejects_instruction hstart).named

/-- What a repetition of statements needs to read the statements of `body`. -/
theorem repeats_statements {statement : Parse Statement} {body : List Statement} {u : Bytes}
    (size : Nat) (hbody : ∀ x ∈ body, x.isGrammatical = true)
    (hfinds : ∀ x ∈ body, ∀ (d : Cursor) mid, d.rest.length ≤ size → isSolid d.rest = true →
      Reads x.tokens d.rest mid → Follows mid →
      statement.Finds (fun y => y.unspanned = x.unspanned) d mid)
    (hgap : Gap rest u) (hu : ∀ b ∈ u.head?, b = ascii '\x7d')
    (hrejects : ∀ d : Cursor, d.rest = u → statement.Rejects d) :
    (token statement).Repeats Statement.tokens (fun x y => y.unspanned = x.unspanned) Follows size
      body rest := by
  have hsolid : isSolid u = true := by
    cases hhead : u.head? with
    | none => simp [isSolid, hhead]
    | some b =>
        simp only [isSolid, hhead, hu b hhead]
        decide
  refine ⟨?_, fun x hx => statement_tokens_ne_nil (hbody x hx), ?_, ?_, ?_⟩
  · intro x hx d mid hd hreads hmid
    obtain ⟨k, ks, hks⟩ := List.exists_cons_of_ne_nil (statement_tokens_ne_nil (hbody x hx))
    have hreads' := hreads
    rw [hks] at hreads'
    obtain ⟨v, w, hgap', hk, hrest⟩ := hreads'
    refine Finds.token hgap' hk.isSolid (hfinds x hx _ _ ?_ hk.isSolid ?_ hmid)
    · exact hgap'.length_le.trans hd
    · rw [hks]
      exact ⟨v, w, Gap.nil v, hk, hrest⟩
  · exact fun x hx t mid hreads => follows_of_statement (hbody x hx) hreads
  · exact follows_of_gap hgap hsolid fun b hb => Or.inr (Or.inr (hu b hb))
  · rintro d rfl
    exact Rejects.token hgap hsolid (hrejects _ rfl)

/-- A block is read by a parser that reads its statements, and nothing at a closing brace. -/
theorem finds_block {statement : Parse Statement} {span : Span} {body : List Statement}
    (hbody : ∀ x ∈ body, x.isGrammatical = true)
    (hfinds : ∀ x ∈ body, ∀ (d : Cursor) mid, d.rest.length < c.rest.length →
      isSolid d.rest = true → Reads x.tokens d.rest mid → Follows mid →
      statement.Finds (fun y => y.unspanned = x.unspanned) d mid)
    (hrejects : ∀ d : Cursor, (∀ b ∈ d.rest.head?, b = ascii '\x7d') → statement.Rejects d)
    (hsolid : isSolid c.rest = true)
    (h : Reads (Statement.block span body).tokens c.rest rest) :
    (blockOf statement).run.Finds
      (fun y => y.unspanned = (Statement.block span body).unspanned) c rest := by
  rw [Statement.tokens, tokensOf_eq] at h
  obtain ⟨last, hfront, hclose⟩ := reads_append.mp h
  obtain ⟨start, hopen, hreads⟩ := Reads.heads hfront hsolid
  have hstart := hopen.length_lt
  obtain ⟨u, v, hgap, hmark, _⟩ := id hclose
  have hu : ∀ b ∈ u.head?, b = ascii '\x7d' := by
    rw [hmark.head?_mark]
    exact fun b hb => (Option.some.inj hb).symm
  have hrepeats := repeats_statements start.length hbody
    (fun x hx d mid hd => hfinds x hx d mid (by omega)) hgap hu
    (fun d hd => hrejects d (hd ▸ hu))
  have hbraces : (inBraces statement).Finds
      (fun read => Statement.unspannedAll read = Statement.unspannedAll body) c rest := by
    refine (finds_literal hopen).bind fun _ _ => ?_
    refine (hrepeats.many le_rfl hreads).bind fun read hread => ?_
    refine (finds_tokenMark hclose).bind fun _ _ => ?_
    exact finds_pure (unspannedAll_eq hread)
  rw [block_run]
  refine hbraces.spanned fun read span' hread => ?_
  simp only [Statement.unspanned]
  rw [hread]

theorem complete_block {span : Span} {body : List Statement}
    (hbody : ∀ x ∈ body, x.isGrammatical = true) (hcomplete : ∀ x ∈ body, Complete x) :
    Complete (.block span body) := by
  intro levels c rest hlevels hsolid h hrest
  obtain ⟨level, levels, rfl⟩ := List.exists_cons_of_length_pos (Nat.zero_lt_of_lt hlevels)
  obtain ⟨_, hopen, _⟩ := Reads.heads h hsolid
  -- the opening brace takes a byte, so one level less is enough for what stands inside
  have hblock : (blockOf (statementTo levels)).run.Finds
      (fun y => y.unspanned = (Statement.block span body).unspanned) c rest :=
    finds_block hbody
      (fun x hx d mid hd hdsolid hreads hmid => hcomplete x hx levels d mid
        (by simp only [List.length_cons] at hlevels; omega) hdsolid hreads hmid)
      (fun d hd => rejects_statementTo levels hd) hsolid h
  have hlabel : (under "label" label).run.Fails c :=
    (rejects_label_of_head (by
      obtain ⟨more, hmore⟩ := List.head?_eq_some_iff.mp hopen.head?_mark
      rw [hmore]
      rfl)).named.fails
  have hunder : (under "block" (blockOf (statementTo levels))).run.Finds
      (fun y => y.unspanned = (Statement.block span body).unspanned) c rest := hblock.named
  rw [statementTo_cons, List.append_assoc]
  exact hunder.choice [under "label" label] (by simpa using hlabel)

mutual

theorem complete (x : Statement) (hx : x.isGrammatical = true) : Complete x := by
  cases x with
  | label span n => exact complete_label span n
  | block span body =>
      rw [Statement.isGrammatical, areGrammatical_iff] at hx
      exact complete_block hx (completeAll body hx)
  | instruction span i operands => exact complete_instruction hx
  | data span items => exact complete_data hx
  | words span items => exact complete_words hx
  | defineValue span n x => exact complete_defineValue hx
  | defineAddress span n x => exact complete_defineAddress hx
  | defineRegister span n x => exact complete_defineRegister hx
  | missing => contradiction

theorem completeAll (body : List Statement) (hbody : ∀ x ∈ body, x.isGrammatical = true) :
    ∀ x ∈ body, Complete x := by
  cases body with
  | nil => simp
  | cons x body =>
      rw [List.forall_mem_cons] at hbody ⊢
      exact ⟨complete x hbody.1, completeAll body hbody.2⟩

end

/-! ## Programs -/

def skipGap : Parse Unit := fun c => .ok () (Blank.gap.skip c)

/-- The statements up to the end of the text. -/
def statementsToEnd : Parse (List Statement) := do
  let body ← many (token statement.run)
  skipGap
  endOfText
  return body

theorem program_run : program.run = spanned .mk statementsToEnd := by
  unfold program
  rfl

theorem endOfText_eq_ok {x : Unit} : endOfText c = .ok x next ↔ c.rest = [] ∧ next = c := by
  unfold endOfText
  cases c.rest with
  | nil => simp [eq_comm]
  | cons b t => cases statement.run c <;> simp

theorem ofText_eq_ok {t : Bytes} {p : Program} :
    Program.ofText t = .ok p ↔ ∃ next, program.run (.ofPos t 0) = .ok p next := by
  unfold Program.ofText
  cases program.run (.ofPos t 0) <;> simp

/-- Positions aside, the text is a written form of the statements. -/
def WrittenAs (body : List Statement) (t : Bytes) : Prop :=
  Statement.areGrammatical body = true ∧ Renders (Statement.tokensOf body) t

theorem writtenAs_congr {body body' : List Statement} {t : Bytes}
    (h : Statement.unspannedAll body = Statement.unspannedAll body') (hbody : WrittenAs body t) :
    WrittenAs body' t := by
  unfold WrittenAs at hbody ⊢
  rw [← Statement.areGrammatical_unspannedAll, ← Statement.tokensOf_unspannedAll] at hbody ⊢
  rwa [← h]

theorem writtenAs_of_ofText {t : Bytes} {p : Program} (h : Program.ofText t = .ok p) :
    WrittenAs p.body t := by
  obtain ⟨last, hok⟩ := ofText_eq_ok.mp h
  rw [program_run] at hok
  obtain ⟨body, hbody, rfl⟩ := spanned_eq_ok.mp hok
  unfold statementsToEnd at hbody
  simp only [bind_eq_ok, pure_eq_ok, endOfText_eq_ok] at hbody
  obtain ⟨body', mid, hmany, _, _, hskip, _, _, ⟨hend, rfl⟩, rfl, rfl⟩ := hbody
  have hstatement : statement.run.Sound (·.isGrammatical = true) Statement.tokens :=
    fun c => sound_statementTo c.budget c
  have hmany' := (hstatement.token fun x hx => statement_tokens_ne_nil hx).many _ _ _ hmany
  obtain ⟨rest, hrest, hgap, _⟩ := skip_eq mid
  rw [skipGap, hrest] at hskip
  obtain ⟨_, rfl⟩ := Reply.ok.inj hskip
  rw [Cursor.rest_leaving] at hend
  refine ⟨(areGrammatical_iff body).mpr hmany'.1, mid.rest, ?_, hend ▸ hgap⟩
  rw [tokensOf_eq]
  exact hmany'.2

theorem ofText_of_writtenAs {body : List Statement} {t : Bytes} (h : WrittenAs body t) :
    ∃ p, Program.ofText t = .ok p ∧
      Statement.unspannedAll p.body = Statement.unspannedAll body := by
  obtain ⟨hbody, rest, hreads, hgap⟩ := h
  rw [areGrammatical_iff] at hbody
  rw [tokensOf_eq] at hreads
  have hnone : ∀ b ∈ ([] : Bytes).head?, b = ascii '\x7d' := fun _ hb => by contradiction
  have hrepeats := repeats_statements t.length hbody
    (fun x hx d mid _ hsolid hreads hmid => complete x (hbody x hx) d.budget d mid
      (by simp [Cursor.budget]) hsolid hreads hmid)
    hgap hnone (fun d hd => rejects_statementTo d.budget (hd ▸ hnone))
  have hskip : skipGap.Finds (fun _ => True) ((Cursor.ofPos t 0).leaving rest) [] :=
    ⟨Nat.zero_le _, (), trivial, by rw [skipGap, skip_of_gap hgap rfl]⟩
  have hend : endOfText.Finds (fun _ => True)
      (((Cursor.ofPos t 0).leaving rest).leaving []) [] :=
    ⟨le_rfl, (), trivial, endOfText_eq_ok.mpr ⟨rfl, rfl⟩⟩
  have hprogram : statementsToEnd.Finds
      (fun read => Statement.unspannedAll read = Statement.unspannedAll body)
      (Cursor.ofPos t 0) [] := by
    refine (hrepeats.many le_rfl hreads).bind fun read hread => ?_
    refine hskip.bind fun _ _ => hend.bind fun _ _ => ?_
    exact finds_pure (unspannedAll_eq hread)
  have hrun : program.run.Finds
      (fun p => Statement.unspannedAll p.body = Statement.unspannedAll body)
      (Cursor.ofPos t 0) [] := by
    rw [program_run]
    exact hprogram.spanned fun _ _ hread => hread
  obtain ⟨_, p, hread, hok⟩ := hrun
  exact ⟨p, ofText_eq_ok.mpr ⟨_, hok⟩, hread⟩

end Gx.Grammar

namespace Gx

open Grammar

/-- A text is read as a program exactly if it is a written form of that program, and no text is a
written form of two programs. -/
theorem ofText_reads_exactly_the_written (t : Bytes) :
    (∀ body, WrittenAs body t ↔
      ∃ p, Program.ofText t = .ok p ∧
        Statement.unspannedAll p.body = Statement.unspannedAll body) ∧
    ∀ body body', WrittenAs body t → WrittenAs body' t →
      Statement.unspannedAll body = Statement.unspannedAll body' := by
  refine ⟨fun body => ⟨ofText_of_writtenAs, ?_⟩, ?_⟩
  · rintro ⟨p, hp, hbody⟩
    exact writtenAs_congr hbody (writtenAs_of_ofText hp)
  · intro body body' hbody hbody'
    obtain ⟨p, hp, hread⟩ := ofText_of_writtenAs hbody
    obtain ⟨p', hp', hread'⟩ := ofText_of_writtenAs hbody'
    obtain rfl := Except.ok.inj (hp.symm.trans hp')
    exact hread.symm.trans hread'

/-- The name `lo`, once as a label, once as an operand and once inside of `lo(lo)`. -/
theorem ofText_reads_exactly_the_written_lo :
    WrittenAs
      [.label {} (utf8 "lo"),
        .instruction {} .set
          [.load {} (.register {} .high) (.half {} .lo (.name {} (utf8 "lo"))),
            .name {} (utf8 "lo")]]
      (utf8 "lo : SET(%H: LO(lo))lo ; the end") :=
  ((ofText_reads_exactly_the_written _).1 _).mpr ⟨_, rfl, rfl⟩

end Gx
