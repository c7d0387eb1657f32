import Gx.Proofs.Grammar.Program
import Gx.Proofs.Grammar.Replies

/-!
# Parsers come to an end

The rules of the grammar reply as they run, and so does every pattern that is made of them.  Nested
statements and operands have enough levels, since each of them stands behind an opening bracket.
What is known of runs therefore holds of replies: they are given, inside of the text and not in front
of the start.
-/

namespace Gx

variable {text : Bytes}

/-! ## The rules of the grammar -/

namespace Grammar

open Parse

section

variable {st : Nat}

theorem runsFrom_name : name.run.RunsFrom text (.rule .name) st :=
  runsFrom_identifier.spanned _

theorem runsFrom_number : number.run.RunsFrom text (.rule .number) st :=
  runsFrom_numeral.map _

theorem runsFrom_text : Grammar.text.run.RunsFrom text (.rule .text) st :=
  runsFrom_quotedText.spanned _

theorem runsFrom_address : address.run.RunsFrom text (.rule .address) st :=
  RunsFrom.rule rfl ((RunsFrom.choice
    (.cons runsFrom_number (.cons runsFrom_name .nil))).named _)

theorem runsFrom_half : half.run.RunsFrom text (.rule .half) st := by
  have hword : (choice [(word (utf8 "lo")).map fun _ => Half.lo,
      (word (utf8 "hi")).map fun _ => Half.hi]).RunsFrom text
      (.choice [.keyword (utf8 "lo"), .keyword (utf8 "hi")]) st :=
    RunsFrom.choice (.cons ((runsFrom_keyword _).map _) (.cons ((runsFrom_keyword _).map _) .nil))
  refine RunsFrom.rule rfl ?_
  unfold half
  dsimp only
  refine RunsFrom.spanned _ ?_
  refine hword.andThen fun _ => (runsFrom_literal _).token.andThen fun _ => ?_
  refine runsFrom_address.token.andThen fun _ => (runsFrom_literal _).token.andThen fun _ => ?_
  exact runsFrom_pure _

theorem runsFrom_value : value.run.RunsFrom text (.rule .value) st :=
  RunsFrom.rule rfl ((RunsFrom.choice
    (.cons runsFrom_number (.cons runsFrom_half (.cons runsFrom_name .nil)))).named _)

theorem runsFrom_dataItem : dataItem.run.RunsFrom text (.rule .dataItem) st :=
  RunsFrom.rule rfl (RunsFrom.choice (.cons runsFrom_text (.cons runsFrom_value .nil)))

theorem aliasOf_isSome_iff {i : Nat} : (aliasOf (text.drop i)).isSome = true ↔ AliasAt text i := by
  unfold AliasAt
  rw [hasAt_iff, hasAt_iff, ← List.drop_drop]
  rcases text.drop i with _ | ⟨letter, rest⟩
  · simp [aliasOf]
  · by_cases hname : rest.head?.any isNameByte = true
    · simp [aliasOf, hname]
    · by_cases hhigh : letter = ascii 'h' ∨ letter = ascii 'H'
      · simp [aliasOf, hname, hhigh]
      · by_cases hremainder : letter = ascii 'r' ∨ letter = ascii 'R'
        · simp [aliasOf, hname, hhigh, hremainder]
        · simp [aliasOf, hname, hhigh, hremainder]

theorem registerName_ofPos_alias {i : Nat} (h : AliasAt text i) :
    ∃ x, registerName (.ofPos text i) = .ok x (.ofPos text (i + 1)) := by
  obtain ⟨x, hx⟩ := Option.isSome_iff_exists.mp (aliasOf_isSome_iff.mpr h)
  refine ⟨x, ?_⟩
  unfold registerName
  rw [show aliasOf (Cursor.ofPos text i).rest = some x from hx, ← Cursor.advance_ofPos]

theorem registerName_ofPos_number {i : Nat} (h : ¬AliasAt text i) :
    registerName (.ofPos text i) = mapError (fun _ => .registerMissing)
      (do return RegisterName.numbered (← numeral)) (.ofPos text i) := by
  have hnone : aliasOf (Cursor.ofPos text i).rest = none :=
    Option.not_isSome_iff_eq_none.mp (mt aliasOf_isSome_iff.mp h)
  unfold registerName
  rw [hnone]

theorem runsFrom_registerLiteral :
    registerLiteral.run.RunsFrom text (.rule .registerLiteral) st := by
  refine RunsFrom.spanned _ ?_
  intro i hst hi
  have hliteral : (literal (utf8 "%")).RunsFrom text (.literal (utf8 "%")) st := runsFrom_literal _
  have hnumeral : (mapError (fun _ => .registerMissing)
      (do return RegisterName.numbered (← numeral))).RunsFrom text (.rule .number) st :=
    (runsFrom_numeral.map _).mapError _
  rcases hliteral i hst hi with ⟨_, j, hok, hpercent⟩ | ⟨j, e, hfail, hpercent⟩
  · have hj := hpercent.bounds hi trivial
    by_cases halias : AliasAt text j
    · obtain ⟨x, hx⟩ := registerName_ofPos_alias halias
      exact Or.inl ⟨x, j + 1, by rw [bind_eq, hok]; exact hx, hpercent.registerAlias halias⟩
    · refine (hnumeral j (hst.trans hj.1) hj.2).pass ?_
        fun _ hrun => hpercent.registerNumber halias hrun
      rw [bind_eq, hok]
      exact registerName_ofPos_number halias
  · have hj : j = i := by
      generalize ho : Ending.fail j = o at hpercent
      cases hpercent
      split at ho
      next => cases ho
      next => exact Ending.fail.inj ho
    subst hj
    exact Or.inr ⟨j, e, by rw [bind_eq, hfail], hpercent.registerMissing⟩

theorem runsFrom_inBrackets {register operand : Parse Operand} {r : Rule}
    (opening closing : String) (hopening : utf8 opening ≠ [])
    (hregister : register.RunsFrom text (.rule .register) (st + 1))
    (hoperand : operand.RunsFrom text (.rule r) (st + 1)) :
    (inBrackets (utf8 opening) (utf8 closing) register operand).RunsFrom text
      (.bracketed opening closing r) st := by
  refine (runsFrom_literal _).andThenLater (advances_literal hopening) fun _ => ?_
  refine hregister.token.andThen fun _ => (runsFrom_literal _).token.andThen fun _ => ?_
  exact hoperand.token.andThen fun _ => (runsFrom_literal _).token.andThen fun _ =>
    runsFrom_pure _

theorem runsFrom_loadOf {register : Parse Operand}
    (h : register.RunsFrom text (.rule .register) (st + 1)) :
    (loadOf register).run.RunsFrom text (.rule .load) st := by
  refine RunsFrom.rule rfl ?_
  unfold loadOf
  dsimp only
  exact (runsFrom_inBrackets "(" ")" (by decide) h runsFrom_value).spanned _

theorem runsFrom_fetchOf {register : Parse Operand}
    (h : register.RunsFrom text (.rule .register) (st + 1)) :
    (fetchOf register).run.RunsFrom text (.rule .fetch) st := by
  refine RunsFrom.rule rfl ?_
  unfold fetchOf
  dsimp only
  exact (runsFrom_inBrackets "[" "]" (by decide) h runsFrom_address).spanned _

/-- Behind a bracket, one level less is enough. -/
theorem RunsFrom.of_levels {α : Type} {q : Pattern} {p : Parse α} {level : UInt8} {levels : Bytes}
    (h : text.length - (st + 1) < levels.length → p.RunsFrom text q (st + 1))
    (hlevels : text.length - st < (level :: levels).length) : p.RunsFrom text q (st + 1) := by
  by_cases hst : st < text.length
  · rw [List.length_cons] at hlevels
    exact h (by omega)
  · intro i hi hlength
    omega

theorem runsFrom_registerTo (levels : Bytes) (hlevels : text.length - st < levels.length) :
    (registerTo levels).RunsFrom text (.rule .register) st := by
  induction levels generalizing st with
  | nil => simp at hlevels
  | cons level levels ih =>
      have hinner := RunsFrom.of_levels ih hlevels
      refine RunsFrom.rule rfl ?_
      rw [registerTo]
      exact (RunsFrom.choice (.cons runsFrom_registerLiteral (.cons (runsFrom_loadOf hinner)
        (.cons (runsFrom_fetchOf hinner) (.cons runsFrom_name .nil))))).named _

theorem runsFrom_register : register.run.RunsFrom text (.rule .register) st :=
  fun i _ hi => runsFrom_registerTo _ (Cursor.length_budget_ofPos i) i (le_refl i) hi

theorem runsFrom_operandOf (kind : Kind) :
    (operandOf kind).run.RunsFrom text (.rule (.ofKind kind)) st := by
  cases kind with
  | register => exact runsFrom_register
  | address => exact runsFrom_address
  | value | other => exact runsFrom_value

theorem runsFrom_label : label.run.RunsFrom text (.rule .label) st := by
  have hcolon : (between (fun c => .ok () (Spaces.inLine.skip c)) (literal (utf8 ":"))
      (pure ())).RunsFrom text (.between (.spaces .inLine) (.literal (utf8 ":")) .nothing) st :=
    (runsFrom_spaces _ _).between (runsFrom_literal _) (runsFrom_nothing _)
  have hlabelled : (spanned Statement.label do
      let name ← identifier
      let _ ← between (fun c => .ok () (Spaces.inLine.skip c)) (literal (utf8 ":")) (pure ())
      return name).RunsFrom text .labelled st :=
    (runsFrom_identifier.andThen fun _ => hcolon.andThen fun _ => runsFrom_pure _).spanned _
  intro i hst hi
  unfold label RunsAs
  dsimp only
  unfold atomic
  rcases hlabelled i hst hi with ⟨x, j, hp, hrun⟩ | ⟨j, e, hp, hrun⟩
  · exact Or.inl ⟨x, j, by rw [hp], hrun.label⟩
  · exact Or.inr ⟨i, e, by rw [hp]; rfl, hrun.label⟩

theorem runsFrom_operandsFrom (instruction : Bytes) (index : Nat) (kinds : List Kind) :
    (operandsFrom instruction index kinds).RunsFrom text
      (.sequence (kinds.map fun kind => .token (.rule (.ofKind kind)))) st := by
  induction kinds generalizing index with
  | nil => exact runsFrom_pure _
  | cons kind kinds ih =>
      rw [operandsFrom, List.map_cons]
      refine ((runsFrom_operandOf kind).token.mapError _).andThen fun _ => ?_
      exact (ih (index + 1)).map _

theorem runsFrom_instruction : instruction.run.RunsFrom text (.rule .instruction) st := by
  unfold instruction
  dsimp only
  refine RunsFrom.spanned _ ?_
  intro i hst hi
  by_cases hname : HasAt text i isNameStart
  · obtain ⟨j, hok, hrun⟩ := identifier_ofPos hname
    have hj := hrun.bounds hi trivial
    cases hfind : Instruction.find? ((text.drop i).take (j - i)) with
    | none =>
        refine Or.inr ⟨j, mnemonicError ((text.drop i).take (j - i)), ?_,
          hrun.instructionUnknown hfind⟩
        rw [bind_eq, hok]
        simp only [hfind]
        rfl
    | some x =>
        have hoperands : (do return (x, ← operandsFrom x.name 1 x.operands)).RunsFrom text _ st :=
          (runsFrom_operandsFrom x.name 1 x.operands).map _
        refine (hoperands j (hst.trans hj.1) hj.2).pass ?_
          fun _ hrest => hrun.instruction hfind hrest
        rw [bind_eq, hok]
        simp only [hfind]
  · obtain ⟨e, hfail⟩ := identifier_ofPos_missing hname
    have hmissing := (Runs.nameMissing hi hname).instructionMissing
    exact Or.inr ⟨i, e, by rw [bind_eq, hfail], hmissing⟩

theorem RunsFrom.last {α : Type} {p : Parse α} {q : Pattern} (h : p.RunsFrom text q st) :
    p.RunsFrom text (.sequence [q]) st := by
  intro i hst hi
  rcases h i hst hi with ⟨x, j, hp, hrun⟩ | ⟨j, e, hp, hrun⟩
  · exact Or.inl ⟨x, j, hp, hrun.sequenceCons Runs.sequenceNil⟩
  · exact Or.inr ⟨j, e, hp, hrun.sequenceFail⟩

theorem runsFrom_list {item : Parse Operand} {r : Rule} (word : String)
    (h : item.RunsFrom text (.rule r) st) :
    (list (utf8 word) item).RunsFrom text (.listOf word r) st := by
  unfold list
  refine RunsFrom.mapError _ ?_
  refine (runsFrom_keyword _).andThen fun _ => h.token.andThen fun _ => ?_
  refine RunsFrom.andThen (RunsFrom.many ?_) fun _ => runsFrom_pure _
  exact (runsFrom_literal _).token.andThen fun _ => RunsFrom.last h.token

theorem runsFrom_definition {operand : Parse Operand} {r : Rule} (word : String)
    (h : operand.RunsFrom text (.rule r) st) :
    (definition (utf8 word) operand).RunsFrom text (.definitionOf word r) st := by
  unfold definition
  refine RunsFrom.mapError _ ?_
  refine (runsFrom_keyword _).andThen fun _ => runsFrom_identifier.token.andThen fun _ => ?_
  exact h.token.andThen fun _ => runsFrom_pure _

theorem runsFrom_data : data.run.RunsFrom text (.rule .data) st :=
  RunsFrom.rule rfl ((runsFrom_list "dat" runsFrom_dataItem).spanned _)

theorem runsFrom_words : words.run.RunsFrom text (.rule .words) st :=
  RunsFrom.rule rfl ((runsFrom_list "datl" runsFrom_address).spanned _)

theorem runsFrom_valueDefinition :
    valueDefinition.run.RunsFrom text (.rule .valueDefinition) st := by
  refine RunsFrom.rule rfl ?_
  unfold valueDefinition
  dsimp only
  exact (runsFrom_definition "val" runsFrom_value).spanned _

theorem runsFrom_addressDefinition :
    addressDefinition.run.RunsFrom text (.rule .addressDefinition) st := by
  refine RunsFrom.rule rfl ?_
  unfold addressDefinition
  dsimp only
  exact (runsFrom_definition "addr" runsFrom_address).spanned _

theorem runsFrom_registerDefinition :
    registerDefinition.run.RunsFrom text (.rule .registerDefinition) st := by
  refine RunsFrom.rule rfl ?_
  unfold registerDefinition
  dsimp only
  exact (runsFrom_definition "reg" runsFrom_register).spanned _

theorem runsFrom_blockOf {inner : Parse Statement}
    (h : inner.RunsFrom text (.rule .statement) (st + 1)) :
    (blockOf inner).run.RunsFrom text (.rule .block) st := by
  refine RunsFrom.rule rfl (RunsFrom.spanned _ ?_)
  refine (runsFrom_literal _).andThenLater (advances_literal (by decide)) fun _ => ?_
  exact h.token.many.andThen fun _ => (runsFrom_literal _).token.andThen fun _ => runsFrom_pure _

theorem runsFrom_under {p : Parser Statement} {r : Rule} (name : String)
    (h : p.run.RunsFrom text (.rule r) st) :
    (under name p).run.RunsFrom text (.underName name r) st :=
  h.named _

theorem runsFrom_statementTo (levels : Bytes) (hlevels : text.length - st < levels.length) :
    (statementTo levels).RunsFrom text (.rule .statement) st := by
  induction levels generalizing st with
  | nil => simp at hlevels
  | cons level levels ih =>
      have hblock := runsFrom_blockOf (RunsFrom.of_levels ih hlevels)
      refine RunsFrom.rule rfl ?_
      rw [statementTo]
      exact RunsFrom.choice (.cons (runsFrom_under "label" runsFrom_label)
        (.cons (runsFrom_under "block" hblock)
        (.cons (runsFrom_under "dat" runsFrom_data)
        (.cons (runsFrom_under "datl" runsFrom_words)
        (.cons (runsFrom_under "val" runsFrom_valueDefinition)
        (.cons (runsFrom_under "addr" runsFrom_addressDefinition)
        (.cons (runsFrom_under "reg" runsFrom_registerDefinition)
        (.cons (runsFrom_under "instruction" runsFrom_instruction) .nil))))))))

theorem runsFrom_statement : statement.run.RunsFrom text (.rule .statement) st :=
  fun i _ hi => runsFrom_statementTo _ (Cursor.length_budget_ofPos i) i (le_refl i) hi

theorem endOfText_ofPos {i : Nat} (hi : i ≤ text.length) :
    (i = text.length ∧ endOfText (.ofPos text i) = .ok () (.ofPos text i)) ∨
      i ≠ text.length ∧ ∃ e, endOfText (.ofPos text i) = .fail i e := by
  unfold endOfText
  by_cases hend : i = text.length
  · have hempty : (Cursor.ofPos text i).rest.isEmpty = true :=
      List.isEmpty_iff.mpr (List.drop_eq_nil_of_le hend.ge)
    exact Or.inl ⟨hend, if_pos hempty⟩
  · have hmore : ¬(Cursor.ofPos text i).rest.isEmpty = true := fun hempty =>
      hend (le_antisymm hi (List.drop_eq_nil_iff.mp (List.isEmpty_iff.mp hempty)))
    rw [if_neg hmore]
    cases statement.run (.ofPos text i) with
    | ok => exact Or.inr ⟨hend, _, rfl⟩
    | fail => exact Or.inr ⟨hend, _, rfl⟩

theorem runsFrom_program : program.run.RunsFrom text (.rule .program) st := by
  rw [program_run]
  refine RunsFrom.spanned _ ?_
  intro i hst hi
  have hbody : (many (token statement.run)).RunsFrom text .statements st :=
    runsFrom_statement.token.many
  unfold RunsAs statementsToEnd
  simp only [bind_eq]
  rcases hbody i hst hi with ⟨body, j, hok, hrun⟩ | ⟨j, e, hfail, hrun⟩
  · have hj := hrun.bounds hi trivial
    obtain ⟨k, hskip, hskips⟩ := skip_ofPos Blank.gap_ends hj.2
    have hk := hskips.bounds hj.2
    have hgap : skipGap (.ofPos text j) = .ok () (.ofPos text k) := congrArg (Reply.ok ()) hskip
    simp only [hok, hgap]
    rcases endOfText_ofPos hk.2 with ⟨hend, hok⟩ | ⟨hmore, e, hfail⟩
    · exact Or.inl ⟨body, k, by rw [hok]; rfl, hrun.programEnd hskips hend⟩
    · have hstatement : statement.run.RunsFrom text (.rule .statement) st := runsFrom_statement
      rcases hstatement k (hst.trans (hj.1.trans hk.1)) hk.2 with
        ⟨_, l, _, hrest⟩ | ⟨l, _, _, hrest⟩
      · exact Or.inr ⟨k, e, by rw [hfail], hrun.programMore hskips hmore hrest⟩
      · exact Or.inr ⟨k, e, by rw [hfail], hrun.programMore hskips hmore hrest⟩
  · simp only [hfail]
    exact Or.inr ⟨j, e, rfl, hrun.programFail⟩

end

end Grammar

/-! ## All patterns -/

theorem Rule.runsFrom (r : Rule) {st : Nat} : r.parser.run.RunsFrom text (.rule r) st := by
  cases r with
  | name => exact Grammar.runsFrom_name.map _
  | number => exact Grammar.runsFrom_number.map _
  | text => exact Grammar.runsFrom_text.map _
  | program => exact Grammar.runsFrom_program.map _
  | statement => exact Grammar.runsFrom_statement.map _
  | label => exact Grammar.runsFrom_label.map _
  | block => exact (Grammar.runsFrom_blockOf Grammar.runsFrom_statement).map _
  | instruction => exact Grammar.runsFrom_instruction.map _
  | data => exact Grammar.runsFrom_data.map _
  | words => exact Grammar.runsFrom_words.map _
  | valueDefinition => exact Grammar.runsFrom_valueDefinition.map _
  | addressDefinition => exact Grammar.runsFrom_addressDefinition.map _
  | registerDefinition => exact Grammar.runsFrom_registerDefinition.map _
  | register => exact Grammar.runsFrom_register.map _
  | registerLiteral => exact Grammar.runsFrom_registerLiteral.map _
  | load => exact (Grammar.runsFrom_loadOf Grammar.runsFrom_register).map _
  | fetch => exact (Grammar.runsFrom_fetchOf Grammar.runsFrom_register).map _
  | value => exact Grammar.runsFrom_value.map _
  | half => exact Grammar.runsFrom_half.map _
  | address => exact Grammar.runsFrom_address.map _
  | dataItem => exact Grammar.runsFrom_dataItem.map _

mutual

/-- The blanks of a pattern. -/
def Pattern.blanks : Pattern → List Blank
  | .nothing | .literal _ | .keyword _ | .spaces _ | .rule _ => []
  | .optional p | .many p | .named _ p => p.blanks
  | .sequence ps | .choice ps => Pattern.blanksOf ps
  | .between pre p post => pre.blanks ++ p.blanks ++ post.blanks
  | .spaced blank p => blank :: p.blanks

def Pattern.blanksOf : List Pattern → List Blank
  | [] => []
  | p :: ps => p.blanks ++ Pattern.blanksOf ps

end

namespace Pattern

open Parse

theorem RunsFrom.mapM {ps : List (Parser Match)} {qs : List Pattern} {st : Nat}
    (h : List.Forall₂ (fun p q => p.run.RunsFrom text q st) ps qs) (read : List Match) :
    (List.mapM.loop Parser.run ps read).RunsFrom text (.sequence qs) st := by
  induction h generalizing read with
  | nil => exact runsFrom_pure _
  | cons hp _ ih => exact hp.andThen fun x => ih (x :: read)

mutual

theorem runsFrom (p : Pattern) (hp : ∀ b ∈ p.blanks, b.Ends) {st : Nat} :
    p.parser.run.RunsFrom text p st := by
  cases p with
  | nothing => exact runsFrom_nothing _
  | literal bytes => exact (runsFrom_literal bytes).map _
  | keyword word => exact (runsFrom_keyword word).map _
  | spaces s => exact runsFrom_spaces s _
  | rule r => exact r.runsFrom
  | optional p => exact (runsFrom p hp).optional.map _
  | many p => exact (runsFrom p hp).many.map _
  | sequence ps => exact (RunsFrom.mapM (runsFrom_each ps hp) []).map _
  | choice ps => exact RunsFrom.choice (runsFrom_each ps hp)
  | named name p => exact (runsFrom p hp).named name
  | between pre p post =>
      simp only [blanks, List.forall_mem_append] at hp
      exact ((runsFrom pre hp.1.1).map _).between (runsFrom p hp.1.2)
        ((runsFrom post hp.2).map _)
  | spaced blank p =>
      simp only [blanks, List.forall_mem_cons] at hp
      exact (runsFrom p hp.2).spaced hp.1

theorem runsFrom_each (ps : List Pattern) (hps : ∀ b ∈ blanksOf ps, b.Ends) {st : Nat} :
    List.Forall₂ (fun (p : Parser Match) q => p.run.RunsFrom text q st) (parsers ps) ps := by
  cases ps with
  | nil => exact .nil
  | cons p ps =>
      rw [blanksOf, List.forall_mem_append] at hps
      exact .cons (runsFrom p hps.1) (runsFrom_each ps hps.2)

end

end Pattern

def Reply.ending {α : Type} : Reply α → Ending
  | .ok _ next => .ok next.pos
  | .fail pos _ => .fail pos

/-- At position `st` the pattern comes to an end, in one way only: inside of the text and not in
front of `st`.  Behind a value, the text goes on from there. -/
structure Pattern.EndsAt (p : Pattern) (text : Bytes) (st : Nat) : Prop where
  run : Runs text (.run p) st (p.matchAt text st).ending
  unique : ∀ o, Runs text (.run p) st o → o = (p.matchAt text st).ending
  start_le : st ≤ (p.matchAt text st).ending.pos
  le_length : (p.matchAt text st).ending.pos ≤ text.length
  next : ∀ x next, p.matchAt text st = .ok x next → next = .ofPos text next.pos

theorem Pattern.endsAt_of_runsAs {p : Pattern} {st : Nat} (hst : st ≤ text.length)
    (h : p.parser.run.RunsAs text (.run p) st) : p.EndsAt text st := by
  have hrun : Runs text (.run p) st (p.matchAt text st).ending := by
    unfold Pattern.matchAt
    rcases h with ⟨x, i, hok, hrun⟩ | ⟨i, e, hfail, hrun⟩
    · rw [hok]
      exact hrun
    · rw [hfail]
      exact hrun
  have hbounds := hrun.bounds hst trivial
  refine ⟨hrun, fun o ho => ho.unique hrun, hbounds.1, hbounds.2, ?_⟩
  intro x next hmatch
  unfold Pattern.matchAt at hmatch
  rcases h with ⟨y, i, hok, _⟩ | ⟨i, e, hfail, _⟩
  · rw [hok] at hmatch
    obtain ⟨_, rfl⟩ := Reply.ok.inj hmatch
    rfl
  · rw [hfail] at hmatch
    cases hmatch

theorem not_runs_spaced_of_lineFeed {b : Blank} (hb : ¬b.Ends) (q : Pattern) {i : Nat}
    (hfeed : HasAt text i (· == 0x0A)) (o : Ending) : ¬Runs text (.run (.spaced b q)) i o := by
  unfold Blank.Ends at hb
  rw [Classical.not_imp, Bool.not_eq_true] at hb
  intro h
  cases h with
  | spaced hskip =>
      obtain ⟨j, hspaces, hcomments⟩ := hskip
      cases hspaces with
      | stop => exact not_skipsComments_of_lineFeed hb.1 hb.2 hfeed hcomments
      | step hspace =>
          obtain ⟨_, hfeed⟩ := hfeed
          obtain ⟨_, hspace⟩ := hspace
          rw [eq_of_beq hfeed, hb.2] at hspace
          cases hspace

/-- A parser comes to an end inside of the text and never goes back, if its blanks end; what is read
as a statement or an operand is not empty, and the place of a syntax error lies in the text.  A blank
that does not end gets stuck at every line feed. -/
theorem parser_ends_inside_text (p : Pattern) (text : Bytes) {st : Nat} (hst : st ≤ text.length) :
    ((∀ b ∈ p.blanks, b.Ends) → p.EndsAt text st) ∧
    (∀ r x next, p = .rule r → r ≠ .program → p.matchAt text st = .ok x next → st < next.pos) ∧
    (∀ e, Program.ofText text = .error e → e.place.pos ≤ text.length ∧
      Grammar.program.run (.ofPos text 0) = .fail e.place.pos e.cause) ∧
    ∀ b : Blank, ¬b.Ends → HasAt text st (· == 0x0A) →
      ∀ o, ¬Runs text (.run (.spaced b p)) st o := by
  refine ⟨?_, ?_, ?_, ?_⟩
  · intro hp
    exact Pattern.endsAt_of_runsAs hst (p.runsFrom hp st (le_refl st) hst)
  · rintro r x next rfl hr hok
    have hends : (Pattern.rule r).EndsAt text st :=
      Pattern.endsAt_of_runsAs hst (r.runsFrom st (le_refl st) hst)
    have hrun := hends.run
    rw [hok] at hrun
    exact advances_rule hr hst hrun
  · intro e he
    have hprogram : Grammar.program.run.RunsAs text _ 0 :=
      Grammar.runsFrom_program 0 (le_refl 0) (Nat.zero_le _)
    unfold Program.ofText at he
    rcases hprogram with ⟨x, i, hok, _⟩ | ⟨i, cause, hfail, hrun⟩
    · rw [hok] at he
      cases he
    · have hi : i ≤ text.length := (hrun.bounds (Nat.zero_le _) trivial).2
      rw [hfail] at he ⊢
      obtain rfl := Except.error.inj he
      have hpos : (Place.ofPos text i).pos = i := min_eq_left hi
      rw [hpos]
      exact ⟨hi, rfl⟩
  · intro b hb hfeed o
    exact not_runs_spaced_of_lineFeed hb p hfeed o

/-- The rounds of a repetition may be empty. -/
theorem parser_ends_inside_text_of_empty_rounds :
    (Pattern.many (.spaced .gap (.optional (.rule .statement)))).EndsAt (utf8 " ; no statement") 1 :=
  (parser_ends_inside_text _ _ (by decide)).1 (by decide)

/-- A line feed that starts a comment is never left. -/
theorem lineFeed_comment_has_no_end :
    Blank.skip ⟨⟨[]⟩, some 0x0A⟩ (.ofPos (utf8 "\n") 0) = Blank.endless (.ofPos (utf8 "\n") 0) ∧
      ¬∃ o, Runs (utf8 "\n") (.run (.spaced ⟨⟨[]⟩, some 0x0A⟩ .nothing)) 0 o := by
  refine ⟨rfl, ?_⟩
  rintro ⟨o, h⟩
  exact not_runs_spaced_of_lineFeed (by decide) .nothing (by decide) o h

end Gx
