import Gx.Proofs.Grammar.Lexer
import Gx.Proofs.Grammar.Runs

/-!
# Replies that follow a run

The combinators and the parsers of single tokens reply as their patterns run: the run exists, it ends
where the parser stops, and behind a value the cursor stands at that place of the text.  The
repetitions have enough rounds, since each round moves on.

One thing can go on forever: a comment that starts with the line feed that ends it, unless line
feeds are separators as well.
-/

namespace Gx

variable {text : Bytes}

/-! ## Bytes of the text at the cursor -/

theorem hasAt_add {st k : Nat} {p : UInt8 → Bool} :
    HasAt text (st + k) p ↔ (text.drop st)[k]?.any p = true := by
  rw [List.getElem?_drop]
  unfold HasAt
  by_cases h : st + k < text.length
  · rw [List.getElem?_eq_getElem h, Option.any_some]
    exact exists_prop_of_true h
  · rw [List.getElem?_eq_none (by omega), Option.any_none]
    simp [h]

theorem hasAt_iff {st : Nat} {p : UInt8 → Bool} :
    HasAt text st p ↔ (text.drop st).head?.any p = true := by
  rw [List.head?_eq_getElem?]
  exact hasAt_add (k := 0)

theorem Cursor.advance_ofPos (st n : Nat) :
    (Cursor.ofPos text st).advance n = Cursor.ofPos text (st + n) := by
  unfold Cursor.advance Cursor.ofPos
  rw [List.drop_drop]

theorem Cursor.length_budget_ofPos (i : Nat) :
    text.length - i < (Cursor.ofPos text i).budget.length := by
  simp only [Cursor.budget, Cursor.ofPos, List.length_cons, List.length_drop]
  omega

theorem scans_takeWhile (text : Bytes) (p : UInt8 → Bool) (st : Nat) :
    Scans text p st (st + ((text.drop st).takeWhile p).length) := by
  generalize hrest : text.drop st = rest
  induction rest generalizing st with
  | nil =>
      refine Scans.stop ?_
      rw [hasAt_iff, hrest]
      simp
  | cons b rest ih =>
      have hnext : text.drop (st + 1) = rest := by rw [← List.drop_drop, hrest]; rfl
      by_cases hb : p b = true
      · have hat : HasAt text st p := by
          rw [hasAt_iff, hrest]
          simpa using hb
        have hstep := ih (st + 1) hnext
        rw [List.takeWhile_cons_of_pos hb, List.length_cons]
        rw [show st + 1 + (rest.takeWhile p).length = st + ((rest.takeWhile p).length + 1) by
          omega] at hstep
        exact Scans.step hat hstep
      · rw [List.takeWhile_cons_of_neg hb]
        refine Scans.stop ?_
        rw [hasAt_iff, hrest]
        simpa using hb

theorem skipWhile_ofPos (text : Bytes) (p : UInt8 → Bool) (st : Nat) :
    ∃ i, (Cursor.ofPos text st).skipWhile p = Cursor.ofPos text i ∧ Scans text p st i :=
  ⟨_, Cursor.advance_ofPos _ _, scans_takeWhile text p st⟩

theorem Scans.not_hasAt {p : UInt8 → Bool} {i j : Nat} (h : Scans text p i j) :
    ¬HasAt text j p := by
  induction h with
  | stop h => exact h
  | step _ _ ih => exact ih

/-! ## Blanks -/

/-- A comment starts with another byte than the line feed that ends it, or line feeds are
separators. -/
def Blank.Ends (b : Blank) : Prop :=
  b.comment = some 0x0A → b.spaces.bytes.contains 0x0A = true

instance (b : Blank) : Decidable b.Ends :=
  inferInstanceAs (Decidable (_ → _))

theorem Blank.gap_ends : Blank.gap.Ends := by decide

/-- Behind the separators, a comment takes one byte at least. -/
theorem Scans.lt_of_comment {b : Blank} (hb : b.Ends) {i line : Nat}
    (hspaces : ¬HasAt text i b.spaces.bytes.contains) (hcomment : HasAt text i (b.comment = some ·))
    (hline : Scans text (· != 0x0A) i line) : i < line := by
  cases hline with
  | stop hend =>
      obtain ⟨hi, hcomment⟩ := hcomment
      have hfeed : text[i] = 0x0A := by
        by_contra hne
        exact hend ⟨hi, by simpa using hne⟩
      have hspace := hb (by simpa [hfeed] using hcomment)
      exact absurd ⟨hi, by rw [hfeed]; exact hspace⟩ hspaces
  | step hi rest => exact (rest.bounds hi.lt).1

theorem skipComments_ofPos {b : Blank} (hb : b.Ends) (rounds : Bytes) {i : Nat}
    (hrounds : text.length - i < rounds.length) (hi : i ≤ text.length)
    (hspaces : ¬HasAt text i b.spaces.bytes.contains) :
    ∃ k, b.skipComments rounds (.ofPos text i) = .ofPos text k ∧ SkipsComments text b i k := by
  induction rounds generalizing i with
  | nil => simp at hrounds
  | cons _ rounds ih =>
      rw [Blank.skipComments]
      by_cases hcomment : HasAt text i (b.comment = some ·)
      · have hstarts : (Cursor.ofPos text i).rest.head?.isSome ∧
            (Cursor.ofPos text i).rest.head? = b.comment := by
          rw [hasAt_iff] at hcomment
          change ((text.drop i).head?.isSome) ∧ (text.drop i).head? = b.comment
          cases hhead : (text.drop i).head? with
          | none => simp [hhead] at hcomment
          | some c => simpa [hhead, eq_comm] using hcomment
        obtain ⟨line, hskipLine, hline⟩ := skipWhile_ofPos text (· != 0x0A) i
        obtain ⟨j, hskipSpaces, hj⟩ := skipWhile_ofPos text b.spaces.bytes.contains line
        have hlt := Scans.lt_of_comment hb hspaces hcomment hline
        have hlineBounds := hline.bounds hi
        have hjBounds := hj.bounds hlineBounds.2
        rw [List.length_cons] at hrounds
        obtain ⟨k, hskip, hk⟩ := ih (by omega) hjBounds.2 hj.not_hasAt
        refine ⟨k, ?_, SkipsComments.comment hcomment hline hj hk⟩
        rw [if_pos hstarts, hskipLine]
        unfold Spaces.skip
        rw [hskipSpaces, hskip]
      · have hstops : ¬((Cursor.ofPos text i).rest.head?.isSome ∧
            (Cursor.ofPos text i).rest.head? = b.comment) := by
          rintro ⟨hsome, heq⟩
          obtain ⟨c, hc⟩ := Option.isSome_iff_exists.mp hsome
          refine hcomment (hasAt_iff.mpr ?_)
          change (text.drop i).head? = some c at hc
          change (text.drop i).head? = b.comment at heq
          rw [hc, Option.any_some]
          simpa [hc, eq_comm] using heq
        rw [if_neg hstops]
        exact ⟨i, rfl, SkipsComments.stop hcomment⟩

/-- The rounds suffice: skipping comes to its end. -/
theorem skip_ofPos {b : Blank} (hb : b.Ends) {st : Nat} (hst : st ≤ text.length) :
    ∃ k, b.skip (.ofPos text st) = .ofPos text k ∧ Skips text b st k := by
  obtain ⟨j, hspaces, hj⟩ := skipWhile_ofPos text b.spaces.bytes.contains st
  have hjBounds := hj.bounds hst
  have hrounds : text.length - j < (Cursor.ofPos text st).budget.length :=
    lt_of_le_of_lt (Nat.sub_le_sub_left hjBounds.1 _) (Cursor.length_budget_ofPos st)
  obtain ⟨k, hskip, hk⟩ := skipComments_ofPos hb _ hrounds hjBounds.2 hj.not_hasAt
  refine ⟨k, ?_, j, hj, hk⟩
  unfold Blank.skip Spaces.skip
  rw [hspaces, hskip]

/-- Where a line feed starts a comment and is no separator, nothing moves on. -/
theorem not_skipsComments_of_lineFeed {b : Blank} (hcomment : b.comment = some 0x0A)
    (hspaces : b.spaces.bytes.contains 0x0A = false) {i k : Nat}
    (hfeed : HasAt text i (· == 0x0A)) : ¬SkipsComments text b i k := by
  intro h
  induction h with
  | stop h =>
      obtain ⟨hi, hfeed⟩ := hfeed
      exact h ⟨hi, decide_eq_true (hcomment.trans (congrArg some (eq_of_beq hfeed).symm))⟩
  | comment _ hline hseparators _ ih =>
      obtain ⟨hi, hbyte⟩ := hfeed
      have hbyte := eq_of_beq hbyte
      cases hline with
      | step h =>
          obtain ⟨_, h⟩ := h
          simp [hbyte] at h
      | stop =>
          cases hseparators with
          | step h =>
              obtain ⟨_, h⟩ := h
              rw [hbyte, hspaces] at h
              cases h
          | stop => exact ih ⟨hi, by simp [hbyte]⟩

/-! ## Replies that follow a run -/

/-- At position `st` the parser replies as the task runs, and behind a value the cursor stands at
the end of the run. -/
def Parse.RunsAs {α : Type} (text : Bytes) (p : Parse α) (task : Task) (st : Nat) : Prop :=
  (∃ x i, p (.ofPos text st) = .ok x (.ofPos text i) ∧ Runs text task st (.ok i)) ∨
    ∃ i e, p (.ofPos text st) = .fail i e ∧ Runs text task st (.fail i)

/-- The parser replies as the pattern runs, from position `st` on. -/
def Parse.RunsFrom {α : Type} (text : Bytes) (p : Parse α) (q : Pattern) (st : Nat) : Prop :=
  ∀ i, st ≤ i → i ≤ text.length → p.RunsAs text (.run q) i

namespace Parse

section

variable {α β : Type} {p : Parse α} {q : Pattern} {st : Nat}

/-- A parser that passes on another one's reply runs as that one does, if the task does. -/
theorem RunsAs.pass {p' : Parse α} {task task' : Task} {i j : Nat} (h : p.RunsAs text task j)
    (hreply : p' (.ofPos text i) = p (.ofPos text j))
    (hrun : ∀ o, Runs text task j o → Runs text task' i o) : p'.RunsAs text task' i := by
  rcases h with ⟨x, k, hp, hok⟩ | ⟨k, e, hp, hfail⟩
  · exact Or.inl ⟨x, k, hreply.trans hp, hrun _ hok⟩
  · exact Or.inr ⟨k, e, hreply.trans hp, hrun _ hfail⟩

/-! ### Values and errors do not matter -/

theorem RunsFrom.map (f : α → β) (h : p.RunsFrom text q st) :
    (do return f (← p) : Parse β).RunsFrom text q st := by
  intro i hst hi
  rcases h i hst hi with ⟨x, j, hp, hrun⟩ | ⟨j, e, hp, hrun⟩
  · exact Or.inl ⟨f x, j, by rw [bind_eq, hp]; rfl, hrun⟩
  · exact Or.inr ⟨j, e, by rw [bind_eq, hp], hrun⟩

theorem RunsFrom.spanned (build : Span → α → β) (h : p.RunsFrom text q st) :
    (Parse.spanned build p).RunsFrom text q st := by
  intro i hst hi
  rcases h i hst hi with ⟨x, j, hp, hrun⟩ | ⟨j, e, hp, hrun⟩
  · refine Or.inl ⟨build ⟨i, j⟩ x, j, ?_, hrun⟩
    unfold Parse.spanned
    simp only [bind_eq, position, hp]
    rfl
  · refine Or.inr ⟨j, e, ?_, hrun⟩
    unfold Parse.spanned
    simp only [bind_eq, position, hp]

theorem RunsFrom.mapError (f : SyntaxError → SyntaxError) (h : p.RunsFrom text q st) :
    (Parse.mapError f p).RunsFrom text q st := by
  intro i hst hi
  unfold Parse.mapError
  rcases h i hst hi with ⟨x, j, hp, hrun⟩ | ⟨j, e, hp, hrun⟩
  · exact Or.inl ⟨x, j, by simp only [hp], hrun⟩
  · exact Or.inr ⟨j, f e, by simp only [hp], hrun⟩

theorem RunsFrom.named (name : Bytes) (h : p.RunsFrom text q st) :
    (Parse.named name p).RunsFrom text (.named name q) st := by
  intro i hst hi
  unfold Parse.named
  rcases h i hst hi with ⟨x, j, hp, hrun⟩ | ⟨j, e, hp, hrun⟩
  · exact Or.inl ⟨x, j, by simp only [hp], hrun.named⟩
  · exact Or.inr ⟨j, _, by simp only [hp]; rfl, hrun.named⟩

/-- A rule runs as its pattern does. -/
theorem RunsFrom.rule {r : Rule} (hbody : r.body = some q) (h : p.RunsFrom text q st) :
    p.RunsFrom text (.rule r) st :=
  fun i hst hi => (h i hst hi).pass rfl fun _ hrun => hrun.body hbody

/-! ### Combinators -/

theorem runsFrom_pure (x : α) : (pure x : Parse α).RunsFrom text (.sequence []) st :=
  fun i _ _ => Or.inl ⟨x, i, rfl, Runs.sequenceNil⟩

/-- The rest of a sequence starts where its first part has ended; `st'` is a place that the first
part has certainly reached. -/
theorem RunsFrom.bind {f : α → Parse β} {qs : List Pattern} {st' : Nat}
    (h : p.RunsFrom text q st)
    (hreach : ∀ i j, st ≤ i → i ≤ text.length → Runs text (.run q) i (.ok j) → st' ≤ j)
    (hf : ∀ x, (f x).RunsFrom text (.sequence qs) st') :
    (p >>= f).RunsFrom text (.sequence (q :: qs)) st := by
  intro i hst hi
  rcases h i hst hi with ⟨x, j, hp, hrun⟩ | ⟨j, e, hp, hrun⟩
  · have hj := (hrun.bounds hi trivial).2
    exact (hf x j (hreach i j hst hi hrun) hj).pass (by rw [bind_eq, hp])
      fun _ hrest => hrun.sequenceCons hrest
  · exact Or.inr ⟨j, e, by rw [bind_eq, hp], hrun.sequenceFail⟩

theorem RunsFrom.andThen {f : α → Parse β} {qs : List Pattern} (h : p.RunsFrom text q st)
    (hf : ∀ x, (f x).RunsFrom text (.sequence qs) st) :
    (p >>= f).RunsFrom text (.sequence (q :: qs)) st :=
  h.bind (fun _ _ hst hi hrun => hst.trans (hrun.bounds hi trivial).1) hf

/-- Behind a part that is never empty, the rest of a sequence starts further on. -/
theorem RunsFrom.andThenLater {f : α → Parse β} {qs : List Pattern} (h : p.RunsFrom text q st)
    (hq : q.Advances text) (hf : ∀ x, (f x).RunsFrom text (.sequence qs) (st + 1)) :
    (p >>= f).RunsFrom text (.sequence (q :: qs)) st :=
  h.bind (fun _ _ hst hi hrun => Nat.succ_le_of_lt (lt_of_le_of_lt hst (hq hi hrun))) hf

theorem RunsFrom.optional (h : p.RunsFrom text q st) :
    (Parse.optional p).RunsFrom text (.optional q) st := by
  intro i hst hi
  unfold Parse.optional
  rcases h i hst hi with ⟨x, j, hp, hrun⟩ | ⟨j, e, hp, hrun⟩
  · exact Or.inl ⟨some x, j, by simp only [hp], hrun.optional⟩
  · have hoptional := hrun.optional
    by_cases hj : j = i
    · subst hj
      rw [if_pos rfl] at hoptional
      exact Or.inl ⟨none, j, by simp only [hp]; exact if_pos rfl, hoptional⟩
    · rw [if_neg (by simpa using hj)] at hoptional
      exact Or.inr ⟨j, e, by simp only [hp]; exact if_neg hj, hoptional⟩

theorem RunsFrom.manyFrom (h : p.RunsFrom text q st) (rounds : Bytes) (read : List α) {i : Nat}
    (hst : st ≤ i) (hi : i ≤ text.length) (hrounds : text.length - i < rounds.length) :
    (Parse.manyFrom p rounds read).RunsAs text (.run (.many q)) i := by
  induction rounds generalizing read i with
  | nil => simp at hrounds
  | cons _ rounds ih =>
      rcases h i hst hi with ⟨x, j, hp, hrun⟩ | ⟨j, e, hp, hrun⟩
      · have hj := hrun.bounds hi trivial
        simp only [Ending.pos] at hj
        by_cases heq : j = i
        · refine Or.inl ⟨read.reverse, i, ?_, hrun.manyStop heq⟩
          simp only [Parse.manyFrom, hp]
          exact if_pos heq
        · rw [List.length_cons] at hrounds
          refine (ih (x :: read) (hst.trans hj.1) hj.2 (by omega)).pass ?_
            fun _ hrest => hrun.manyMore heq hrest
          simp only [Parse.manyFrom, hp]
          exact if_neg heq
      · by_cases heq : j = i
        · refine Or.inl ⟨read.reverse, i, ?_, hrun.manyStop heq⟩
          simp only [Parse.manyFrom, hp]
          exact if_pos heq
        · refine Or.inr ⟨j, e, ?_, hrun.manyFail heq⟩
          simp only [Parse.manyFrom, hp]
          exact if_neg heq

theorem RunsFrom.many (h : p.RunsFrom text q st) : (Parse.many p).RunsFrom text (.many q) st :=
  fun i hst hi => h.manyFrom _ [] hst hi (Cursor.length_budget_ofPos i)

theorem RunsFrom.spaced {b : Blank} (hb : b.Ends) (h : p.RunsFrom text q st) :
    (Parse.spaced b p).RunsFrom text (.spaced b q) st := by
  intro i hst hi
  obtain ⟨here, hskip, hskips⟩ := skip_ofPos hb hi
  have hhere := hskips.bounds hi
  unfold RunsAs Parse.spaced applyFrom
  rw [hskip]
  rcases h here (hst.trans hhere.1) hhere.2 with ⟨x, j, hp, hrun⟩ | ⟨j, e, hp, hrun⟩
  · exact Or.inl ⟨x, j, by simp only [hp], hrun.spaced hskips⟩
  · exact Or.inr ⟨_, e, by simp only [hp]; rfl, hrun.spaced hskips⟩

theorem RunsFrom.token (h : p.RunsFrom text q st) :
    (Parse.token p).RunsFrom text (.token q) st :=
  h.spaced Blank.gap_ends

theorem RunsFrom.between {pre post : Parse Unit} {qpre qpost : Pattern}
    (hpre : pre.RunsFrom text qpre st) (h : p.RunsFrom text q st)
    (hpost : post.RunsFrom text qpost st) :
    (Parse.between pre p post).RunsFrom text (.between qpre q qpost) st := by
  intro i hst hi
  unfold RunsAs Parse.between applyFrom
  rcases hpre i hst hi with ⟨_, here, hok, hrunPre⟩ | ⟨j, e, hfail, hrunPre⟩
  · have hhere := hrunPre.bounds hi trivial
    simp only [hok]
    rcases h here (hst.trans hhere.1) hhere.2 with ⟨x, j, hp, hrun⟩ | ⟨j, e, hp, hrun⟩
    · have hj := hrun.bounds hhere.2 trivial
      simp only [hp]
      rcases hpost j (hst.trans (hhere.1.trans hj.1)) hj.2 with
        ⟨_, last, hlast, hrunPost⟩ | ⟨k, e, hlast, hrunPost⟩
      · exact Or.inl ⟨x, last, by simp only [hlast], hrunPre.between hrun hrunPost⟩
      · exact Or.inr ⟨k, e, by simp only [hlast], hrunPre.between hrun hrunPost⟩
    · simp only [hp]
      exact Or.inr ⟨_, e, rfl, hrunPre.betweenRewind hrun⟩
  · simp only [hfail]
    exact Or.inr ⟨j, e, rfl, hrunPre.betweenFail⟩

theorem fst_later (found : Option (Nat × SyntaxError)) (i : Nat) (e : SyntaxError) :
    (later found i e).1 = further (found.map Prod.fst) i := by
  cases found with
  | none => rfl
  | some failure =>
      simp only [later, further, Option.map_some]
      split <;> rfl

theorem RunsFrom.choiceFrom {ps : List (Parser α)} {qs : List Pattern}
    (h : List.Forall₂ (fun p q => p.run.RunsFrom text q st) ps qs)
    (missed : List Expectation) (found : Option (Nat × SyntaxError)) {i : Nat} (hst : st ≤ i)
    (hi : i ≤ text.length) :
    RunsAs text (fun c => Parse.choiceFrom c ps missed found) (.choose qs (found.map Prod.fst))
      i := by
  induction h generalizing missed found with
  | nil =>
      cases found with
      | none => exact Or.inr ⟨i, _, rfl, Runs.chooseNone⟩
      | some failure => exact Or.inr ⟨failure.1, failure.2, rfl, Runs.chooseNone⟩
  | @cons p q _ _ hp _ ih =>
      rcases hp i hst hi with ⟨x, j, hp, hrun⟩ | ⟨j, e, hp, hrun⟩
      · exact Or.inl ⟨x, j, by simp only [Parse.choiceFrom, hp], hrun.chooseFirst⟩
      · by_cases heq : j = i
        · subst heq
          refine (ih (p.expects :: missed) found).pass ?_ fun _ hrest => hrun.chooseNext hrest
          simp only [Parse.choiceFrom, hp]
          exact if_pos rfl
        · refine (ih missed (some (later found j e))).pass ?_
            fun _ hrest => hrun.chooseLater heq (fst_later found j e ▸ hrest)
          simp only [Parse.choiceFrom, hp]
          exact if_neg heq

theorem RunsFrom.choice {ps : List (Parser α)} {qs : List Pattern}
    (h : List.Forall₂ (fun p q => p.run.RunsFrom text q st) ps qs) :
    (Parse.choice ps).RunsFrom text (.choice qs) st := by
  intro i hst hi
  exact (RunsFrom.choiceFrom h [] none hst hi).pass rfl fun _ hrun => hrun.choice

end

/-! ### Tokens -/

section

variable {st : Nat}

theorem runsFrom_literal (bytes : Bytes) :
    (Parse.literal bytes).RunsFrom text (.literal bytes) st := by
  intro i _ hi
  have hrun : Runs text (.run (.literal bytes)) i _ := Runs.literal hi
  by_cases hstarts : bytes.isPrefixOf (text.drop i) = true
  · rw [if_pos hstarts] at hrun
    refine Or.inl ⟨bytes, i + bytes.length, ?_, hrun⟩
    exact (if_pos hstarts).trans (congrArg (Reply.ok bytes) (Cursor.advance_ofPos i _))
  · rw [if_neg hstarts] at hrun
    exact Or.inr ⟨i, _, if_neg hstarts, hrun⟩

theorem runsFrom_keyword (word : Bytes) :
    (Parse.keyword word).RunsFrom text (.keyword word) st := by
  intro i _ hi
  have hrun : Runs text (.run (.keyword word)) i _ := Runs.keyword
  have hword : (((Cursor.ofPos text i).rest.take word.length).length = word.length ∧
        Bytes.equalFold ((Cursor.ofPos text i).rest.take word.length) word = true ∧
        (!((Cursor.ofPos text i).advance word.length).rest.head?.any isNameByte) = true) ↔
      i + word.length ≤ text.length ∧
        Bytes.equalFold ((text.drop i).take word.length) word = true ∧
        ¬HasAt text (i + word.length) isNameByte := by
    refine and_congr ?_ (and_congr_right fun _ => ?_)
    · change ((text.drop i).take word.length).length = word.length ↔ _
      rw [List.length_take, List.length_drop]
      omega
    · rw [hasAt_iff, Cursor.advance_ofPos, Bool.not_eq_true', Bool.not_eq_true]
      rfl
  unfold RunsAs Parse.keyword
  dsimp only
  by_cases hfound : ((Cursor.ofPos text i).rest.take word.length).length = word.length ∧
      Bytes.equalFold ((Cursor.ofPos text i).rest.take word.length) word = true ∧
      (!((Cursor.ofPos text i).advance word.length).rest.head?.any isNameByte) = true
  · rw [if_pos hfound, Cursor.advance_ofPos]
    exact Or.inl ⟨word, _, rfl, by rwa [if_pos (hword.mp hfound)] at hrun⟩
  · rw [if_neg hfound]
    exact Or.inr ⟨i, _, rfl, by rwa [if_neg (mt hword.mpr hfound)] at hrun⟩

theorem runsFrom_spaces {α : Type} (s : Spaces) (x : α) :
    RunsFrom text (fun c => .ok x (s.skip c)) (.spaces s) st := by
  intro i _ _
  obtain ⟨j, hskip, hscan⟩ := skipWhile_ofPos text s.bytes.contains i
  exact Or.inl ⟨x, j, congrArg (Reply.ok x) hskip, Runs.spaces hscan⟩

/-- A name is the part of the text from its start to its end. -/
theorem identifier_ofPos {i : Nat} (h : HasAt text i isNameStart) :
    ∃ j, identifier (.ofPos text i) = .ok ((text.drop i).take (j - i)) (.ofPos text j) ∧
      Runs text (.run (.rule .name)) i (.ok j) := by
  generalize hname : (text.drop i).takeWhile isNameByte = name
  have hscan := scans_takeWhile text isNameByte i
  rw [hname] at hscan
  have htake : (text.drop i).take name.length = name := by
    rw [← hname]
    exact (List.prefix_iff_eq_take.mp (List.takeWhile_prefix _)).symm
  refine ⟨i + name.length, ?_, ?_⟩
  · rw [Nat.add_sub_cancel_left, htake, ← Cursor.advance_ofPos, ← hname]
    exact if_pos (hasAt_iff.mp h)
  · generalize i + name.length = j at hscan
    cases hscan with
    | stop hend =>
        obtain ⟨hi, hstart⟩ := h
        exact absurd ⟨hi, isNameByte_of_isNameStart hstart⟩ hend
    | step _ rest => exact Runs.name h rest

theorem identifier_ofPos_missing {i : Nat} (h : ¬HasAt text i isNameStart) :
    ∃ e, identifier (.ofPos text i) = .fail i e :=
  ⟨_, if_neg (mt hasAt_iff.mpr h)⟩

theorem runsFrom_identifier : identifier.RunsFrom text (.rule .name) st := by
  intro i _ hi
  by_cases h : HasAt text i isNameStart
  · obtain ⟨j, hok, hrun⟩ := identifier_ofPos h
    exact Or.inl ⟨_, j, hok, hrun⟩
  · obtain ⟨e, hfail⟩ := identifier_ofPos_missing h
    exact Or.inr ⟨i, e, hfail, Runs.nameMissing hi h⟩

theorem radixAt_eq (i : Nat) :
    radixAt text i = ((radixOf (text.drop i)).1, i + (radixOf (text.drop i)).2) := by
  have hfirst : ∀ p, HasAt text i p ↔ (text.drop i)[0]?.any p = true := fun p => hasAt_add (k := 0)
  have hsecond : ∀ p, HasAt text (i + 1) p ↔ (text.drop i)[1]?.any p = true := fun p => hasAt_add
  unfold radixAt
  simp only [hfirst, hsecond]
  rcases text.drop i with _ | ⟨zero, _ | ⟨marker, more⟩⟩
  · simp [radixOf]
  · simp [radixOf]
  · by_cases hzero : zero = ascii '0'
    · by_cases hx : marker = ascii 'x' ∨ marker = ascii 'X'
      · simp [radixOf, hzero, hx]
      · by_cases hb : marker = ascii 'b' ∨ marker = ascii 'B'
        · simp [radixOf, hzero, hx, hb]
        · simp [radixOf, hzero, hx, hb]
    · simp [radixOf, hzero]

theorem digitsAt_ofPos (radix marker i : Nat) {digits : Bytes} {j : Nat}
    (hdigits : (text.drop (i + marker)).takeWhile (isDigitOf radix) = digits)
    (hj : i + marker + digits.length = j) :
    digitsAt radix marker (.ofPos text i) =
      if digits = [] then .fail j .digitsMissing
      else if (text.drop j).head?.any isNameByte then
        .fail j (.invalidDigit ((text.drop j).head?.getD 0) radix)
      else .ok ⟨⟨i, j⟩, digits, radix⟩ (.ofPos text j) := by
  subst hj
  subst hdigits
  have hnext : ((Cursor.ofPos text i).advance marker).advance
      ((text.drop (i + marker)).takeWhile (isDigitOf radix)).length =
      .ofPos text (i + marker + ((text.drop (i + marker)).takeWhile (isDigitOf radix)).length) := by
    rw [Cursor.advance_ofPos, Cursor.advance_ofPos]
  unfold digitsAt
  rw [Cursor.advance_ofPos] at hnext ⊢
  dsimp only
  rw [show (Cursor.ofPos text (i + marker)).rest = text.drop (i + marker) from rfl, hnext]
  rfl

theorem runsAs_digitsAt {i radix marker : Nat} (h : HasAt text i isDecimalDigit)
    (hat : radixAt text i = (radix, i + marker)) :
    (digitsAt radix marker).RunsAs text (.run (.rule .number)) i := by
  generalize hdigits : (text.drop (i + marker)).takeWhile (isDigitOf radix) = digits
  generalize hj : i + marker + digits.length = j
  have hscan := scans_takeWhile text (isDigitOf radix) (i + marker)
  rw [hdigits, hj] at hscan
  have hrun := Runs.number h (by rw [hat]; exact hscan)
  rw [hat] at hrun
  have hempty : j = i + marker ↔ digits = [] := by
    rw [← hj, Nat.add_eq_left, List.length_eq_zero_iff]
  unfold RunsAs
  rw [digitsAt_ofPos radix marker i hdigits hj]
  by_cases hnone : digits = []
  · rw [if_pos (Or.inl (hempty.mpr hnone))] at hrun
    exact Or.inr ⟨j, _, if_pos hnone, hrun⟩
  · rw [if_neg hnone]
    by_cases hname : HasAt text j isNameByte
    · rw [if_pos (Or.inr hname)] at hrun
      exact Or.inr ⟨j, _, if_pos (hasAt_iff.mp hname), hrun⟩
    · rw [if_neg (not_or.mpr ⟨mt hempty.mp hnone, hname⟩)] at hrun
      exact Or.inl ⟨_, j, if_neg (mt hasAt_iff.mpr hname), hrun⟩

theorem runsFrom_numeral : numeral.RunsFrom text (.rule .number) st := by
  intro i _ hi
  by_cases h : HasAt text i isDecimalDigit
  · have hreply : numeral (.ofPos text i) =
        digitsAt (radixOf (text.drop i)).1 (radixOf (text.drop i)).2 (.ofPos text i) :=
      (numeral_eq _).trans (if_pos (hasAt_iff.mp h))
    unfold RunsAs
    rw [hreply]
    exact runsAs_digitsAt h (radixAt_eq i)
  · have hreply := (numeral_eq (.ofPos text i)).trans (if_neg (mt hasAt_iff.mpr h))
    exact Or.inr ⟨i, _, hreply, Runs.numberMissing hi h⟩

theorem drop_succ_of_cons {i : Nat} {b : UInt8} {rest : Bytes} (h : text.drop i = b :: rest) :
    text.drop (i + 1) = rest := by
  rw [← List.drop_drop, h, List.drop_one, List.tail_cons]

theorem hasAt_of_cons {i : Nat} {b : UInt8} {rest : Bytes} (h : text.drop i = b :: rest)
    {p : UInt8 → Bool} (hp : p b = true) : HasAt text i p := by
  rw [hasAt_iff, h]
  exact hp

theorem runsText_textBody (rest : Bytes) (i : Nat) (read : Bytes) (hrest : text.drop i = rest) :
    (∃ x j, textBody rest i read = .ok x (.ofPos text j) ∧ RunsText text i (.ok j)) ∨
      ∃ j e, textBody rest i read = .fail j e ∧ RunsText text i (.fail j) := by
  fun_induction textBody rest i read with
  | case1 i => exact Or.inr ⟨i, _, rfl, RunsText.ended (List.drop_eq_nil_iff.mp hrest)⟩
  | case2 rest i read =>
      have hquote : HasAt text i (· == 0x22) := hasAt_of_cons hrest rfl
      refine Or.inl ⟨read.reverse, i + 1, ?_, RunsText.quote hquote⟩
      rw [Cursor.ofPos, drop_succ_of_cons hrest]
  | case3 rest i => exact Or.inr ⟨i, _, rfl, RunsText.line (hasAt_of_cons hrest rfl)⟩
  | case4 i =>
      refine Or.inr ⟨i + 1, _, rfl, RunsText.badEscape (hasAt_of_cons hrest rfl) ?_⟩
      rw [hasAt_iff, drop_succ_of_cons hrest]
      simp
  | case5 i _ letter rest byte hbyte _ _ ih =>
      have hbackslash : HasAt text i (· == 0x5C) := hasAt_of_cons hrest rfl
      have hletter : HasAt text (i + 1) fun b => (unescape b).isSome :=
        hasAt_of_cons (drop_succ_of_cons hrest) (by rw [hbyte]; rfl)
      rcases ih (drop_succ_of_cons (drop_succ_of_cons hrest)) with
        ⟨x, j, hok, hrun⟩ | ⟨j, e, hfail, hrun⟩
      · exact Or.inl ⟨x, j, hok, RunsText.escape hbackslash hletter hrun⟩
      · exact Or.inr ⟨j, e, hfail, RunsText.escape hbackslash hletter hrun⟩
  | case6 i _ letter rest hbyte =>
      refine Or.inr ⟨i + 1, _, rfl, RunsText.badEscape (hasAt_of_cons hrest rfl) ?_⟩
      rw [hasAt_iff, drop_succ_of_cons hrest]
      simp [hbyte]
  | case7 b rest i _ hquote hline hbackslash ih =>
      have hbyte : HasAt text i fun b => b != 0x22 && b != 0x0A && b != 0x5C :=
        hasAt_of_cons hrest (by simp [hquote, hline, hbackslash])
      rcases ih (drop_succ_of_cons hrest) with ⟨x, j, hok, hrun⟩ | ⟨j, e, hfail, hrun⟩
      · exact Or.inl ⟨x, j, hok, RunsText.byte hbyte hrun⟩
      · exact Or.inr ⟨j, e, hfail, RunsText.byte hbyte hrun⟩

theorem runsFrom_quotedText : quotedText.RunsFrom text (.rule .text) st := by
  intro i _ hi
  unfold RunsAs quotedText
  split
  next rest hrest =>
    have hquote : HasAt text i (· == 0x22) := hasAt_of_cons hrest rfl
    rcases runsText_textBody rest (i + 1) [] (drop_succ_of_cons hrest) with
      ⟨x, j, hok, hrun⟩ | ⟨j, e, hfail, hrun⟩
    · exact Or.inl ⟨x, j, hok, Runs.text hquote hrun⟩
    · exact Or.inr ⟨j, e, hfail, Runs.text hquote hrun⟩
  next hnone =>
    refine Or.inr ⟨i, _, rfl, Runs.textMissing hi ?_⟩
    rintro ⟨hlt, hbyte⟩
    refine hnone (text.drop (i + 1)) ?_
    change text.drop i = _
    rw [List.drop_eq_getElem_cons hlt, eq_of_beq hbyte]

theorem runsFrom_nothing {α : Type} (x : α) : (pure x : Parse α).RunsFrom text .nothing st :=
  fun i _ _ => Or.inl ⟨x, i, rfl, Runs.nothing⟩

end

end Parse

end Gx
