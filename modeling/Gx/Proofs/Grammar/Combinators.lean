import Gx.Proofs.Grammar.Reading

/-!
# Rules for parsers

Each combinator has a rule for soundness, which says where its value comes from, and one for
success.  A parser `Finds` a value if it succeeds and leaves a given rest; it `Rejects` a cursor if
it does not apply there, which is how repetitions end.
-/

namespace Gx.Parse

variable {α β : Type} {p : Parse α} {c next : Cursor}

/-! ## Success -/

theorem bind_eq (f : α → Parse β) :
    (p >>= f) c =
      match p c with
      | .ok x mid => f x mid
      | .fail pos e => .fail pos e := rfl

theorem bind_eq_ok {f : α → Parse β} {y : β} :
    (p >>= f) c = .ok y next ↔ ∃ x mid, p c = .ok x mid ∧ f x mid = .ok y next := by
  rw [bind_eq]
  cases p c with
  | ok x mid => simp
  | fail pos e => simp

theorem pure_eq_ok {x y : α} : (pure x : Parse α) c = .ok y next ↔ y = x ∧ next = c := by
  change Reply.ok x c = .ok y next ↔ _
  simp [eq_comm]

theorem named_eq_ok {name : Bytes} {x : α} : named name p c = .ok x next ↔ p c = .ok x next := by
  unfold named
  cases p c <;> simp

theorem mapError_eq_ok {f : SyntaxError → SyntaxError} {x : α} :
    mapError f p c = .ok x next ↔ p c = .ok x next := by
  unfold mapError
  cases p c <;> simp

theorem atomic_eq_ok {x : α} : atomic p c = .ok x next ↔ p c = .ok x next := by
  unfold atomic
  cases p c <;> simp

theorem spanned_eq_ok {build : Span → α → β} {y : β} :
    spanned build p c = .ok y next ↔
      ∃ x, p c = .ok x next ∧ y = build ⟨c.pos, next.pos⟩ x := by
  unfold spanned
  simp only [bind_eq_ok, pure_eq_ok, position, Reply.ok.injEq]
  constructor
  · rintro ⟨_, _, ⟨rfl, rfl⟩, x, mid, hp, _, _, ⟨rfl, rfl⟩, rfl, rfl⟩
    exact ⟨x, hp, rfl⟩
  · rintro ⟨x, hp, rfl⟩
    exact ⟨_, _, ⟨rfl, rfl⟩, x, next, hp, _, _, ⟨rfl, rfl⟩, rfl, rfl⟩

theorem applyFrom_eq_ok {start : Cursor} {x : α} :
    applyFrom p start c = .ok x next ↔ p c = .ok x next := by
  unfold applyFrom
  cases p c <;> simp

theorem token_eq_ok {x : α} : token p c = .ok x next ↔ p (Blank.gap.skip c) = .ok x next :=
  applyFrom_eq_ok

theorem choiceFrom_eq_ok {ps : List (Parser α)} {missed : List Expectation}
    {found : Option (Nat × SyntaxError)} {x : α}
    (h : choiceFrom c ps missed found = .ok x next) : ∃ q ∈ ps, q.run c = .ok x next := by
  induction ps generalizing missed found with
  | nil => cases found <;> simp [choiceFrom] at h
  | cons q ps ih =>
      rw [choiceFrom] at h
      cases hq : q.run c with
      | ok y mid =>
          rw [hq] at h
          exact ⟨q, List.mem_cons_self, hq.trans h⟩
      | fail pos e =>
          simp only [hq] at h
          split at h
          · obtain ⟨r, hr, hok⟩ := ih h
            exact ⟨r, List.mem_cons_of_mem _ hr, hok⟩
          · obtain ⟨r, hr, hok⟩ := ih h
            exact ⟨r, List.mem_cons_of_mem _ hr, hok⟩

theorem choice_eq_ok {ps : List (Parser α)} {x : α} (h : choice ps c = .ok x next) :
    ∃ q ∈ ps, q.run c = .ok x next :=
  choiceFrom_eq_ok h

section

variable {R : List α → Cursor → Cursor → Prop} (hnil : ∀ c, R [] c c)
  (hcons : ∀ x xs c mid next, p c = .ok x mid → R xs mid next → R (x :: xs) c next)

include hnil hcons

theorem manyFrom_induct (rounds : Bytes) {read xs : List α}
    (hok : manyFrom p rounds read c = .ok xs next) :
    ∃ ys, xs = read.reverse ++ ys ∧ R ys c next := by
  have hstop : ∀ {read : List α} {c : Cursor}, Reply.ok read.reverse c = .ok xs next →
      ∃ ys, xs = read.reverse ++ ys ∧ R ys c next := by
    intro read c heq
    obtain ⟨rfl, rfl⟩ := Reply.ok.inj heq
    exact ⟨[], by simp, hnil c⟩
  induction rounds generalizing read c with
  | nil => exact hstop hok
  | cons _ rounds ih =>
      rw [manyFrom] at hok
      cases hp : p c with
      | fail pos e =>
          simp only [hp] at hok
          split at hok
          · exact hstop hok
          · contradiction
      | ok x mid =>
          simp only [hp] at hok
          split at hok
          · exact hstop hok
          · obtain ⟨ys, rfl, hys⟩ := ih hok
            exact ⟨x :: ys, by simp, hcons x ys c mid next hp hys⟩

/-- What holds of no rounds, and goes on holding with one round more in front, holds of a
repetition. -/
theorem many_induct {xs : List α} (hok : many p c = .ok xs next) : R xs c next := by
  obtain ⟨ys, rfl, hys⟩ := manyFrom_induct hnil hcons c.budget hok
  exact hys

end

/-! ## Soundness -/

/-- What the parser takes is a written form of its value, and the value has the property `P`. -/
def Sound (p : Parse α) (P : α → Prop) (tokens : α → List Token) : Prop :=
  ∀ c x next, p c = .ok x next → P x ∧ Reads (tokens x) c.rest next.rest

theorem reads_of_gap {ks : List Token} {t u rest : Bytes} (hgap : Gap t u)
    (hks : Reads ks u rest) (hne : ks ≠ []) : Reads ks t rest := by
  cases ks with
  | nil => contradiction
  | cons k ks =>
      obtain ⟨v, w, hgap', hk, hrest⟩ := hks
      exact ⟨v, w, hgap.trans hgap', hk, hrest⟩

theorem Sound.token {P : α → Prop} {tokens : α → List Token} (h : p.Sound P tokens)
    (hne : ∀ x, P x → tokens x ≠ []) : (Parse.token p).Sound P tokens := by
  intro c x next hok
  obtain ⟨rest, hskip, hgap, _⟩ := skip_eq c
  rw [token_eq_ok, hskip] at hok
  obtain ⟨hx, hreads⟩ := h _ _ _ hok
  exact ⟨hx, reads_of_gap hgap hreads (hne x hx)⟩

theorem Sound.many {P : α → Prop} {tokens : α → List Token} (h : p.Sound P tokens) :
    (Parse.many p).Sound (fun xs => ∀ x ∈ xs, P x) (fun xs => xs.flatMap tokens) := by
  intro c xs next hok
  refine many_induct (R := fun xs c next =>
    (∀ x ∈ xs, P x) ∧ Reads (xs.flatMap tokens) c.rest next.rest) ?_ ?_ hok
  · intro c
    exact ⟨by simp, rfl⟩
  · intro x xs c mid next hp hrest
    obtain ⟨hx, hreads⟩ := h _ _ _ hp
    rw [List.flatMap_cons]
    exact ⟨List.forall_mem_cons.mpr ⟨hx, hrest.1⟩, hreads.append hrest.2⟩

/-! ## Completeness -/

/-- The parser succeeds with a value in `S`, and `rest` is left of the text. -/
def Finds (p : Parse α) (S : α → Prop) (c : Cursor) (rest : Bytes) : Prop :=
  rest.length ≤ c.rest.length ∧ ∃ x, S x ∧ p c = .ok x (c.leaving rest)

/-- The parser does not apply. -/
def Rejects (p : Parse α) (c : Cursor) : Prop :=
  ∃ e, p c = .fail c.pos e

/-- The parser fails, here or further on. -/
def Fails (p : Parse α) (c : Cursor) : Prop :=
  ∃ pos e, p c = .fail pos e

theorem Rejects.fails (h : p.Rejects c) : p.Fails c := by
  obtain ⟨e, he⟩ := h
  exact ⟨c.pos, e, he⟩

section

variable {S : α → Prop} {mid rest : Bytes}

theorem Finds.of_eq_ok {q : Parse α} (h : p.Finds S c rest)
    (hq : ∀ x next, p c = .ok x next → q c = .ok x next) : q.Finds S c rest := by
  obtain ⟨hlength, x, hx, hok⟩ := h
  exact ⟨hlength, x, hx, hq _ _ hok⟩

theorem finds_pure {x : α} (hx : S x) : (pure x : Parse α).Finds S c c.rest :=
  ⟨le_rfl, x, hx, by rw [Cursor.leaving_self]; rfl⟩

theorem Finds.bind {f : α → Parse β} {Q : β → Prop} (hp : p.Finds S c mid)
    (hf : ∀ x, S x → (f x).Finds Q (c.leaving mid) rest) : (p >>= f).Finds Q c rest := by
  obtain ⟨hmid, x, hx, hok⟩ := hp
  obtain ⟨hrest, y, hy, hnext⟩ := hf x hx
  rw [Cursor.leaving_leaving _ hmid hrest] at hnext
  exact ⟨hrest.trans hmid, y, hy, bind_eq_ok.mpr ⟨x, _, hok, hnext⟩⟩

theorem Finds.named {name : Bytes} (h : p.Finds S c rest) : (Parse.named name p).Finds S c rest :=
  h.of_eq_ok fun _ _ => named_eq_ok.mpr

theorem Finds.mapError {f : SyntaxError → SyntaxError} (h : p.Finds S c rest) :
    (Parse.mapError f p).Finds S c rest :=
  h.of_eq_ok fun _ _ => mapError_eq_ok.mpr

theorem Finds.atomic (h : p.Finds S c rest) : (Parse.atomic p).Finds S c rest :=
  h.of_eq_ok fun _ _ => atomic_eq_ok.mpr

theorem Finds.spanned {build : Span → α → β} {Q : β → Prop} (h : p.Finds S c rest)
    (hbuild : ∀ x span, S x → Q (build span x)) : (Parse.spanned build p).Finds Q c rest := by
  obtain ⟨hlength, x, hx, hok⟩ := h
  exact ⟨hlength, _, hbuild x _ hx, spanned_eq_ok.mpr ⟨x, hok, rfl⟩⟩

/-- Behind a gap it is enough to find a value where the gap ends. -/
theorem Finds.token {u : Bytes} (hgap : Gap c.rest u) (hu : isSolid u = true)
    (h : p.Finds S (c.leaving u) rest) : (Parse.token p).Finds S c rest := by
  obtain ⟨hlength, x, hx, hok⟩ := h
  rw [Cursor.leaving_leaving _ hgap.length_le hlength] at hok
  refine ⟨hlength.trans hgap.length_le, x, hx, ?_⟩
  rw [token_eq_ok, skip_of_gap hgap hu]
  exact hok

/-- A row of tokens that a parser reads where no gap starts can stand behind a gap. -/
theorem finds_token {ks : List Token} (hne : ks ≠ [])
    (hp : ∀ c : Cursor, isSolid c.rest = true → Reads ks c.rest rest → p.Finds S c rest)
    (h : Reads ks c.rest rest) : (Parse.token p).Finds S c rest := by
  obtain ⟨k, ks, rfl⟩ := List.exists_cons_of_ne_nil hne
  obtain ⟨u, v, hgap, hk, hks⟩ := h
  exact Finds.token hgap hk.isSolid (hp _ hk.isSolid ⟨u, v, Gap.nil u, hk, hks⟩)

theorem choiceFrom_of_fails {q : Parser α} (h : q.run.Fails c) (ps : List (Parser α))
    (missed : List Expectation) (found : Option (Nat × SyntaxError)) :
    ∃ missed' found', choiceFrom c (q :: ps) missed found = choiceFrom c ps missed' found' := by
  obtain ⟨pos, e, hfail⟩ := h
  by_cases hpos : pos = c.pos
  · exact ⟨_, _, by rw [choiceFrom, hfail]; simp only [if_pos hpos]; rfl⟩
  · exact ⟨_, _, by rw [choiceFrom, hfail]; simp only [if_neg hpos]; rfl⟩

/-- The first alternative that succeeds counts. -/
theorem Finds.choice {post : List (Parser α)} {q : Parser α} (h : q.run.Finds S c rest)
    (pre : List (Parser α)) (hpre : ∀ r ∈ pre, r.run.Fails c) :
    (Parse.choice (pre ++ q :: post)).Finds S c rest := by
  obtain ⟨hlength, x, hx, hok⟩ := h
  refine ⟨hlength, x, hx, ?_⟩
  unfold Parse.choice
  generalize ([] : List Expectation) = missed, (none : Option (Nat × SyntaxError)) = found
  induction pre generalizing missed found with
  | nil => simp only [List.nil_append, choiceFrom, hok]
  | cons r pre ih =>
      obtain ⟨missed', found', hnext⟩ :=
        choiceFrom_of_fails (hpre r List.mem_cons_self) (pre ++ q :: post) missed found
      rw [List.cons_append, hnext]
      exact ih (fun r' hr' => hpre r' (List.mem_cons_of_mem _ hr')) _ _

theorem Rejects.choice {ps : List (Parser α)} (h : ∀ q ∈ ps, q.run.Rejects c) :
    (Parse.choice ps).Rejects c := by
  unfold Parse.choice
  generalize ([] : List Expectation) = missed
  induction ps generalizing missed with
  | nil => exact ⟨_, rfl⟩
  | cons q ps ih =>
      obtain ⟨e, hfail⟩ := h q List.mem_cons_self
      obtain ⟨e', hrest⟩ := ih (fun r hr => h r (List.mem_cons_of_mem _ hr)) (q.expects :: missed)
      refine ⟨e', ?_⟩
      simp only [choiceFrom, hfail, if_true]
      exact hrest

theorem Rejects.bind {f : α → Parse β} (h : p.Rejects c) : (p >>= f).Rejects c := by
  obtain ⟨e, hfail⟩ := h
  exact ⟨e, by rw [bind_eq, hfail]⟩

theorem Rejects.mapError {f : SyntaxError → SyntaxError} (h : p.Rejects c) :
    (Parse.mapError f p).Rejects c := by
  obtain ⟨e, hfail⟩ := h
  exact ⟨f e, by simp only [Parse.mapError, hfail]⟩

theorem Rejects.named {name : Bytes} (h : p.Rejects c) : (Parse.named name p).Rejects c := by
  obtain ⟨e, hfail⟩ := h
  exact ⟨_, by simp only [Parse.named, hfail]; rfl⟩

theorem Rejects.spanned {build : Span → α → β} (h : p.Rejects c) :
    (Parse.spanned build p).Rejects c := by
  have hbind : (p >>= fun x => position >>= fun stop =>
      (pure (build ⟨c.pos, stop⟩ x) : Parse β)).Rejects c := h.bind
  exact hbind

theorem Fails.atomic (h : p.Fails c) : (Parse.atomic p).Rejects c := by
  obtain ⟨pos, e, hfail⟩ := h
  exact ⟨e, by simp only [Parse.atomic, hfail]⟩

theorem Rejects.token {u : Bytes} (hgap : Gap c.rest u) (hu : isSolid u = true)
    (h : p.Rejects (c.leaving u)) : (Parse.token p).Rejects c := by
  obtain ⟨e, hfail⟩ := h
  refine ⟨e, ?_⟩
  simp only [Parse.token, spaced, applyFrom, skip_of_gap hgap hu, hfail, if_true]

/-- A sequence fails if its first part does, or if the rest fails behind it. -/
theorem Fails.bind {f : α → Parse β} (h : ∀ x next, p c = .ok x next → (f x).Fails next) :
    (p >>= f).Fails c := by
  cases hp : p c with
  | ok x next =>
      obtain ⟨pos, e, hfail⟩ := h x next hp
      exact ⟨pos, e, by rw [bind_eq, hp]; exact hfail⟩
  | fail pos e =>
      exact ⟨pos, e, by rw [bind_eq, hp]⟩

theorem Fails.spanned {build : Span → α → β} (h : p.Fails c) :
    (Parse.spanned build p).Fails c := by
  have hbind : (p >>= fun x => position >>= fun stop =>
      (pure (build ⟨c.pos, stop⟩ x) : Parse β)).Fails c := by
    apply Fails.bind
    intro x next hok
    obtain ⟨pos, e, hfail⟩ := h
    rw [hok] at hfail
    contradiction
  exact hbind

/-- What a repetition needs to read the elements `xs` from at most `size` bytes: a way to read each
one, provided that something in `F` follows, and nothing to read behind the last. -/
structure Repeats (p : Parse α) (T : β → List Token) (R : β → α → Prop) (F : Bytes → Prop)
    (size : Nat) (xs : List β) (rest : Bytes) : Prop where
  finds : ∀ x ∈ xs, ∀ (c : Cursor) mid, c.rest.length ≤ size → Reads (T x) c.rest mid → F mid →
    p.Finds (R x) c mid
  nonempty : ∀ x ∈ xs, T x ≠ []
  follows : ∀ x ∈ xs, ∀ t mid, Reads (T x) t mid → F t
  last : F rest
  stops : ∀ c : Cursor, c.rest = rest → p.Rejects c

section

variable {T : β → List Token} {R : β → α → Prop} {F : Bytes → Prop} {size : Nat} {xs : List β}

theorem Repeats.tail {x : β} (h : p.Repeats T R F size (x :: xs) rest) :
    p.Repeats T R F size xs rest where
  finds y hy := h.finds y (List.mem_cons_of_mem _ hy)
  nonempty y hy := h.nonempty y (List.mem_cons_of_mem _ hy)
  follows y hy := h.follows y (List.mem_cons_of_mem _ hy)
  last := h.last
  stops := h.stops

theorem Repeats.follows_of_reads (h : p.Repeats T R F size xs rest) {t : Bytes}
    (hreads : Reads (xs.flatMap T) t rest) : F t := by
  cases xs with
  | nil =>
      obtain rfl : t = rest := hreads
      exact h.last
  | cons x xs =>
      rw [List.flatMap_cons, reads_append] at hreads
      obtain ⟨mid, hx, _⟩ := hreads
      exact h.follows x List.mem_cons_self t mid hx

theorem Repeats.manyFrom (h : p.Repeats T R F size xs rest) (rounds : Bytes) (read : List α)
    (hsize : c.rest.length ≤ size) (hrounds : c.rest.length < rounds.length)
    (hreads : Reads (xs.flatMap T) c.rest rest) :
    ∃ ys, List.Forall₂ R xs ys ∧
      Parse.manyFrom p rounds read c = .ok (read.reverse ++ ys) (c.leaving rest) := by
  induction xs generalizing rounds read c with
  | nil =>
      obtain rfl : c.rest = rest := hreads
      obtain ⟨e, hfail⟩ := h.stops c rfl
      refine ⟨[], List.Forall₂.nil, ?_⟩
      cases rounds with
      | nil => simp at hrounds
      | cons _ rounds => simp [Parse.manyFrom, hfail]
  | cons x xs ih =>
      rw [List.flatMap_cons, reads_append] at hreads
      obtain ⟨mid, hx, hxs⟩ := hreads
      obtain ⟨hlength, y, hy, hok⟩ :=
        h.finds x List.mem_cons_self c mid hsize hx (h.tail.follows_of_reads hxs)
      have hmoves : mid.length < c.rest.length := by
        obtain ⟨k, ks, hT⟩ := List.exists_cons_of_ne_nil (h.nonempty x List.mem_cons_self)
        rw [hT] at hx
        exact hx.length_lt
      cases rounds with
      | nil => simp at hrounds
      | cons _ rounds =>
          obtain ⟨ys, hys, hmany⟩ := ih h.tail (c := c.leaving mid) rounds (y :: read)
            (hlength.trans hsize)
            (by simp only [Cursor.rest_leaving, List.length_cons] at hrounds ⊢; omega) hxs
          refine ⟨y :: ys, List.Forall₂.cons hy hys, ?_⟩
          rw [Cursor.leaving_leaving _ hlength hxs.length_le] at hmany
          simp only [Parse.manyFrom, hok, if_neg (Cursor.pos_leaving_ne hmoves), hmany]
          simp

theorem Repeats.many (h : p.Repeats T R F size xs rest) (hsize : c.rest.length ≤ size)
    (hreads : Reads (xs.flatMap T) c.rest rest) :
    (Parse.many p).Finds (List.Forall₂ R xs) c rest := by
  obtain ⟨ys, hys, hmany⟩ := h.manyFrom c.budget [] hsize (by simp [Cursor.budget]) hreads
  exact ⟨hreads.length_le, ys, hys, hmany⟩

end

end

end Gx.Parse
