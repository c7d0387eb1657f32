import Gx.Path
import Gx.Proofs.Lines

/-!
# Clean paths

A clean path is spelled from the parts that are left when all others have been dropped or taken
back.  These are not empty, they are not `.` and have no `/`, so the spelling tells which parts they
are.  They are in a normal form: a `..` has only others of its kind before it, and a path from the
root has none.  Every part that is added keeps the normal form, so a clean path is clean for good.
The laws of the last section say what may be left out of a path.
-/

namespace Gx

namespace Path

structure IsPart (part : Bytes) : Prop where
  ne_nil : part ≠ []
  ne_dot : part ≠ utf8 "."
  noSlash : 0x2F ∉ part

/-- The parts that are left of a path, last first. -/
def partsLeft (rooted : Bool) (path : Bytes) : List Bytes :=
  (path.splitOn 0x2F).foldl (addPart rooted) []

/-- The path that is made of parts, which are given last first. -/
def spell (rooted : Bool) (parts : List Bytes) : Bytes :=
  let body := Bytes.join (utf8 "/") parts.reverse
  if rooted then 0x2F :: body else if body = [] then utf8 "." else body

theorem clean_eq (path : Bytes) :
    clean path = spell (isAbsolute path) (partsLeft (isAbsolute path) path) := rfl

theorem isPart_dots : IsPart (utf8 "..") :=
  ⟨by decide, by decide, by decide⟩

/-! ## Adding a part -/

theorem addPart_nil (rooted : Bool) (done : List Bytes) : addPart rooted done [] = done := rfl

theorem addPart_dot (rooted : Bool) (done : List Bytes) :
    addPart rooted done (utf8 ".") = done := rfl

theorem addPart_dots_root : addPart true [] (utf8 "..") = [] := rfl

theorem addPart_dots_start : addPart false [] (utf8 "..") = [utf8 ".."] := rfl

theorem addPart_dots_dots (rooted : Bool) (done : List Bytes) :
    addPart rooted (utf8 ".." :: done) (utf8 "..") = utf8 ".." :: utf8 ".." :: done := rfl

/-- `..` takes back the name before it. -/
theorem addPart_dots_name (rooted : Bool) {name : Bytes} (h : name ≠ utf8 "..")
    (done : List Bytes) : addPart rooted (name :: done) (utf8 "..") = done :=
  if_neg h

theorem addPart_name {rooted : Bool} {done : List Bytes} {name : Bytes} (h : IsPart name)
    (hdots : name ≠ utf8 "..") : addPart rooted done name = name :: done := by
  unfold addPart
  rw [if_neg (not_or.mpr ⟨h.ne_nil, h.ne_dot⟩), if_neg hdots]

/-- What the parts that are left look like, last first. -/
structure IsNormal (rooted : Bool) (done : List Bytes) : Prop where
  parts : ∀ x ∈ done, IsPart x
  /-- Below a `..` there is no name that it could take back. -/
  dots : done.IsChain fun last below => last = utf8 ".." → below = utf8 ".."
  root : rooted = true → utf8 ".." ∉ done

namespace IsNormal

variable {rooted : Bool} {done : List Bytes} {part : Bytes}

theorem nil : IsNormal rooted [] :=
  ⟨by simp, List.isChain_nil, by simp⟩

theorem tail (h : IsNormal rooted (part :: done)) : IsNormal rooted done where
  parts := (List.forall_mem_cons.mp h.parts).2
  dots := h.dots.tail
  root hrooted hmem := h.root hrooted (List.mem_cons_of_mem _ hmem)

theorem cons_name (h : IsNormal rooted done) (hpart : IsPart part) (hdots : part ≠ utf8 "..") :
    IsNormal rooted (part :: done) where
  parts := List.forall_mem_cons.mpr ⟨hpart, h.parts⟩
  dots := List.isChain_cons.mpr ⟨fun _ _ heq => absurd heq hdots, h.dots⟩
  root hrooted hmem := by
    rcases List.mem_cons.mp hmem with heq | hmem
    · exact hdots heq.symm
    · exact h.root hrooted hmem

/-- A `..` that finds no name to take back is kept, away from the root. -/
theorem cons_dots (h : IsNormal false done) (hbelow : ∀ below ∈ done.head?, below = utf8 "..") :
    IsNormal false (utf8 ".." :: done) where
  parts := List.forall_mem_cons.mpr ⟨isPart_dots, h.parts⟩
  dots := List.isChain_cons.mpr ⟨fun below hmem _ => hbelow below hmem, h.dots⟩
  root hrooted := by contradiction

/-- Each part keeps the normal form. -/
theorem addPart (h : IsNormal rooted done) (hslash : 0x2F ∉ part) :
    IsNormal rooted (addPart rooted done part) := by
  by_cases hnil : part = []
  · rwa [hnil, addPart_nil]
  by_cases hdot : part = utf8 "."
  · rwa [hdot, addPart_dot]
  by_cases hdots : part = utf8 ".."
  · subst hdots
    cases done with
    | nil =>
        cases rooted with
        | false =>
            rw [addPart_dots_start]
            exact cons_dots nil (by simp)
        | true =>
            rw [addPart_dots_root]
            exact nil
    | cons last rest =>
        by_cases hlast : last = utf8 ".."
        · subst hlast
          cases rooted with
          | false =>
              rw [addPart_dots_dots]
              exact cons_dots h (by simp)
          | true => exact absurd List.mem_cons_self (h.root rfl)
        · rw [addPart_dots_name rooted hlast]
          exact h.tail
  · have hpart : IsPart part := ⟨hnil, hdot, hslash⟩
    rw [addPart_name hpart hdots]
    exact h.cons_name hpart hdots

theorem foldl_addPart (h : IsNormal rooted done) {parts : List Bytes}
    (hslash : ∀ part ∈ parts, 0x2F ∉ part) :
    IsNormal rooted (parts.foldl (Path.addPart rooted) done) := by
  induction parts generalizing done with
  | nil => exact h
  | cons part rest ih =>
      rw [List.forall_mem_cons] at hslash
      exact ih (h.addPart hslash.1) hslash.2

/-- Nothing in a normal form is dropped or taken back. -/
theorem addPart_eq_cons (h : IsNormal rooted (part :: done)) :
    Path.addPart rooted done part = part :: done := by
  have hpart := h.parts part List.mem_cons_self
  by_cases hdots : part = utf8 ".."
  · subst hdots
    cases done with
    | nil =>
        cases rooted with
        | false => exact addPart_dots_start
        | true => exact absurd List.mem_cons_self (h.root rfl)
    | cons last rest =>
        obtain rfl := (List.isChain_cons_cons.mp h.dots).1 rfl
        exact addPart_dots_dots rooted rest
  · exact addPart_name hpart hdots

theorem foldl_reverse (h : IsNormal rooted done) :
    done.reverse.foldl (Path.addPart rooted) [] = done := by
  induction done with
  | nil => rfl
  | cons part done ih =>
      rw [List.reverse_cons, List.foldl_append, ih h.tail]
      exact h.addPart_eq_cons

end IsNormal

theorem noSlash_of_mem_splitOn {path part : Bytes} (h : part ∈ path.splitOn 0x2F) :
    0x2F ∉ part := by
  intro hmem
  have hnot := (Bytes.mem_of_mem_splitOnP h _ hmem).2
  simp at hnot

theorem isNormal_partsLeft (rooted : Bool) (path : Bytes) :
    IsNormal rooted (partsLeft rooted path) :=
  IsNormal.nil.foldl_addPart fun _ hpart => noSlash_of_mem_splitOn hpart

/-! ## Spelling -/

theorem join_eq_nil_iff {parts : List Bytes} (h : ∀ x ∈ parts, IsPart x) :
    Bytes.join (utf8 "/") parts = [] ↔ parts = [] := by
  constructor
  · intro hjoin
    cases parts with
    | nil => rfl
    | cons first rest =>
        have hfirst := (h first List.mem_cons_self).ne_nil
        cases rest with
        | nil =>
            rw [Bytes.join, List.intercalate_singleton] at hjoin
            contradiction
        | cons second rest =>
            rw [Bytes.join, List.intercalate_cons_cons, List.append_assoc,
              List.append_eq_nil_iff] at hjoin
            exact absurd hjoin.1 hfirst
  · rintro rfl
    rfl

theorem splitOn_join {parts : List Bytes} (h : ∀ x ∈ parts, IsPart x) (hne : parts ≠ []) :
    (Bytes.join (utf8 "/") parts).splitOn 0x2F = parts :=
  List.splitOn_intercalate _ (fun x hx => (h x hx).noSlash) hne

theorem join_injective {a b : List Bytes} (ha : ∀ x ∈ a, IsPart x) (hb : ∀ x ∈ b, IsPart x)
    (h : Bytes.join (utf8 "/") a = Bytes.join (utf8 "/") b) : a = b := by
  by_cases hnil : a = []
  · have hnone := (join_eq_nil_iff ha).mpr hnil
    rw [h, join_eq_nil_iff hb] at hnone
    rw [hnil, hnone]
  · have hsome : b ≠ [] := by
      rwa [Ne, ← join_eq_nil_iff hb, ← h, join_eq_nil_iff ha]
    rw [← splitOn_join ha hnil, ← splitOn_join hb hsome, h]

theorem join_ne_dot {parts : List Bytes} (h : ∀ x ∈ parts, IsPart x) :
    Bytes.join (utf8 "/") parts ≠ utf8 "." := by
  intro hdot
  by_cases hnil : parts = []
  · rw [(join_eq_nil_iff h).mpr hnil] at hdot
    contradiction
  · have hsplit := splitOn_join h hnil
    rw [hdot] at hsplit
    have hmem : utf8 "." ∈ parts := by
      rw [← hsplit]
      decide
    exact (h _ hmem).ne_dot rfl

/-- A path tells which parts it was made of. -/
theorem spell_injective {rooted : Bool} {a b : List Bytes} (ha : ∀ x ∈ a, IsPart x)
    (hb : ∀ x ∈ b, IsPart x) (h : spell rooted a = spell rooted b) : a = b := by
  have ha' : ∀ x ∈ a.reverse, IsPart x := fun x hx => ha x (List.mem_reverse.mp hx)
  have hb' : ∀ x ∈ b.reverse, IsPart x := fun x hx => hb x (List.mem_reverse.mp hx)
  suffices hjoin : Bytes.join (utf8 "/") a.reverse = Bytes.join (utf8 "/") b.reverse by
    exact List.reverse_injective (join_injective ha' hb' hjoin)
  unfold spell at h
  simp only at h
  split at h
  next => exact (List.cons.inj h).2
  next =>
    split at h
    next hnone =>
      split at h
      next hnone' => rw [hnone, hnone']
      next => exact absurd h.symm (join_ne_dot hb')
    next =>
      split at h
      next => exact absurd h (join_ne_dot ha')
      next => exact h

/-! ## Clean paths -/

theorem isAbsolute_of_noSlash {path : Bytes} (h : 0x2F ∉ path) : isAbsolute path = false := by
  cases path with
  | nil => rfl
  | cons b rest =>
      have hne : b ≠ 0x2F := by
        rintro rfl
        exact h List.mem_cons_self
      simp [isAbsolute, hne]

theorem isAbsolute_append {front : Bytes} (h : front ≠ []) (back : Bytes) :
    isAbsolute (front ++ back) = isAbsolute front := by
  obtain ⟨b, rest, rfl⟩ := List.exists_cons_of_ne_nil h
  rfl

theorem isAbsolute_join {parts : List Bytes} (h : ∀ x ∈ parts, IsPart x) :
    isAbsolute (Bytes.join (utf8 "/") parts) = false := by
  cases parts with
  | nil => rfl
  | cons first rest =>
      have hfirst := h first List.mem_cons_self
      cases rest with
      | nil =>
          rw [Bytes.join, List.intercalate_singleton]
          exact isAbsolute_of_noSlash hfirst.noSlash
      | cons second rest =>
          rw [Bytes.join, List.intercalate_cons_cons, List.append_assoc,
            isAbsolute_append hfirst.ne_nil]
          exact isAbsolute_of_noSlash hfirst.noSlash

theorem isAbsolute_spell {rooted : Bool} {done : List Bytes} (h : ∀ x ∈ done, IsPart x) :
    isAbsolute (spell rooted done) = rooted := by
  cases rooted with
  | true => rfl
  | false =>
      change isAbsolute (if _ then _ else _) = false
      split
      · rfl
      · exact isAbsolute_join fun x hx => h x (List.mem_reverse.mp hx)

/-- What follows a `/` is added to what is left of the path before it. -/
theorem partsLeft_slash (rooted : Bool) (front back : Bytes) :
    partsLeft rooted (front ++ 0x2F :: back) =
      (back.splitOn 0x2F).foldl (addPart rooted) (partsLeft rooted front) := by
  unfold partsLeft
  rw [List.splitOn_append_cons_self, List.foldl_append]

theorem partsLeft_join {rooted : Bool} {done : List Bytes} (h : IsNormal rooted done) :
    partsLeft rooted (Bytes.join (utf8 "/") done.reverse) = done := by
  by_cases hnil : done = []
  · rw [hnil]
    rfl
  · unfold partsLeft
    rw [splitOn_join (fun x hx => h.parts x (List.mem_reverse.mp hx)) (by simpa using hnil)]
    exact h.foldl_reverse

theorem partsLeft_spell {rooted : Bool} {done : List Bytes} (h : IsNormal rooted done) :
    partsLeft rooted (spell rooted done) = done := by
  cases rooted with
  | true => exact (partsLeft_slash true [] _).trans (partsLeft_join h)
  | false =>
      have hjoin := partsLeft_join h
      change partsLeft false (if _ then _ else _) = done
      split
      next hnone => rwa [hnone] at hjoin
      next => exact hjoin

/-- A path that is spelled from a normal form is clean. -/
theorem clean_spell {rooted : Bool} {done : List Bytes} (h : IsNormal rooted done) :
    clean (spell rooted done) = spell rooted done := by
  rw [clean_eq, isAbsolute_spell h.parts, partsLeft_spell h]

theorem clean_clean (path : Bytes) : clean (clean path) = clean path := by
  rw [clean_eq path]
  exact clean_spell (isNormal_partsLeft _ _)

/-- The clean paths are those spelled from a normal form. -/
theorem clean_eq_self_iff {path : Bytes} :
    clean path = path ↔ ∃ rooted done, IsNormal rooted done ∧ path = spell rooted done := by
  constructor
  · intro hclean
    exact ⟨_, _, isNormal_partsLeft _ _, hclean.symm⟩
  · rintro ⟨rooted, done, hnormal, rfl⟩
    exact clean_spell hnormal

/-! ## Detours -/

/-- A path that leads back to where it starts, from everywhere. -/
def IsDetour (path : Bytes) : Prop :=
  ∀ rooted done, (path.splitOn 0x2F).foldl (addPart rooted) done = done

theorem isDetour_nil : IsDetour [] := fun _ _ => rfl

theorem isDetour_dot : IsDetour (utf8 ".") := fun _ _ => rfl

theorem isDetour_name_dots {name : Bytes} (h : IsPart name) (hdots : name ≠ utf8 "..") :
    IsDetour (name ++ utf8 "/..") := by
  intro rooted done
  change List.foldl _ _ ((name ++ 0x2F :: utf8 "..").splitOn 0x2F) = done
  rw [List.splitOn_append_cons_self, List.splitOn_eq_singleton h.noSlash, List.singleton_append,
    List.foldl_cons, addPart_name h hdots]
  exact addPart_dots_name rooted hdots done

section

variable {detour : Bytes} (h : IsDetour detour)

include h

/-- So a second `/`, `/.` and a name with `/..` behind it can be left out within a path. -/
theorem clean_detour (front back : Bytes) :
    clean (front ++ 0x2F :: (detour ++ 0x2F :: back)) = clean (front ++ 0x2F :: back) := by
  have habsolute : isAbsolute (front ++ 0x2F :: (detour ++ 0x2F :: back)) =
      isAbsolute (front ++ 0x2F :: back) := by
    cases front with
    | nil => rfl
    | cons b rest => rfl
  rw [clean_eq, clean_eq, habsolute, partsLeft_slash, partsLeft_slash,
    List.splitOn_append_cons_self, List.foldl_append, h]

theorem clean_append_detour {front : Bytes} (hfront : front ≠ []) :
    clean (front ++ 0x2F :: detour) = clean front := by
  rw [clean_eq, clean_eq, isAbsolute_append hfront, partsLeft_slash, h]

theorem clean_detour_append {back : Bytes} (hdetour : detour ≠ [])
    (habsolute : isAbsolute detour = isAbsolute back) :
    clean (detour ++ 0x2F :: back) = clean back := by
  rw [clean_eq, clean_eq, isAbsolute_append hdetour, habsolute, partsLeft_slash, partsLeft, h]
  rfl

end

/-- There is nothing above the root. -/
theorem clean_root_dots (back : Bytes) :
    clean (utf8 "/../" ++ back) = clean (utf8 "/" ++ back) := by
  change spell true (partsLeft true (utf8 "/.." ++ 0x2F :: back)) =
    spell true (partsLeft true ([] ++ 0x2F :: back))
  rw [partsLeft_slash, partsLeft_slash]
  rfl

example : clean (utf8 "./a//b/./../c/") = utf8 "a/c" ∧ clean (utf8 "/../..") = utf8 "/" ∧
    clean (utf8 "a/../../b") = utf8 "../b" ∧ clean [] = utf8 "." := by
  decide

end Path

end Gx
