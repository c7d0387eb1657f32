import Gx.Proofs.Bitmap
import Mathlib.Data.Finset.Sort

/-!
# What a bitmap answers

A bitmap is asked for single numbers, for their count and their least, and to hand them to a
visitor.  All answers are read off one list, the numbers of the bitmap in increasing order.  For the
visitor this is an equation of loops: clearing the lowest bit of a word again and again, word by
word, passes through that list.  So after any requests the answers are those of the finite set to
which the insertions and removals lead.
-/

namespace Gx.Bitmap

/-! ## The numbers in a row of words -/

theorem mem_bitsOf {w : UInt64} {j : Nat} : j ∈ bitsOf w ↔ j < 64 ∧ hasBit w j = true := by
  simp [bitsOf]

theorem bitsOf_pairwise (w : UInt64) : (bitsOf w).Pairwise (· < ·) :=
  List.pairwise_lt_range.filter _

/-- Behind the lowest bit follow the bits of the word in which it is cleared. -/
theorem bitsOf_of_ne_zero {w : UInt64} (hw : w ≠ 0) :
    bitsOf w = lowestBit w :: bitsOf (w &&& ~~~bit (lowestBit w)) := by
  obtain ⟨hlt, hset, hbelow⟩ := lowestBit_of_ne_zero hw
  have hrest : ∀ j, j ∈ bitsOf (w &&& ~~~bit (lowestBit w)) ↔
      j ∈ bitsOf w ∧ j ≠ lowestBit w := by
    intro j
    rw [mem_bitsOf, mem_bitsOf, and_assoc]
    refine and_congr_right fun hj => ?_
    rw [hasBit_and_not_bit hlt hj, Bool.and_eq_true, Bool.not_eq_true', decide_eq_false_iff_not]
    exact and_congr_right fun _ => ne_comm
  have hleast : ∀ j ∈ bitsOf w, lowestBit w ≤ j := by
    intro j hj
    by_contra hless
    have hnot := hbelow j (by omega)
    rw [(mem_bitsOf.mp hj).2] at hnot
    contradiction
  refine List.Pairwise.eq_of_mem_iff (bitsOf_pairwise w) (List.pairwise_cons.mpr ⟨?_, ?_⟩) ?_
  · intro j hj
    obtain ⟨hmem, hne⟩ := (hrest j).mp hj
    have hle := hleast j hmem
    omega
  · exact bitsOf_pairwise _
  · intro j
    rw [List.mem_cons, hrest]
    by_cases hj : j = lowestBit w
    · simp [hj, mem_bitsOf, hlt, hset]
    · simp [hj]

/-- The numbers in words of which the first is word `k` of a row. -/
def numbersFrom : Nat → List UInt64 → List Nat
  | _, [] => []
  | k, w :: rest => (bitsOf w).map (64 * k + ·) ++ numbersFrom (k + 1) rest

theorem toList_eq (b : Bitmap) : b.toList = numbersFrom 0 b.words.toList := by
  unfold toList
  generalize b.words.toList = words
  generalize 0 = k
  induction words generalizing k with
  | nil => rfl
  | cons w rest ih => simp [numbersFrom, ih]

theorem mem_numbersFrom (words : List UInt64) (k i : Nat) :
    i ∈ numbersFrom k words ↔
      64 * k ≤ i ∧ hasBit (words.getD (i / 64 - k) 0) (i % 64) = true := by
  induction words generalizing k with
  | nil => simp [numbersFrom, hasBit_zero]
  | cons w rest ih =>
      have hword : i ∈ (bitsOf w).map (64 * k + ·) ↔
          i / 64 = k ∧ hasBit w (i % 64) = true := by
        simp only [List.mem_map, mem_bitsOf]
        constructor
        · rintro ⟨j, ⟨hj, hset⟩, rfl⟩
          have hdiv : (64 * k + j) / 64 = k := by omega
          have hmod : (64 * k + j) % 64 = j := by omega
          rw [hdiv, hmod]
          exact ⟨rfl, hset⟩
        · rintro ⟨hdiv, hset⟩
          exact ⟨i % 64, ⟨by omega, hset⟩, by omega⟩
      rw [numbersFrom, List.mem_append, hword, ih]
      -- the number lies in front of the words, in the first of them, or behind it
      rcases lt_trichotomy (i / 64) k with hlt | heq | hgt
      · have hsmall : ¬64 * k ≤ i := by omega
        have hsmaller : ¬64 * (k + 1) ≤ i := by omega
        simp [hlt.ne, hsmall, hsmaller]
      · have hfirst : 64 * k ≤ i := by omega
        have hnext : ¬64 * (k + 1) ≤ i := by omega
        simp [heq, hfirst, hnext]
      · have hfirst : 64 * k ≤ i := by omega
        have hnext : 64 * (k + 1) ≤ i := by omega
        have hsucc : i / 64 - k = i / 64 - (k + 1) + 1 := by omega
        simp [hgt.ne', hfirst, hnext, hsucc]

theorem numbersFrom_pairwise (words : List UInt64) (k : Nat) :
    (numbersFrom k words).Pairwise (· < ·) := by
  induction words generalizing k with
  | nil => exact List.Pairwise.nil
  | cons w rest ih =>
      refine List.pairwise_append.mpr ⟨?_, ih (k + 1), ?_⟩
      · refine List.pairwise_map.mpr ((bitsOf_pairwise w).imp ?_)
        intro a b hab
        omega
      · intro i hi j hj
        obtain ⟨bit, hbit, rfl⟩ := List.mem_map.mp hi
        have hlt := (mem_bitsOf.mp hbit).1
        have hle := ((mem_numbersFrom rest (k + 1) j).mp hj).1
        omega

theorem mem_toList {b : Bitmap} {i : Nat} : i ∈ b.toList ↔ b.contains i = true := by
  rw [toList_eq, mem_numbersFrom]
  simp [contains, word, List.getD_eq_getElem?_getD]

theorem toList_pairwise (b : Bitmap) : b.toList.Pairwise (· < ·) := by
  rw [toList_eq]
  exact numbersFrom_pairwise _ _

/-! ## Count and least number -/

theorem size_eq_length (b : Bitmap) : b.size = b.toList.length := by
  have hfold : ∀ (words : List UInt64) (k n : Nat),
      words.foldl (fun n w => n + (bitsOf w).length) n = n + (numbersFrom k words).length := by
    intro words
    induction words with
    | nil => simp [numbersFrom]
    | cons w rest ih =>
        intro k n
        rw [List.foldl_cons, ih (k + 1), numbersFrom, List.length_append, List.length_map]
        omega
  rw [toList_eq, size, ← Array.foldl_toList, hfold _ 0, Nat.zero_add]

theorem min?_eq_head? (b : Bitmap) : b.min? = b.toList.head? := by
  unfold min? toList
  generalize b.words.toList.zipIdx = words
  induction words with
  | nil => rfl
  | cons w rest ih =>
      obtain ⟨w, k⟩ := w
      rw [List.findSome?_cons, List.flatMap_cons, List.head?_append, List.head?_map, ih]
      cases hfirst : (bitsOf w).head? with
      | none => simp [hfirst]
      | some j => simp [hfirst]

theorem min?_eq_some_iff {b : Bitmap} {i : Nat} :
    b.min? = some i ↔ IsLeast {j | b.contains j = true} i := by
  have hsorted := b.toList_pairwise
  have hmem : ∀ j, j ∈ b.toList ↔ b.contains j = true := fun j => mem_toList
  rw [min?_eq_head?]
  cases hlist : b.toList with
  | nil =>
      have hnone : ¬b.contains i = true := by
        rw [← hmem, hlist]
        exact List.not_mem_nil
      simp [IsLeast, hnone]
  | cons first rest =>
      rw [hlist, List.pairwise_cons] at hsorted
      have hleast : IsLeast {j | b.contains j = true} first := by
        refine ⟨(hmem first).mp (by simp [hlist]), fun j hj => ?_⟩
        have hj' := (hmem j).mpr hj
        rw [hlist] at hj'
        rcases List.mem_cons.mp hj' with rfl | hrest
        · exact le_rfl
        · exact (hsorted.1 j hrest).le
      rw [List.head?_cons, Option.some.injEq]
      constructor
      · rintro rfl
        exact hleast
      · exact hleast.unique

/-! ## Visiting -/

section

variable {σ : Type} (f : σ → Nat → σ × Bool)

/-- Hands numbers to `f` one by one; also says whether `f` wanted to go on after each of them. -/
def handOver : σ → List Nat → σ × Bool
  | s, [] => (s, true)
  | s, i :: rest =>
      match f s i with
      | (s, true) => handOver s rest
      | (s, false) => (s, false)

theorem handOver_append (s : σ) (first second : List Nat) :
    handOver f s (first ++ second) =
      match handOver f s first with
      | (s, true) => handOver f s second
      | (s, false) => (s, false) := by
  induction first generalizing s with
  | nil => rfl
  | cons i rest ih =>
      rw [List.cons_append, handOver, handOver]
      rcases f s i with ⟨next, _ | _⟩
      · rfl
      · exact ih next

/-- The loop that clears the lowest bit passes through the bits of the word. -/
theorem visitWord_eq (base : Nat) (w : UInt64) (s : σ) :
    visitWord f base w s = handOver f s ((bitsOf w).map (base + ·)) := by
  fun_induction visitWord f base w s with
  | case1 s =>
      have hnone : bitsOf 0 = [] := (bitsOf_eq_nil_iff 0).mpr fun j _ => hasBit_zero j
      rw [hnone]
      rfl
  | case2 w s hw next hgo ih =>
      rw [bitsOf_of_ne_zero hw, List.map_cons, handOver, hgo]
      exact ih
  | case3 w s hw next hstop =>
      rw [bitsOf_of_ne_zero hw, List.map_cons, handOver, hstop]

theorem visitWords_eq (words : List UInt64) (k : Nat) (s : σ) :
    visitWords f k words s = (handOver f s (numbersFrom k words)).1 := by
  induction words generalizing k s with
  | nil => rfl
  | cons w rest ih =>
      rw [visitWords, visitWord_eq, numbersFrom, handOver_append]
      rcases handOver f s ((bitsOf w).map (64 * k + ·)) with ⟨next, _ | _⟩
      · rfl
      · exact ih (k + 1) next

theorem visit_eq (b : Bitmap) (s : σ) : b.visit f s = (handOver f s b.toList).1 := by
  rw [toList_eq]
  exact visitWords_eq f b.words.toList 0 s

/-- What becomes of the state of `f` when it gets numbers one by one. -/
def told (s : σ) (numbers : List Nat) : σ :=
  numbers.foldl (fun s i => (f s i).1) s

/-- `f` wants to go on after each of the numbers. -/
def GoesOn : σ → List Nat → Prop
  | _, [] => True
  | s, i :: rest => (f s i).2 = true ∧ GoesOn (f s i).1 rest

variable {f}

theorem handOver_of_goesOn {s : σ} {numbers : List Nat} (h : GoesOn f s numbers) :
    handOver f s numbers = (told f s numbers, true) := by
  induction numbers generalizing s with
  | nil => rfl
  | cons i rest ih =>
      obtain ⟨hgo, hrest⟩ := h
      have hcall : f s i = ((f s i).1, true) := Prod.ext rfl hgo
      rw [handOver, hcall]
      exact ih hrest

/-- Nothing is handed over behind the number at which `f` declines. -/
theorem handOver_of_declines {s : σ} {done : List Nat} {i : Nat} (h : GoesOn f s done)
    (hstop : (f (told f s done) i).2 = false) (rest : List Nat) :
    handOver f s (done ++ i :: rest) = (told f s (done ++ [i]), false) := by
  have hcall : f (told f s done) i = ((f (told f s done) i).1, false) := Prod.ext rfl hstop
  rw [handOver_append, handOver_of_goesOn h]
  simp only [handOver]
  rw [hcall]
  simp [told]

/-- `f` with a record of the numbers it has got. -/
def recording (f : σ → Nat → σ × Bool) (s : σ × List Nat) (i : Nat) : (σ × List Nat) × Bool :=
  (((f s.1 i).1, s.2 ++ [i]), (f s.1 i).2)

theorem told_recording (s : σ) (seen numbers : List Nat) :
    told (recording f) (s, seen) numbers = (told f s numbers, seen ++ numbers) := by
  induction numbers generalizing s seen with
  | nil => simp [told]
  | cons i rest ih =>
      have hnext := ih (f s i).1 (seen ++ [i])
      rw [List.append_assoc, List.singleton_append] at hnext
      exact hnext

theorem goesOn_recording {s : σ} {seen numbers : List Nat} (h : GoesOn f s numbers) :
    GoesOn (recording f) (s, seen) numbers := by
  induction numbers generalizing s seen with
  | nil => trivial
  | cons i rest ih => exact ⟨h.1, ih h.2⟩

theorem visit_recording_of_goesOn {b : Bitmap} {s : σ} (h : GoesOn f s b.toList) :
    b.visit (recording f) (s, []) = (told f s b.toList, b.toList) := by
  rw [visit_eq, handOver_of_goesOn (goesOn_recording h), told_recording, List.nil_append]

theorem visit_recording_of_declines {b : Bitmap} {s : σ} {done rest : List Nat} {i : Nat}
    (hlist : b.toList = done ++ i :: rest) (h : GoesOn f s done)
    (hstop : (f (told f s done) i).2 = false) :
    b.visit (recording f) (s, []) = (told f s (done ++ [i]), done ++ [i]) := by
  have hstop' : (recording f (told (recording f) (s, []) done) i).2 = false := by
    rw [told_recording]
    exact hstop
  rw [visit_eq, hlist, handOver_of_declines (goesOn_recording h) hstop', told_recording,
    List.nil_append]

end

/-! ## Requests -/

/-- What a bitmap can be asked for, with the type of the answer. -/
inductive Request : Type → Type 1 where
  | insert (i : Nat) : Request Unit
  | erase (i : Nat) : Request Unit
  | contains (i : Nat) : Request Bool
  | size : Request Nat
  | min : Request (Option Nat)
  | visit {σ : Type} (f : σ → Nat → σ × Bool) (s : σ) : Request σ

namespace Request

/-- The answer to a request, and the bitmap afterwards. -/
def serve {α : Type} (b : Bitmap) : Request α → α × Bitmap
  | .insert i => ((), b.insert i)
  | .erase i => ((), b.erase i)
  | .contains i => (b.contains i, b)
  | .size => (b.size, b)
  | .min => (b.min?, b)
  | .visit f s => (b.visit f s, b)

/-- What a request makes of a set of numbers. -/
def update {α : Type} (numbers : Finset Nat) : Request α → Finset Nat
  | .insert i => Insert.insert i numbers
  | .erase i => numbers.erase i
  | _ => numbers

/-- The bitmap after requests of any kinds, one after the other. -/
def after (requests : List (Sigma Request)) : Bitmap :=
  requests.foldl (fun b r => (r.2.serve b).2) {}

/-- The set to which the insertions and removals among requests lead. -/
def members (requests : List (Sigma Request)) : Finset Nat :=
  requests.foldl (fun numbers r => r.2.update numbers) ∅

theorem toList_serve {α : Type} (r : Request α) {b : Bitmap} {numbers : Finset Nat}
    (h : b.toList = numbers.sort) : (r.serve b).2.toList = (r.update numbers).sort := by
  have hcontains : ∀ j, b.contains j = true ↔ j ∈ numbers := by
    intro j
    rw [← mem_toList, h, Finset.mem_sort]
  have hsorted : ∀ {c : Bitmap} {next : Finset Nat}, (∀ j, c.contains j = true ↔ j ∈ next) →
      c.toList = next.sort := by
    intro c next hmem
    refine List.Pairwise.eq_of_mem_iff c.toList_pairwise next.sortedLT_sort.pairwise ?_
    intro j
    rw [mem_toList, hmem, Finset.mem_sort]
  cases r with
  | insert i =>
      refine hsorted fun j => ?_
      rw [serve, update, contains_insert, Bool.or_eq_true, hcontains, decide_eq_true_eq,
        Finset.mem_insert, or_comm, eq_comm]
  | erase i =>
      refine hsorted fun j => ?_
      rw [serve, update, contains_erase, Bool.and_eq_true, hcontains, Bool.not_eq_true',
        decide_eq_false_iff_not, Finset.mem_erase, and_comm, eq_comm]
  | _ => exact h

/-- The numbers of a bitmap are those of the set, in order, whatever has been asked. -/
theorem toList_after (requests : List (Sigma Request)) :
    (after requests).toList = (members requests).sort := by
  induction requests using List.reverseRecOn with
  | nil => simp [after, members, toList]
  | append_singleton requests r ih =>
      simp only [after, members, List.foldl_append, List.foldl_cons, List.foldl_nil]
      exact toList_serve r.2 ih

end Request

/-- After any requests, a bitmap answers as the set does to which the insertions and removals lead;
the other requests do not count.  A visitor gets the numbers of the set in increasing order: all of
them if it always goes on, and up to and including the one at which it first declines. -/
theorem answers_are_those_of_a_set (requests : List (Sigma Request)) :
    let b := Request.after requests
    let numbers := Request.members requests
    (∀ i, b.contains i = true ↔ i ∈ numbers) ∧
    b.size = numbers.card ∧
    (∀ i, b.min? = some i ↔ IsLeast (numbers : Set Nat) i) ∧
    (b.min? = none ↔ numbers = ∅) ∧
    ∀ {σ : Type} (f : σ → Nat → σ × Bool) (s : σ),
      (GoesOn f s numbers.sort →
        b.visit (recording f) (s, []) = (told f s numbers.sort, numbers.sort)) ∧
      ∀ done i rest, numbers.sort = done ++ i :: rest → GoesOn f s done →
        (f (told f s done) i).2 = false →
        b.visit (recording f) (s, []) = (told f s (done ++ [i]), done ++ [i]) := by
  intro b numbers
  have hlist : b.toList = numbers.sort := Request.toList_after requests
  have hcontains : ∀ i, b.contains i = true ↔ i ∈ numbers := by
    intro i
    rw [← mem_toList, hlist, Finset.mem_sort]
  refine ⟨hcontains, ?_, ?_, ?_, ?_⟩
  · rw [size_eq_length, hlist, Finset.length_sort]
  · intro i
    rw [min?_eq_some_iff]
    simp only [hcontains]
    rfl
  · rw [min?_eq_none_iff, Finset.eq_empty_iff_forall_notMem]
    refine forall_congr' fun i => ?_
    rw [← hcontains, Bool.not_eq_true]
  · intro σ f s
    rw [← hlist]
    refine ⟨visit_recording_of_goesOn, ?_⟩
    intro done i rest hsplit hgoesOn hstop
    exact visit_recording_of_declines hsplit hgoesOn hstop

end Gx.Bitmap
