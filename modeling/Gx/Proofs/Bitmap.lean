import Gx.Image.Bitmap
import Mathlib.Tactic

/-!
# Bitmaps as sets

A bitmap stands for the set of the numbers it contains.  Insertion and removal act on this set as
they should, also for numbers beyond the words of the row, and runs of numbers are inserted and
removed as a whole.
-/

namespace Gx.Bitmap

theorem hasBit_or_bit {w : UInt64} {j k : Nat} (hj : j < 64) :
    hasBit (w ||| bit j) k = (hasBit w k || decide (j = k)) := by
  rw [hasBit, UInt64.toNat_or, Nat.testBit_or, ← hasBit, ← hasBit, hasBit_bit hj]

theorem hasBit_zero (k : Nat) : hasBit 0 k = false := by
  simp [hasBit]

theorem word_grow (words : Array UInt64) (n k : Nat) :
    (grow words n).getD k 0 = words.getD k 0 := by
  simp only [grow, Array.getD_eq_getD_getElem?]
  by_cases hk : k < words.size
  · rw [Array.getElem?_append_left hk]
  · rw [Array.getElem?_append_right (by omega), Array.getElem?_replicate,
      Array.getElem?_eq_none (by omega)]
    split <;> rfl

theorem word_insert (b : Bitmap) (i k : Nat) :
    (b.insert i).word k =
      if k = i / 64 then b.word k ||| bit (i % 64) else b.word k := by
  have hsize : i / 64 < (grow b.words (i / 64 + 1)).size := by
    simp only [grow, Array.size_append, Array.size_replicate]
    omega
  have hgrow := word_grow b.words (i / 64 + 1) k
  simp only [Array.getD_eq_getD_getElem?] at hgrow
  simp only [insert, word, Array.getD_eq_getD_getElem?, Array.getElem?_modify]
  by_cases hk : k = i / 64
  · subst k
    rw [if_pos rfl, if_pos rfl, ← hgrow, Array.getElem?_eq_getElem hsize]
    rfl
  · rw [if_neg (Ne.symm hk), if_neg hk, hgrow]

theorem word_erase (b : Bitmap) (i k : Nat) :
    (b.erase i).word k =
      if k = i / 64 then b.word k &&& ~~~bit (i % 64) else b.word k := by
  simp only [erase, word, Array.getD_eq_getD_getElem?, Array.getElem?_modify]
  by_cases hk : k = i / 64
  · subst k
    rw [if_pos rfl, if_pos rfl]
    cases b.words[i / 64]? with
    | none => simp
    | some w => rfl
  · rw [if_neg (Ne.symm hk), if_neg hk]

@[simp]
theorem contains_empty (i : Nat) : ({} : Bitmap).contains i = false := by
  simp [contains, word, hasBit]

theorem contains_insert (b : Bitmap) (i j : Nat) :
    (b.insert i).contains j = (b.contains j || decide (i = j)) := by
  have hi : i % 64 < 64 := Nat.mod_lt _ (by decide)
  unfold contains
  rw [word_insert]
  by_cases hword : j / 64 = i / 64
  · have hbit : i % 64 = j % 64 ↔ i = j := by omega
    rw [if_pos hword, hasBit_or_bit hi, decide_eq_decide.mpr hbit]
  · have hne : i ≠ j := by
      intro heq
      exact hword (by rw [heq])
    rw [if_neg hword, decide_eq_false hne, Bool.or_false]

theorem contains_erase (b : Bitmap) (i j : Nat) :
    (b.erase i).contains j = (b.contains j && !decide (i = j)) := by
  have hi : i % 64 < 64 := Nat.mod_lt _ (by decide)
  have hj : j % 64 < 64 := Nat.mod_lt _ (by decide)
  unfold contains
  rw [word_erase]
  by_cases hword : j / 64 = i / 64
  · have hbit : i % 64 = j % 64 ↔ i = j := by omega
    rw [if_pos hword, hasBit_and_not_bit hi hj, decide_eq_decide.mpr hbit]
  · have hne : i ≠ j := by
      intro heq
      exact hword (by rw [heq])
    rw [if_neg hword, decide_eq_false hne, Bool.not_false, Bool.and_true]

/-- Inserting a run of numbers adds exactly the run. -/
theorem contains_insert_run (b : Bitmap) (start n j : Nat) :
    ((List.range' start n).foldl insert b).contains j = true ↔
      b.contains j = true ∨ start ≤ j ∧ j < start + n := by
  induction n generalizing start b with
  | zero =>
      simp only [List.range'_zero, List.foldl_nil]
      grind
  | succ n ih =>
      rw [List.range'_succ, List.foldl_cons, ih, contains_insert]
      simp only [Bool.or_eq_true, decide_eq_true_eq]
      grind

/-- Erasing a run of numbers removes exactly the run. -/
theorem contains_erase_run (b : Bitmap) (start n j : Nat) :
    ((List.range' start n).foldl erase b).contains j = true ↔
      b.contains j = true ∧ ¬(start ≤ j ∧ j < start + n) := by
  induction n generalizing start b with
  | zero =>
      simp only [List.range'_zero, List.foldl_nil]
      grind
  | succ n ih =>
      rw [List.range'_succ, List.foldl_cons, ih, contains_erase]
      simp only [Bool.and_eq_true, Bool.not_eq_true', decide_eq_false_iff_not]
      grind

theorem bitsOf_eq_nil_iff (w : UInt64) :
    bitsOf w = [] ↔ ∀ j < 64, hasBit w j = false := by
  simp [bitsOf, List.filter_eq_nil_iff]

/-- There is no least number exactly if there is no number at all. -/
theorem min?_eq_none_iff (b : Bitmap) :
    b.min? = none ↔ ∀ i, b.contains i = false := by
  have hwords : b.min? = none ↔
      ∀ k (h : k < b.words.size), bitsOf b.words[k] = [] := by
    simp only [min?, List.findSome?_eq_none_iff, Option.map_eq_none_iff,
      List.head?_eq_none_iff, Prod.forall, List.mem_zipIdx_iff_getElem?, Array.getElem?_toList]
    constructor
    · intro hall k hk
      exact hall _ k (Array.getElem?_eq_getElem hk)
    · intro hall w k hw
      obtain ⟨hk, rfl⟩ := Array.getElem?_eq_some_iff.mp hw
      exact hall k hk
  rw [hwords]
  constructor
  · intro hall i
    unfold contains word
    rw [Array.getD_eq_getD_getElem?]
    by_cases hi : i / 64 < b.words.size
    · rw [Array.getElem?_eq_getElem hi]
      exact (bitsOf_eq_nil_iff _).mp (hall _ hi) _ (Nat.mod_lt _ (by decide))
    · rw [Array.getElem?_eq_none (by omega)]
      exact hasBit_zero _
  · intro hall k hk
    rw [bitsOf_eq_nil_iff]
    intro j hj
    have hnone := hall (64 * k + j)
    have hdiv : (64 * k + j) / 64 = k := by omega
    have hmod : (64 * k + j) % 64 = j := by omega
    unfold contains word at hnone
    rw [hdiv, hmod, Array.getD_eq_getD_getElem?, Array.getElem?_eq_getElem hk] at hnone
    exact hnone

/-! ## The length of the row -/

theorem size_words_insert (b : Bitmap) (i : Nat) :
    (b.insert i).words.size = b.words.size + (i / 64 + 1 - b.words.size) := by
  simp [insert, grow]

theorem size_words_erase (b : Bitmap) (i : Nat) : (b.erase i).words.size = b.words.size := by
  simp [erase]

theorem size_words_insert_run {a b : Bitmap} (h : a.words.size = b.words.size)
    (numbers : List Nat) :
    (numbers.foldl insert a).words.size = (numbers.foldl insert b).words.size := by
  induction numbers generalizing a b with
  | nil => exact h
  | cons i rest ih => exact ih (by rw [size_words_insert, size_words_insert, h])

theorem size_words_erase_run (b : Bitmap) (numbers : List Nat) :
    (numbers.foldl erase b).words.size = b.words.size := by
  induction numbers generalizing b with
  | nil => rfl
  | cons i rest ih => exact (ih _).trans (b.size_words_erase i)

/-- A bitmap is determined by its numbers and the length of its row. -/
theorem ext_contains {a b : Bitmap} (hsize : a.words.size = b.words.size)
    (hcontains : ∀ i, a.contains i = b.contains i) : a = b := by
  obtain ⟨v⟩ := a
  obtain ⟨w⟩ := b
  congr 1
  refine Array.ext hsize fun k hv hw => eq_of_hasBit fun j hj => ?_
  have hsame := hcontains (64 * k + j)
  have hdiv : (64 * k + j) / 64 = k := by omega
  have hmod : (64 * k + j) % 64 = j := by omega
  unfold contains word at hsame
  simpa [hdiv, hmod, hv, hw] using hsame

end Gx.Bitmap
