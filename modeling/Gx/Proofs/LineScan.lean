import Gx.Proofs.Lines

/-!
# Lines in one scan

The lines of a text are found in two steps: first every CR LF becomes an LF, then every CR that is
left does, and the text is cut at the LFs.  The first step can bring a CR and an LF together that
were apart, as in CR CR LF, but then the LF stands for a pair of its own.  So the result is that of
one scan from left to right, which takes CR LF as one line end wherever it meets it.
-/

namespace Gx.Bytes

/-- Reads on behind `line`, the bytes since the last line end.  An LF that is met here has no CR in
front, since it would have been taken together with it. -/
def scanFrom (line : Bytes) : Bytes → List Bytes
  | [] => [line]
  | 0x0D :: 0x0A :: rest => line :: scanFrom [] rest
  | b :: rest =>
      if b = 0x0D ∨ b = 0x0A then line :: scanFrom [] rest else scanFrom (line ++ [b]) rest

/-- The lines of a text, by one scan. -/
def scan (text : Bytes) : List Bytes := scanFrom [] text

/-- Whether a line end starts at position `i`: a CR LF, a CR without an LF behind it, or an LF
without a CR in front. -/
def endsLine (text : Bytes) (i : Nat) : Bool :=
  decide (text[i]? = some 0x0D ∧ text[i + 1]? = some 0x0A ∨
    text[i]? = some 0x0D ∧ text[i + 1]? ≠ some 0x0A ∨
    text[i]? = some 0x0A ∧ (i = 0 ∨ text[i - 1]? ≠ some 0x0D))

/-! ## One step -/

/-- A line end is CR LF, a CR that no LF follows, or an LF. -/
theorem lines_crLf (rest : Bytes) : lines (0x0D :: 0x0A :: rest) = [] :: lines rest := by
  rw [lines, joinCrLf_cons, if_pos ⟨rfl, rfl⟩, joinCrLf_cons, if_neg (by simp), List.map_cons,
    List.splitOn_cons_eq_if_modifyHead]
  rfl

theorem lines_cons {b : UInt8} {rest : Bytes} (h : ¬(b = 0x0D ∧ rest.head? = some 0x0A)) :
    lines (b :: rest) =
      if b = 0x0D ∨ b = 0x0A then [] :: lines rest else (lines rest).modifyHead (b :: ·) := by
  rw [lines, joinCrLf_cons, if_neg h, List.map_cons, List.splitOn_cons_eq_if_modifyHead, ← lines]
  by_cases hcr : b = 0x0D
  · simp [hcr]
  · by_cases hlf : b = 0x0A
    · simp [hlf]
    · simp [hcr, hlf]

/-- The scan stands in front of a CR LF pair, or else its next byte is on its own. -/
theorem not_crLf {b : UInt8} {rest : Bytes}
    (h : ∀ tail, b = 0x0D → rest = 0x0A :: tail → False) :
    ¬(b = 0x0D ∧ rest.head? = some 0x0A) := by
  rintro ⟨hb, hhead⟩
  obtain ⟨tail, htail⟩ := List.head?_eq_some_iff.mp hhead
  exact h tail hb htail

theorem scanFrom_eq (line text : Bytes) :
    scanFrom line text = (lines text).modifyHead (line ++ ·) := by
  have hnil : ∀ ls : List Bytes, ls.modifyHead ([] ++ ·) = ls := fun ls =>
    congrFun List.modifyHead_id ls
  fun_induction scanFrom line text with
  | case1 line => simp [lines, joinCrLf]
  | case2 line rest ih =>
      rw [lines_crLf, ih, hnil, List.modifyHead_cons, List.append_nil]
  | case3 line b rest hpair hend ih =>
      rw [lines_cons (not_crLf hpair), if_pos hend, ih, hnil, List.modifyHead_cons, List.append_nil]
  | case4 line b rest hpair hother ih =>
      rw [lines_cons (not_crLf hpair), if_neg hother, ih, List.modifyHead_modifyHead]
      simp [Function.comp_def]

/-! ## Line ends -/

theorem endsLine_zero (b : UInt8) (rest : Bytes) :
    endsLine (b :: rest) 0 = decide (b = 0x0D ∨ b = 0x0A) := by
  by_cases hcr : b = 0x0D
  · simp [endsLine, hcr, em]
  · simp [endsLine, hcr]

theorem endsLine_succ {b : UInt8} {rest : Bytes} {i : Nat}
    (h : i = 0 → ¬(b = 0x0D ∧ rest.head? = some 0x0A)) :
    endsLine (b :: rest) (i + 1) = endsLine rest i := by
  cases i with
  | zero =>
      have hfront : rest[0]? = some 0x0A → b ≠ 0x0D := fun hlf hcr =>
        h rfl ⟨hcr, List.head?_eq_getElem?.trans hlf⟩
      by_cases hlf : rest[0]? = some 0x0A
      · simp [endsLine, hlf, hfront hlf]
      · simp [endsLine, hlf]
  | succ i => simp [endsLine]

/-- The number of line ends of a text. -/
def lineEnds (text : Bytes) : Nat :=
  (List.range text.length).countP (endsLine text)

theorem lineEnds_crLf (rest : Bytes) : lineEnds (0x0D :: 0x0A :: rest) = 1 + lineEnds rest := by
  have hlf : endsLine (0x0D :: 0x0A :: rest) 1 = false := by simp [endsLine]
  have hrest : (List.range rest.length).countP
      (endsLine (0x0D :: 0x0A :: rest) ∘ Nat.succ ∘ Nat.succ) = lineEnds rest := by
    refine List.countP_congr fun i _ => ?_
    change endsLine (0x0D :: 0x0A :: rest) (i + 1 + 1) = true ↔ _
    rw [endsLine_succ fun hi => absurd hi i.succ_ne_zero, endsLine_succ (by simp)]
  rw [lineEnds, List.length_cons, List.length_cons, List.range_succ_eq_map, List.range_succ_eq_map,
    List.countP_cons, List.countP_map, List.countP_cons, List.countP_map, Function.comp_assoc,
    hrest]
  simp [hlf, endsLine_zero, Nat.add_comm]

theorem lineEnds_cons {b : UInt8} {rest : Bytes} (h : ¬(b = 0x0D ∧ rest.head? = some 0x0A)) :
    lineEnds (b :: rest) = (if b = 0x0D ∨ b = 0x0A then 1 else 0) + lineEnds rest := by
  have hrest : (List.range rest.length).countP (endsLine (b :: rest) ∘ Nat.succ) =
      lineEnds rest :=
    List.countP_congr fun i _ => by rw [Function.comp, endsLine_succ fun _ => h]
  rw [lineEnds, List.length_cons, List.range_succ_eq_map, List.countP_cons, List.countP_map, hrest,
    endsLine_zero, Nat.add_comm]
  simp

theorem length_scanFrom (line text : Bytes) :
    (scanFrom line text).length = 1 + lineEnds text := by
  fun_induction scanFrom line text with
  | case1 line => rfl
  | case2 line rest ih =>
      rw [lineEnds_crLf, List.length_cons, ih]
      omega
  | case3 line b rest hpair hend ih =>
      rw [lineEnds_cons (not_crLf hpair), if_pos hend, List.length_cons, ih]
      omega
  | case4 line b rest hpair hother ih =>
      rw [lineEnds_cons (not_crLf hpair), if_neg hother, ih]
      omega

/-! ## Two replacements -/

theorem replaceFrom_crLf (skip : Nat) (text : Bytes) :
    replaceFrom [0x0D, 0x0A] [0x0A] skip text = joinCrLf (text.drop skip) := by
  -- An exchanged pair leaves its LF to be skipped, so the induction is for any number to skip.
  induction text generalizing skip with
  | nil => cases skip <;> rfl
  | cons b rest ih =>
      cases skip with
      | succ skip => exact ih skip
      | zero =>
          have hpair : [0x0D, 0x0A].isPrefixOf (b :: rest) = true ↔
              b = 0x0D ∧ rest.head? = some 0x0A := by
            cases rest <;> simp [@eq_comm _ (0x0D : UInt8), @eq_comm _ (0x0A : UInt8)]
          rw [List.drop_zero, joinCrLf_cons, replaceFrom]
          by_cases h : b = 0x0D ∧ rest.head? = some 0x0A
          · obtain ⟨tail, rfl⟩ := List.head?_eq_some_iff.mp h.2
            rw [if_pos (hpair.mpr h), if_pos h, ih, joinCrLf_cons, if_neg (by simp)]
            rfl
          · rw [if_neg (mt hpair.mp h), if_neg h, ih, List.drop_zero]

theorem replaceFrom_cr (text : Bytes) :
    replaceFrom [0x0D] [0x0A] 0 text = text.map fun b => if b = 0x0D then 0x0A else b := by
  induction text with
  | nil => rfl
  | cons b rest ih =>
      rw [List.map_cons, ← ih, replaceFrom]
      by_cases h : b = 0x0D
      · simp [List.isPrefixOf, h]
      · simp [List.isPrefixOf, h, Ne.symm h]

/-- The lines as two replacements in the whole text give them. -/
theorem lines_eq_replaceAll (text : Bytes) :
    lines text = (replaceAll [0x0D] [0x0A] (replaceAll [0x0D, 0x0A] [0x0A] text)).splitOn 0x0A := by
  rw [replaceAll, replaceAll, replaceFrom_crLf, replaceFrom_cr, List.drop_zero, lines]

/-! ## Texts one after the other -/

theorem joinCrLf_append {a b : Bytes} (h : ¬(a.getLast? = some 0x0D ∧ b.head? = some 0x0A)) :
    joinCrLf (a ++ b) = joinCrLf a ++ joinCrLf b := by
  induction a with
  | nil => rfl
  | cons x rest ih =>
      rw [List.cons_append, joinCrLf_cons, joinCrLf_cons]
      cases rest with
      | nil =>
          have hx : ¬(x = 0x0D ∧ b.head? = some 0x0A) := by simpa using h
          rw [List.nil_append, if_neg hx, if_neg (by simp)]
          rfl
      | cons y rest =>
          rw [ih (by simpa using h), List.cons_append, List.head?_cons, List.head?_cons]
          by_cases hpair : x = 0x0D ∧ some y = some 0x0A
          · rw [if_pos hpair, if_pos hpair]
          · rw [if_neg hpair, if_neg hpair, List.cons_append]

theorem lines_append_lf {a : Bytes} (h : a.getLast? ≠ some 0x0D) (b : Bytes) :
    lines (a ++ 0x0A :: b) = lines a ++ lines b := by
  have hjoin : joinCrLf (a ++ 0x0A :: b) = joinCrLf a ++ 0x0A :: joinCrLf b := by
    rw [joinCrLf_append fun hpair => h hpair.1, joinCrLf_cons, if_neg (by simp)]
  rw [lines, hjoin, List.map_append, List.map_cons]
  exact List.splitOn_append_cons_self _ _

/-- The lines that two replacements give are those of one scan.  They have no line end inside of
them, there is one more of them than there are line ends, and an LF that no CR stands in front of
parts the lines before it from those behind. -/
theorem lines_are_those_of_one_scan (t : Bytes) :
    lines t = scan t ∧
      lines t = (replaceAll [0x0D] [0x0A] (replaceAll [0x0D, 0x0A] [0x0A] t)).splitOn 0x0A ∧
      (∀ l ∈ lines t, 0x0D ∉ l ∧ 0x0A ∉ l) ∧
      (lines t).length = lineEnds t + 1 ∧
      ∀ a b : Bytes, a.getLast? ≠ some 0x0D → lines (a ++ 0x0A :: b) = lines a ++ lines b := by
  have hscan : scan t = lines t :=
    (scanFrom_eq [] t).trans (congrFun List.modifyHead_id _)
  refine ⟨hscan.symm, lines_eq_replaceAll t, fun l hl => ?_, ?_, fun a b ha => lines_append_lf ha b⟩
  · have hline := isLine_of_mem_lines hl
    exact ⟨fun hcr => (hline _ hcr).1 rfl, fun hlf => (hline _ hlf).2 rfl⟩
  · rw [← hscan, scan, length_scanFrom, Nat.add_comm]

theorem lines_around_lf :
    (utf8 "a\r\r\nb").getLast? ≠ some 0x0D ∧
      lines (utf8 "a\r\r\nb" ++ 0x0A :: utf8 "c\r") =
        [utf8 "a", [], utf8 "b"] ++ [utf8 "c", []] := by
  have hlast : (utf8 "a\r\r\nb").getLast? ≠ some 0x0D := by decide
  have hfront : lines (utf8 "a\r\r\nb") = [utf8 "a", [], utf8 "b"] := by decide
  have hbehind : lines (utf8 "c\r") = [utf8 "c", []] := by decide
  obtain ⟨-, -, -, -, happend⟩ := lines_are_those_of_one_scan []
  rw [happend _ _ hlast, hfront, hbehind]
  exact ⟨hlast, rfl⟩

end Gx.Bytes
