import Gx.Text.Lines
import Mathlib.Tactic

/-!
# Lines of a text

A text that is cut at some bytes has none of them left in its parts.  So the lines of a text have
no line end inside of them, and lines like these, written one below the other, are read back as
they are.  So are lines that LF ends, whatever follows them, and words with a separator in front of
each of them.
-/

namespace Gx

namespace Bytes

/-- A text without CR and LF. -/
def IsLine (t : Bytes) : Prop := ∀ b ∈ t, b ≠ 0x0D ∧ b ≠ 0x0A

instance (t : Bytes) : Decidable t.IsLine := List.decidableBAll _ t

theorem IsLine.of_subset {t u : Bytes} (h : t.IsLine) (hsub : u ⊆ t) : u.IsLine :=
  fun b hb => h b (hsub hb)

theorem mem_of_mem_splitOnP {α : Type} {p : α → Bool} {xs part : List α}
    (hpart : part ∈ xs.splitOnP p) : ∀ x ∈ part, x ∈ xs ∧ p x = false := by
  induction xs generalizing part with
  | nil =>
      rw [List.splitOnP_nil, List.mem_singleton] at hpart
      simp [hpart]
  | cons y ys ih =>
      have hrest : ∀ part ∈ ys.splitOnP p, ∀ x ∈ part, x ∈ y :: ys ∧ p x = false :=
        fun part hpart x hx => ⟨List.mem_cons_of_mem _ (ih hpart x hx).1, (ih hpart x hx).2⟩
      rw [List.splitOnP_cons_eq_if_modifyHead] at hpart
      split at hpart
      next =>
        rcases List.mem_cons.mp hpart with rfl | hpart
        · simp
        · exact hrest part hpart
      next hy =>
        cases hsplit : ys.splitOnP p with
        | nil => exact absurd hsplit (List.splitOnP_ne_nil p ys)
        | cons first others =>
            rw [hsplit] at hpart hrest
            rcases List.mem_cons.mp hpart with rfl | hpart
            · refine List.forall_mem_cons.mpr ⟨⟨List.mem_cons_self, ?_⟩, ?_⟩
              · exact Bool.eq_false_iff.mpr hy
              · exact hrest first List.mem_cons_self
            · exact hrest part (List.mem_cons_of_mem _ hpart)

theorem isLine_of_mem_lines {text l : Bytes} (hl : l ∈ lines text) : l.IsLine := by
  intro b hb
  obtain ⟨hmem, hne⟩ := mem_of_mem_splitOnP hl b hb
  refine ⟨?_, by simpa using hne⟩
  rintro rfl
  obtain ⟨c, _, hc⟩ := List.mem_map.mp hmem
  split at hc
  · contradiction
  · contradiction

theorem lines_ne_nil (text : Bytes) : lines text ≠ [] :=
  List.splitOn_ne_nil _ _

theorem joinCrLf_cons (b : UInt8) (rest : Bytes) :
    joinCrLf (b :: rest) =
      if b = 0x0D ∧ rest.head? = some 0x0A then joinCrLf rest else b :: joinCrLf rest := by
  have hnext : ∀ t : Bytes, (t.foldr consUnlessCrLf ([], none)).2 = t.head? := by
    intro t
    cases t <;> rfl
  rw [joinCrLf, List.foldr_cons, consUnlessCrLf, hnext]
  rfl

theorem joinCrLf_of_isLine {t : Bytes} (h : ∀ b ∈ t, b ≠ 0x0D) : joinCrLf t = t := by
  induction t with
  | nil => rfl
  | cons b rest ih =>
      rw [List.forall_mem_cons] at h
      rw [joinCrLf_cons, if_neg fun hpair => h.1 hpair.1, ih h.2]

theorem mem_join {sep : Bytes} {parts : List Bytes} {b : UInt8} (hb : b ∈ join sep parts) :
    b ∈ sep ∨ ∃ part ∈ parts, b ∈ part := by
  induction parts with
  | nil => simp [join] at hb
  | cons part rest ih =>
      cases rest with
      | nil =>
          rw [join, List.intercalate_singleton] at hb
          exact Or.inr ⟨part, List.mem_cons_self, hb⟩
      | cons next rest =>
          rw [join, List.intercalate_cons_cons] at hb
          simp only [List.mem_append] at hb
          rcases hb with (hfirst | hsep) | hrest
          · exact Or.inr ⟨part, List.mem_cons_self, hfirst⟩
          · exact Or.inl hsep
          · obtain hsep | ⟨other, hother, hmem⟩ := ih hrest
            · exact Or.inl hsep
            · exact Or.inr ⟨other, List.mem_cons_of_mem _ hother, hmem⟩

/-- Lines that are written one below the other are read back. -/
theorem lines_join {ls : List Bytes} (h : ∀ l ∈ ls, l.IsLine) (hne : ls ≠ []) :
    lines (join [0x0A] ls) = ls := by
  have hcr : ∀ b ∈ join [0x0A] ls, b ≠ 0x0D := by
    intro b hb
    rcases mem_join hb with hsep | ⟨l, hl, hmem⟩
    · rw [List.mem_singleton.mp hsep]
      decide
    · exact (h l hl b hmem).1
  have hmap : ((join [0x0A] ls).map fun b => if b = 0x0D then 0x0A else b) = join [0x0A] ls := by
    conv_rhs => rw [← List.map_id (join [0x0A] ls)]
    exact List.map_congr_left fun b hb => if_neg (hcr b hb)
  rw [lines, joinCrLf_of_isLine hcr, hmap, join]
  exact List.splitOn_intercalate _ (fun l hl hmem => (h l hl _ hmem).2 rfl) hne

/-! ## Lines that LF ends -/

/-- Lines one after the other, each of them ended by LF. -/
def ended (ls : List Bytes) : Bytes := ls.flatMap (· ++ [0x0A])

@[simp]
theorem ended_nil : ended [] = [] := rfl

@[simp]
theorem ended_cons (l : Bytes) (ls : List Bytes) : ended (l :: ls) = l ++ 0x0A :: ended ls := by
  simp [ended]

/-- Lines that LF ends are cut off whatever follows. -/
theorem splitOn_ended_append {ls : List Bytes} (h : ∀ l ∈ ls, 0x0A ∉ l) (rest : Bytes) :
    (ended ls ++ rest).splitOn 0x0A = ls ++ rest.splitOn 0x0A := by
  induction ls with
  | nil => rfl
  | cons l ls ih =>
      rw [List.forall_mem_cons] at h
      rw [ended_cons, List.append_assoc, List.cons_append,
        List.splitOn_append_cons_self_of_not_mem h.1, ih h.2, List.cons_append]

/-! ## Words of a line -/

theorem before_append_cons {stop : UInt8} {word : Bytes} (h : stop ∉ word) (rest : Bytes) :
    before stop (word ++ stop :: rest) = word := by
  have hword : ∀ b ∈ word, (b != stop) = true := by
    intro b hb
    rw [bne_iff_ne]
    rintro rfl
    exact h hb
  rw [before, List.takeWhile_append_of_pos hword, List.takeWhile_cons_of_neg (by simp),
    List.append_nil]

theorem splitOn_append_of_notMem {sep : UInt8} {word : Bytes} (h : sep ∉ word) (rest : Bytes) :
    (word ++ rest).splitOn sep = (rest.splitOn sep).modifyHead (word ++ ·) := by
  induction word with
  | nil => exact (congrFun List.modifyHead_id _).symm
  | cons b word ih =>
      rw [List.mem_cons, not_or] at h
      rw [List.cons_append, List.splitOn_cons_eq_if_modifyHead, if_neg (by simpa using Ne.symm h.1),
        ih h.2, List.modifyHead_modifyHead]
      rfl

/-- Words with a separator in front of each of them are read back. -/
theorem splitOn_flatMap_cons {sep : UInt8} {first : Bytes} {words : List Bytes}
    (hfirst : sep ∉ first) (hwords : ∀ word ∈ words, sep ∉ word) :
    (first ++ words.flatMap (sep :: ·)).splitOn sep = first :: words := by
  induction words generalizing first with
  | nil => rw [List.flatMap_nil, List.append_nil, List.splitOn_eq_singleton hfirst]
  | cons word words ih =>
      rw [List.forall_mem_cons] at hwords
      rw [List.flatMap_cons, List.cons_append, List.splitOn_append_cons_self_of_not_mem hfirst,
        ih hwords.1 hwords.2]

end Bytes

end Gx
