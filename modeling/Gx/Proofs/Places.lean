import Gx.Proofs.Lines
import Mathlib.Data.List.DropRight

/-!
# Places identify positions

A position cuts a text in two.  What stands in front of it are lines that LF has ended and the
beginning of one more line; behind it the line goes on up to the next LF.  So the search backwards
finds where this line begins, the LFs in front of it number the lines before, and the search
forwards finds where it ends.  Line and column together lead back to the position.
-/

namespace Gx

namespace Bytes

/-- The position of the first byte of a line.  The first line has number one. -/
def lineStart (text : Bytes) (line : Nat) : Nat :=
  (((text.splitOn 0x0A).take (line - 1)).map (·.length + 1)).sum

/-! ## Both sides of a position -/

theorem exists_ended (text : Bytes) :
    ∃ ls tail, text = ended ls ++ tail ∧ (∀ l ∈ ls, 0x0A ∉ l) ∧ 0x0A ∉ tail := by
  induction text with
  | nil => exact ⟨[], [], rfl, by simp, by simp⟩
  | cons b rest ih =>
      obtain ⟨ls, tail, rfl, hls, htail⟩ := ih
      by_cases hb : b = 0x0A
      · exact ⟨[] :: ls, tail, by simp [hb], by simpa using hls, htail⟩
      · -- The byte belongs to the first line, whether that one has ended or not.
        cases ls with
        | nil => exact ⟨[], b :: tail, rfl, by simp, by simp [Ne.symm hb, htail]⟩
        | cons l ls =>
            rw [List.forall_mem_cons] at hls
            refine ⟨(b :: l) :: ls, tail, by simp, ?_, htail⟩
            rw [List.forall_mem_cons]
            exact ⟨by simp [Ne.symm hb, hls.1], hls.2⟩

/-- A text around the position behind `ended ls ++ tail`, in a line that goes on with `line`. -/
structure CutAt (text : Bytes) (ls : List Bytes) (tail line rest : Bytes) : Prop where
  text_eq : text = ended ls ++ tail ++ (line ++ rest)
  notMem_ls : ∀ l ∈ ls, 0x0A ∉ l
  notMem_tail : 0x0A ∉ tail
  notMem_line : 0x0A ∉ line
  rest_eq : rest = [] ∨ ∃ behind, rest = 0x0A :: behind

theorem exists_cutAt (text : Bytes) (pos : Nat) :
    ∃ ls tail line rest, CutAt text ls tail line rest ∧
      min pos text.length = (ended ls ++ tail).length := by
  obtain ⟨ls, tail, hfront, hls, htail⟩ := exists_ended (text.take pos)
  obtain ⟨others, last, hbehind, hothers, hlast⟩ := exists_ended (text.drop pos)
  have hlength : min pos text.length = (ended ls ++ tail).length := by
    rw [← hfront, List.length_take]
  have htext : text = ended ls ++ tail ++ text.drop pos := by
    rw [← hfront, List.take_append_drop]
  cases others with
  | nil =>
      refine ⟨ls, tail, last, [], ⟨?_, hls, htail, hlast, Or.inl rfl⟩, hlength⟩
      rwa [hbehind, ended_nil, List.nil_append, ← List.append_nil last] at htext
  | cons l others =>
      rw [List.forall_mem_cons] at hothers
      refine ⟨ls, tail, l, 0x0A :: (ended others ++ last),
        ⟨?_, hls, htail, hothers.1, Or.inr ⟨_, rfl⟩⟩, hlength⟩
      rwa [hbehind, ended_cons, List.append_assoc l, List.cons_append] at htext

theorem count_ended {ls : List Bytes} (h : ∀ l ∈ ls, 0x0A ∉ l) :
    (ended ls).count 0x0A = ls.length := by
  induction ls with
  | nil => rfl
  | cons l ls ih =>
      rw [List.forall_mem_cons] at h
      rw [ended_cons, List.count_append, List.count_cons_self, List.count_eq_zero.mpr h.1, ih h.2,
        Nat.zero_add, List.length_cons]

theorem length_ended (ls : List Bytes) : (ended ls).length = (ls.map (·.length + 1)).sum := by
  induction ls with
  | nil => rfl
  | cons l ls ih =>
      rw [ended_cons, List.length_append, List.length_cons, List.map_cons, List.sum_cons, ih]
      omega

theorem idxOf_reverse_ended (ls : List Bytes) : (ended ls).reverse.idxOf 0x0A = 0 := by
  rcases List.eq_nil_or_concat ls with rfl | ⟨front, l, rfl⟩
  · rfl
  · simp [ended]

namespace CutAt

variable {text : Bytes} {ls : List Bytes} {tail line rest : Bytes}

theorem splitOn_eq (h : CutAt text ls tail line rest) :
    ∃ others, text.splitOn 0x0A = ls ++ (tail ++ line) :: others := by
  have hmem : 0x0A ∉ tail ++ line := by simp [h.notMem_tail, h.notMem_line]
  rw [h.text_eq, List.append_assoc, splitOn_ended_append h.notMem_ls, ← List.append_assoc]
  rcases h.rest_eq with rfl | ⟨behind, rfl⟩
  · exact ⟨[], by rw [List.append_nil, List.splitOn_eq_singleton hmem]⟩
  · exact ⟨behind.splitOn 0x0A, by rw [List.splitOn_append_cons_self_of_not_mem hmem]⟩

theorem afterLast_eq (h : CutAt text ls tail line rest) :
    afterLast 0x0A (ended ls ++ tail) = (ended ls).length := by
  have hback : 0x0A ∉ tail.reverse := by simpa using h.notMem_tail
  rw [afterLast, List.reverse_append, List.idxOf_append_of_notMem hback,
    idxOf_reverse_ended, List.length_append, List.length_reverse]
  omega

theorem idxOf_eq (h : CutAt text ls tail line rest) : (line ++ rest).idxOf 0x0A = line.length := by
  rw [List.idxOf_append_of_notMem h.notMem_line]
  rcases h.rest_eq with rfl | ⟨behind, rfl⟩
  · rfl
  · rw [List.idxOf_cons_self, Nat.add_zero]

/-- What the three searches find. -/
theorem ofPos_eq (h : CutAt text ls tail line rest) {pos : Nat}
    (hpos : min pos text.length = (ended ls ++ tail).length) :
    Place.ofPos text pos =
      { pos := (ended ls ++ tail).length
        line := 1 + ls.length
        column := 1 + tail.length
        text := trimEnd (· == 0x0D) (tail ++ line) } := by
  have hfront : text.take (ended ls ++ tail).length = ended ls ++ tail := by
    rw [h.text_eq, List.take_left]
  have hbehind : text.drop (ended ls ++ tail).length = line ++ rest := by
    rw [h.text_eq, List.drop_left]
  have hlines : text.take (ended ls).length = ended ls := by
    rw [h.text_eq, List.append_assoc, List.take_left]
  have hline : (text.take ((ended ls ++ tail).length + line.length)).drop (ended ls).length =
      tail ++ line := by
    rw [← List.length_append, h.text_eq, ← List.append_assoc, List.take_left, List.append_assoc,
      List.drop_left]
  have hcolumn : 1 + (ended ls ++ tail).length - (ended ls).length = 1 + tail.length := by
    rw [List.length_append]
    omega
  simp only [Place.ofPos, hpos, hfront, hbehind, h.afterLast_eq, h.idxOf_eq, hlines, hline, hcolumn,
    count_ended h.notMem_ls]

theorem lineStart_eq (h : CutAt text ls tail line rest) :
    lineStart text (1 + ls.length) = (ended ls).length := by
  obtain ⟨others, hsplit⟩ := h.splitOn_eq
  rw [lineStart, hsplit, Nat.add_sub_cancel_left, List.take_left, length_ended]

end CutAt

/-- Trimming takes off all bytes of the kind at the end and no others. -/
theorem trimEnd_eq (b : UInt8) (text : Bytes) :
    ∃ n, text = trimEnd (· == b) text ++ List.replicate n b ∧
      (trimEnd (· == b) text).getLast? ≠ some b := by
  have hall : ∀ c ∈ text.rtakeWhile (· == b), c = b := by
    intro c hc
    simpa using List.mem_rtakeWhile_imp hc
  refine ⟨(text.rtakeWhile (· == b)).length, ?_, fun hlast => ?_⟩
  · rw [← List.eq_replicate_iff.mpr ⟨rfl, hall⟩]
    exact List.rdropWhile_append_rtakeWhile.symm
  · have hne : text.rdropWhile (· == b) ≠ [] := by
      intro hnil
      rw [trimEnd, ← List.rdropWhile, hnil] at hlast
      simp at hlast
    apply List.rdropWhile_last_not (· == b) text hne
    exact beq_iff_eq.mpr (Option.some.inj ((List.getLast?_eq_some_getLast hne).symm.trans hlast))

end Bytes

open Bytes

theorem Place.lineStart_add_column (text : Bytes) (pos : Nat) :
    lineStart text (ofPos text pos).line + ((ofPos text pos).column - 1) = min pos text.length := by
  obtain ⟨ls, tail, line, rest, hcut, hpos⟩ := exists_cutAt text pos
  rw [hcut.ofPos_eq hpos, hcut.lineStart_eq, Nat.add_sub_cancel_left, hpos, List.length_append]

/-- The place of a position names its line by the LFs in front of it and shows that line, and the
position is as far behind the first byte of the line as the column says.  So no other position of
the text has the same line and column. -/
theorem place_identifies_position (text : Bytes) (pos : Nat) :
    (Place.ofPos text pos).pos = min pos text.length ∧
      (Place.ofPos text pos).line = 1 + (text.take (Place.ofPos text pos).pos).count 0x0A ∧
      1 ≤ (Place.ofPos text pos).column ∧
      (∃ line n, (text.splitOn 0x0A)[(Place.ofPos text pos).line - 1]? = some line ∧
        line = (Place.ofPos text pos).text ++ List.replicate n 0x0D ∧
        (Place.ofPos text pos).text.getLast? ≠ some 0x0D) ∧
      lineStart text (Place.ofPos text pos).line + ((Place.ofPos text pos).column - 1) =
        (Place.ofPos text pos).pos ∧
      Set.InjOn (fun i => ((Place.ofPos text i).line, (Place.ofPos text i).column))
        {i | i ≤ text.length} := by
  obtain ⟨ls, tail, line, rest, hcut, hpos⟩ := exists_cutAt text pos
  have hplace := hcut.ofPos_eq hpos
  refine ⟨rfl, ?_, ?_, ?_, Place.lineStart_add_column text pos, ?_⟩
  · have hfront : text.take (ended ls ++ tail).length = ended ls ++ tail := by
      rw [hcut.text_eq, List.take_left]
    rw [hplace, hfront, List.count_append, count_ended hcut.notMem_ls,
      List.count_eq_zero.mpr hcut.notMem_tail, Nat.add_zero]
  · rw [hplace]
    exact Nat.le_add_right 1 _
  · obtain ⟨others, hsplit⟩ := hcut.splitOn_eq
    obtain ⟨n, htrim, hlast⟩ := trimEnd_eq 0x0D (tail ++ line)
    rw [hplace]
    refine ⟨tail ++ line, n, ?_, htrim, hlast⟩
    rw [hsplit, Nat.add_sub_cancel_left, List.getElem?_append_right le_rfl, Nat.sub_self,
      List.getElem?_cons_zero]
  · intro i hi j hj hsame
    obtain ⟨hline, hcolumn⟩ := Prod.mk.inj hsame
    have hback := Place.lineStart_add_column text i
    rw [hline, hcolumn, Place.lineStart_add_column text j, min_eq_left hj, min_eq_left hi] at hback
    exact hback.symm

end Gx
