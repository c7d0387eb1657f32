import Gx.Proofs.Expansion
import Gx.Proofs.Failures
import Gx.Proofs.Lines

/-!
# Expanding twice

What expansion leaves is a list of lines: none of them has a line end inside of it, and none is a
directive.  The arguments of a directive are put into the lines that it stands for, so this takes a
look at how a line is cut into fields: a field has only bytes of its line, and those of characters
outside ASCII.  Lines like these, written one below the other, are read back as they are, and
expanding them changes nothing.
-/

namespace Gx

/-! ## Fields of a line -/

namespace Piece

theorem tailCount_cases {lead : UInt8} {n : Nat} (h : tailCount lead = some n) (hn : n ≠ 0) :
    (n = 1 ∧ 0xC2 ≤ lead.toNat ∧ lead.toNat < 0xE0) ∨
    (n = 2 ∧ 0xE0 ≤ lead.toNat ∧ lead.toNat < 0xF0) ∨
    (n = 3 ∧ 0xF0 ≤ lead.toNat ∧ lead.toNat < 0xF8) := by
  unfold tailCount at h
  simp only [UInt8.lt_iff_toNat_lt, UInt8.reduceToNat] at h
  grind

/-- Several bytes spell a character outside ASCII. -/
theorem le_spelled {lead : UInt8} {tails : Bytes} (hcount : tailCount lead = some tails.length)
    (hsome : tails ≠ []) (hfit : tailsFit lead tails = true) : 0x80 ≤ spelled lead tails := by
  cases tails with
  | nil => contradiction
  | cons second more =>
      obtain ⟨⟨hlow, hhigh⟩, _⟩ : ((secondRange lead).1 ≤ second ∧
          second ≤ (secondRange lead).2) ∧ _ := by
        simpa only [tailsFit, Bool.and_eq_true, decide_eq_true_eq] using hfit
      have hthree : lead.toNat = 0xE0 → 0xA0 ≤ second.toNat := by
        intro hlead
        obtain rfl : lead = 0xE0 := UInt8.toNat_inj.mp hlead
        exact hlow
      have hfour : lead.toNat = 0xF0 → 0x90 ≤ second.toNat := by
        intro hlead
        obtain rfl : lead = 0xF0 := UInt8.toNat_inj.mp hlead
        exact hlow
      have hle : second.toNat ≤ 0xBF := by
        have hgreatest : (secondRange lead).2 ≤ 0xBF := by
          unfold secondRange
          split_ifs <;> decide
        exact hhigh.trans hgreatest
      rcases tailCount_cases hcount (by simp) with ⟨hn, h⟩ | ⟨hn, h⟩ | ⟨hn, h⟩
      · obtain rfl : more = [] := by simpa using hn
        simp only [spelled, List.length_cons, List.length_nil, List.foldl_cons, List.foldl_nil]
        omega
      · obtain ⟨third, rfl⟩ := List.length_eq_one_iff.mp (Nat.succ.inj hn)
        simp only [spelled, List.length_cons, List.length_nil, List.foldl_cons, List.foldl_nil]
        omega
      · obtain ⟨third, fourth, rfl⟩ := List.length_eq_two.mp (Nat.succ.inj hn)
        simp only [spelled, List.length_cons, List.length_nil, List.foldl_cons, List.foldl_nil]
        omega

theorem le_of_mem_utf8EncodeChar {c : Char} (hc : 0x80 ≤ c.toNat) {b : UInt8}
    (hb : b ∈ String.utf8EncodeChar c) : 0x80 ≤ b := by
  have hval : 0x80 ≤ c.val.toNat := hc
  rw [UInt8.le_iff_toNat_le]
  unfold String.utf8EncodeChar at hb
  rw [if_neg (by omega)] at hb
  split at hb
  · simp only [List.mem_cons, List.not_mem_nil, or_false] at hb
    rcases hb with rfl | rfl <;> simp <;> omega
  · split at hb
    · simp only [List.mem_cons, List.not_mem_nil, or_false] at hb
      rcases hb with rfl | rfl | rfl <;> simp <;> omega
    · simp only [List.mem_cons, List.not_mem_nil, or_false] at hb
      rcases hb with rfl | rfl | rfl | rfl <;> simp <;> omega

theorem toNat_ofNat_or (n : Nat) : (Char.ofNat n).toNat = n ∨ Char.ofNat n = Char.ofNat 0 := by
  by_cases hvalid : n.isValidChar
  · left
    rw [Char.ofNat, dif_pos hvalid]
    rfl
  · right
    rw [Char.ofNat, dif_neg hvalid]
    rfl

/-- A byte of a piece is the first one that it was read from, or it is outside ASCII, or zero. -/
theorem mem_bytes_first {lead : UInt8} {rest : Bytes} {b : UInt8}
    (hb : b ∈ (first lead rest).1.bytes) : b = lead ∨ b = 0 ∨ 0x80 ≤ b := by
  by_cases hascii : lead < 0x80
  · rw [first_ascii hascii, bytes, utf8EncodeChar_ascii hascii] at hb
    exact Or.inl (List.mem_singleton.mp hb)
  rcases first_not_ascii hascii rest with hstray | ⟨hpos, _⟩
  · rw [hstray] at hb
    exact Or.inl (List.mem_singleton.mp hb)
  · unfold first at hb hpos
    split at hb
    next hcount =>
      simp only [hcount] at hpos
      omega
    next n hcount =>
      simp only [hcount] at hpos hb
      split at hb
      next hfit =>
        rw [if_pos hfit] at hpos
        obtain ⟨hlength, htails⟩ := hfit
        have hsome : rest.take n ≠ [] := by
          rw [← List.length_pos_iff, hlength]
          exact hpos
        rw [← hlength] at hcount
        have hspelled := le_spelled hcount hsome htails
        right
        rcases toNat_ofNat_or (spelled lead (rest.take n)) with hchar | hzero
        · exact Or.inr (le_of_mem_utf8EncodeChar (by rwa [hchar]) hb)
        · rw [bytes, hzero] at hb
          exact Or.inl (List.mem_singleton.mp hb)
      next hfit =>
        rw [if_neg hfit] at hpos
        contradiction

end Piece

namespace Bytes

theorem isLine_of_mem_pieces {t : Bytes} (h : t.IsLine) {piece : Piece}
    (hpiece : piece ∈ pieces t) : piece.bytes.IsLine := by
  induction hn : t.length using Nat.strong_induction_on generalizing t with
  | _ n ih =>
      cases t with
      | nil => simp [pieces, piecesFrom] at hpiece
      | cons lead rest =>
          rw [pieces_cons] at hpiece
          rcases List.mem_cons.mp hpiece with rfl | hrest
          · intro b hb
            rcases Piece.mem_bytes_first hb with rfl | rfl | hge
            · exact h b List.mem_cons_self
            · decide
            · constructor <;> rintro rfl <;> exact absurd hge (by decide)
          · have hsub : rest.drop (Piece.first lead rest).2 ⊆ lead :: rest :=
              fun b hb => List.mem_cons_of_mem _ (List.mem_of_mem_drop hb)
            refine ih _ ?_ (h.of_subset hsub) hrest rfl
            simp only [List.length_drop, List.length_cons] at hn ⊢
            omega

theorem isLine_of_mem_fields {t field : Bytes} (h : t.IsLine) (hfield : field ∈ fields t) :
    field.IsLine := by
  obtain ⟨run, hrun, rfl⟩ := List.mem_map.mp hfield
  intro b hb
  obtain ⟨piece, hpiece, hb⟩ := List.mem_flatMap.mp hb
  have hmem := (mem_of_mem_splitOnP (List.mem_filter.mp hrun).1 piece hpiece).1
  exact isLine_of_mem_pieces h hmem b hb

end Bytes

theorem Line.isLine_arguments {text name : Bytes} {args : List Bytes} (h : text.IsLine)
    (hdirective : Line.directive? text = some (name, args)) : ∀ arg ∈ args, arg.IsLine := by
  have hbefore : (Bytes.before (ascii ';') text).IsLine :=
    h.of_subset (List.takeWhile_subset _)
  intro arg harg
  apply Bytes.isLine_of_mem_fields hbefore
  rw [directive?_eq_some_iff.mp hdirective]
  exact List.mem_cons_of_mem _ harg

/-! ## What directives stand for -/

/-- From arguments without line ends the directive makes lines, at least one. -/
def Directive.MakesLines (d : Directive) : Prop :=
  ∀ read line args expansion, (∀ arg ∈ args, Bytes.IsLine arg) →
    d.expand read line args = .ok expansion →
    expansion.sources ≠ [] ∧ ∀ source ∈ expansion.sources, source.text.IsLine

namespace Directive

theorem makesLines_ofArguments {arity : Int} {texts : List Bytes → List Bytes}
    (h : ∀ args, (∀ arg ∈ args, Bytes.IsLine arg) →
      texts args ≠ [] ∧ ∀ text ∈ texts args, text.IsLine) :
    (ofArguments arity texts).MakesLines := by
  intro read line args expansion hargs hexpand
  cases hexpand
  obtain ⟨hsome, hlines⟩ := h args hargs
  refine ⟨by simpa [Expansion.ofFile] using hsome, fun source hsource => ?_⟩
  obtain ⟨text, htext, rfl⟩ := List.mem_map.mp hsource
  exact hlines text htext

theorem makesLines_include : include_.MakesLines := by
  intro read line args expansion _ hexpand
  simp only [include_, includeFile] at hexpand
  split at hexpand
  next name text hread =>
    cases hexpand
    refine ⟨by simpa [Expansion.ofFile] using Bytes.lines_ne_nil text, fun source hsource => ?_⟩
    obtain ⟨l, hl, rfl⟩ := List.mem_map.mp hsource
    exact Bytes.isLine_of_mem_lines hl
  next => contradiction
  next => contradiction

theorem isLine_instructionLine {parts : List Bytes} (h : ∀ part ∈ parts, part.IsLine) :
    (instructionLine parts).IsLine := by
  have hspace : (utf8 " ").IsLine := by decide
  intro b hb
  rcases Bytes.mem_join hb with hsep | ⟨part, hpart, hmem⟩
  · exact hspace b hsep
  · exact h part hpart b hmem

theorem isLine_argument {args : List Bytes} (h : ∀ arg ∈ args, Bytes.IsLine arg) (index : Nat) :
    (argument args index).IsLine := by
  rw [argument, List.getD_eq_getElem?_getD]
  cases harg : args[index]? with
  | none => exact fun b hb => absurd hb List.not_mem_nil
  | some arg => exact h arg (List.mem_of_getElem? harg)

theorem isLine_scratch : scratch.IsLine := by decide

theorem makesLines_mov : mov.MakesLines := by
  refine makesLines_ofArguments fun args hargs => ⟨by simp, ?_⟩
  have hset : Bytes.IsLine (utf8 "set") := by decide
  have hadd : Bytes.IsLine (utf8 "add") := by decide
  have hzero : Bytes.IsLine (utf8 "0") := by decide
  have harg := isLine_argument hargs
  simp only [List.forall_mem_cons]
  exact ⟨isLine_instructionLine (by simp [hset, hzero, isLine_scratch]),
    isLine_instructionLine (by simp [hadd, harg, isLine_scratch]), by simp⟩

theorem makesLines_compareJump {comparison jump : Bytes} (hcomparison : comparison.IsLine)
    (hjump : jump.IsLine) : (compareJump comparison jump).MakesLines := by
  refine makesLines_ofArguments fun args hargs => ⟨by simp, ?_⟩
  have harg := isLine_argument hargs
  simp only [List.forall_mem_cons]
  exact ⟨isLine_instructionLine (by simp [hcomparison, harg, isLine_scratch]),
    isLine_instructionLine (by simp [hjump, harg, isLine_scratch]), by simp⟩

theorem makesLines_keyJump {jump : Bytes} (hjump : jump.IsLine) :
    (keyJump jump).MakesLines := by
  refine makesLines_ofArguments fun args hargs => ⟨by simp, ?_⟩
  have hset : Bytes.IsLine (utf8 "set") := by decide
  have hkey : Bytes.IsLine (utf8 "key") := by decide
  have harg := isLine_argument hargs
  simp only [List.forall_mem_cons]
  exact ⟨isLine_instructionLine (by simp [hset, harg, isLine_scratch]),
    isLine_instructionLine (by simp [hkey, isLine_scratch]),
    isLine_instructionLine (by simp [hjump, harg, isLine_scratch]), by simp⟩

theorem makesLines_standard : ∀ p ∈ standard, p.2.MakesLines := by
  have hcompare : ∀ {comparison jump : Bytes}, comparison.IsLine → jump.IsLine →
      (compareJump comparison jump).MakesLines := makesLines_compareJump
  simp only [standard, List.forall_mem_cons]
  exact ⟨makesLines_include, makesLines_keyJump (by decide), makesLines_keyJump (by decide),
    makesLines_mov, hcompare (by decide) (by decide), hcompare (by decide) (by decide),
    hcompare (by decide) (by decide), hcompare (by decide) (by decide),
    hcompare (by decide) (by decide), hcompare (by decide) (by decide), by simp⟩

end Directive

/-! ## What expansion leaves -/

namespace Expander

variable {e : Expander} {line : Line}

theorem apply_makesLines (htable : ∀ p ∈ e.directives, p.2.MakesLines) (hline : line.text.IsLine)
    {name : Bytes} {args : List Bytes} {expansion : Expansion}
    (hdirective : Line.directive? line.text = some (name, args))
    (happly : e.apply line name args = .ok expansion) :
    expansion.lines line.depth ≠ [] ∧ ∀ l ∈ expansion.lines line.depth, l.text.IsLine := by
  unfold apply at happly
  split at happly
  next => contradiction
  next directive hlookup =>
    split at happly
    next => contradiction
    next =>
      split at happly
      next =>
        obtain ⟨_, _, htableEq, _⟩ := List.lookup_eq_some_iff.mp hlookup
        have hmakes := htable (name, directive) (by simp [htableEq])
        obtain ⟨hsome, hlines⟩ := hmakes e.read line args expansion
          (Line.isLine_arguments hline hdirective) happly
        refine ⟨by simpa [Expansion.lines] using hsome, fun l hl => ?_⟩
        obtain ⟨source, hsource, rfl⟩ := List.mem_map.mp hl
        exact hlines source hsource
      next => contradiction

/-- A line that is left alone. -/
def Settled (l : Bytes) : Prop := Line.directive? l = none ∧ l.IsLine

theorem run_settled (htable : ∀ p ∈ e.directives, p.2.MakesLines) {work : List Line}
    {done lines : List Bytes} (hrun : e.run work done = .ok lines)
    (hwork : ∀ line ∈ work, line.text.IsLine) (hdone : ∀ l ∈ done, Settled l)
    (hsome : work ≠ [] ∨ done ≠ []) : lines ≠ [] ∧ ∀ l ∈ lines, Settled l := by
  fun_induction run e work done with
  | case1 done =>
      cases hrun
      refine ⟨by simpa using hsome, fun l hl => hdone l (List.mem_reverse.mp hl)⟩
  | case2 done line rest hplain ih =>
      rw [List.forall_mem_cons] at hwork
      exact ih hrun hwork.2 (List.forall_mem_cons.mpr ⟨⟨hplain, hwork.1⟩, hdone⟩)
        (Or.inr (by simp))
  | case3 done line rest name args hdirective cause hfailed => contradiction
  | case4 done line rest name args hdirective expansion happlied ih =>
      rw [List.forall_mem_cons] at hwork
      obtain ⟨hnew, hlines⟩ := apply_makesLines htable hwork.1 hdirective happlied
      exact ih hrun (List.forall_mem_append.mpr ⟨hlines, hwork.2⟩) hdone
        (Or.inl (by simp [hnew]))

theorem expand_settled (htable : ∀ p ∈ e.directives, p.2.MakesLines) {file text : Bytes}
    {lines : List Bytes} (hexpand : e.expand file text = .ok lines) :
    lines ≠ [] ∧ ∀ l ∈ lines, Settled l := by
  refine run_settled htable hexpand ?_ (by simp) (Or.inl (by simp [Bytes.lines_ne_nil]))
  intro line hline
  obtain ⟨l, hl, rfl⟩ := List.mem_map.mp hline
  exact Bytes.isLine_of_mem_lines hl

end Expander

/-- What expansion with the standard directives leaves has no directives and no line ends inside of
lines.  Written one line below the other, it expands to itself, whatever directives, files and names
are given, and it assembles to the same image or fails in the same way as the text. -/
theorem expand_again_eq_self {read : FileReader} {maxDepth : Int} {file text : Bytes}
    {lines : List Bytes}
    (hexpand : ({ read, maxDepth } : Expander).expand file text = .ok lines) :
    (∀ l ∈ lines, Line.directive? l = none ∧ 0x0D ∉ l ∧ 0x0A ∉ l) ∧
    (∀ (e : Expander) (name : Bytes), e.expand name (Bytes.join [0x0A] lines) = .ok lines) ∧
    (maxDepth = 0 → ∀ (files : FileReader) (name : Bytes),
      assemble files name (Bytes.join [0x0A] lines) = assemble read file text) := by
  obtain ⟨hsome, hsettled⟩ := Expander.expand_settled Directive.makesLines_standard hexpand
  have hlines : Bytes.lines (Bytes.join [0x0A] lines) = lines :=
    Bytes.lines_join (fun l hl => (hsettled l hl).2) hsome
  have hagain : ∀ (e : Expander) (name : Bytes),
      e.expand name (Bytes.join [0x0A] lines) = .ok lines := by
    intro e name
    have hplain : ∀ l ∈ Bytes.lines (Bytes.join [0x0A] lines), Line.directive? l = none := by
      rw [hlines]
      exact fun l hl => (hsettled l hl).1
    rw [Expander.expand_of_no_directive hplain, hlines]
  refine ⟨fun l hl => ?_, hagain, ?_⟩
  · obtain ⟨hplain, hline⟩ := hsettled l hl
    exact ⟨hplain, fun hcr => (hline _ hcr).1 rfl, fun hlf => (hline _ hlf).2 rfl⟩
  · rintro rfl files name
    simp only [assemble, hagain, hexpand]

/-- A file with all kinds of line ends is included, and a directive in it gets an argument with
bytes outside ASCII. -/
theorem expand_again_eq_self_of_include :
    let read : FileReader := fun _ => .ok (utf8 "a:\r\n.mov é %1\rjmp a\n")
    let text := utf8 ".include \"f\" ; twice"
    let lines := [utf8 "a:", utf8 "set %31 0", utf8 "add é %31 %1", utf8 "jmp a", []]
    ({ read } : Expander).expand [] text = .ok lines ∧
    (∀ l ∈ lines, Line.directive? l = none ∧ 0x0D ∉ l ∧ 0x0A ∉ l) ∧
    (∀ (e : Expander) (name : Bytes), e.expand name (Bytes.join [0x0A] lines) = .ok lines) ∧
    assemble (fun name => .error (.notFetched name)) [] (Bytes.join [0x0A] lines) =
      assemble read [] text := by
  intro read text lines
  have hexpand : ({ read } : Expander).expand [] text = .ok lines :=
    Expander.run_of_rounds 8 (by decide +kernel)
  obtain ⟨hlines, hagain, hassemble⟩ := expand_again_eq_self hexpand
  exact ⟨hexpand, hlines, hagain, hassemble rfl _ _⟩

end Gx
