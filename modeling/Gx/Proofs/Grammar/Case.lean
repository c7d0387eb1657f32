import Gx.Proofs.Grammar.Reading

/-!
# Words in any case

Keywords are compared by the case folding of Unicode, and mnemonics by their lower case.  A keyword
is compared with as many bytes as it has.  A character outside ASCII takes more than one byte, so
it would leave the text with too few characters: only the case of ASCII letters is free.
-/

namespace Gx

namespace Bytes

theorem length_pieces_le (t : Bytes) : (pieces t).length ≤ t.length := by
  induction hn : t.length using Nat.strong_induction_on generalizing t with
  | _ n ih =>
      cases t with
      | nil => simp [pieces, piecesFrom]
      | cons lead rest =>
          have hrest := ih (rest.drop (Piece.first lead rest).2).length
            (by simp only [List.length_drop, List.length_cons] at hn ⊢; omega) _ rfl
          rw [pieces_cons, List.length_cons]
          simp only [List.length_drop, List.length_cons] at hn hrest
          omega

end Bytes

/-- A byte outside ASCII is stray, or starts a character of several bytes. -/
theorem Piece.first_not_ascii {lead : UInt8} (h : ¬lead < 0x80) (rest : Bytes) :
    Piece.first lead rest = (.stray lead, 0) ∨
      (0 < (Piece.first lead rest).2 ∧ (Piece.first lead rest).2 ≤ rest.length) := by
  have hcount : ∀ n, tailCount lead = some n → 0 < n := by
    intro n hn
    unfold tailCount at hn
    rw [if_neg h] at hn
    split at hn
    · contradiction
    · split at hn
      · simp only [Option.some.injEq] at hn
        omega
      · split at hn
        · simp only [Option.some.injEq] at hn
          omega
        · split at hn
          · simp only [Option.some.injEq] at hn
            omega
          · contradiction
  unfold first
  split
  next => exact Or.inl rfl
  next n hn =>
    dsimp only
    split
    next hfit =>
      refine Or.inr ⟨hcount n hn, ?_⟩
      have hlength := hfit.1
      simp only [List.length_take] at hlength
      simp only
      omega
    next => exact Or.inl rfl

def isLowerLetter (b : UInt8) : Bool := ascii 'a' ≤ b && b ≤ ascii 'z'

/-- What folding and lower case do to single bytes, found by evaluation. -/
theorem byte_cases : ∀ b : UInt8,
    (isLowerLetter b = true → b < 0x80 ∧ lowerByte b = b) ∧
    (b < 0x80 → foldCase (Char.ofNat b.toNat).toNat = (lowerByte b).toNat ∧
      String.utf8EncodeChar (Instruction.lowerChar (Char.ofNat b.toNat)) = [lowerByte b]) ∧
    (isLowerLetter (lowerByte b) = true → b < 0x80 ∧ isNameStart b = true) ∧
    (lowerByte b = ascii 'h' → b = ascii 'h' ∨ b = ascii 'H') ∧
    (lowerByte b = ascii 'r' → b = ascii 'r' ∨ b = ascii 'R') :=
  forall_byte (by decide +kernel)

theorem foldCase_ascii {b : UInt8} (h : b < 0x80) :
    foldCase (Char.ofNat b.toNat).toNat = (lowerByte b).toNat :=
  ((byte_cases b).2.1 h).1

theorem isLowerLetter_ascii {b : UInt8} (h : isLowerLetter b = true) :
    b < 0x80 ∧ foldCase (Char.ofNat b.toNat).toNat = b.toNat := by
  obtain ⟨hascii, hlower⟩ := (byte_cases b).1 h
  rw [foldCase_ascii hascii, hlower]
  exact ⟨hascii, rfl⟩

theorem foldCase_stray : ¬foldCase 0xFFFD < 0x80 := by decide +kernel

theorem lowerByte_ascii {b : UInt8} (h : isLowerLetter (lowerByte b) = true) :
    b < 0x80 ∧ isNameStart b = true :=
  (byte_cases b).2.2.1 h

/-- A text of the same length is equal to a lower case word up to case if and only if its lower
case is the word. -/
theorem equalFold_iff {u w : Bytes} (hw : w.all isLowerLetter = true)
    (hlength : u.length = w.length) :
    Bytes.equalFold u w = true ↔ u.map lowerByte = w := by
  have hascii : ∀ b ∈ w, b < 0x80 :=
    fun b hb => (isLowerLetter_ascii (List.all_eq_true.mp hw b hb)).1
  have hfold : (Bytes.pieces w).map (foldCase ·.codePoint) = w.map UInt8.toNat := by
    rw [pieces_ascii hascii, List.map_map]
    apply List.map_congr_left
    intro b hb
    exact (isLowerLetter_ascii (List.all_eq_true.mp hw b hb)).2
  unfold Bytes.equalFold
  rw [beq_iff_eq, hfold]
  clear hfold
  induction u generalizing w with
  | nil =>
      obtain rfl := List.length_eq_zero_iff.mp hlength.symm
      simp [Bytes.pieces, Bytes.piecesFrom]
  | cons lead rest ih =>
      obtain ⟨b, w, rfl⟩ := List.exists_cons_of_length_eq_add_one hlength.symm
      simp only [List.all_cons, Bool.and_eq_true] at hw
      simp only [List.length_cons, Nat.add_right_cancel_iff] at hlength
      have hb := (isLowerLetter_ascii hw.1).1
      rw [Bytes.pieces_cons]
      simp only [List.map_cons, List.cons.injEq]
      by_cases hlead : lead < 0x80
      · rw [Piece.first_ascii hlead]
        simp only [List.drop_zero, Piece.codePoint, foldCase_ascii hlead, UInt8.toNat_inj]
        exact and_congr_right fun _ =>
          ih hw.2 hlength fun b hb => hascii b (List.mem_cons_of_mem _ hb)
      · have hnot : ¬lowerByte lead = b := by
          intro heq
          exact hlead (lowerByte_ascii (heq ▸ hw.1)).1
        refine iff_of_false ?_ fun h => hnot h.1
        rintro ⟨hhead, htail⟩
        rcases Piece.first_not_ascii hlead rest with hstray | ⟨hpos, hle⟩
        · rw [hstray] at hhead
          apply foldCase_stray
          rw [show foldCase 0xFFFD = b.toNat from hhead]
          exact hb
        · have hcount := Bytes.length_pieces_le (rest.drop (Piece.first lead rest).2)
          have htotal := congrArg List.length htail
          simp only [List.length_map, List.length_drop] at hcount htotal
          omega

/-- The lower case of an ASCII name. -/
theorem lowerName_ascii {n : Bytes} (h : ∀ b ∈ n, b < 0x80) :
    Instruction.lowerName n = n.map lowerByte := by
  unfold Instruction.lowerName
  rw [pieces_ascii h, List.flatMap_map]
  induction n with
  | nil => rfl
  | cons b n ih =>
      rw [List.flatMap_cons, List.map_cons, ih fun b hb => h b (List.mem_cons_of_mem _ hb)]
      simp only [((byte_cases b).2.1 (h b List.mem_cons_self)).2]
      rfl

/-- Reading a name as a mnemonic amounts to finding its lower case in the table. -/
theorem find?_eq_some_iff {n : Bytes} (hn : isName n = true) {i : Instruction} :
    Instruction.find? n = some i ↔ i ∈ Instruction.table ∧ n.map lowerByte = i.name := by
  have hascii : ∀ b ∈ n, b < 0x80 := by
    intro b hb
    simp only [isName_eq, Bool.and_eq_true, List.all_eq_true] at hn
    exact isNameByte_ascii (hn.2 b hb)
  have hunique : ∀ i ∈ Instruction.table, ∀ j ∈ Instruction.table, i.name = j.name → i = j := by
    decide +kernel
  unfold Instruction.find?
  rw [lowerName_ascii hascii]
  constructor
  · intro hfind
    have hname := List.find?_some hfind
    exact ⟨List.mem_of_find?_eq_some hfind, (beq_iff_eq.mp hname).symm⟩
  · rintro ⟨hi, hname⟩
    cases hfind : Instruction.table.find? (·.name == n.map lowerByte) with
    | none =>
        have hnone := List.find?_eq_none.mp hfind i hi
        simp [hname] at hnone
    | some j =>
        have hj := List.find?_some hfind
        rw [hunique i hi j (List.mem_of_find?_eq_some hfind)
          (hname.symm.trans (beq_iff_eq.mp hj).symm)]

end Gx
