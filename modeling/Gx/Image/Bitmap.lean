/-!
# Sets of positions

A set of natural numbers kept as a row of 64-bit words. Number `i` is bit `i % 64` of word
`i / 64`, and words beyond the row count as zero.
-/

namespace Gx

/-- A set of natural numbers. -/
structure Bitmap where
  words : Array UInt64 := #[]
  deriving DecidableEq

namespace Bitmap

/-- The word in which only bit `j` is set. -/
def bit (j : Nat) : UInt64 := 1 <<< UInt64.ofNat j

def hasBit (w : UInt64) (j : Nat) : Bool := w.toNat.testBit j

/-- The bits of a word that are set, lowest first. -/
def bitsOf (w : UInt64) : List Nat := (List.range 64).filter (hasBit w)

def word (b : Bitmap) (k : Nat) : UInt64 := b.words.getD k 0

def contains (b : Bitmap) (i : Nat) : Bool := hasBit (b.word (i / 64)) (i % 64)

/-- Adds zero words until the row has at least `n`. -/
def grow (words : Array UInt64) (n : Nat) : Array UInt64 :=
  words ++ Array.replicate (n - words.size) 0

def insert (b : Bitmap) (i : Nat) : Bitmap :=
  ⟨(grow b.words (i / 64 + 1)).modify (i / 64) (· ||| bit (i % 64))⟩

def erase (b : Bitmap) (i : Nat) : Bitmap :=
  ⟨b.words.modify (i / 64) (· &&& ~~~bit (i % 64))⟩

def size (b : Bitmap) : Nat :=
  b.words.foldl (fun n w => n + (bitsOf w).length) 0

/-- The least number of the set. -/
def min? (b : Bitmap) : Option Nat :=
  b.words.toList.zipIdx.findSome? fun (w, k) => (bitsOf w).head?.map (64 * k + ·)

/-- The numbers of the set in increasing order. -/
def toList (b : Bitmap) : List Nat :=
  b.words.toList.zipIdx.flatMap fun (w, k) => (bitsOf w).map (64 * k + ·)

/-! ## Visiting -/

/-- The lowest bit of a word that is set, or 64 if there is none. -/
def lowestBit (w : UInt64) : Nat := ((List.range 64).find? (hasBit w)).getD 64

theorem hasBit_bit {j k : Nat} (hj : j < 64) : hasBit (bit j) k = decide (j = k) := by
  have hpow : 2 ^ j < 2 ^ 64 := Nat.pow_lt_pow_right (by decide) hj
  have hmod : j % 2 ^ 64 % 64 = j := by omega
  have hnat : (bit j).toNat = 2 ^ j := by
    simp only [bit, UInt64.toNat_shiftLeft, UInt64.toNat_ofNat', UInt64.toNat_one, hmod,
      Nat.shiftLeft_eq, Nat.one_mul]
    exact Nat.mod_eq_of_lt hpow
  rw [hasBit, hnat, Nat.testBit_two_pow]

theorem hasBit_and_not_bit {w : UInt64} {j k : Nat} (hj : j < 64) (hk : k < 64) :
    hasBit (w &&& ~~~bit j) k = (hasBit w k && !decide (j = k)) := by
  have hnot : (~~~bit j).toNat.testBit k = !hasBit (bit j) k := by
    simp only [hasBit, ← UInt64.toNat_toBitVec, UInt64.toBitVec_not, BitVec.testBit_toNat,
      BitVec.getLsbD_not, hk, decide_true, Bool.true_and]
  rw [hasBit, UInt64.toNat_and, Nat.testBit_and, hnot, hasBit_bit hj, hasBit]

theorem eq_of_hasBit {v w : UInt64} (h : ∀ j < 64, hasBit v j = hasBit w j) : v = w := by
  apply UInt64.toNat_inj.mp
  apply Nat.eq_of_testBit_eq
  intro j
  by_cases hj : j < 64
  · exact h j hj
  · have hbeyond : ∀ x : UInt64, x.toNat.testBit j = false := fun x =>
      Nat.testBit_lt_two_pow
        (Nat.lt_of_lt_of_le x.toNat_lt (Nat.pow_le_pow_right (by decide) (by omega)))
    rw [hbeyond, hbeyond]

/-- The lowest bit of a word other than zero is set, and no bit below it is. -/
theorem lowestBit_of_ne_zero {w : UInt64} (hw : w ≠ 0) :
    lowestBit w < 64 ∧ hasBit w (lowestBit w) = true ∧
      ∀ k < lowestBit w, hasBit w k = false := by
  cases hfind : (List.range 64).find? (hasBit w) with
  | none =>
      rw [List.find?_range_eq_none] at hfind
      refine absurd (eq_of_hasBit fun j hj => ?_) hw
      simpa [hasBit] using hfind j hj
  | some j =>
      have hlowest : lowestBit w = j := by rw [lowestBit, hfind, Option.getD_some]
      obtain ⟨hset, hlt, hbelow⟩ := List.find?_range_eq_some.mp hfind
      rw [hlowest]
      exact ⟨List.mem_range.mp hlt, hset, fun k hk => by simpa using hbelow k hk⟩

/-- Clearing a bit that is set makes a word smaller. -/
theorem toNat_and_not_bit_lt {w : UInt64} {j : Nat} (hj : j < 64) (hset : hasBit w j = true) :
    (w &&& ~~~bit j).toNat < w.toNat := by
  have hle : (w &&& ~~~bit j).toNat ≤ w.toNat := by
    rw [UInt64.toNat_and]
    exact Nat.and_le_left
  refine Nat.lt_of_le_of_ne hle fun heq => ?_
  have hcleared := hasBit_and_not_bit (w := w) hj hj
  rw [hasBit, heq, ← hasBit, hset] at hcleared
  simp at hcleared

/-- Hands the bits of a word, counted from `base`, to `f`, lowest first. A bit is cleared when it is
handed over. Ends when no bit is left or `f` declines to go on, and says which. -/
def visitWord {σ : Type} (f : σ → Nat → σ × Bool) (base : Nat) (w : UInt64) (s : σ) :
    σ × Bool :=
  if w = 0 then (s, true)
  else
    match f s (base + lowestBit w) with
    | (s, true) => visitWord f base (w &&& ~~~bit (lowestBit w)) s
    | (s, false) => (s, false)
termination_by w.toNat
decreasing_by
  have hlowest := lowestBit_of_ne_zero ‹w ≠ 0›
  exact toNat_and_not_bit_lt hlowest.1 hlowest.2.1

/-- Visits words one after the other, the first of them as word `k` of the row. -/
def visitWords {σ : Type} (f : σ → Nat → σ × Bool) : Nat → List UInt64 → σ → σ
  | _, [], s => s
  | k, w :: rest, s =>
      match visitWord f (64 * k) w s with
      | (s, true) => visitWords f (k + 1) rest s
      | (s, false) => s

/-- Hands the numbers of the set to `f` in increasing order until it declines to go on. -/
def visit {σ : Type} (b : Bitmap) (f : σ → Nat → σ × Bool) (s : σ) : σ :=
  visitWords f 0 b.words.toList s

end Bitmap

end Gx
