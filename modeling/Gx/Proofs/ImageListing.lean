import Gx.Assembly.Listing
import Gx.Proofs.Image
import Gx.Proofs.Lines
import Gx.Proofs.WrittenNumbers

/-!
# The listing shows the image

A listing starts with the image: a line with its size, and rows of sixteen cells with one cell for
each byte.  The rows are written by one loop and the cells of a row by another, which both stop at
the end of the image; together they pass every position once and in order.  Cut at its spaces, a
row gives its cells back, and a cell gives its byte back unless the byte is pending.  So images that
are listed alike differ at most in the values of pending bytes, which mean nothing yet.
-/

namespace Gx

/-! ## Reading a listing -/

namespace Listing

/-- Whether a line belongs to the image part.  Below the rows stand the scopes, and below these, or
in their place, the references. -/
def isImageLine (line : Bytes) : Bool :=
  !(utf8 "scope").isPrefixOf line && !(utf8 "unresolved").isPrefixOf line

/-- The lines about the image: those up to the first one about a scope. -/
def imagePart (listing : Bytes) : List Bytes :=
  (listing.splitOn 0x0A).dropLast.takeWhile isImageLine

def label (row : Bytes) : Bytes := Bytes.before (ascii ':') row

def cells (row : Bytes) : List Bytes := (row.splitOn (ascii ' ')).tail

/-- What the lines of the image part say about an image. -/
structure Shows (lines : List Bytes) (img : Image) : Prop where
  header : ∃ n, lines.head? = some (utf8 "image: " ++ n ++ utf8 " bytes") ∧
    Spells 10 1 n img.size
  rows : lines.tail.length = (img.size + 15) / 16
  row : ∀ k row, lines.tail[k]? = some row →
    row = label row ++ utf8 ":" ++ (cells row).flatMap (ascii ' ' :: ·) ∧
      Spells 16 4 (label row) (16 * k) ∧ (cells row).length = min 16 (img.size - 16 * k)
  count : (lines.tail.flatMap cells).length = img.size
  cell : ∀ i cell b, (lines.tail.flatMap cells)[i]? = some cell →
    img.bytes[i]? = some b →
      (cell = utf8 "__" ↔ img.pending.contains i = true) ∧
      (img.pending.contains i = false → cell.length = 2 ∧ Spells 16 2 cell b.toNat)

end Listing

namespace Image

/-! ## The loops -/

/-- What a cell shows of a byte. -/
def cellText (img : Image) (i : Nat) : Bytes :=
  if img.pending.contains i then utf8 "__" else Text.hex 2 (img.bytes.getD i 0).toNat

/-- The cells of row `k`. -/
def rowCells (img : Image) (k : Nat) : List Bytes :=
  (List.range' (16 * k) (min 16 (img.size - 16 * k))).map img.cellText

/-- Row `k` without its end. -/
def rowText (img : Image) (k : Nat) : Bytes :=
  Text.hex 4 (16 * k) ++ utf8 ":" ++ (img.rowCells k).flatMap (ascii ' ' :: ·)

def header (img : Image) : Bytes :=
  utf8 "image: " ++ Text.decimal img.size ++ utf8 " bytes"

/-- The lines of the image part. -/
def listingLines (img : Image) : List Bytes :=
  img.header :: (List.range ((img.size + 15) / 16)).map img.rowText

theorem cell_eq (img : Image) (i : Nat) : img.cell i = ascii ' ' :: img.cellText i := by
  unfold cell cellText
  split <;> rfl

theorem cellsFrom_eq (img : Image) (i stop : Nat) :
    img.cellsFrom i stop =
      ((List.range' i (min stop img.size - i)).map img.cellText).flatMap (ascii ' ' :: ·) := by
  fun_induction cellsFrom img i stop with
  | case1 i hi ih =>
      have hcount : min stop img.size - i = min stop img.size - (i + 1) + 1 := by omega
      rw [ih, hcount, List.range'_succ, List.map_cons, List.flatMap_cons, cell_eq]
  | case2 i hi =>
      have hcount : min stop img.size - i = 0 := by omega
      rw [hcount]
      rfl

theorem cellsFrom_row (img : Image) (k : Nat) :
    img.cellsFrom (16 * k) (16 * k + 16) = (img.rowCells k).flatMap (ascii ' ' :: ·) := by
  have hcount : min (16 * k + 16) img.size - 16 * k = min 16 (img.size - 16 * k) := by omega
  rw [cellsFrom_eq, hcount, rowCells]

/-- The rows that are left, `m` of them. -/
theorem rowsFrom_eq (img : Image) (m k : Nat) (hm : (img.size + 15) / 16 = k + m) :
    img.rowsFrom (16 * k) = Bytes.ended ((List.range' k m).map img.rowText) := by
  induction m generalizing k with
  | zero =>
      rw [rowsFrom, if_neg (by omega)]
      rfl
  | succ m ih =>
      -- The next row begins sixteen positions further on.
      have hnext := ih (k + 1) (by omega)
      rw [Nat.mul_add, Nat.mul_one] at hnext
      rw [rowsFrom, if_pos (by omega), cellsFrom_row, hnext, List.range'_succ, List.map_cons,
        Bytes.ended_cons, rowText, List.append_assoc (_ ++ _)]
      rfl

theorem listing_eq (img : Image) : img.listing = Bytes.ended img.listingLines := by
  have hrows := rowsFrom_eq img ((img.size + 15) / 16) 0 (Nat.zero_add _).symm
  have hend : utf8 " bytes\n" = utf8 " bytes" ++ [0x0A] := by decide
  rw [Nat.mul_zero] at hrows
  rw [listing, hrows, listingLines, Bytes.ended_cons, List.range_eq_range', header, hend]
  simp only [List.append_assoc, List.cons_append, List.nil_append]

/-! ## Reading the lines -/

section

variable (img : Image)

theorem notMem_cellText {b : UInt8} (hdigit : b ∉ (utf8 "0123456789abcdef").take 16)
    (hmark : b ∉ utf8 "__") (i : Nat) : b ∉ img.cellText i := by
  unfold cellText
  split
  · exact hmark
  · exact (Spells.hex (by decide) _).notMem hdigit

theorem notMem_rowCells {b : UInt8} (hdigit : b ∉ (utf8 "0123456789abcdef").take 16)
    (hmark : b ∉ utf8 "__") (k : Nat) : ∀ cell ∈ img.rowCells k, b ∉ cell := by
  intro cell hcell
  obtain ⟨i, -, rfl⟩ := List.mem_map.mp hcell
  exact img.notMem_cellText hdigit hmark i

theorem lf_notMem_rowText (k : Nat) : 0x0A ∉ img.rowText k := by
  have hlabel : 0x0A ∉ Text.hex 4 (16 * k) := (Spells.hex (by decide) _).notMem (by decide)
  have hcells : 0x0A ∉ (img.rowCells k).flatMap (ascii ' ' :: ·) := by
    intro hmem
    obtain ⟨cell, hcell, hmem⟩ := List.mem_flatMap.mp hmem
    rcases List.mem_cons.mp hmem with hspace | hmem
    · exact absurd hspace (by decide)
    · exact img.notMem_rowCells (by decide) (by decide) k cell hcell hmem
  simp only [rowText, List.mem_append, not_or]
  exact ⟨⟨hlabel, by decide⟩, hcells⟩

theorem lf_notMem_header : 0x0A ∉ img.header := by
  have hsize : 0x0A ∉ Text.decimal img.size := (Spells.decimal img.size).notMem (by decide)
  simp only [header, List.mem_append, not_or]
  exact ⟨⟨by decide, hsize⟩, by decide⟩

theorem label_rowText (k : Nat) : Listing.label (img.rowText k) = Text.hex 4 (16 * k) := by
  rw [Listing.label, rowText, List.append_assoc]
  exact Bytes.before_append_cons ((Spells.hex (by decide) _).notMem (by decide)) _

theorem cells_rowText (k : Nat) : Listing.cells (img.rowText k) = img.rowCells k := by
  have hlabel : ascii ' ' ∉ Text.hex 4 (16 * k) ++ utf8 ":" := by
    rw [List.mem_append, not_or]
    exact ⟨(Spells.hex (by decide) _).notMem (by decide), by decide⟩
  rw [Listing.cells, rowText, Bytes.splitOn_flatMap_cons hlabel
    (img.notMem_rowCells (by decide) (by decide) k), List.tail_cons]

/-- Rows of sixteen positions, the last one cut off at the end, are all positions in a row. -/
theorem positions_of_rows (n m : Nat) :
    (List.range m).flatMap (fun k => List.range' (16 * k) (min 16 (n - 16 * k))) =
      List.range (min (16 * m) n) := by
  induction m with
  | zero => simp
  | succ m ih =>
      rw [List.range_succ, List.flatMap_append, ih, List.flatMap_singleton, List.range_eq_range',
        List.range_eq_range']
      rcases le_total (16 * m) n with hfull | hshort
      · rw [min_eq_left hfull]
        have hnext : min (16 * (m + 1)) n = 16 * m + min 16 (n - 16 * m) := by omega
        have happend := List.range'_append_1 (s := 0) (m := 16 * m) (n := min 16 (n - 16 * m))
        rwa [Nat.zero_add, ← hnext] at happend
      · have hnone : min 16 (n - 16 * m) = 0 := by omega
        have hnext : min (16 * (m + 1)) n = min (16 * m) n := by omega
        rw [hnone, hnext, List.range'_zero, List.append_nil]

theorem cells_listingLines :
    img.listingLines.tail.flatMap Listing.cells = (List.range img.size).map img.cellText := by
  have hrows : min (16 * ((img.size + 15) / 16)) img.size = img.size := by omega
  calc
    img.listingLines.tail.flatMap Listing.cells =
        (List.range ((img.size + 15) / 16)).flatMap img.rowCells := by
          rw [listingLines, List.tail_cons, List.flatMap_map]
          simp only [cells_rowText]
    _ = ((List.range ((img.size + 15) / 16)).flatMap fun k =>
          List.range' (16 * k) (min 16 (img.size - 16 * k))).map img.cellText := by
          rw [List.map_flatMap]
          rfl
    _ = (List.range img.size).map img.cellText := by
          rw [positions_of_rows, hrows]

end

end Image

namespace Listing

theorem isImageLine_cons {b : UInt8} {rest : Bytes} (hscope : b ≠ ascii 's')
    (hreferences : b ≠ ascii 'u') : isImageLine (b :: rest) = true := by
  have hfirst : ∀ (c : UInt8) (word : Bytes), b ≠ c →
      (c :: word).isPrefixOf (b :: rest) = false := by
    intro c word hne
    rw [List.isPrefixOf, beq_eq_false_iff_ne.mpr hne.symm, Bool.false_and]
  have hs : (utf8 "scope").isPrefixOf (b :: rest) = false := hfirst _ (utf8 "cope") hscope
  have hu : (utf8 "unresolved").isPrefixOf (b :: rest) = false :=
    hfirst _ (utf8 "nresolved") hreferences
  rw [isImageLine, hs, hu]
  rfl

theorem isImageLine_scope (line : Bytes) : isImageLine (utf8 "scope" ++ line) = false := by
  rw [isImageLine, List.isPrefixOf_iff_prefix.mpr (List.prefix_append _ _)]
  rfl

theorem isImageLine_references (line : Bytes) :
    isImageLine (utf8 "unresolved" ++ line) = false := by
  rw [isImageLine, List.isPrefixOf_iff_prefix.mpr (List.prefix_append (utf8 "unresolved") _)]
  exact Bool.and_false _

theorem isImageLine_listingLines (img : Image) :
    ∀ line ∈ img.listingLines, isImageLine line = true := by
  rw [Image.listingLines, List.forall_mem_cons]
  constructor
  · exact isImageLine_cons (by decide) (by decide)
  · intro line hline
    obtain ⟨k, -, rfl⟩ := List.mem_map.mp hline
    have hlabel : Spells 16 4 (Text.hex 4 (16 * k)) (16 * k) := Spells.hex (by decide) _
    obtain ⟨b, rest, hb⟩ : ∃ b rest, Text.hex 4 (16 * k) = b :: rest :=
      List.exists_cons_of_length_pos (lt_of_lt_of_le (by decide) hlabel.width_le)
    have hdigit := hlabel.digits b (by rw [hb]; exact List.mem_cons_self)
    rw [Image.rowText, hb]
    apply isImageLine_cons
    · rintro rfl
      exact absurd hdigit (by decide)
    · rintro rfl
      exact absurd hdigit (by decide)

theorem takeWhile_below {word : Bytes} (hlf : 0x0A ∉ word)
    (hword : ∀ line, isImageLine (word ++ line) = false) (rest : Bytes) :
    ((word ++ rest).splitOn 0x0A).dropLast.takeWhile isImageLine = [] := by
  rw [Bytes.splitOn_append_of_notMem hlf]
  rcases rest.splitOn 0x0A with _ | ⟨first, _ | ⟨second, others⟩⟩
  · rfl
  · rfl
  · rw [List.modifyHead_cons, List.dropLast_cons_cons, List.takeWhile_cons_of_neg]
    rw [hword]
    exact Bool.false_ne_true

/-- Below the rows stand the scopes, or the references if no scope is shown. -/
theorem exists_below_rows (s : Assembly) :
    ∃ rest, s.listing = Bytes.ended s.image.listingLines ++ rest ∧
      (rest.splitOn 0x0A).dropLast.takeWhile isImageLine = [] := by
  have hscope : utf8 "scope " = utf8 "scope" ++ utf8 " " := by decide
  have hreferences : utf8 "unresolved: " = utf8 "unresolved" ++ utf8 ": " := by decide
  rw [Assembly.listing, Image.listing_eq, List.append_assoc]
  refine ⟨_, rfl, ?_⟩
  cases s.shownScopes with
  | nil =>
      rw [List.zipIdx_nil, List.flatMap_nil, List.nil_append, Assembly.referenceListing]
      split
      · rfl
      · simp only [hreferences, List.append_assoc]
        exact takeWhile_below (by decide) isImageLine_references _
  | cons scope scopes =>
      simp only [List.zipIdx_cons, List.flatMap_cons, Scope.listing, hscope, List.append_assoc]
      exact takeWhile_below (by decide) isImageLine_scope _

theorem imagePart_listing (s : Assembly) : imagePart s.listing = s.image.listingLines := by
  have hlf : ∀ line ∈ s.image.listingLines, 0x0A ∉ line := by
    rw [Image.listingLines, List.forall_mem_cons]
    refine ⟨s.image.lf_notMem_header, fun line hline => ?_⟩
    obtain ⟨k, -, rfl⟩ := List.mem_map.mp hline
    exact s.image.lf_notMem_rowText k
  obtain ⟨rest, hlisting, hrest⟩ := exists_below_rows s
  rw [imagePart, hlisting, Bytes.splitOn_ended_append hlf,
    List.dropLast_append_of_ne_nil (List.splitOn_ne_nil _ _),
    List.takeWhile_append_of_pos (isImageLine_listingLines s.image), hrest, List.append_nil]

/-! ## What the lines say -/

theorem cellText_eq_mark_iff (img : Image) (i : Nat) :
    img.cellText i = utf8 "__" ↔ img.pending.contains i = true := by
  unfold Image.cellText
  split
  next hpending => simp [hpending]
  next hpending =>
    have hmark : ascii '_' ∉ Text.hex 2 (img.bytes.getD i 0).toNat :=
      (Spells.hex (by decide) _).notMem (by decide)
    simp only [hpending, Bool.false_eq_true, iff_false]
    intro heq
    rw [heq] at hmark
    exact absurd hmark (by decide)

theorem cellText_of_not_pending {img : Image} {i : Nat} {b : UInt8} (hb : img.bytes[i]? = some b)
    (hpending : img.pending.contains i = false) : img.cellText i = Text.hex 2 b.toNat := by
  rw [Image.cellText, if_neg (Bool.eq_false_iff.mp hpending), Array.getD_eq_getD_getElem?, hb,
    Option.getD_some]

theorem eq_of_getElem?_map_range {f : Nat → Bytes} {n i : Nat} {text : Bytes}
    (h : ((List.range n).map f)[i]? = some text) : text = f i := by
  obtain ⟨hi, rfl⟩ := List.getElem?_eq_some_iff.mp h
  rw [List.getElem_map, List.getElem_range]

theorem shows_listingLines (img : Image) : Shows img.listingLines img where
  header := ⟨Text.decimal img.size, rfl, Spells.decimal _⟩
  rows := by rw [Image.listingLines, List.tail_cons, List.length_map, List.length_range]
  row := by
    intro k row hrow
    obtain rfl := eq_of_getElem?_map_range hrow
    rw [img.label_rowText, img.cells_rowText]
    refine ⟨rfl, Spells.hex (by decide) _, ?_⟩
    rw [Image.rowCells, List.length_map, List.length_range']
  count := by rw [img.cells_listingLines, List.length_map, List.length_range]
  cell := by
    intro i cell b hcell hb
    rw [img.cells_listingLines] at hcell
    obtain rfl := eq_of_getElem?_map_range hcell
    refine ⟨cellText_eq_mark_iff img i, fun hpending => ?_⟩
    rw [cellText_of_not_pending hb hpending]
    exact ⟨Text.length_hex_two b, Spells.hex (by decide) _⟩

end Listing

/-- Images of one length with the same pending bytes, whose other bytes are the same too. -/
structure Image.ShownAlike (a b : Image) : Prop where
  size : a.size = b.size
  pending : ∀ i < a.size, a.pending.contains i = b.pending.contains i
  bytes : ∀ i < a.size, a.pending.contains i = false → a.bytes[i]? = b.bytes[i]?

namespace Image

variable {a b : Image}

theorem ShownAlike.cellText_eq (h : a.ShownAlike b) {i : Nat} (hi : i < a.size) :
    a.cellText i = b.cellText i := by
  unfold cellText
  rw [← h.pending i hi]
  cases hpending : a.pending.contains i with
  | true => rfl
  | false =>
      rw [Array.getD_eq_getD_getElem?, Array.getD_eq_getD_getElem?, h.bytes i hi hpending]

theorem ShownAlike.listingLines_eq (h : a.ShownAlike b) : a.listingLines = b.listingLines := by
  have hrow : ∀ k, a.rowText k = b.rowText k := by
    intro k
    have hcells : a.rowCells k = b.rowCells k := by
      rw [rowCells, rowCells, ← h.size]
      apply List.map_congr_left
      intro i hi
      rw [List.mem_range'_1] at hi
      exact h.cellText_eq (by omega)
    rw [rowText, rowText, hcells]
  rw [listingLines, listingLines, header, header, ← h.size, funext hrow]

/-- Lines say the same about all images that they are about. -/
theorem shownAlike_of_shows {lines : List Bytes} (ha : Listing.Shows lines a)
    (hb : Listing.Shows lines b) : a.ShownAlike b := by
  have hsize : a.size = b.size := ha.count.symm.trans hb.count
  have hcell : ∀ i < a.size, ∃ cell x y,
      (lines.tail.flatMap Listing.cells)[i]? = some cell ∧
        a.bytes[i]? = some x ∧ b.bytes[i]? = some y := by
    intro i hi
    exact ⟨_, _, _, List.getElem?_eq_getElem (hi.trans_eq ha.count.symm),
      Array.getElem?_eq_getElem hi, Array.getElem?_eq_getElem (hi.trans_eq hsize)⟩
  have hpendings : ∀ i < a.size, a.pending.contains i = b.pending.contains i := by
    intro i hi
    obtain ⟨cell, x, y, hlisted, hx, hy⟩ := hcell i hi
    rw [Bool.eq_iff_iff, ← (ha.cell i cell x hlisted hx).1, (hb.cell i cell y hlisted hy).1]
  refine ⟨hsize, hpendings, fun i hi hpending => ?_⟩
  obtain ⟨cell, x, y, hlisted, hx, hy⟩ := hcell i hi
  have hvalueA := ((ha.cell i cell x hlisted hx).2 hpending).2.value
  have hvalueB := ((hb.cell i cell y hlisted hy).2 (hpendings i hi ▸ hpending)).2.value
  rw [hx, hy, UInt8.toNat_inj.mp (hvalueA.symm.trans hvalueB)]

end Image

/-- The image part of a listing shows the size of the image, its rows with their positions, and in
each cell a byte that is not pending.  It tells images apart unless only pending bytes differ. -/
theorem image_part_is_faithful (s : Assembly) :
    Listing.Shows (Listing.imagePart s.listing) s.image ∧
      ∀ t : Assembly,
        (Listing.imagePart s.listing = Listing.imagePart t.listing ↔
          s.image.ShownAlike t.image) ∧
        (Listing.imagePart s.listing = Listing.imagePart t.listing →
          s.image.PendingInside → t.image.PendingInside →
            ∀ i, s.image.pending.contains i = t.image.pending.contains i) := by
  have hshows : ∀ u : Assembly, Listing.Shows (Listing.imagePart u.listing) u.image := by
    intro u
    rw [Listing.imagePart_listing]
    exact Listing.shows_listingLines u.image
  have halike : ∀ t : Assembly, Listing.imagePart s.listing = Listing.imagePart t.listing →
      s.image.ShownAlike t.image := by
    intro t hsame
    have ht := hshows t
    rw [← hsame] at ht
    exact Image.shownAlike_of_shows (hshows s) ht
  refine ⟨hshows s, fun t => ⟨⟨halike t, fun h => ?_⟩, fun hsame hs ht i => ?_⟩⟩
  · rw [Listing.imagePart_listing, Listing.imagePart_listing, h.listingLines_eq]
  · have h := halike t hsame
    rcases lt_or_ge i s.image.size with hi | hi
    · exact h.pending i hi
    · rw [hs.not_pending hi, ht.not_pending (h.size ▸ hi)]

/-- The address of a jump is pending, and what its bytes hold meanwhile is not shown. -/
theorem image_part_of_pending_jump :
    ∃ s t : Assembly, s.image ≠ t.image ∧
      Listing.imagePart s.listing = [utf8 "image: 3 bytes", utf8 "0000: 10 __ __"] ∧
      Listing.imagePart s.listing = Listing.imagePart t.listing ∧
      s.image.PendingInside ∧ t.image.PendingInside ∧
      ∀ i, s.image.pending.contains i = t.image.pending.contains i := by
  have hjump : ({ bytes := #[0x10] } : Image).PendingInside := by
    intro i hi
    rw [show ({ bytes := #[0x10] } : Image).pending.contains i = false from
      Bitmap.contains_empty i] at hi
    contradiction
  have hs := hjump.fill 2
  have ht : Image.PendingInside
      { ({ bytes := #[0x10] } : Image).fill 2 with bytes := #[0x10, 0, 0] } := hs
  obtain ⟨-, hfaithful⟩ :=
    image_part_is_faithful { image := ({ bytes := #[0x10] } : Image).fill 2 }
  obtain ⟨hiff, hpending⟩ := hfaithful
    { image := { ({ bytes := #[0x10] } : Image).fill 2 with bytes := #[0x10, 0, 0] } }
  have hsame := hiff.mpr ⟨rfl, fun _ _ => rfl, by decide⟩
  refine ⟨_, _, by decide, ?_, hsame, hs, ht, hpending hsame hs ht⟩
  rw [Listing.imagePart_listing]
  decide

end Gx
