import Gx.Command.Output
import Gx.Proofs.Paths
import Mathlib.Data.List.TakeWhile

/-!
# The output is not the source

The default output has the directory of the source and a file name that is an ordinary part.
Whatever stands in its place in the source, nothing, dots or another name, the parts that are left
of the two paths differ, and so do the clean paths.
-/

namespace Gx

namespace Path

/-! ## Paths in one directory -/

/-- The front of a path up to the last `/`, or nothing. -/
def IsFront (front : Bytes) : Prop := front = [] ∨ ∃ dir, front = dir ++ [0x2F]

section

variable {front : Bytes} (hfront : IsFront front)

include hfront

theorem isAbsolute_front {p q : Bytes} (hp : 0x2F ∉ p) (hq : 0x2F ∉ q) :
    isAbsolute (front ++ p) = isAbsolute (front ++ q) := by
  rcases hfront with rfl | ⟨dir, rfl⟩
  · rw [List.nil_append, List.nil_append, isAbsolute_of_noSlash hp, isAbsolute_of_noSlash hq]
  · have hne : dir ++ [0x2F] ≠ [] := by simp
    rw [isAbsolute_append hne, isAbsolute_append hne]

/-- What stands behind the front is added to what is left of the front. -/
theorem exists_partsLeft_front (rooted : Bool) :
    ∃ done : List Bytes, ∀ p, 0x2F ∉ p → partsLeft rooted (front ++ p) = addPart rooted done p := by
  rcases hfront with rfl | ⟨dir, rfl⟩
  · refine ⟨[], fun p hp => ?_⟩
    unfold partsLeft
    rw [List.nil_append, List.splitOn_eq_singleton hp]
    rfl
  · refine ⟨partsLeft rooted dir, fun p hp => ?_⟩
    rw [List.append_assoc, List.singleton_append, partsLeft_slash, List.splitOn_eq_singleton hp]
    rfl

omit hfront in
theorem addPart_ne {rooted : Bool} {done : List Bytes} {file last : Bytes}
    (hdots : file ≠ utf8 "..") (hne : file ≠ last) : addPart rooted done last ≠ file :: done := by
  have hshorter : ∀ {rest : List Bytes}, rest.length ≤ done.length → rest ≠ file :: done := by
    intro rest hlength heq
    rw [heq, List.length_cons] at hlength
    omega
  unfold addPart
  split
  next => exact hshorter le_rfl
  next =>
    split
    next hback =>
      split
      next =>
        split
        · exact hshorter le_rfl
        · simpa [hback] using hdots.symm
      next top rest =>
        split
        · simpa [hback] using fun h => absurd h hdots.symm
        · exact hshorter (by simp)
    next => simpa using hne.symm

/-- A name of its own in the same directory makes a path of its own. -/
theorem clean_front_ne {file last : Bytes} (hfile : IsPart file) (hdots : file ≠ utf8 "..")
    (hlast : 0x2F ∉ last) (hne : file ≠ last) : clean (front ++ file) ≠ clean (front ++ last) := by
  intro heq
  rw [clean_eq, clean_eq, isAbsolute_front hfront hfile.noSlash hlast] at heq
  have hparts := spell_injective (isNormal_partsLeft _ _).parts (isNormal_partsLeft _ _).parts heq
  obtain ⟨done, hadd⟩ := exists_partsLeft_front hfront (isAbsolute (front ++ last))
  rw [hadd file hfile.noSlash, hadd last hlast, addPart_name hfile hdots] at hparts
  exact addPart_ne hdots hne hparts.symm

end

/-! ## Extensions -/

theorem dropWhile_ne_cases (b : UInt8) (row : Bytes) :
    row.dropWhile (· != b) = [] ∨ ∃ rest, row.dropWhile (· != b) = b :: rest := by
  cases hdrop : row.dropWhile (· != b) with
  | nil => exact Or.inl rfl
  | cons first rest =>
      have hfirst : first = b := by
        have hhead := List.head?_dropWhile_not (· != b) row
        rw [hdrop] at hhead
        simpa using hhead
      exact Or.inr ⟨rest, by rw [hfirst]⟩

theorem exists_stem (path : Bytes) :
    ∃ stem, (lastPartReversed path).reverse = stem ++ extension path := by
  unfold extension
  simp only
  split
  next hdot =>
    have hsplit := List.takeWhile_append_dropWhile (p := (· != 0x2E)) (l := lastPartReversed path)
    rcases dropWhile_ne_cases 0x2E (lastPartReversed path) with hnil | ⟨rest, hrest⟩
    · rw [List.dropWhile_eq_nil_iff] at hnil
      have hnot := hnil _ (List.contains_iff_mem.mp hdot)
      simp at hnot
    · refine ⟨rest.reverse, ?_⟩
      rw [hrest] at hsplit
      nth_rewrite 1 [← hsplit]
      simp
  next => exact ⟨_, (List.append_nil _).symm⟩

/-- A path is its front, then the stem of its last part and the extension. -/
theorem exists_front_stem (path : Bytes) :
    ∃ front stem, IsFront front ∧ path = front ++ (stem ++ extension path) ∧
      0x2F ∉ stem ++ extension path := by
  obtain ⟨stem, hstem⟩ := exists_stem path
  refine ⟨(path.reverse.dropWhile (· != 0x2F)).reverse, stem, ?_, ?_, ?_⟩
  · rcases dropWhile_ne_cases 0x2F path.reverse with hnil | ⟨rest, hrest⟩
    · exact Or.inl (by rw [hnil, List.reverse_nil])
    · exact Or.inr ⟨rest.reverse, by rw [hrest, List.reverse_cons]⟩
  · rw [← hstem, ← List.reverse_append, lastPartReversed, List.takeWhile_append_dropWhile,
      List.reverse_reverse]
  · rw [← hstem, List.mem_reverse]
    intro hmem
    have hne := List.mem_takeWhile_imp hmem
    simp at hne

theorem dropExtension_eq {path front stem : Bytes}
    (h : path = front ++ (stem ++ extension path)) : dropExtension path = front ++ stem := by
  have hsplit : path = (front ++ stem) ++ extension path := by rwa [List.append_assoc]
  have hlength : path.length - (extension path).length = (front ++ stem).length := by
    have hsum := congrArg List.length hsplit
    rw [List.length_append] at hsum
    omega
  unfold dropExtension
  rw [hlength, hsplit]
  exact List.take_left

end Path

/-! ## The default name -/

namespace Output

theorem length_extension : extension.length = 4 := by decide

theorem isPart_append_extension {stem : Bytes} (h : 0x2F ∉ stem) :
    Path.IsPart (stem ++ extension) ∧ stem ++ extension ≠ utf8 ".." := by
  have hlong : ∀ {name : Bytes}, name.length < 4 → stem ++ extension ≠ name := by
    intro name hname heq
    have hlength := congrArg List.length heq
    rw [List.length_append, length_extension] at hlength
    omega
  have hext : 0x2F ∉ extension := by decide
  refine ⟨⟨hlong (by decide), hlong (by decide), ?_⟩, hlong (by decide)⟩
  rw [List.mem_append]
  exact not_or.mpr ⟨h, hext⟩

/-- The default name is a file of its own in the directory of the source. -/
theorem exists_defaultName_eq (source : Bytes) :
    ∃ front stem last, Path.IsFront front ∧ source = front ++ last ∧ 0x2F ∉ last ∧ 0x2F ∉ stem ∧
      defaultName source = front ++ (stem ++ extension) ∧ stem ++ extension ≠ last := by
  obtain ⟨front, stem, hfront, hsource, hlast⟩ := Path.exists_front_stem source
  unfold defaultName
  split
  next hfold =>
    refine ⟨front, stem ++ Path.extension source, _, hfront, hsource, hlast, hlast, ?_, ?_⟩
    · nth_rewrite 1 [hsource]
      rw [List.append_assoc]
    · intro heq
      have hlength := congrArg List.length heq
      rw [List.length_append, length_extension] at hlength
      omega
  next hfold =>
    refine ⟨front, stem, _, hfront, hsource, hlast, ?_, ?_, ?_⟩
    · intro hmem
      exact hlast (List.mem_append_left _ hmem)
    · rw [Path.dropExtension_eq hsource, List.append_assoc]
    · intro heq
      rw [← List.append_cancel_left heq] at hfold
      exact hfold (by decide)

theorem clean_defaultName_ne (source : Bytes) :
    Path.clean (defaultName source) ≠ Path.clean source := by
  obtain ⟨front, stem, last, hfront, hsource, hlast, hstem, hname, hne⟩ :=
    exists_defaultName_eq source
  obtain ⟨hpart, hdots⟩ := isPart_append_extension hstem
  rw [hname, hsource]
  exact Path.clean_front_ne hfront hpart hdots hlast hne

theorem extension_suffix_defaultName (source : Bytes) : extension <:+ defaultName source := by
  unfold defaultName
  split
  · exact List.suffix_append _ _
  · exact List.suffix_append _ _

/-- The output that is tried. -/
def candidate (source wish : Bytes) : Bytes := if wish = [] then defaultName source else wish

theorem name_eq (source wish : Bytes) :
    name source wish =
      if Path.clean (candidate source wish) = Path.clean source
        then .error (.overwritesSource (candidate source wish))
      else .ok (candidate source wish) := rfl

theorem name_eq_ok_iff {source wish output : Bytes} :
    name source wish = .ok output ↔
      candidate source wish = output ∧ Path.clean output ≠ Path.clean source := by
  rw [name_eq]
  by_cases hsame : Path.clean (candidate source wish) = Path.clean source
  · rw [if_pos hsame]
    constructor
    · intro hok
      contradiction
    · rintro ⟨rfl, hne⟩
      contradiction
  · rw [if_neg hsame, Except.ok.injEq]
    constructor
    · rintro rfl
      exact ⟨rfl, hsame⟩
    · exact And.left

/-- Without a wish there is always a name for the output, and it ends in `.gxa`.  No name is another
spelling of the name of the source, and a wish is refused exactly if it is one. -/
theorem output_never_overwrites_source (source : Bytes) :
    (∃ output, name source [] = .ok output ∧ utf8 ".gxa" <:+ output) ∧
    ∀ wish,
      (∀ output, name source wish = .ok output →
        output ≠ source ∧ Path.clean output ≠ Path.clean source) ∧
      (wish ≠ [] →
        ((∃ e, name source wish = .error e) ↔ Path.clean wish = Path.clean source)) := by
  refine ⟨⟨defaultName source, ?_, extension_suffix_defaultName source⟩, fun wish => ⟨?_, ?_⟩⟩
  · exact name_eq_ok_iff.mpr ⟨rfl, clean_defaultName_ne source⟩
  · intro output hok
    have hclean := (name_eq_ok_iff.mp hok).2
    refine ⟨?_, hclean⟩
    rintro rfl
    exact hclean rfl
  · intro hwish
    have hcandidate : candidate source wish = wish := if_neg hwish
    constructor
    · rintro ⟨e, herror⟩
      by_contra hne
      rw [name_eq_ok_iff.mpr ⟨hcandidate, hne⟩] at herror
      contradiction
    · intro hsame
      cases hname : name source wish with
      | error e => exact ⟨e, rfl⟩
      | ok output =>
          obtain ⟨rfl, hne⟩ := name_eq_ok_iff.mp hname
          rw [hcandidate] at hne
          contradiction

end Output

end Gx
