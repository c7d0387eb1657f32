import Gx.Directive.Basic

/-!
# Work lists

Expansion takes the first line off a list of work and may put new lines in its place. The new
lines are one level deeper, and lines at the limit are never replaced, so the work comes to an end:
`WorkList.wellFounded`.
-/

namespace Gx.WorkList

/-- The work left after a line: either the line is done, or deeper lines take its place. -/
inductive Less (limit : Int) : List Line → List Line → Prop where
  | done (line : Line) (rest : List Line) : Less limit rest (line :: rest)
  | replace (line : Line) (rest new : List Line) (below : line.depth < limit)
      (deeper : ∀ l ∈ new, l.depth = line.depth + 1) : Less limit (new ++ rest) (line :: rest)

/-- Lines in front of work that comes to an end, if each of them does so in front of any work. -/
theorem acc_append {limit : Int} {new rest : List Line}
    (hnew : ∀ l ∈ new, ∀ work, Acc (Less limit) work → Acc (Less limit) (l :: work))
    (hrest : Acc (Less limit) rest) : Acc (Less limit) (new ++ rest) := by
  induction new with
  | nil => exact hrest
  | cons l new ih =>
      exact hnew l (by simp) _ (ih fun k hk => hnew k (by simp [hk]))

/-- A line in front of work that comes to an end, by the number of levels below it. -/
theorem acc_cons {limit : Int} (levels : Nat) (line : Line)
    (hlevels : (limit - line.depth).toNat ≤ levels) (rest : List Line)
    (hrest : Acc (Less limit) rest) : Acc (Less limit) (line :: rest) := by
  induction levels generalizing line rest with
  | zero =>
      constructor
      intro work hless
      cases hless with
      | done => exact hrest
      | replace _ _ new below _ => omega
  | succ levels ih =>
      constructor
      intro work hless
      cases hless with
      | done => exact hrest
      | replace _ _ new below deeper =>
          refine acc_append (fun l hl work hwork => ih l ?_ work hwork) hrest
          have hdepth := deeper l hl
          omega

theorem wellFounded (limit : Int) : WellFounded (Less limit) := by
  constructor
  intro work
  induction work with
  | nil =>
      constructor
      intro _ hless
      cases hless
  | cons line rest ih => exact acc_cons _ line (Nat.le_refl _) rest ih

end Gx.WorkList
