import Gx.Directive.Expand
import Mathlib.Tactic

/-!
# Expansion of directives as recursion

A directive stands for lines, which may be directives again.  Read as a recursion over the depth of
lines, this gives each line its own expansion, `Expander.unroll`, and a text that of its lines one
after the other.  The expander does not recurse: it takes lines from the front of a work list and
puts the lines of a directive back in their place.  Each line of the work list contributes its own
expansion to the result, so the two ways agree, also in the failure that they report.
-/

namespace Gx

/-- The lines of all expansions, or the failure of the first one that fails. -/
def ExpandFailure.gather :
    List (Except ExpandFailure (List Bytes)) → Except ExpandFailure (List Bytes)
  | [] => .ok []
  | .error f :: _ => .error f
  | .ok lines :: rest => (gather rest).map (lines ++ ·)

namespace Expander

open ExpandFailure (gather)

/-- The lines without directives that a line stands for. -/
def unroll (e : Expander) (line : Line) : Except ExpandFailure (List Bytes) :=
  match Line.directive? line.text with
  | none => .ok [line.text]
  | some (name, args) =>
      match e.directives.lookup name with
      | none => .error ⟨line, .unknown name⟩
      | some directive =>
          if (args.length : Int) ≠ directive.arity then
            .error ⟨line, .argumentCount name directive.arity args.length⟩
          else if _deep : e.limit ≤ line.depth then .error ⟨line, .tooDeep name line.depth⟩
          else
            match directive.expand e.read line args with
            | .error cause => .error ⟨line, cause⟩
            | .ok expansion =>
                gather (expansion.sources.map fun source =>
                  e.unroll ⟨source.text, source.file, line.depth + 1⟩)
termination_by (e.limit - line.depth).toNat
decreasing_by omega

theorem gather_append (first second : List (Except ExpandFailure (List Bytes))) :
    gather (first ++ second) =
      match gather first with
      | .error f => .error f
      | .ok lines => (gather second).map (lines ++ ·) := by
  induction first with
  | nil => cases h : gather second <;> simp [gather, h, Except.map]
  | cons result rest ih =>
      cases result with
      | error f => rfl
      | ok lines =>
          simp only [List.cons_append, gather, ih]
          cases gather rest with
          | error f => rfl
          | ok others => cases gather second <;> simp [Except.map]

/-- A directive that applies has the expansions of its lines, one after the other. -/
theorem unroll_eq (e : Expander) (line : Line) :
    e.unroll line =
      match Line.directive? line.text with
      | none => .ok [line.text]
      | some (name, args) =>
          match e.apply line name args with
          | .error cause => .error ⟨line, cause⟩
          | .ok expansion => gather ((expansion.lines line.depth).map e.unroll) := by
  rw [unroll]
  cases Line.directive? line.text with
  | none => rfl
  | some call =>
      obtain ⟨name, args⟩ := call
      simp only [apply]
      cases e.directives.lookup name with
      | none => rfl
      | some directive =>
          by_cases harity : (args.length : Int) = directive.arity
          · by_cases hdeep : e.limit ≤ line.depth
            · simp [harity, hdeep, not_lt.mpr hdeep]
            · have hdepth : (line.depth : Int) < e.limit := by omega
              simp only [harity, hdeep, hdepth, ne_eq, not_true, if_false, if_true, dite_false]
              cases directive.expand e.read line args with
              | error cause => rfl
              | ok expansion => simp [Expansion.lines, Function.comp_def]
          · simp [harity]

/-! ## The work list -/

theorem run_eq_gather (e : Expander) (work : List Line) (done : List Bytes) :
    e.run work done = (gather (work.map e.unroll)).map (done.reverse ++ ·) := by
  fun_induction run e work done with
  | case1 done => simp [gather, Except.map]
  | case2 done line rest hplain ih =>
      simp only [ih, List.map_cons, unroll_eq e line, hplain, gather]
      cases gather (rest.map e.unroll) <;> simp [Except.map]
  | case3 done line rest name args hdirective cause hfailed =>
      simp only [List.map_cons, unroll_eq e line, hdirective, hfailed, gather]
      rfl
  | case4 done line rest name args hdirective expansion happlied ih =>
      rw [ih, List.map_cons, List.map_append, gather_append]
      simp only [unroll_eq e line, hdirective, happlied]
      cases gather ((expansion.lines line.depth).map e.unroll) <;> rfl

/-! ## Rounds -/

/-- Where the expander stands: it has a result, or work to do and the lines done so far. -/
inductive Progress where
  | ended (result : Except ExpandFailure (List Bytes))
  | going (work : List Line) (done : List Bytes)
  deriving DecidableEq

/-- One round of the expander: the first line of the work list is looked at. -/
def round (e : Expander) : Progress → Progress
  | .ended result => .ended result
  | .going [] done => .ended (.ok done.reverse)
  | .going (line :: rest) done =>
      match Line.directive? line.text with
      | none => .going rest (line.text :: done)
      | some (name, args) =>
          match e.apply line name args with
          | .error cause => .ended (.error ⟨line, cause⟩)
          | .ok expansion => .going (expansion.lines line.depth ++ rest) done

/-- After finitely many rounds there is nothing left to do. -/
theorem exists_rounds (e : Expander) (work : List Line) (done : List Bytes) :
    ∃ n, e.round^[n] (.going work done) = .ended (e.run work done) := by
  fun_induction run e work done with
  | case1 done => exact ⟨1, rfl⟩
  | case2 done line rest hplain ih =>
      obtain ⟨n, hn⟩ := ih
      refine ⟨n + 1, ?_⟩
      rw [Function.iterate_succ_apply, round]
      simp only [hplain, hn]
  | case3 done line rest name args hdirective cause hfailed =>
      refine ⟨1, ?_⟩
      rw [Function.iterate_one, round]
      simp only [hdirective, hfailed]
  | case4 done line rest name args hdirective expansion happlied ih =>
      obtain ⟨n, hn⟩ := ih
      refine ⟨n + 1, ?_⟩
      rw [Function.iterate_succ_apply, round]
      simp only [hdirective, happlied, hn]

/-- The result of a run can be found by rounds. -/
theorem run_of_rounds {e : Expander} (n : Nat) {work : List Line} {done : List Bytes}
    {result : Except ExpandFailure (List Bytes)}
    (h : e.round^[n] (.going work done) = .ended result) : e.run work done = result := by
  induction n generalizing work done with
  | zero => contradiction
  | succ n ih =>
      have hended : ∀ r, e.round^[n] (.ended r) = .ended result → r = result := by
        intro r hr
        rw [Function.iterate_fixed rfl] at hr
        exact Progress.ended.inj hr
      rw [Function.iterate_succ_apply] at h
      cases work with
      | nil =>
          rw [run]
          exact hended _ h
      | cons line rest =>
          rw [run]
          rw [round] at h
          cases hdirective : Line.directive? line.text with
          | none =>
              simp only [hdirective] at h ⊢
              exact ih h
          | some call =>
              simp only [hdirective] at h ⊢
              cases happlied : e.apply line call.1 call.2 with
              | error cause =>
                  simp only [happlied] at h ⊢
                  exact hended _ h
              | ok expansion =>
                  simp only [happlied] at h ⊢
                  exact ih h

end Expander

/-- With any directives, any limit and any files, the expander comes to an end, and it ends with the
expansions of the lines of the text, one after the other, or with the first failure among them. -/
theorem expand_eq_unroll_lines (e : Expander) (file text : Bytes) :
    (∃ n, e.round^[n] (.going ((Bytes.lines text).map (⟨·, file, 0⟩)) []) =
      .ended (e.expand file text)) ∧
    e.expand file text =
      ExpandFailure.gather ((Bytes.lines text).map fun line => e.unroll ⟨line, file, 0⟩) := by
  refine ⟨e.exists_rounds _ _, ?_⟩
  rw [Expander.expand, Expander.run_eq_gather, List.map_map, Function.comp_def]
  cases ExpandFailure.gather ((Bytes.lines text).map fun line => e.unroll ⟨line, file, 0⟩) with
  | error f => rfl
  | ok lines => rfl

end Gx
