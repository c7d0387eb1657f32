import Gx.Directive.Standard
import Gx.Directive.WorkList

/-!
# Expansion

Directives are expanded until none is left. The lines of an expansion take the place of the
directive and are looked at in turn, so directives may stand for directives, up to a limit.
-/

namespace Gx

structure Expander where
  directives : List (Bytes × Directive) := Directive.standard
  /-- How deep directives may be nested; zero stands for 64. -/
  maxDepth : Int := 0
  read : FileReader

structure ExpandFailure where
  line : Line
  cause : ExpandError
  deriving DecidableEq

def ExpandFailure.message (f : ExpandFailure) : Bytes :=
  f.line.place ++ utf8 ": " ++ f.cause.message

namespace Expander

def limit (e : Expander) : Int := if e.maxDepth = 0 then 64 else e.maxDepth

theorem limit_of_zero {e : Expander} (h : e.maxDepth = 0) : e.limit = 64 :=
  if_pos h

/-- Any other depth is the limit as it stands, also a negative one. -/
theorem limit_of_ne_zero {e : Expander} (h : e.maxDepth ≠ 0) : e.limit = e.maxDepth :=
  if_neg h

/-- What a directive stands for. It has to be known, to have the right number of arguments, and to
lie within the limit. -/
def apply (e : Expander) (line : Line) (name : Bytes) (args : List Bytes) :
    Except ExpandError Expansion :=
  match e.directives.lookup name with
  | none => .error (.unknown name)
  | some directive =>
      if (args.length : Int) ≠ directive.arity then
        .error (.argumentCount name directive.arity args.length)
      else if line.depth < e.limit then directive.expand e.read line args
      else .error (.tooDeep name line.depth)

/-- Only lines within the limit are replaced. -/
theorem depth_lt_limit {e : Expander} {line : Line} {name : Bytes} {args : List Bytes}
    {expansion : Expansion} (h : e.apply line name args = .ok expansion) :
    line.depth < e.limit := by
  unfold apply at h
  split at h
  · simp at h
  · split at h
    · simp at h
    · split at h
      · assumption
      · simp at h

/-- With a negative limit no directive is replaced. -/
theorem apply_of_negative {e : Expander} (h : e.maxDepth < 0) (line : Line) (name : Bytes)
    (args : List Bytes) : ∃ cause, e.apply line name args = .error cause := by
  cases happly : e.apply line name args with
  | error cause => exact ⟨cause, rfl⟩
  | ok expansion =>
      have hdepth := depth_lt_limit happly
      rw [limit_of_ne_zero (by omega)] at hdepth
      omega

/-- Expands the lines of a work list. The lines done so far are kept last first. -/
def run (e : Expander) (work : List Line) (done : List Bytes) :
    Except ExpandFailure (List Bytes) :=
  match work with
  | [] => .ok done.reverse
  | line :: rest =>
      match Line.directive? line.text with
      | none => run e rest (line.text :: done)
      | some (name, args) =>
          match _applied : e.apply line name args with
          | .error cause => .error ⟨line, cause⟩
          | .ok expansion => run e (expansion.lines line.depth ++ rest) done
termination_by (WorkList.wellFounded e.limit).wrap work
decreasing_by
  · exact .done line rest
  · refine .replace line rest _ (depth_lt_limit _applied) ?_
    intro l hl
    simp only [Expansion.lines, List.mem_map] at hl
    obtain ⟨_, _, rfl⟩ := hl
    rfl

def expand (e : Expander) (file text : Bytes) : Except ExpandFailure (List Bytes) :=
  e.run ((Bytes.lines text).map (⟨·, file, 0⟩)) []

end Expander

end Gx
