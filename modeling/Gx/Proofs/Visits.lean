import Gx.Proofs.References

/-!
# The statements of a run

A run passes through the statements of a program, blocks included, and through states.  `visitsOf`
lists the statements other than blocks together with the states in which their turn comes.  A
successful run is a `Chain` of these visits: between one and the next only blocks are entered and
left.  What holds before and after a certain visit is read off the two parts of the chain.
-/

namespace Gx.Encode

mutual

/-- The statement, or those inside of a block, each with the state that it starts from. -/
def visits (f : Forward) : Statement → Assembly → List (Statement × Assembly)
  | .block _ body, s => visitsOf f body { s with scopes := s.scopes.push }
  | x, s => [(x, s)]

/-- The statements of a list that are encoded, up to a failure, each with the state that it starts
from. -/
def visitsOf (f : Forward) : List Statement → Assembly → List (Statement × Assembly)
  | [], _ => []
  | x :: rest, s =>
      visits f x s ++
        match statement f x s with
        | .ok _ t => visitsOf f rest t
        | .error _ _ => []

end

mutual

theorem map_fst_visits {f : Forward} (x : Statement) {s t : Assembly}
    (hrun : statement f x s = .ok () t) : (visits f x s).map Prod.fst = x.leaves := by
  cases x with
  | block _ body =>
      simp only [statement, inScope_eq] at hrun
      split at hrun
      next inner hinner => exact map_fst_visitsOf body hinner
      next => contradiction
  | _ => rfl

/-- A successful run visits all leaves of the program, in source order. -/
theorem map_fst_visitsOf {f : Forward} (body : List Statement) {s t : Assembly}
    (hrun : statements f body s = .ok () t) :
    (visitsOf f body s).map Prod.fst = Statement.leavesOf body := by
  cases body with
  | nil => rfl
  | cons x rest =>
      rw [statements, bind_eq_ok] at hrun
      obtain ⟨_, next, hfirst, hrest⟩ := hrun
      rw [visitsOf, List.map_append, map_fst_visits x hfirst, hfirst, Statement.leavesOf]
      exact congrArg _ (map_fst_visitsOf rest hrest)

end

mutual

theorem visits_prefix_leaves (f : Forward) (x : Statement) (s : Assembly) :
    (visits f x s).map Prod.fst <+: x.leaves := by
  cases x with
  | block _ body => exact visitsOf_prefix_leaves f body { s with scopes := s.scopes.push }
  | _ => exact List.prefix_rfl

/-- Up to a failure, a run visits the leaves of the program in source order. -/
theorem visitsOf_prefix_leaves (f : Forward) (body : List Statement) (s : Assembly) :
    (visitsOf f body s).map Prod.fst <+: Statement.leavesOf body := by
  cases body with
  | nil => exact List.prefix_rfl
  | cons x rest =>
      rw [visitsOf, List.map_append, Statement.leavesOf]
      cases hrun : statement f x s with
      | ok _ t =>
          rw [map_fst_visits x hrun, List.prefix_append_right_inj]
          exact visitsOf_prefix_leaves f rest t
      | error _ t =>
          rw [List.map_nil, List.append_nil]
          exact (visits_prefix_leaves f x s).trans (List.prefix_append _ _)

end

/-! ## Chains -/

/-- Blocks are entered and left on the way from `s` to `t`, and nothing else happens. -/
inductive Moves : Assembly → Assembly → Prop where
  | refl (s : Assembly) : Moves s s
  | enter {s t : Assembly} (h : Moves s t) : Moves s { t with scopes := t.scopes.push }
  | leave {s t u : Assembly} (h : Moves s t) (hleave : leaveScope t = .ok () u) : Moves s u

/-- The visits lead from `s` to `t`. -/
inductive Chain (f : Forward) : Assembly → List (Statement × Assembly) → Assembly → Prop where
  | nil {s t : Assembly} (hmoves : Moves s t) : Chain f s [] t
  | cons {s start u t : Assembly} {x : Statement} {vs : List (Statement × Assembly)}
      (hmoves : Moves s start) (hleaf : x.isBlock = false)
      (hrun : statement f x start = .ok () u) (hrest : Chain f u vs t) :
      Chain f s ((x, start) :: vs) t

theorem Moves.trans {s t u : Assembly} (hst : Moves s t) (htu : Moves t u) : Moves s u := by
  induction htu with
  | refl => exact hst
  | enter _ ih => exact ih.enter
  | leave _ hleave ih => exact ih.leave hleave

namespace Chain

variable {f : Forward} {s t u : Assembly} {vs ws : List (Statement × Assembly)}

theorem of_moves (hmoves : Moves s t) (h : Chain f t vs u) : Chain f s vs u := by
  cases h with
  | nil hmoves' => exact nil (hmoves.trans hmoves')
  | cons hmoves' hleaf hrun hrest => exact cons (hmoves.trans hmoves') hleaf hrun hrest

theorem append (h : Chain f s vs t) (h' : Chain f t ws u) : Chain f s (vs ++ ws) u := by
  induction h with
  | nil hmoves => exact h'.of_moves hmoves
  | cons hmoves hleaf hrun _ ih => exact cons hmoves hleaf hrun (ih h')

theorem split (h : Chain f s (vs ++ ws) u) : ∃ t, Chain f s vs t ∧ Chain f t ws u := by
  induction vs generalizing s with
  | nil => exact ⟨s, nil (Moves.refl s), h⟩
  | cons v vs ih =>
      cases h with
      | cons hmoves hleaf hrun hrest =>
          obtain ⟨t, hvs, hws⟩ := ih hrest
          exact ⟨t, cons hmoves hleaf hrun hvs, hws⟩

/-- A chain leads up to each of its visits, and goes on behind it. -/
theorem splitAt {x : Statement} {start : Assembly} (h : Chain f s (vs ++ (x, start) :: ws) t) :
    ∃ u, Chain f s vs start ∧ x.isBlock = false ∧ statement f x start = .ok () u ∧
      Chain f u ws t := by
  obtain ⟨mid, hvs, hrest⟩ := h.split
  cases hrest with
  | cons hmoves hleaf hrun hws =>
      have hstart := hvs.append (nil hmoves)
      rw [List.append_nil] at hstart
      exact ⟨_, hstart, hleaf, hrun, hws⟩

end Chain

mutual

theorem chain_of_statement {f : Forward} (x : Statement) {s t : Assembly}
    (hrun : statement f x s = .ok () t) : Chain f s (visits f x s) t := by
  cases x with
  | block _ body =>
      simp only [statement, inScope_eq] at hrun
      split at hrun
      next inner hinner =>
        have hbody := chain_of_statements body hinner
        have hlast := Chain.nil (f := f) ((Moves.refl inner).leave hrun)
        have hchain := (hbody.append hlast).of_moves (Moves.refl s).enter
        rwa [List.append_nil] at hchain
      next => contradiction
  | _ => exact Chain.cons (Moves.refl s) rfl hrun (Chain.nil (Moves.refl t))

theorem chain_of_statements {f : Forward} (body : List Statement) {s t : Assembly}
    (hrun : statements f body s = .ok () t) : Chain f s (visitsOf f body s) t := by
  cases body with
  | nil =>
      cases hrun
      exact Chain.nil (Moves.refl s)
  | cons x rest =>
      rw [statements, bind_eq_ok] at hrun
      obtain ⟨_, next, hfirst, hrest⟩ := hrun
      rw [visitsOf, hfirst]
      exact (chain_of_statement x hfirst).append (chain_of_statements rest hrest)

end

/-! ## Invariants along a chain -/

section

variable {I : Assembly → Prop} {E : EncodeError → Assembly → Prop} {f : Forward}
  {rules : NameRules} {s t : Assembly} {vs : List (Statement × Assembly)}

theorem Moves.keeps (h : Invariant I E f rules) (hmoves : Moves s t) (hs : I s) : I t := by
  induction hmoves with
  | refl => exact hs
  | enter _ ih => exact h.enter.of_ok ih rfl
  | leave _ hleave ih => exact h.leave.of_ok ih hleave

/-- An invariant holds whenever a statement's turn comes, and at the end. -/
theorem Chain.keeps (h : Invariant I E f rules) (hallow : ∀ v ∈ vs, rules.Allow v.1)
    (hchain : Chain f s vs t) (hs : I s) : (∀ v ∈ vs, I v.2) ∧ I t := by
  induction hchain with
  | nil hmoves => exact ⟨by simp, hmoves.keeps h hs⟩
  | cons hmoves hleaf hrun _ ih =>
      rw [List.forall_mem_cons] at hallow ⊢
      have hstart := hmoves.keeps h hs
      obtain ⟨hvisits, hend⟩ := ih hallow.2 ((h.leaf hleaf hallow.1).of_ok hstart hrun)
      exact ⟨⟨hstart, hvisits⟩, hend⟩

theorem Chain.visit (hchain : Chain f s vs t) {v : Statement × Assembly} (hv : v ∈ vs) :
    ∃ u ws, statement f v.1 v.2 = .ok () u ∧ Chain f u ws t := by
  obtain ⟨pre, post, rfl⟩ := List.append_of_mem hv
  obtain ⟨u, _, _, hrun, hpost⟩ := hchain.splitAt
  exact ⟨u, post, hrun, hpost⟩

theorem Chain.growsTo (hchain : Chain .refer s vs t) : s.GrowsTo t :=
  (hchain.keeps (growsTo_invariant s) (fun v _ => NameRules.allow_of_trivial v.1)
    (Assembly.GrowsTo.refl s)).2

/-- When a statement's turn comes, the end of the image is an address. -/
theorem Chain.size_lt (hchain : Chain .refer {} vs t) {v : Statement × Assembly} (hv : v ∈ vs) :
    v.2.image.size < 2 ^ 16 := by
  have hallow : ∀ v ∈ vs, NameRules.Allow {} v.1 := fun v _ => NameRules.allow_of_trivial v.1
  have hfits := (hchain.keeps fits_invariant hallow (by decide)).1 v hv
  have hgrows := (hchain.keeps (growsTo_invariant {}) hallow (Assembly.GrowsTo.refl _)).1 v hv
  have hlimit : v.2.image.limit = maxImage := hgrows.image.limit
  rw [hlimit] at hfits
  unfold maxImage at hfits
  omega

end

/-! ## Runs that may fail -/

/-- What leaf statements, entering and leaving a block keep, and taking note of an error. -/
structure VisitInvariant (I : Assembly → Prop) (f : Forward) : Prop where
  leaf : ∀ {x : Statement} {s : Assembly}, x.isBlock = false → I s →
    I (finalState (statement f x s))
  enter : ∀ {s : Assembly}, I s → I { s with scopes := s.scopes.push }
  leave : ∀ {s : Assembly}, I s → I (finalState (leaveScope s))
  remember : ∀ {s : Assembly}, I s → I s.rememberScopes

namespace VisitInvariant

variable {I : Assembly → Prop} {f : Forward}

mutual

theorem statement (h : VisitInvariant I f) (x : Statement) {s : Assembly} (hs : I s) :
    (∀ v ∈ visits f x s, I v.2) ∧ I (finalState (Encode.statement f x s)) := by
  cases x with
  | block _ body =>
      obtain ⟨hvisits, hend⟩ := statements h body (h.enter hs)
      refine ⟨hvisits, ?_⟩
      simp only [Encode.statement, inScope_eq]
      cases hrun : Encode.statements f body { s with scopes := s.scopes.push } with
      | ok _ t =>
          rw [hrun] at hend
          exact h.leave hend
      | error e t =>
          rw [hrun] at hend
          exact h.leave (h.remember hend)
  | _ => exact ⟨by simpa [visits] using hs, h.leaf rfl hs⟩

/-- Whether a run succeeds or fails, the invariant holds whenever a statement's turn comes, and
when the run stops. -/
theorem statements (h : VisitInvariant I f) (body : List Statement) {s : Assembly} (hs : I s) :
    (∀ v ∈ visitsOf f body s, I v.2) ∧ I (finalState (Encode.statements f body s)) := by
  cases body with
  | nil => exact ⟨by simp [visitsOf], hs⟩
  | cons x rest =>
      obtain ⟨hvisits, hend⟩ := statement h x hs
      rw [Encode.statements, bind_eq, visitsOf]
      cases hrun : Encode.statement f x s with
      | ok _ t =>
          rw [hrun] at hend
          obtain ⟨hrest, hlast⟩ := statements h rest hend
          exact ⟨List.forall_mem_append.mpr ⟨hvisits, hrest⟩, hlast⟩
      | error e t =>
          rw [hrun] at hend
          exact ⟨List.forall_mem_append.mpr ⟨hvisits, by simp⟩, hend⟩

end

end VisitInvariant

end Gx.Encode
