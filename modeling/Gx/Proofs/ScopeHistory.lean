import Gx.Proofs.Scopes

/-!
# Scopes and the history of their bindings

Scopes are pushed and popped, names are bound and looked up, in any order, and some of this fails.
A scope is known by its level: it is the same scope for as long as the stack stays higher than
that.  `HasBound` reads off a run which symbols have been bound in the scopes that are still there,
and `Latest` picks the last one of a name.

What an operation does to the symbol of a name at a level is said once, in
`symbolAt_next_of_stores` and `symbolAt_next_of_not_stores`.  By induction on the run, the scopes
hold the latest bindings, and all bindings of a name in a scope are of one kind.
-/

namespace Gx

theorem Scope.bind_eq_error_iff {scope : Scope} {sym : Symbol} {e : ScopeError} :
    scope.bind sym = .error e ↔
      ∃ old, scope.find? sym.name = some old ∧ old.kind ≠ sym.kind ∧
        e = .kindMismatch sym.name old.kind [sym.kind] := by
  unfold Scope.bind
  cases hfind : scope.find? sym.name with
  | none => simp
  | some old =>
      by_cases hkind : old.kind = sym.kind
      · simp [hkind]
      · simp [hkind, eq_comm (a := e)]

theorem Scope.kind_of_bind {scope next : Scope} {sym old : Symbol} (h : scope.bind sym = .ok next)
    (hold : scope.find? sym.name = some old) : old.kind = sym.kind := by
  by_contra hkind
  rw [Scope.bind_eq_error_iff.mpr ⟨old, hold, hkind, rfl⟩] at h
  contradiction

namespace Scopes

/-- The scope that takes a binding. -/
def innermost (s : Scopes) : Scope := s.blocks.headD s.outermost

theorem getElem?_levels_innermost (s : Scopes) :
    s.levels[s.blocks.length]? = some s.innermost := by
  unfold levels innermost
  cases s.blocks with
  | nil => rfl
  | cons first rest => simp

theorem map_levels_bindGlobal (s : Scopes) (sym : Symbol) :
    (s.bindGlobal sym).map levels = (s.outermost.bind sym).map (s.levels.set 0) := by
  unfold bindGlobal
  cases s.outermost.bind sym <;> rfl

/-- A binding exchanges the innermost scope and no other. -/
theorem map_levels_bind (s : Scopes) (sym : Symbol) :
    (s.bind sym).map levels = (s.innermost.bind sym).map (s.levels.set s.blocks.length) := by
  unfold Scopes.bind innermost
  cases hblocks : s.blocks with
  | nil => exact s.map_levels_bindGlobal sym
  | cons first rest =>
      have hset : ∀ changed,
          (s.outermost :: (rest.reverse ++ [first])).set (rest.length + 1) changed =
            s.outermost :: (rest.reverse ++ [changed]) := by
        intro changed
        rw [List.set_cons_succ, List.set_append_right _ _ (by simp)]
        simp
      simp only [List.headD_cons, levels, hblocks, List.reverse_cons, List.length_cons]
      cases first.bind sym with
      | error e => rfl
      | ok changed => simp [Except.map, Bind.bind, Except.bind, pure, Except.pure, levels, hset]

/-! ## Operations -/

inductive Operation where
  | push
  | pop
  | bind (sym : Symbol)
  | bindGlobal (sym : Symbol)
  | lookup (name : Bytes) (wanted : List Kind)
  | lookupGlobal (name : Bytes) (wanted : List Kind)

namespace Operation

/-- The scopes behind an operation, or the reason why it fails. -/
def run (s : Scopes) : Operation → Except ScopeError Scopes
  | .push => .ok s.push
  | .pop => s.pop
  | .bind sym => s.bind sym
  | .bindGlobal sym => s.bindGlobal sym
  | .lookup name wanted => (s.lookup name wanted).map fun _ => s
  | .lookupGlobal name wanted => (s.lookupGlobal name wanted).map fun _ => s

def next (s : Scopes) (op : Operation) : Scopes :=
  match op.run s with
  | .ok t => t
  | .error _ => s

/-- The scopes after operations, some of which may fail, from the start. -/
def after (ops : List Operation) : Scopes := ops.foldl next {}

theorem after_append (ops : List Operation) (op : Operation) :
    after (ops ++ [op]) = op.next (after ops) := by
  simp [after]

/-- The level at which an operation is to bind a symbol. -/
def binding? (s : Scopes) : Operation → Option (Nat × Symbol)
  | .bind sym => some (s.blocks.length, sym)
  | .bindGlobal sym => some (0, sym)
  | _ => none

/-- The operation binds a symbol at a level, with success. -/
structure Stores (op : Operation) (s : Scopes) (level : Nat) (sym : Symbol) : Prop where
  binding : op.binding? s = some (level, sym)
  succeeds : ∃ t, op.run s = .ok t

theorem Stores.unique {op : Operation} {s : Scopes} {level other : Nat} {sym new : Symbol}
    (h : op.Stores s level sym) (h' : op.Stores s other new) : level = other ∧ sym = new := by
  have heq := h.binding.symm.trans h'.binding
  simpa using heq

theorem stores_or_not (op : Operation) (s : Scopes) :
    (∃ level sym, op.Stores s level sym) ∨ ∀ level sym, ¬op.Stores s level sym := by
  by_cases h : ∃ level sym, op.Stores s level sym
  · exact Or.inl h
  · exact Or.inr fun level sym hlevel => h ⟨level, sym, hlevel⟩

theorem map_levels_run {op : Operation} {s : Scopes} {level : Nat} {sym : Symbol}
    (h : op.binding? s = some (level, sym)) :
    ∃ scope, s.levels[level]? = some scope ∧
      (op.run s).map levels = (scope.bind sym).map (s.levels.set level) := by
  cases op with
  | bind new =>
      cases h
      exact ⟨s.innermost, s.getElem?_levels_innermost, s.map_levels_bind sym⟩
  | bindGlobal new =>
      cases h
      exact ⟨s.outermost, rfl, s.map_levels_bindGlobal sym⟩
  | _ => contradiction

theorem Stores.levels_next {op : Operation} {s : Scopes} {level : Nat} {sym : Symbol}
    (h : op.Stores s level sym) :
    ∃ scope changed, s.levels[level]? = some scope ∧ scope.bind sym = .ok changed ∧
      (op.next s).levels = s.levels.set level changed := by
  obtain ⟨t, hrun⟩ := h.succeeds
  obtain ⟨scope, hscope, hmap⟩ := map_levels_run h.binding
  unfold next
  rw [hrun] at hmap ⊢
  cases hbind : scope.bind sym with
  | error e =>
      rw [hbind] at hmap
      contradiction
  | ok changed =>
      rw [hbind] at hmap
      exact ⟨scope, changed, hscope, hbind, Except.ok.inj hmap⟩

end Operation

/-! ## The symbol of a name at a level -/

/-- What a name stands for in one of several scopes. -/
def findAt (scopes : List Scope) (level : Nat) (name : Bytes) : Option Symbol :=
  scopes[level]?.bind (·.find? name)

theorem findAt_of_length_le {scopes : List Scope} {level : Nat} (h : scopes.length ≤ level)
    (name : Bytes) : findAt scopes level name = none := by
  unfold findAt
  rw [List.getElem?_eq_none h, Option.bind_none]

theorem findAt_append (scopes : List Scope) (last : Scope) (level : Nat) (name : Bytes) :
    findAt (scopes ++ [last]) level name =
      if level = scopes.length then last.find? name else findAt scopes level name := by
  rcases lt_trichotomy level scopes.length with hlt | rfl | hgt
  · unfold findAt
    rw [List.getElem?_append_left hlt, if_neg hlt.ne]
  · unfold findAt
    rw [List.getElem?_concat_length, Option.bind_some, if_pos rfl]
  · rw [findAt_of_length_le (by simp; omega), findAt_of_length_le hgt.le, if_neg hgt.ne']

def symbolAt (s : Scopes) (level : Nat) (name : Bytes) : Option Symbol :=
  findAt s.levels level name

theorem symbolAt_eq_ite (s : Scopes) (level : Nat) (name : Bytes) :
    s.symbolAt level name = if level < s.depth then s.symbolAt level name else none := by
  split
  next => rfl
  next hlevel => exact findAt_of_length_le (by rw [length_levels]; omega) name

theorem symbolAt_push (s : Scopes) (level : Nat) (name : Bytes) :
    s.push.symbolAt level name = s.symbolAt level name := by
  have hlevels : s.push.levels = s.levels ++ [({} : Scope)] := by simp [push, levels]
  unfold symbolAt
  rw [hlevels, findAt_append]
  split
  next hlevel => rw [findAt_of_length_le hlevel.ge, Scope.find?, List.find?_nil]
  next => rfl

theorem symbolAt_pop {s t : Scopes} (h : s.pop = .ok t) (level : Nat) (name : Bytes) :
    t.symbolAt level name = if level < t.depth then s.symbolAt level name else none := by
  obtain ⟨first, hlevels⟩ : ∃ first, s.levels = t.levels ++ [first] := by
    unfold pop at h
    split at h
    next => contradiction
    next first rest hblocks =>
      cases h
      exact ⟨first, by simp [levels, hblocks]⟩
  rw [symbolAt_eq_ite]
  split
  next hlevel =>
    rw [← length_levels] at hlevel
    unfold symbolAt
    rw [hlevels, findAt_append, if_neg hlevel.ne]
  next => rfl

open Operation

section

variable {op : Operation} {s : Scopes} {level : Nat} {sym : Symbol}

theorem symbolAt_next_of_stores (h : op.Stores s level sym) (other : Nat) (name : Bytes) :
    (op.next s).symbolAt other name =
      if other = level ∧ sym.name = name then some sym else s.symbolAt other name := by
  obtain ⟨scope, changed, hscope, hbind, hlevels⟩ := h.levels_next
  unfold symbolAt findAt
  rw [hlevels]
  by_cases hother : other = level
  · subst hother
    have hlt : other < s.levels.length := (List.getElem?_eq_some_iff.mp hscope).1
    rw [List.getElem?_set_self hlt, hscope, Option.bind_some, Option.bind_some,
      Scope.find?_bind hbind]
    simp
  · rw [List.getElem?_set_ne (Ne.symm hother)]
    simp [hother]

theorem depth_next_of_stores (h : op.Stores s level sym) :
    (op.next s).depth = s.depth ∧ level < s.depth := by
  obtain ⟨scope, changed, hscope, _, hlevels⟩ := h.levels_next
  have hlt := (List.getElem?_eq_some_iff.mp hscope).1
  rw [← length_levels, ← length_levels, hlevels, List.length_set]
  exact ⟨rfl, hlt⟩

/-- A name that was bound already keeps its kind. -/
theorem kind_of_stores (h : op.Stores s level sym) {old : Symbol}
    (hold : s.symbolAt level sym.name = some old) : old.kind = sym.kind := by
  obtain ⟨scope, changed, hscope, hbind, _⟩ := h.levels_next
  unfold symbolAt findAt at hold
  rw [hscope, Option.bind_some] at hold
  exact Scope.kind_of_bind hbind hold

/-- An operation that binds nothing changes only which scopes are there. -/
theorem symbolAt_next_of_not_stores (h : ∀ level sym, ¬op.Stores s level sym) (level : Nat)
    (name : Bytes) :
    (op.next s).symbolAt level name =
      if level < (op.next s).depth then s.symbolAt level name else none := by
  have hsame : op.next s = s → (op.next s).symbolAt level name =
      if level < (op.next s).depth then s.symbolAt level name else none := by
    intro heq
    rw [heq]
    exact s.symbolAt_eq_ite level name
  cases hrun : op.run s with
  | error e => exact hsame (by rw [next, hrun])
  | ok t =>
      have hnext : op.next s = t := by rw [next, hrun]
      cases op with
      | push =>
          rw [hnext, symbolAt_eq_ite]
          cases hrun
          rw [symbolAt_push]
      | pop =>
          rw [hnext]
          exact symbolAt_pop hrun level name
      | bind new => exact absurd ⟨rfl, t, hrun⟩ (h _ new)
      | bindGlobal new => exact absurd ⟨rfl, t, hrun⟩ (h 0 new)
      | lookup name' wanted =>
          have heq : t = s := by
            cases hfound : s.lookup name' wanted <;> simp_all [run, Except.map]
          exact hsame (hnext.trans heq)
      | lookupGlobal name' wanted =>
          have heq : t = s := by
            cases hfound : s.lookupGlobal name' wanted <;> simp_all [run, Except.map]
          exact hsame (hnext.trans heq)

end

/-! ## Bindings of a run -/

/-- Operation `j` has bound a symbol in the scope at a level, and this scope has stayed since. -/
structure HasBound (ops : List Operation) (j level : Nat) (sym : Symbol) : Prop where
  stores : ∃ op, ops[j]? = some op ∧ op.Stores (after (ops.take j)) level sym
  stays : ∀ i, j < i → i ≤ ops.length → level < (after (ops.take i)).depth

/-- The symbol is the last one of this name that was bound in the scope at a level. -/
def Latest (ops : List Operation) (level : Nat) (name : Bytes) (sym : Symbol) : Prop :=
  ∃ j, HasBound ops j level sym ∧ sym.name = name ∧
    ∀ i other, HasBound ops i level other → other.name = name → i ≤ j

section

variable {ops : List Operation} {op : Operation} {i j level : Nat} {name : Bytes}
  {sym other : Symbol}

theorem HasBound.lt_length (h : HasBound ops j level sym) : j < ops.length := by
  obtain ⟨op, hop, _⟩ := h.stores
  exact (List.getElem?_eq_some_iff.mp hop).1

theorem HasBound.unique (h : HasBound ops j level sym) (h' : HasBound ops j level other) :
    sym = other := by
  obtain ⟨op, hop, hstores⟩ := h.stores
  obtain ⟨op', hop', hstores'⟩ := h'.stores
  rw [hop, Option.some.injEq] at hop'
  subst hop'
  exact (hstores.unique hstores').2

theorem Latest.unique (h : Latest ops level name sym) (h' : Latest ops level name other) :
    sym = other := by
  obtain ⟨j, hthere, hname, hlast⟩ := h
  obtain ⟨i, hthere', hname', hlast'⟩ := h'
  have heq : i = j := le_antisymm (hlast i other hthere' hname') (hlast' j sym hthere hname)
  subst heq
  exact hthere.unique hthere'

/-- A binding is older than the last operation and its scope is still there, or it is made by the
last operation. -/
theorem hasBound_append :
    HasBound (ops ++ [op]) j level sym ↔
      (HasBound ops j level sym ∧ level < (op.next (after ops)).depth) ∨
        (j = ops.length ∧ op.Stores (after ops) level sym) := by
  have htake : ∀ {k}, k ≤ ops.length → (ops ++ [op]).take k = ops.take k := fun hk =>
    List.take_append_of_le_length hk
  have hall : (ops ++ [op]).take (ops.length + 1) = ops ++ [op] :=
    List.take_of_length_le (by simp)
  constructor
  · intro h
    obtain ⟨last, hlast, hstores⟩ := h.stores
    have hlt := h.lt_length
    rw [List.length_append, List.length_singleton] at hlt
    have hdepth := h.stays (ops.length + 1) hlt (by simp)
    rw [hall, after_append] at hdepth
    by_cases hj : j < ops.length
    · left
      rw [htake hj.le] at hstores
      rw [List.getElem?_append_left hj] at hlast
      refine ⟨⟨⟨last, hlast, hstores⟩, fun k hjk hk => ?_⟩, hdepth⟩
      have hstays := h.stays k hjk (by simp; omega)
      rwa [htake hk] at hstays
    · right
      have heq : j = ops.length := by omega
      subst heq
      rw [htake le_rfl, List.take_length] at hstores
      rw [List.getElem?_concat_length, Option.some.injEq] at hlast
      subst hlast
      exact ⟨rfl, hstores⟩
  · rintro (⟨h, hdepth⟩ | ⟨rfl, hstores⟩)
    · obtain ⟨first, hfirst, hstores⟩ := h.stores
      have hlt := h.lt_length
      refine ⟨⟨first, ?_, ?_⟩, fun k hjk hk => ?_⟩
      · rwa [List.getElem?_append_left hlt]
      · rwa [htake hlt.le]
      · rw [List.length_append, List.length_singleton] at hk
        rcases Nat.lt_or_ge ops.length k with hgt | hle
        · have heq : k = ops.length + 1 := by omega
          rwa [heq, hall, after_append]
        · rw [htake hle]
          exact h.stays k hjk hle
    · refine ⟨⟨op, List.getElem?_concat_length, ?_⟩, fun k hjk hk => ?_⟩
      · rwa [htake le_rfl, List.take_length]
      · rw [List.length_append, List.length_singleton] at hk
        have heq : k = ops.length + 1 := by omega
        obtain ⟨hdepth, hlevel⟩ := depth_next_of_stores hstores
        rw [heq, hall, after_append, hdepth]
        exact hlevel

theorem HasBound.lt_depth (h : HasBound ops j level sym) : level < (after ops).depth := by
  have hstays := h.stays ops.length h.lt_length le_rfl
  rwa [List.take_length] at hstays

theorem latest_congr {ops' : List Operation}
    (h : ∀ j sym, sym.name = name → (HasBound ops j level sym ↔ HasBound ops' j level sym)) :
    Latest ops level name sym ↔ Latest ops' level name sym := by
  unfold Latest
  refine exists_congr fun j => ?_
  constructor
  · rintro ⟨hthere, hname, hlast⟩
    exact ⟨(h j sym hname).mp hthere, hname,
      fun i other hother hname' => hlast i other ((h i other hname').mpr hother) hname'⟩
  · rintro ⟨hthere, hname, hlast⟩
    exact ⟨(h j sym hname).mpr hthere, hname,
      fun i other hother hname' => hlast i other ((h i other hname').mp hother) hname'⟩

theorem latest_append_of_stores {new : Symbol} (h : op.Stores (after ops) level new)
    (there : Nat) (name : Bytes) :
    Latest (ops ++ [op]) there name sym ↔
      if there = level ∧ new.name = name then new = sym else Latest ops there name sym := by
  have hnew : HasBound (ops ++ [op]) ops.length level new := hasBound_append.mpr (Or.inr ⟨rfl, h⟩)
  by_cases hplace : there = level ∧ new.name = name
  · rw [if_pos hplace]
    obtain ⟨rfl, rfl⟩ := hplace
    have hlatest : Latest (ops ++ [op]) there new.name new := by
      refine ⟨ops.length, hnew, rfl, fun i other hother _ => ?_⟩
      have hlt := hother.lt_length
      rw [List.length_append, List.length_singleton] at hlt
      omega
    constructor
    · exact hlatest.unique
    · rintro rfl
      exact hlatest
  · rw [if_neg hplace]
    refine latest_congr fun j other hname => ?_
    rw [hasBound_append]
    constructor
    · rintro (⟨hold, _⟩ | ⟨_, hstores⟩)
      · exact hold
      · obtain ⟨rfl, rfl⟩ := h.unique hstores
        exact absurd ⟨rfl, hname⟩ hplace
    · intro hold
      refine Or.inl ⟨hold, ?_⟩
      rw [(depth_next_of_stores h).1]
      exact hold.lt_depth

theorem latest_append_of_not_stores (h : ∀ level sym, ¬op.Stores (after ops) level sym) :
    Latest (ops ++ [op]) level name sym ↔
      level < (op.next (after ops)).depth ∧ Latest ops level name sym := by
  by_cases hdepth : level < (op.next (after ops)).depth
  · rw [and_iff_right hdepth]
    refine latest_congr fun j other _ => ?_
    rw [hasBound_append]
    constructor
    · rintro (⟨hold, _⟩ | ⟨_, hstores⟩)
      · exact hold
      · exact absurd hstores (h level other)
    · intro hold
      exact Or.inl ⟨hold, hdepth⟩
  · constructor
    · rintro ⟨j, hthere, _⟩
      have hlt := hthere.lt_depth
      rw [after_append] at hlt
      exact absurd hlt hdepth
    · intro hlatest
      exact absurd hlatest.1 hdepth

/-- The scopes hold the latest bindings. -/
theorem symbolAt_after (ops : List Operation) (level : Nat) (name : Bytes) (sym : Symbol) :
    (after ops).symbolAt level name = some sym ↔ Latest ops level name sym := by
  induction ops using List.reverseRecOn generalizing level name sym with
  | nil =>
      have hnone : (after []).symbolAt level name = none := by
        cases level <;> rfl
      rw [hnone]
      constructor
      · intro hsome
        contradiction
      · rintro ⟨j, hthere, _⟩
        exact absurd hthere.lt_length (Nat.not_lt_zero j)
  | append_singleton ops op ih =>
      rw [after_append]
      rcases op.stores_or_not (after ops) with ⟨there, new, hstores⟩ | hnot
      · rw [symbolAt_next_of_stores hstores, latest_append_of_stores hstores]
        split
        · exact Option.some.injEq new sym ▸ Iff.rfl
        · exact ih level name sym
      · rw [symbolAt_next_of_not_stores hnot, latest_append_of_not_stores hnot, ← ih]
        split
        next hdepth => rw [and_iff_right hdepth]
        next hdepth => simp [hdepth]

/-- A name that was bound in a scope is bound there as long as the scope is there, and always to the
same kind. -/
theorem exists_latest_of_hasBound (h : HasBound ops j level sym) :
    ∃ now, Latest ops level sym.name now ∧ now.kind = sym.kind := by
  induction ops using List.reverseRecOn with
  | nil => exact absurd h.lt_length (Nat.not_lt_zero j)
  | append_singleton ops op ih =>
      rcases hasBound_append.mp h with ⟨hold, hdepth⟩ | ⟨_, hstores⟩
      · obtain ⟨now, hnow, hkind⟩ := ih hold
        rcases op.stores_or_not (after ops) with ⟨there, new, hstores⟩ | hnot
        · by_cases hplace : level = there ∧ new.name = sym.name
          · obtain ⟨rfl, hname⟩ := hplace
            refine ⟨new, (latest_append_of_stores hstores _ _).mpr (by simp [hname]), ?_⟩
            rw [← symbolAt_after, ← hname] at hnow
            exact (kind_of_stores hstores hnow).symm.trans hkind
          · refine ⟨now, (latest_append_of_stores hstores _ _).mpr ?_, hkind⟩
            rwa [if_neg hplace]
        · exact ⟨now, (latest_append_of_not_stores hnot).mpr ⟨hdepth, hnow⟩, hkind⟩
      · exact ⟨sym, (latest_append_of_stores hstores _ _).mpr (by simp), rfl⟩

theorem kind_of_hasBound (h : HasBound ops j level sym) (h' : HasBound ops i level other)
    (hname : other.name = sym.name) : other.kind = sym.kind := by
  obtain ⟨now, hnow, hkind⟩ := exists_latest_of_hasBound h
  obtain ⟨now', hnow', hkind'⟩ := exists_latest_of_hasBound h'
  rw [hname] at hnow'
  rw [← hkind, ← hkind', hnow.unique hnow']

end

/-! ## Failures and answers -/

theorem pop_eq_error_iff {s : Scopes} {e : ScopeError} :
    s.pop = .error e ↔ s.depth = 1 ∧ e = .globalPop := by
  unfold pop depth
  cases s.blocks with
  | nil => simp [eq_comm]
  | cons first rest => simp

theorem run_eq_error_iff {op : Operation} {s : Scopes} {level : Nat} {sym : Symbol}
    {e : ScopeError} (h : op.binding? s = some (level, sym)) :
    op.run s = .error e ↔
      ∃ old, s.symbolAt level sym.name = some old ∧ old.kind ≠ sym.kind ∧
        e = .kindMismatch sym.name old.kind [sym.kind] := by
  obtain ⟨scope, hscope, hmap⟩ := map_levels_run h
  have herror : op.run s = .error e ↔ scope.bind sym = .error e := by
    cases hrun : op.run s <;> cases hbind : scope.bind sym <;>
      simp_all [Except.map]
  unfold symbolAt findAt
  rw [herror, Scope.bind_eq_error_iff, hscope, Option.bind_some]

/-- The symbol stands at a level, and nothing stands further inside. -/
def Innermost (bound : Nat → Symbol → Prop) (sym : Symbol) : Prop :=
  ∃ level, bound level sym ∧ ∀ inner other, level < inner → ¬bound inner other

/-- What a look-up answers if `bound level sym` says what the name stands for at a level. -/
structure Answers (bound : Nat → Symbol → Prop) (name : Bytes) (wanted : List Kind)
    (answer : Except ScopeError Symbol) : Prop where
  ok : ∀ sym, answer = .ok sym ↔ Innermost bound sym ∧ sym.kind ∈ wanted
  mismatch : ∀ kind, answer = .error (.kindMismatch name kind wanted) ↔
    ∃ sym, Innermost bound sym ∧ sym.kind = kind ∧ kind ∉ wanted
  notFound : answer = .error (.notFound name wanted) ↔ ∀ level sym, ¬bound level sym

theorem findSome?_reverse_eq_some_iff (scopes : List Scope) (name : Bytes) (sym : Symbol) :
    scopes.reverse.findSome? (·.find? name) = some sym ↔
      Innermost (fun level sym => findAt scopes level name = some sym) sym := by
  induction scopes using List.reverseRecOn with
  | nil => simp [Innermost, findAt]
  | append_singleton scopes last ih =>
      rw [List.reverse_append, List.reverse_singleton, List.singleton_append, List.findSome?_cons]
      cases hfind : last.find? name with
      | some found =>
          have hlast : findAt (scopes ++ [last]) scopes.length name = some found := by
            rw [findAt_append, if_pos rfl, hfind]
          rw [Option.some.injEq]
          constructor
          · rintro rfl
            refine ⟨scopes.length, hlast, fun inner other hinner => ?_⟩
            simp [findAt_of_length_le (show (scopes ++ [last]).length ≤ inner by simp; omega)]
          · rintro ⟨level, hlevel, hinner⟩
            rcases lt_trichotomy level scopes.length with hlt | rfl | hgt
            · exact absurd hlast (hinner _ found hlt)
            · exact Option.some.inj (hlast.symm.trans hlevel)
            · rw [findAt_of_length_le (by simp; omega)] at hlevel
              contradiction
      | none =>
          -- the last scope does not bind the name, so it makes no difference at any level
          have hsame : ∀ level,
              findAt (scopes ++ [last]) level name = findAt scopes level name := by
            intro level
            rw [findAt_append]
            split
            next hlevel => rw [hfind, findAt_of_length_le hlevel.ge]
            next => rfl
          simp only [hsame]
          exact ih

theorem findSome?_reverse_eq_none_iff (scopes : List Scope) (name : Bytes) :
    scopes.reverse.findSome? (·.find? name) = none ↔
      ∀ level sym, ¬findAt scopes level name = some sym := by
  rw [List.findSome?_eq_none_iff]
  constructor
  · intro hall level sym hlevel
    obtain ⟨scope, hscope, hfind⟩ := Option.bind_eq_some_iff.mp hlevel
    rw [hall scope (List.mem_reverse.mpr (List.mem_of_getElem? hscope))] at hfind
    contradiction
  · intro hall scope hscope
    obtain ⟨level, hlevel⟩ := List.mem_iff_getElem?.mp (List.mem_reverse.mp hscope)
    cases hfind : scope.find? name with
    | none => rfl
    | some sym =>
        have hbound : findAt scopes level name = some sym := by
          rw [findAt, hlevel, Option.bind_some, hfind]
        exact absurd hbound (hall level sym)

theorem answers_lookupIn (scopes : List Scope) (name : Bytes) (wanted : List Kind) :
    Answers (fun level sym => findAt scopes level name = some sym) name wanted
      (lookupIn scopes.reverse name wanted) := by
  have hsome := findSome?_reverse_eq_some_iff scopes name
  have hnone := findSome?_reverse_eq_none_iff scopes name
  unfold lookupIn
  cases hfound : scopes.reverse.findSome? (·.find? name) with
  | none =>
      rw [hfound] at hsome hnone
      have hnowhere := hnone.mp rfl
      refine ⟨fun sym => ?_, fun kind => ?_, ?_⟩
      · simp [← hsome]
      · simp [← hsome]
      · simpa using hnowhere
  | some found =>
      rw [hfound] at hsome hnone
      have hsomewhere : ¬∀ level sym, ¬findAt scopes level name = some sym := by
        rw [← hnone]
        simp
      by_cases hkind : found.kind ∈ wanted
      · simp only [if_pos hkind]
        refine ⟨fun sym => ?_, fun kind => ?_, ?_⟩
        · simp only [← hsome, Except.ok.injEq, Option.some.injEq]
          constructor
          · rintro rfl
            exact ⟨rfl, hkind⟩
          · exact And.left
        · simp only [← hsome, Option.some.injEq, reduceCtorEq, false_iff]
          rintro ⟨sym, rfl, rfl, hnot⟩
          exact hnot hkind
        · simpa using hsomewhere
      · simp only [if_neg hkind]
        refine ⟨fun sym => ?_, fun kind => ?_, ?_⟩
        · simp only [← hsome, Option.some.injEq, reduceCtorEq, false_iff]
          rintro ⟨rfl, hmem⟩
          exact hkind hmem
        · simp only [← hsome, Option.some.injEq, Except.error.injEq, ScopeError.kindMismatch.injEq,
            true_and, and_true]
          constructor
          · rintro rfl
            exact ⟨found, rfl, rfl, hkind⟩
          · rintro ⟨sym, rfl, rfl, _⟩
            rfl
        · simpa using hsomewhere

/-- In every run from the global scope alone, with its failures, there is a scope, and the bindings
of a name in a scope are all of one kind for as long as the scope is there.  An operation that fails
changes nothing; leaving a scope fails at the global one only, and binding a name fails only if the
scope that is to take it has the name with another kind.  A look-up finds the latest binding of the
name in the innermost scope that has one, whether or not its kind is wanted. -/
theorem scopes_hold_latest_bindings (ops : List Operation) :
    let s := after ops
    1 ≤ s.depth ∧
    (∀ i level sym, HasBound ops i level sym →
      (∃ now, Latest ops level sym.name now) ∧
      ∀ j other, HasBound ops j level other → other.name = sym.name → other.kind = sym.kind) ∧
    (∀ op e, op.run s = .error e → after (ops ++ [op]) = s) ∧
    (∀ e, s.pop = .error e ↔ s.depth = 1 ∧ e = .globalPop) ∧
    (∀ sym e, s.bind sym = .error e ↔
      ∃ old, Latest ops (s.depth - 1) sym.name old ∧ old.kind ≠ sym.kind ∧
        e = .kindMismatch sym.name old.kind [sym.kind]) ∧
    (∀ sym e, s.bindGlobal sym = .error e ↔
      ∃ old, Latest ops 0 sym.name old ∧ old.kind ≠ sym.kind ∧
        e = .kindMismatch sym.name old.kind [sym.kind]) ∧
    ∀ name wanted,
      Answers (fun level sym => Latest ops level name sym) name wanted (s.lookup name wanted) ∧
      Answers (fun level sym => level = 0 ∧ Latest ops 0 name sym) name wanted
        (s.lookupGlobal name wanted) := by
  intro s
  have hheld : ∀ level name sym, Latest ops level name sym ↔ s.symbolAt level name = some sym :=
    fun level name sym => (symbolAt_after ops level name sym).symm
  refine ⟨Nat.le_add_left 1 _, ?_, ?_, fun e => pop_eq_error_iff, ?_, ?_, ?_⟩
  · intro i level sym hthere
    obtain ⟨now, hnow, _⟩ := exists_latest_of_hasBound hthere
    exact ⟨⟨now, hnow⟩, fun j other hother => kind_of_hasBound hthere hother⟩
  · intro op e hfails
    rw [after_append, next, hfails]
  · intro sym e
    simp only [hheld]
    exact @run_eq_error_iff (.bind sym) s _ sym e rfl
  · intro sym e
    simp only [hheld]
    exact @run_eq_error_iff (.bindGlobal sym) s _ sym e rfl
  · intro name wanted
    simp only [hheld]
    constructor
    · have hanswers := answers_lookupIn s.levels name wanted
      have horder : s.levels.reverse = s.lookupOrder := by simp [levels, lookupOrder]
      rw [horder] at hanswers
      exact hanswers
    · have hanswers := answers_lookupIn [s.outermost] name wanted
      have hbound : ∀ level sym, findAt [s.outermost] level name = some sym ↔
          level = 0 ∧ s.symbolAt 0 name = some sym := by
        intro level sym
        cases level <;> simp [symbolAt, findAt, levels]
      simp only [hbound] at hanswers
      exact hanswers

end Scopes

end Gx
