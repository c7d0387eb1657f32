import Gx.Proofs.Scopes
import Gx.Proofs.Visits

/-!
# Numbers that fit their kind

A value is a byte, and a register is one of thirty-two.  Numerals are checked where they are used,
and a name gets its number from an operand of its own kind.  So all symbols are in range, whatever
has been encoded, and no operand of a kind is worth more than the kind allows.
-/

namespace Gx

/-- The greatest number of a kind. -/
def Kind.greatest : Kind → Nat
  | .value => 0xFF
  | .register => maxRegister
  | _ => EncodeError.greatestWord

def Symbol.InRange (sym : Symbol) : Prop := sym.value.toNat ≤ sym.kind.greatest

/-- All symbols of all scopes are in range. -/
def Scopes.InRange (scopes : Scopes) : Prop :=
  ∀ scope ∈ scopes.lookupOrder, ∀ sym ∈ scope.symbols, sym.InRange

theorem Symbol.inRange_address (name : Bytes) (v : UInt16) :
    (⟨name, .address, v⟩ : Symbol).InRange :=
  Nat.le_of_lt_succ v.toNat_lt

namespace Scopes

theorem lookup_mem {scopes : Scopes} {name : Bytes} {wanted : List Kind} {sym : Symbol}
    (h : scopes.lookup name wanted = .ok sym) :
    sym.kind ∈ wanted ∧ ∃ scope ∈ scopes.lookupOrder, sym ∈ scope.symbols := by
  unfold lookup lookupIn at h
  split at h
  next => contradiction
  next found hfound =>
    split at h
    next hkind =>
      cases h
      obtain ⟨scope, hscope, hfind⟩ := List.exists_of_findSome?_eq_some hfound
      exact ⟨hkind, scope, hscope, List.mem_of_find?_eq_some hfind⟩
    next => contradiction

namespace InRange

variable {scopes next : Scopes} {sym : Symbol}

theorem initial : ({} : Scopes).InRange := by
  intro scope hscope sym hsym
  obtain rfl := List.mem_singleton.mp hscope
  contradiction

theorem push (h : scopes.InRange) : scopes.push.InRange := by
  intro scope hscope sym hsym
  rcases List.mem_cons.mp hscope with rfl | hold
  · contradiction
  · exact h scope hold sym hsym

theorem of_blocks_suffix (h : scopes.InRange) {blocks : List Scope}
    (hblocks : blocks <:+ scopes.blocks) : ({ scopes with blocks } : Scopes).InRange := by
  intro scope hscope sym hsym
  refine h scope ?_ sym hsym
  rcases List.mem_append.mp hscope with hblock | houtermost
  · exact List.mem_append_left _ (hblocks.subset hblock)
  · exact List.mem_append_right _ houtermost

theorem bindGlobal (h : scopes.InRange) (hsym : sym.InRange)
    (hbind : scopes.bindGlobal sym = .ok next) : next.InRange := by
  obtain ⟨outermost, hscope, rfl⟩ := bindGlobal_eq_ok_iff.mp hbind
  intro scope hmem other hother
  rcases List.mem_append.mp hmem with hblock | hlast
  · exact h scope (List.mem_append_left _ hblock) other hother
  · obtain rfl := List.mem_singleton.mp hlast
    rw [Scope.eq_put_of_bind hscope] at hother
    rcases Scope.mem_put hother with rfl | hold
    · exact hsym
    · exact h _ (List.mem_append_right _ (List.mem_singleton_self _)) other hold

theorem bind (h : scopes.InRange) (hsym : sym.InRange) (hbind : scopes.bind sym = .ok next) :
    next.InRange := by
  rcases bind_eq_ok hbind with ⟨_, hglobal⟩ | ⟨innermost, rest, changed, hblocks, hscope, rfl⟩
  · exact h.bindGlobal hsym hglobal
  · intro scope hmem other hother
    have hold : ∀ scope ∈ innermost :: rest ++ [scopes.outermost],
        ∀ sym ∈ scope.symbols, sym.InRange := by
      rw [← hblocks]
      exact h
    rcases List.mem_cons.mp hmem with rfl | hrest
    · rw [Scope.eq_put_of_bind hscope] at hother
      rcases Scope.mem_put hother with rfl | hbefore
      · exact hsym
      · exact hold innermost List.mem_cons_self other hbefore
    · exact hold scope (List.mem_cons_of_mem _ hrest) other hother

end InRange

end Scopes

/-! ## Values of operands -/

theorem Numeral.valueAs_le {n : Numeral} {kind : Kind} {v : UInt16}
    (h : n.valueAs kind = .ok v) : v.toNat ≤ kind.greatest := by
  unfold Numeral.valueAs at h
  split at h
  next => contradiction
  next number hnumber =>
    split at h
    next => contradiction
    next hword =>
      split at h
      next => contradiction
      next hregister =>
        split at h
        next => contradiction
        next hvalue =>
          cases h
          have hlt : number < 2 ^ 16 := by
            unfold EncodeError.greatestWord at hword
            omega
          rw [UInt16.toNat_ofNat_of_lt' hlt]
          cases kind with
          | value => exact not_lt.mp fun hgreat => hvalue ⟨rfl, hgreat⟩
          | register => exact not_lt.mp fun hgreat => hregister ⟨rfl, hgreat⟩
          | address => exact not_lt.mp hword
          | other code => exact not_lt.mp hword

theorem RegisterName.number_le {r : RegisterName} {v : UInt16} (h : r.number = .ok v) :
    v.toNat ≤ Kind.register.greatest := by
  cases r with
  | high =>
      cases h
      decide
  | remainder =>
      cases h
      decide
  | numbered n => exact Numeral.valueAs_le h

theorem Half.select_le (side : Half) (a : UInt16) :
    (side.select a).toNat ≤ Kind.value.greatest := by
  have ha := a.toNat_lt
  cases side with
  | hi =>
      have hshift : (a >>> 8).toNat = a.toNat / 2 ^ 8 := by
        simp [Nat.shiftRight_eq_div_pow]
      rw [Half.select, hshift, Kind.greatest]
      omega
  | lo =>
      have hand : (a &&& 0xFF).toNat = a.toNat % 2 ^ 8 := by
        simp [Nat.and_two_pow_sub_one_eq_mod _ 8]
      rw [Half.select, hand, Kind.greatest]
      omega

/-- What an operand is worth fits the kind that is needed. -/
theorem Operand.value_le {scopes : Scopes} (hscopes : scopes.InRange) {x : Operand} {kind : Kind}
    {v : UInt16} (h : x.value scopes kind = .ok v) : v.toNat ≤ kind.greatest := by
  induction x generalizing kind v with
  | number n => exact Numeral.valueAs_le h
  | name span n =>
      rw [Operand.value] at h
      split at h
      next sym hlookup =>
        cases h
        obtain ⟨hkind, scope, hscope, hsym⟩ := Scopes.lookup_mem hlookup
        rw [← List.mem_singleton.mp hkind]
        exact hscopes scope hscope sym hsym
      next => contradiction
  | half span side address _ =>
      rw [Operand.value] at h
      split at h
      next hkind =>
        split at h
        next a ha =>
          cases h
          rw [hkind]
          exact side.select_le a
        next => contradiction
      next => contradiction
  | register span r =>
      rw [Operand.value] at h
      split at h
      next hkind =>
        rw [hkind]
        exact RegisterName.number_le h
      next => contradiction
  | load span target value ih _ => exact ih h
  | fetch span target address ih _ => exact ih h
  | text span value => contradiction
  | missing => contradiction

/-! ## Encoding -/

namespace Encode

/-- All symbols in force are in range. -/
def Ranged (s : Assembly) : Prop := s.scopes.InRange

theorem ranged_define {s : Assembly} (hs : Ranged s) {name : Bytes} {kind : Kind} {v : UInt16}
    (hv : v.toNat ≤ kind.greatest) : Ranged (finalState (define name kind v s)) := by
  have hsym : (⟨name, kind, v⟩ : Symbol).InRange := hv
  rw [define_eq]
  cases hbind : s.scopes.bind ⟨name, kind, v⟩ with
  | error e => exact hs
  | ok next => exact Scopes.InRange.bind hs hsym hbind

theorem ranged_defineLabel {s : Assembly} (hs : Ranged s) (name : Bytes) :
    Ranged (finalState (defineLabel name s)) := by
  unfold defineLabel
  cases hbind : s.scopes.bindGlobal ⟨name, .address, UInt16.ofNat s.image.size⟩ with
  | error e => exact hs
  | ok next => exact Scopes.InRange.bindGlobal hs (Symbol.inRange_address _ _) hbind

theorem ranged_leaveScope {s : Assembly} (hs : Ranged s) :
    Ranged (finalState (leaveScope s)) := by
  cases hblocks : s.scopes.blocks with
  | nil =>
      unfold leaveScope Scopes.pop
      simp only [hblocks]
      exact hs
  | cons innermost rest =>
      rw [leaveScope_of_blocks hblocks]
      apply Scopes.InRange.of_blocks_suffix hs
      rw [hblocks]
      exact List.suffix_cons _ _

/-- A name is bound to what an operand of its own kind is worth. -/
theorem keeps_define_value (name : Bytes) (kind : Kind) (x : Operand) :
    Keeps Ranged (fun _ => Ranged) (do define name kind (← value x kind)) := by
  refine keeps_iff_finalState.mpr fun s hs => ?_
  rw [bind_eq]
  unfold value
  cases hv : x.value s.scopes kind with
  | error e => exact hs
  | ok v => exact ranged_define hs (Operand.value_le hs hv)

theorem keeps_define_register (name : Bytes) (x : Operand) :
    Keeps Ranged (fun _ => Ranged)
      (do define name .register (← register x).toUInt16) := by
  refine keeps_iff_finalState.mpr fun s hs => ?_
  unfold register
  rw [bind_eq, bind_eq]
  unfold value
  cases hv : x.value s.scopes .register with
  | error e => exact hs
  | ok v =>
      have hle := Operand.value_le hs hv
      refine ranged_define hs (le_trans ?_ hle)
      simp only [UInt8.toNat_toUInt16, UInt16.toNat_toUInt8]
      exact Nat.mod_le _ _

section

variable {f : Forward} (hf : f.KeepsScopes)

include hf

theorem ranged_leaf : LeafInvariant Ranged (fun _ => Ranged) f { define := fun _ => False } := by
  have hsame : ∀ {a : Encode Unit}, (∀ s, (finalState (a s)).scopes = s.scopes) →
      Keeps Ranged (fun _ => Ranged) a :=
    keeps_of_scopes (fun hscopes hs => by unfold Ranged; rwa [hscopes]) id
  exact
    { thrown := fun e hs => hs
      push := fun data => hsame (scopes_onImage _)
      forward := fun name part _ => hsame (hf name part)
      label := fun name _ => keeps_iff_finalState.mpr fun s hs => ranged_defineLabel hs name
      define := fun name kind value hname => hname.elim }

/-- Encoding a statement keeps all symbols in range, also when it fails. -/
theorem keeps_ranged_leaf {x : Statement} (hx : x.isBlock = false) :
    Keeps Ranged (fun _ => Ranged) (statement f x) := by
  have hlocated : ∀ {a : Encode Unit}, Keeps Ranged (fun _ => Ranged) a →
      Keeps Ranged (fun _ => Ranged) (located a) :=
    fun h => keeps_iff_simulates.mpr (keeps_iff_simulates.mp h).located
  cases x with
  | defineValue span name y => exact hlocated (keeps_define_value name .value y)
  | defineAddress span name y => exact hlocated (keeps_define_value name .address y)
  | defineRegister span name y =>
      have hsetup := (ranged_leaf hf).stepwise.emitting.emitSetup (x := y) fun _ _ => trivial
      apply hlocated
      exact (keeps_iff_simulates.mpr hsetup).bind fun _ => keeps_define_register name y
  | _ =>
      exact (ranged_leaf hf).leaf hx ⟨fun _ _ => trivial, fun n hn => absurd hn List.not_mem_nil,
        fun _ _ => trivial⟩

end

theorem Moves.ranged {s t : Assembly} (h : Moves s t) (hs : Ranged s) : Ranged t := by
  induction h with
  | refl => exact hs
  | enter _ ih => exact Scopes.InRange.push ih
  | leave _ hleave ih =>
      have hleft := ranged_leaveScope ih
      rwa [hleave] at hleft

end Encode

end Gx
