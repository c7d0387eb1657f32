import Gx.Proofs.Grammar.Rendering
import Gx.Proofs.Ranges
import Gx.Proofs.TwoPasses
import Gx.Proofs.Uses

/-!
# Reading instructions back from an image

An image without data is a row of instructions, and the opcodes tell how long each of them is.
`Code.decode` reads it so, knowing nothing of the program.  What it should find is said by
`Statement.code?`: the instructions of a statement with the numbers of their operands, in terms of
the scopes in which the statement's turn comes.

The bytes are those of the second pass, which has no references, so each statement is followed
there.  The numbers fit their bytes because all symbols are in range.
-/

namespace Gx

/-- An instruction of the machine: the numbers of its operands stand behind it. -/
structure Code where
  instruction : Instruction
  operands : List UInt16
  deriving DecidableEq

/-! ## Decoding -/

namespace Code

/-- Reads the number of an operand off the front: two bytes of an address, the higher one first, or
else one byte. -/
def readOperand : Kind → Bytes → Option (UInt16 × Bytes)
  | .address, high :: low :: rest => some (UInt16.ofNat (high.toNat * 256 + low.toNat), rest)
  | .address, _ => none
  | _, b :: rest => some (b.toUInt16, rest)
  | _, [] => none

def readOperands : List Kind → Bytes → Option (List UInt16 × Bytes)
  | [], bytes => some ([], bytes)
  | kind :: kinds, bytes => do
      let (v, bytes) ← readOperand kind bytes
      let (vs, bytes) ← readOperands kinds bytes
      return (v :: vs, bytes)

def read : Bytes → Option (Code × Bytes)
  | [] => none
  | opcode :: bytes => do
      let i ← Instruction.table.find? (·.opcode == opcode)
      let (vs, bytes) ← readOperands i.operands bytes
      return (⟨i, vs⟩, bytes)

theorem readOperand_length_le {kind : Kind} {bytes rest : Bytes} {v : UInt16}
    (h : readOperand kind bytes = some (v, rest)) : rest.length ≤ bytes.length := by
  unfold readOperand at h
  split at h
  all_goals cases h
  all_goals simp only [List.length_cons]; omega

theorem readOperands_length_le {kinds : List Kind} {bytes rest : Bytes} {vs : List UInt16}
    (h : readOperands kinds bytes = some (vs, rest)) : rest.length ≤ bytes.length := by
  induction kinds generalizing bytes vs with
  | nil =>
      cases h
      exact le_rfl
  | cons kind kinds ih =>
      simp only [readOperands, Option.bind_eq_bind, Option.bind_eq_some_iff] at h
      obtain ⟨⟨v, mid⟩, hfirst, ⟨vs, last⟩, hrest, h⟩ := h
      cases h
      exact (ih hrest).trans (readOperand_length_le hfirst)

theorem read_length_lt {bytes rest : Bytes} {code : Code} (h : read bytes = some (code, rest)) :
    rest.length < bytes.length := by
  cases bytes with
  | nil => contradiction
  | cons opcode bytes =>
      simp only [read, Option.bind_eq_bind, Option.bind_eq_some_iff] at h
      obtain ⟨i, _, ⟨vs, last⟩, hoperands, h⟩ := h
      cases h
      exact Nat.lt_succ_of_le (readOperands_length_le hoperands)

/-- The instructions that the bytes consist of, if they do. -/
def decode (bytes : Bytes) : Option (List Code) :=
  if bytes = [] then some []
  else
    match _h : read bytes with
    | none => none
    | some (code, rest) => (decode rest).map (code :: ·)
termination_by bytes.length
decreasing_by exact read_length_lt _h

/-! ## Decoding what has been encoded -/

def operandBytes : Kind → UInt16 → Bytes
  | .address, v => wordBytes v
  | _, v => [v.toUInt8]

def bytes (code : Code) : Bytes :=
  code.instruction.opcode ::
    (code.instruction.operands.zip code.operands).flatMap fun p => operandBytes p.1 p.2

/-- The instruction exists, and each operand fits the bytes of its kind. -/
structure Fits (code : Code) : Prop where
  known : code.instruction ∈ Instruction.table
  operands : List.Forall₂ (fun kind v => v.toNat < 256 ^ kind.width) code.instruction.operands
    code.operands

theorem readOperand_bytes {kind : Kind} {v : UInt16} (hv : v.toNat < 256 ^ kind.width)
    (rest : Bytes) : readOperand kind (operandBytes kind v ++ rest) = some (v, rest) := by
  cases kind with
  | address =>
      have hjoin : v.toNat / 256 % 256 * 256 + v.toNat % 256 = v.toNat := by
        have hlt := v.toNat_lt
        omega
      simp [readOperand, operandBytes, wordBytes, Nat.shiftRight_eq_div_pow, hjoin]
  | _ =>
      have hlow : v.toUInt8.toUInt16 = v := by
        apply UInt16.toNat_inj.mp
        have hmod : v.toNat % 256 = v.toNat := Nat.mod_eq_of_lt hv
        simpa using hmod
      simp [readOperand, operandBytes, hlow]

theorem readOperands_bytes {kinds : List Kind} {vs : List UInt16}
    (hfits : List.Forall₂ (fun kind v => v.toNat < 256 ^ kind.width) kinds vs) (rest : Bytes) :
    readOperands kinds ((kinds.zip vs).flatMap (fun p => operandBytes p.1 p.2) ++ rest) =
      some (vs, rest) := by
  induction hfits with
  | nil => rfl
  | cons hv _ ih => simp [readOperands, readOperand_bytes hv, ih]

theorem find?_opcode {i : Instruction} (hi : i ∈ Instruction.table) :
    Instruction.table.find? (·.opcode == i.opcode) = some i := by
  revert i
  decide

theorem read_bytes {code : Code} (hfits : code.Fits) (rest : Bytes) :
    read (code.bytes ++ rest) = some (code, rest) := by
  simp [read, bytes, find?_opcode hfits.known, readOperands_bytes hfits.operands]

theorem decode_flatMap_bytes {codes : List Code} (hfits : ∀ code ∈ codes, code.Fits) :
    decode (codes.flatMap bytes) = some codes := by
  induction codes with
  | nil => rw [List.flatMap_nil, decode, if_pos rfl]
  | cons code codes ih =>
      rw [List.forall_mem_cons] at hfits
      have hread := read_bytes hfits.1 (codes.flatMap bytes)
      have hne : code.bytes ++ codes.flatMap bytes ≠ [] := by simp [bytes]
      rw [List.flatMap_cons, decode, if_neg hne]
      split
      next hnone => simp [hread] at hnone
      next found rest hfound =>
        rw [hread] at hfound
        cases hfound
        rw [ih hfits.2]
        rfl

end Code

/-! ## The instructions of a statement -/

/-- The address of a name: what it is bound to, or else its address in the end. -/
def Scopes.addressOf? (scopes last : Scopes) (name : Bytes) : Option UInt16 :=
  match scopes.lookup name [.address] with
  | .ok sym => some sym.value
  | .error (.notFound _ _) => (last.lookupGlobal name [.address]).toOption.map (·.value)
  | .error _ => none

namespace Operand

def register? (scopes : Scopes) (x : Operand) : Option UInt16 :=
  (x.value scopes .register).toOption

def address? (scopes last : Scopes) : Operand → Option UInt16
  | .name _ n => scopes.addressOf? last n
  | x => (x.value scopes .address).toOption

def byte? (scopes last : Scopes) : Operand → Option UInt16
  | .half _ side (.name _ n) => (scopes.addressOf? last n).map side.select
  | x => (x.value scopes .value).toOption

def number? (scopes last : Scopes) (kind : Kind) (x : Operand) : Option UInt16 :=
  match kind with
  | .register => x.register? scopes
  | .address => x.address? scopes last
  | _ => x.byte? scopes last

/-- The instructions that give a register operand its content, innermost first. -/
def setup? (scopes last : Scopes) : Operand → Option (List Code)
  | .load _ target value => do
      let before ← target.setup? scopes last
      return before ++ [⟨.set, [← target.register? scopes, ← value.byte? scopes last]⟩]
  | .fetch _ target address => do
      let before ← target.setup? scopes last
      return before ++ [⟨.ld, [← target.register? scopes, ← address.address? scopes last]⟩]
  | _ => some []

variable {scopes last : Scopes} {x : Operand} {v : UInt16}

theorem le_of_toOption (hscopes : scopes.InRange) {kind : Kind}
    (h : (x.value scopes kind).toOption = some v) : v.toNat ≤ kind.greatest := by
  cases hvalue : x.value scopes kind with
  | ok w =>
      rw [hvalue] at h
      cases h
      exact value_le hscopes hvalue
  | error e =>
      rw [hvalue] at h
      contradiction

theorem byte?_le (hscopes : scopes.InRange) (h : x.byte? scopes last = some v) :
    v.toNat ≤ 0xFF := by
  unfold byte? at h
  split at h
  next span side span' n =>
    obtain ⟨address, _, rfl⟩ := Option.map_eq_some_iff.mp h
    exact side.select_le address
  next => exact le_of_toOption hscopes h

theorem number?_lt (hscopes : scopes.InRange) {kind : Kind}
    (h : x.number? scopes last kind = some v) : v.toNat < 256 ^ kind.width := by
  cases kind with
  | register =>
      have hle : v.toNat ≤ maxRegister := le_of_toOption hscopes h
      exact lt_of_le_of_lt hle (by decide)
  | address => exact v.toNat_lt
  | _ => exact Nat.lt_succ_of_le (byte?_le hscopes h)

end Operand

/-- The setup of the register operands, and the instruction behind it. -/
def Instruction.code? (scopes last : Scopes) (i : Instruction) (operands : List Operand) :
    Option (List Code) := do
  let declared := i.operands.zip operands
  let setups ← declared.mapM fun p =>
    if p.1 = .register then p.2.setup? scopes last else some []
  let numbers ← declared.mapM fun p => p.2.number? scopes last p.1
  return setups.flatten ++ [⟨i, numbers⟩]

/-- The instructions of a statement.  Data is no code. -/
def Statement.code? (scopes last : Scopes) : Statement → Option (List Code)
  | .instruction _ i operands => i.code? scopes last operands
  | .defineRegister _ _ x => x.setup? scopes last
  | .label _ _ | .defineValue _ _ _ | .defineAddress _ _ _ => some []
  | .data _ _ | .words _ _ | .block _ _ | .missing => none

def Statement.isData : Statement → Bool
  | .data _ _ | .words _ _ => true
  | _ => false

namespace Encode

/-! ## The second pass through a statement -/

/-- The bytes have been put at the end of the image, and the scopes are as before. -/
structure Emits (s t : Assembly) (data : Bytes) : Prop where
  scopes : t.scopes = s.scopes
  bytes : t.image.bytes.toList = s.image.bytes.toList ++ data

structure EmitsCode (s t : Assembly) (codes : List Code) : Prop extends
    Emits s t (codes.flatMap Code.bytes) where
  fits : ∀ code ∈ codes, code.Fits

section

variable {s t u : Assembly} {last : Scopes}

theorem Emits.refl (s : Assembly) : Emits s s [] := ⟨rfl, by simp⟩

theorem Emits.trans {data more : Bytes} (h : Emits s t data) (h' : Emits t u more) :
    Emits s u (data ++ more) :=
  ⟨h'.scopes.trans h.scopes, by rw [h'.bytes, h.bytes, List.append_assoc]⟩

theorem EmitsCode.refl (s : Assembly) : EmitsCode s s [] := ⟨Emits.refl s, by simp⟩

theorem EmitsCode.trans {codes more : List Code} (h : EmitsCode s t codes)
    (h' : EmitsCode t u more) : EmitsCode s u (codes ++ more) where
  toEmits := by
    rw [List.flatMap_append]
    exact h.toEmits.trans h'.toEmits
  fits := List.forall_mem_append.mpr ⟨h.fits, h'.fits⟩

theorem Emits.toCode {code : Code} (h : Emits s t code.bytes) (hfits : code.Fits) :
    EmitsCode s t [code] where
  toEmits := by simpa using h
  fits := by simpa using hfits

theorem emits_push {data : Bytes} (h : push data s = .ok () t) : Emits s t data := by
  by_cases hfits : ((s.image.size + data.length : Nat) : Int) ≤ s.image.limit
  · rw [push_of_fits hfits] at h
    cases h
    exact ⟨rfl, by simp⟩
  · rw [push_of_not_fits hfits] at h
    contradiction

theorem emits_known {name : Bytes} {part : Part}
    (h : Forward.known last name part s = .ok () t) :
    ∃ sym, last.lookupGlobal name [.address] = .ok sym ∧ Emits s t (part.bytes sym.value) := by
  cases hsym : last.lookupGlobal name [.address] with
  | ok sym =>
      rw [known_of_ok part hsym] at h
      exact ⟨sym, rfl, emits_push h⟩
  | error e =>
      rw [known_of_error part hsym] at h
      contradiction

theorem register?_of_ok {x : Operand} {r : UInt8} (h : register x s = .ok r t) :
    s = t ∧ ∃ v, x.register? s.scopes = some v ∧ v.toUInt8 = r := by
  simp only [register, bind_eq_ok, value_eq_ok] at h
  obtain ⟨v, _, ⟨hv, rfl⟩, h⟩ := h
  cases h
  exact ⟨rfl, v, by rw [Operand.register?, hv]; rfl, rfl⟩

theorem emits_address {x : Operand} (h : emitAddress (.known last) x s = .ok () t) :
    ∃ v, x.address? s.scopes last = some v ∧ Emits s t (wordBytes v) := by
  cases x with
  | name span n =>
      simp only [emitAddress, bind_eq_ok, lookup_eq_ok] at h
      obtain ⟨found, _, ⟨hfound, rfl⟩, h⟩ := h
      simp only [Operand.address?, Scopes.addressOf?, hfound]
      split at h
      next sym => exact ⟨sym.value, rfl, emits_push h⟩
      next =>
        obtain ⟨sym, hsym, hemits⟩ := emits_known h
        exact ⟨sym.value, by rw [hsym]; rfl, hemits⟩
      next => contradiction
  | _ =>
      simp only [emitAddress, bind_eq_ok, value_eq_ok] at h
      obtain ⟨v, _, ⟨hv, rfl⟩, h⟩ := h
      exact ⟨v, by simp [Operand.address?, hv, Except.toOption], emits_push h⟩

theorem emits_value {x : Operand} (h : emitValue x s = .ok () t) :
    ∃ v, x.value s.scopes .value = .ok v ∧ Emits s t [v.toUInt8] := by
  simp only [emitValue, bind_eq_ok, value_eq_ok] at h
  obtain ⟨v, _, ⟨hv, rfl⟩, h⟩ := h
  exact ⟨v, hv, emits_push h⟩

theorem emits_byte {x : Operand} (h : emitByte (.known last) x s = .ok () t) :
    ∃ v, x.byte? s.scopes last = some v ∧ Emits s t [v.toUInt8] := by
  unfold emitByte at h
  split at h
  next span side span' n =>
    simp only [bind_eq_ok, lookup_eq_ok] at h
    obtain ⟨found, _, ⟨hfound, rfl⟩, h⟩ := h
    simp only [Operand.byte?, Scopes.addressOf?, hfound]
    split at h
    next =>
      obtain ⟨sym, hsym, hemits⟩ := emits_known h
      refine ⟨side.select sym.value, by rw [hsym]; rfl, ?_⟩
      rwa [Half.select_bytes]
    next hother =>
      -- the name is bound: to an address, or the value of the half would fail
      obtain ⟨v, hv, hemits⟩ := emits_value h
      simp only [Operand.value, hfound] at hv
      cases found with
      | ok sym =>
          cases hv
          exact ⟨_, rfl, hemits⟩
      | error e => contradiction
  next hother =>
    obtain ⟨v, hv, hemits⟩ := emits_value h
    refine ⟨v, ?_, hemits⟩
    rw [Operand.byte?, hv]
    · rfl
    · exact hother

theorem emits_operand {kind : Kind} {x : Operand}
    (h : emitOperand (.known last) kind x s = .ok () t) :
    ∃ v, x.number? s.scopes last kind = some v ∧ Emits s t (Code.operandBytes kind v) := by
  cases kind with
  | register =>
      simp only [emitOperand, bind_eq_ok] at h
      obtain ⟨r, u, hregister, hpush⟩ := h
      obtain ⟨rfl, v, hv, rfl⟩ := register?_of_ok hregister
      exact ⟨v, hv, emits_push hpush⟩
  | address => exact emits_address h
  | _ => exact emits_byte h

theorem emitsCode_pair {i : Instruction} {kind : Kind} {target x : Operand} {b : UInt8}
    {w : Assembly} (hs : Ranged s) (hregister : register target s = .ok b u)
    (hpush : push [i.opcode, b] u = .ok () w) (hi : i ∈ Instruction.table)
    (hkinds : i.operands = [.register, kind])
    (hoperand : emitOperand (.known last) kind x w = .ok () t) :
    ∃ r v, target.register? s.scopes = some r ∧ x.number? s.scopes last kind = some v ∧
      EmitsCode s t [⟨i, [r, v]⟩] := by
  obtain ⟨rfl, r, hr, rfl⟩ := register?_of_ok hregister
  obtain ⟨v, hv, hemits⟩ := emits_operand hoperand
  have hopcode := emits_push hpush
  rw [hopcode.scopes] at hv
  refine ⟨r, v, hr, hv, Emits.toCode ?_ ⟨hi, ?_⟩⟩
  · have hbytes : Code.bytes ⟨i, [r, v]⟩ =
        [i.opcode, r.toUInt8] ++ Code.operandBytes kind v := by
      simp [Code.bytes, hkinds, Code.operandBytes]
    rw [hbytes]
    exact hopcode.trans hemits
  · have hr' : target.number? s.scopes last .register = some r := hr
    simp only [hkinds]
    exact .cons (Operand.number?_lt hs hr') (.cons (Operand.number?_lt hs hv) .nil)

theorem emitsCode_setup {x : Operand} (hs : Ranged s)
    (h : emitSetup (.known last) x s = .ok () t) :
    ∃ codes, x.setup? s.scopes last = some codes ∧ EmitsCode s t codes := by
  induction x generalizing t with
  | load span target value ih _ | fetch span target value ih _ =>
      simp only [emitSetup, bind_eq_ok] at h
      obtain ⟨_, u, htarget, r, _, hregister, _, w, hpush, hvalue⟩ := h
      obtain ⟨before, hbefore, hsetup⟩ := ih htarget
      have hu : Ranged u := by rwa [Ranged, hsetup.scopes]
      obtain ⟨r, v, hr, hv, hlast⟩ := emitsCode_pair hu hregister hpush (by decide) rfl hvalue
      rw [hsetup.scopes] at hr hv
      simp only [Operand.number?] at hv
      exact ⟨_, by simp [Operand.setup?, hbefore, hr, hv], hsetup.trans hlast⟩
  | _ =>
      cases h
      exact ⟨[], rfl, EmitsCode.refl s⟩

theorem emitsCode_setups {name : Bytes} {index : Nat} {declared : List (Kind × Operand)}
    (hs : Ranged s)
    (h : eachOperand name
      (fun kind x => if kind = .register then emitSetup (.known last) x else pure ()) index declared
      s = .ok () t) :
    ∃ setups, (declared.mapM fun p =>
        if p.1 = .register then p.2.setup? s.scopes last else some []) = some setups ∧
      EmitsCode s t setups.flatten := by
  induction declared generalizing index s with
  | nil =>
      cases h
      exact ⟨[], rfl, EmitsCode.refl t⟩
  | cons p declared ih =>
      simp only [eachOperand, bind_eq_ok, mapError_eq_ok] at h
      obtain ⟨_, u, hfirst, hrest⟩ := h
      have hcodes : ∃ codes, (if p.1 = .register then p.2.setup? s.scopes last else some []) =
          some codes ∧ EmitsCode s u codes := by
        split at hfirst
        next hkind =>
          rw [if_pos hkind]
          exact emitsCode_setup hs hfirst
        next hkind =>
          cases hfirst
          exact ⟨[], if_neg hkind, EmitsCode.refl s⟩
      obtain ⟨codes, hcodes, hemits⟩ := hcodes
      obtain ⟨setups, hsetups, hmore⟩ := ih (by rwa [Ranged, hemits.scopes]) hrest
      rw [hemits.scopes] at hsetups
      refine ⟨codes :: setups, by simp [List.mapM_cons, hcodes, hsetups], ?_⟩
      exact hemits.trans hmore

theorem emits_operands {name : Bytes} {index : Nat} {declared : List (Kind × Operand)}
    (hs : Ranged s)
    (h : eachOperand name (emitOperand (.known last)) index declared s = .ok () t) :
    ∃ numbers, (declared.mapM fun p => p.2.number? s.scopes last p.1) = some numbers ∧
      List.Forall₂ (fun kind v => v.toNat < 256 ^ kind.width) (declared.map Prod.fst) numbers ∧
      Emits s t (((declared.map Prod.fst).zip numbers).flatMap fun p =>
        Code.operandBytes p.1 p.2) := by
  induction declared generalizing index s with
  | nil =>
      cases h
      exact ⟨[], rfl, .nil, Emits.refl t⟩
  | cons p declared ih =>
      simp only [eachOperand, bind_eq_ok, mapError_eq_ok] at h
      obtain ⟨_, u, hfirst, hrest⟩ := h
      obtain ⟨v, hv, hemits⟩ := emits_operand hfirst
      obtain ⟨numbers, hnumbers, hfits, hmore⟩ := ih (by rwa [Ranged, hemits.scopes]) hrest
      rw [hemits.scopes] at hnumbers
      refine ⟨v :: numbers, by simp [List.mapM_cons, hv, hnumbers],
        .cons (Operand.number?_lt hs hv) hfits, ?_⟩
      simpa using hemits.trans hmore

theorem emitsCode_instruction {i : Instruction} {operands : List Operand} (hs : Ranged s)
    (hi : i ∈ Instruction.table) (h : emitInstruction (.known last) i operands s = .ok () t) :
    ∃ codes, i.code? s.scopes last operands = some codes ∧ EmitsCode s t codes := by
  unfold emitInstruction at h
  split at h
  next => contradiction
  next hcount =>
    simp only [bind_eq_ok] at h
    obtain ⟨_, u, hsetup, _, w, hpush, hlast⟩ := h
    obtain ⟨setups, hsetups, hbefore⟩ := emitsCode_setups hs hsetup
    have hopcode := emits_push hpush
    have hscopes : w.scopes = s.scopes := hopcode.scopes.trans hbefore.scopes
    obtain ⟨numbers, hnumbers, hfits, hemits⟩ := emits_operands (by rwa [Ranged, hscopes]) hlast
    have hkinds : (i.operands.zip operands).map Prod.fst = i.operands :=
      List.map_fst_zip (not_not.mp hcount).ge
    rw [hkinds] at hfits hemits
    rw [hscopes] at hnumbers
    refine ⟨setups.flatten ++ [⟨i, numbers⟩],
      by simp [Instruction.code?, hsetups, hnumbers], hbefore.trans ?_⟩
    exact (hopcode.trans hemits).toCode ⟨hi, hfits⟩

/-- A statement other than data appends its instructions to the image of the second pass. -/
theorem code?_of_statement {x : Statement} (hs : Ranged s) (hx : x.isGrammatical = true)
    (hleaf : x.isBlock = false) (hdata : x.isData = false)
    (h : statement (.known last) x s = .ok () t) :
    ∃ codes, x.code? s.scopes last = some codes ∧ (∀ code ∈ codes, code.Fits) ∧
      t.image.bytes.toList = s.image.bytes.toList ++ codes.flatMap Code.bytes := by
  have hdefine : ∀ {name kind v} {u : Assembly}, define name kind v u = .ok () t →
      t.image = u.image := by
    intro name kind v u hrun
    have hstore := sameStore_onScopes (·.bind ⟨name, kind, v⟩) u
    rw [define] at hrun
    rw [hrun] at hstore
    exact hstore.1
  cases x with
  | block _ _ => contradiction
  | data _ _ => contradiction
  | words _ _ => contradiction
  | missing => contradiction
  | label _ name =>
      rw [statement, located_eq_ok] at h
      have hstore := sameStore_defineLabel name s
      rw [h] at hstore
      have himage : t.image = s.image := hstore.1
      exact ⟨[], rfl, by simp, by simp [himage]⟩
  | instruction _ i operands =>
      rw [statement, located_eq_ok] at h
      simp only [Statement.isGrammatical, Bool.and_eq_true, List.contains_iff_mem] at hx
      obtain ⟨codes, hcodes, hemits⟩ := emitsCode_instruction hs hx.1 h
      exact ⟨codes, hcodes, hemits.fits, hemits.bytes⟩
  | defineValue _ _ _ | defineAddress _ _ _ =>
      simp only [statement, located_eq_ok, bind_eq_ok, value_eq_ok] at h
      obtain ⟨_, _, ⟨_, rfl⟩, h⟩ := h
      exact ⟨[], rfl, by simp, by simp [hdefine h]⟩
  | defineRegister _ _ y =>
      simp only [statement, located_eq_ok, bind_eq_ok] at h
      obtain ⟨_, u, hsetup, _, _, hregister, h⟩ := h
      obtain ⟨codes, hcodes, hemits⟩ := emitsCode_setup hs hsetup
      obtain rfl := register_eq_ok hregister
      exact ⟨codes, hcodes, hemits.fits, by rw [hdefine h, hemits.bytes]⟩

end

/-! ## The second pass through a run -/

theorem Moves.sameStore {s t : Assembly} (h : Moves s t) : SameStore s t := by
  induction h with
  | refl => exact ⟨rfl, rfl⟩
  | enter _ ih => exact ih
  | @leave t u _ hleave ih =>
      have hlast := sameStore_leaveScope t
      rw [hleave] at hlast
      exact ⟨hlast.1.trans ih.1, hlast.2.trans ih.2⟩

/-- The second pass enters and leaves the same blocks. -/
theorem Moves.exists_matches {last : Scopes} {s s' t : Assembly} (h : Moves s s')
    (hmatches : Matches last s t) : ∃ t', Matches last s' t' ∧ t'.image = t.image :=
  ⟨{ t with scopes := s'.scopes }, hmatches.of_sameStore h.sameStore ⟨rfl, rfl⟩ rfl, rfl⟩

/-- Along a run the second pass appends the instructions of one statement after the other. -/
theorem Chain.exists_codes {last : Scopes} {s s' t : Assembly} {vs : List (Statement × Assembly)}
    (hchain : Chain .refer s vs s')
    (hcode : ∀ v ∈ vs, v.1.isGrammatical = true ∧ v.1.isData = false)
    (hranged : Ranged s) (hmatches : Matches last s t) (hfree : ¬Stuck last s') :
    ∃ t' codes, Matches last s' t' ∧
      (vs.mapM fun v => v.1.code? v.2.scopes last) = some codes ∧
      (∀ code ∈ codes.flatten, code.Fits) ∧
      t'.image.bytes.toList = t.image.bytes.toList ++ codes.flatten.flatMap Code.bytes := by
  induction hchain generalizing t with
  | nil hmoves =>
      obtain ⟨t', hmatches', himage⟩ := hmoves.exists_matches hmatches
      exact ⟨t', [], hmatches', rfl, by simp, by simp [himage]⟩
  | @cons s start u s' x vs hmoves hleaf hrun hrest ih =>
      rw [List.forall_mem_cons] at hcode
      obtain ⟨⟨hx, hdata⟩, hcode⟩ := hcode
      obtain ⟨t₀, hstart, himage⟩ := hmoves.exists_matches hmatches
      have hreached := hmoves.ranged hranged
      have hnext : Ranged u := (keeps_ranged_leaf refer_keepsScopes hleaf).of_ok hreached hrun
      have hranged₀ : Ranged t₀ := by rwa [Ranged, ← hstart.scopes]
      -- references are only added, so one that stops the second pass here would be left at the end
      have hpassed : ¬Stuck last u := fun hstuck =>
        hfree (hstuck.of_references_prefix hrest.growsTo.references)
      have hlockstep := (passes_lockstep last).leaf hleaf (NameRules.allow_of_trivial x)
      obtain ⟨t₁, hknown, hmatches₁⟩ := exists_second_run hlockstep hstart hrun hpassed
      obtain ⟨codes, hcodes, hfits, hbytes⟩ := code?_of_statement hranged₀ hx hleaf hdata hknown
      rw [← hstart.scopes] at hcodes
      obtain ⟨t₂, more, hmatches₂, hmore, hfits', hbytes'⟩ := ih hcode hnext hmatches₁ hfree
      refine ⟨t₂, codes :: more, hmatches₂, ?_, ?_, ?_⟩
      · simp [List.mapM_cons, hcodes, hmore]
      · rw [List.flatten_cons]
        exact List.forall_mem_append.mpr ⟨hfits, hfits'⟩
      · rw [hbytes', hbytes, himage, List.flatten_cons, List.flatMap_append, List.append_assoc]

end Encode

mutual

theorem Statement.isGrammatical_of_leaf (x : Statement) (hx : x.isGrammatical = true) :
    ∀ y ∈ x.leaves, y.isGrammatical = true := by
  cases x with
  | block _ body => exact Statement.isGrammatical_of_leaves body hx
  | _ => simpa [Statement.leaves] using hx

theorem Statement.isGrammatical_of_leaves (body : List Statement)
    (hbody : Statement.areGrammatical body = true) :
    ∀ y ∈ Statement.leavesOf body, y.isGrammatical = true := by
  cases body with
  | nil => simp [Statement.leavesOf]
  | cons x rest =>
      rw [Statement.areGrammatical, Bool.and_eq_true] at hbody
      rw [Statement.leavesOf]
      exact List.forall_mem_append.mpr
        ⟨isGrammatical_of_leaf x hbody.1, isGrammatical_of_leaves rest hbody.2⟩

end

/-- The image of a program without data decodes to the instructions of its statements, blocks
flattened, in source order.  The numbers of the operands are taken from the scopes in which a
statement's turn comes, or from the last ones where a name was not bound yet. -/
theorem decode_image {body : List Statement} {s t : Assembly}
    (hbody : Statement.areGrammatical body = true)
    (hnames : ∀ x ∈ Statement.leavesOf body, [] ∉ x.names)
    (hdata : ∀ x ∈ Statement.leavesOf body, x.isData = false)
    (hrun : Encode.program .refer body {} = .ok () s) (hresolve : Encode.resolve s = .ok () t) :
    (Encode.visitsOf .refer body {}).map Prod.fst = Statement.leavesOf body ∧
    ∃ codes, ((Encode.visitsOf .refer body {}).mapM fun v => v.1.code? v.2.scopes t.scopes) =
        some codes ∧
      Code.decode t.image.bytes.toList = some codes.flatten := by
  have hcompletes := Encode.completes_of_tiledBy (Encode.program_tiledBy hrun) hresolve
  have hnonempty := Encode.references_nonempty hnames hrun
  have hbound : ∀ r ∈ s.references, ∀ address, s.scopes.resolved r.name = .ok address →
      ∃ sym, s.scopes.lookupGlobal r.name [.address] = .ok sym ∧ sym.value = address :=
    fun r hr address => (Scopes.resolved_eq_ok_iff (hnonempty r hr)).mp
  have hfree : ¬Encode.Stuck s.scopes s := by
    rintro ⟨r, hr, hname⟩
    obtain ⟨address, haddress, _⟩ := hcompletes.waiting r hr
    obtain ⟨sym, hsym, _⟩ := hbound r hr address haddress
    exact hname sym hsym
  rw [Encode.program_eq_statements Encode.refer_keepsScopes] at hrun
  have hvisits := Encode.map_fst_visitsOf body hrun
  have hcode : ∀ v ∈ Encode.visitsOf .refer body {},
      v.1.isGrammatical = true ∧ v.1.isData = false := by
    intro v hv
    have hleaf : v.1 ∈ Statement.leavesOf body := hvisits ▸ List.mem_map_of_mem hv
    exact ⟨Statement.isGrammatical_of_leaves body hbody _ hleaf, hdata _ hleaf⟩
  obtain ⟨u, codes, hmatches, hcodes, hfits, hbytes⟩ :=
    (Encode.chain_of_statements body hrun).exists_codes hcode Scopes.InRange.initial
      (Encode.matches_initial s.scopes) hfree
  -- resolving patches in what the second pass has emitted at once
  refine ⟨hvisits, codes, by rwa [hcompletes.scopes], ?_⟩
  rw [hmatches.bytes_eq hcompletes hbound, hbytes]
  exact Code.decode_flatMap_bytes hfits

/-- Nested brackets, a block, and three references to a label that comes later. -/
theorem decode_image_of_nested_setup :
    let a := utf8 "a"
    let v := utf8 "v"
    let x := utf8 "x"
    let add : Instruction := ⟨utf8 "add", 6, Instruction.threeRegisters⟩
    let cj : Instruction := ⟨utf8 "cj", 17, [.register, .address]⟩
    let number (digits : String) : Operand := .number { digits := utf8 digits, radix := 10 }
    let two : Operand := .register {} (.numbered { digits := utf8 "2", radix := 10 })
    let body : List Statement :=
      [.defineRegister {} a (.load {} two (number "7")),
        .block {}
          [.defineValue {} v (number "9"),
            .instruction {} cj [.name {} a, .name {} x],
            .instruction {} add
              [.load {} (.fetch {} (.name {} a) (.name {} x)) (.half {} .lo (.name {} x)),
                .register {} .high, .load {} (.name {} a) (.name {} v)],
            .label {} x],
        .instruction {} cj [.name {} a, .name {} x]]
    ∃ s t, Encode.program .refer body {} = .ok () s ∧ s.references.size = 3 ∧
      Encode.resolve s = .ok () t ∧
      Code.decode t.image.bytes.toList = some
        [⟨.set, [2, 7]⟩, ⟨cj, [2, 21]⟩, ⟨.ld, [2, 21]⟩, ⟨.set, [2, 21]⟩, ⟨.set, [2, 9]⟩,
          ⟨add, [2, 30, 2]⟩, ⟨cj, [2, 21]⟩] := by
  intro a v x add cj number two body
  obtain ⟨r, hr⟩ : ∃ r, Encode.program .refer body {} = r := ⟨_, rfl⟩
  obtain ⟨q, hq⟩ : ∃ q, Encode.resolve (Encode.finalState r) = q := ⟨_, rfl⟩
  have hfacts : Encode.succeeds (Encode.program .refer body {}) = true ∧
      (Encode.finalState (Encode.program .refer body {})).references.size = 3 ∧
      Encode.succeeds
        (Encode.resolve (Encode.finalState (Encode.program .refer body {}))) = true ∧
      ((Encode.visitsOf .refer body {}).mapM fun v => v.1.code? v.2.scopes (Encode.finalState
        (Encode.resolve (Encode.finalState (Encode.program .refer body {})))).scopes) =
        some [[⟨.set, [2, 7]⟩], [], [⟨cj, [2, 21]⟩],
          [⟨.ld, [2, 21]⟩, ⟨.set, [2, 21]⟩, ⟨.set, [2, 9]⟩, ⟨add, [2, 30, 2]⟩], [],
          [⟨cj, [2, 21]⟩]] := by decide +kernel
  rw [hr, hq] at hfacts
  obtain ⟨hrun, hsize, hresolve, hcodes⟩ := hfacts
  have hrun' := hr.trans (Encode.eq_ok_of_succeeds hrun)
  have hresolve' := hq.trans (Encode.eq_ok_of_succeeds hresolve)
  obtain ⟨_, codes, hcodes', hdecode⟩ :=
    decode_image (by decide) (by decide) (by decide) hrun' hresolve'
  obtain rfl := Option.some.inj (hcodes'.symm.trans hcodes)
  exact ⟨_, _, hrun', hsize, hresolve', hdecode⟩

end Gx
