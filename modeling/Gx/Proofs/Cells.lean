import Gx.Proofs.Ranges
import Gx.Proofs.Uses

/-!
# Bytes that stand for numbers

Registers, values and halves of addresses are numbers of sixteen bits, and each of them is put into
one byte.  `Statement.cells` lists the bytes of a statement that are made so, with the operand that
each of them stands for.  A cell is `Faithful` if its byte is the number of the operand, or if it
still waits for a half of an address.  If all symbols are in range, every cell that gets into the
image is faithful, also when the statement fails behind it: `faithful_of_mem_cells`.
-/

namespace Gx

/-! ## The cells of a statement -/

/-- A byte of an image that stands for an operand of some kind. -/
structure Cell where
  pos : Nat
  kind : Kind
  operand : Operand
  deriving DecidableEq

/-- The elements of a row with their positions, where the row starts at `pos`. -/
def positioned {α : Type} (width : α → Nat) : Nat → List α → List (Nat × α)
  | _, [] => []
  | pos, x :: rest => (pos, x) :: positioned width (pos + width x) rest

namespace Operand

def byteCells (x : Operand) (pos : Nat) : List Cell := [⟨pos, .value, x⟩]

/-- A name is one byte as data if it is bound to a value. -/
def itemCells (scopes : Scopes) (x : Operand) (pos : Nat) : List Cell :=
  match x with
  | .text _ _ => []
  | .name _ _ => if x.itemWidth scopes = 1 then x.byteCells pos else []
  | _ => x.byteCells pos

def setupCells : Operand → Nat → List Cell
  | .load _ target value, pos =>
      target.setupCells pos ++ ⟨pos + target.setupWidth + 1, .register, target⟩ ::
        value.byteCells (pos + target.setupWidth + 2)
  | .fetch _ target _, pos =>
      target.setupCells pos ++ [⟨pos + target.setupWidth + 1, .register, target⟩]
  | _, _ => []

def operandCells (kind : Kind) (x : Operand) (pos : Nat) : List Cell :=
  match kind with
  | .register => [⟨pos, .register, x⟩]
  | .address => []
  | _ => x.byteCells pos

end Operand

namespace Instruction

def setupCells (declared : Kind × Operand) (pos : Nat) : List Cell :=
  if declared.1 = .register then declared.2.setupCells pos else []

/-- The cells of an instruction: first those in the setup of its registers, then its operands, with
the opcode between them. -/
def cells (i : Instruction) (operands : List Operand) (pos : Nat) : List Cell :=
  let declared := i.operands.zip operands
  (positioned setupWidth pos declared).flatMap (fun p => setupCells p.2 p.1) ++
    (positioned (·.1.width) (pos + (declared.map setupWidth).sum + 1) declared).flatMap
      fun p => p.2.2.operandCells p.2.1 p.1

end Instruction

/-- The cells in what a statement emits from position `pos` on. -/
def Statement.cells (scopes : Scopes) (x : Statement) (pos : Nat) : List Cell :=
  match x with
  | .instruction _ i operands => i.cells operands pos
  | .data _ items =>
      (positioned (Operand.itemWidth scopes) pos items).flatMap fun p => p.2.itemCells scopes p.1
  | .defineRegister _ _ x => x.setupCells pos
  | _ => []

namespace Cell

/-- The operand is a half of an address that the scopes do not know. -/
def Deferred (c : Cell) (scopes : Scopes) : Prop :=
  c.kind = .value ∧ ∃ span side span' name, c.operand = .half span side (.name span' name) ∧
    scopes.lookup name [.address] = .error (.notFound name [.address])

/-- The byte is settled and is the number that the operand is worth in the scopes.  Or it waits for
a half of an address. -/
def Faithful (c : Cell) (scopes : Scopes) (img : Image) : Prop :=
  (∃ v b, c.operand.value scopes c.kind = .ok v ∧ img.bytes[c.pos]? = some b ∧
    b.toNat = v.toNat ∧ img.pending.contains c.pos = false) ∨
  (c.Deferred scopes ∧ img.pending.contains c.pos = true)

theorem Faithful.mono {c : Cell} {scopes : Scopes} {a b : Image} (h : c.Faithful scopes a)
    (hgrows : a.GrowsTo b) (hpos : c.pos < a.size) : c.Faithful scopes b := by
  unfold Faithful at h ⊢
  rwa [hgrows.bytes c.pos hpos, hgrows.pending c.pos hpos]

end Cell

theorem Scopes.lookup_notFound {scopes : Scopes} {name n : Bytes} {wanted kinds : List Kind}
    (h : scopes.lookup name wanted = .error (.notFound n kinds)) : n = name ∧ kinds = wanted := by
  unfold lookup lookupIn at h
  split at h
  next =>
    cases h
    exact ⟨rfl, rfl⟩
  next =>
    split at h
    · contradiction
    · cases h

theorem Scopes.lookup_of_kind {scopes : Scopes} {name : Bytes} {wanted wanted' : List Kind}
    {sym : Symbol} (h : scopes.lookup name wanted = .ok sym) (hkind : sym.kind ∈ wanted') :
    scopes.lookup name wanted' = .ok sym := by
  unfold lookup lookupIn at h ⊢
  split at h
  next => contradiction
  next found hfound =>
    split at h
    · cases h
      simp only [if_pos hkind]
    · contradiction

/-! ## Filling the cells -/

namespace Encode

/-- From `s` to `t` at most `width` bytes have been emitted, and the cells among them are
faithful. -/
structure Filled (width : Nat) (cells : List Cell) (s t : Assembly) : Prop where
  scopes : t.scopes = s.scopes
  grows : s.image.GrowsTo t.image
  size : t.image.size ≤ s.image.size + width
  inside : t.image.PendingInside
  faithful : ∀ c ∈ cells, c.pos < t.image.size → c.Faithful s.scopes t.image

/-- In the given scopes, an action emits `width` bytes, with cells among them, or fails on the
way. -/
structure Fills (scopes : Scopes) (width : Nat) (cells : Nat → List Cell) (a : Encode Unit) :
    Prop where
  within : ∀ pos, ∀ c ∈ cells pos, pos ≤ c.pos ∧ c.pos < pos + width
  filled : ∀ s : Assembly, s.scopes = scopes → s.image.PendingInside →
    Filled width (cells s.image.size) s (finalState (a s))
  complete : ∀ s t : Assembly, s.scopes = scopes → s.image.PendingInside → a s = .ok () t →
    t.image.size = s.image.size + width

namespace Fills

variable {scopes : Scopes} {width : Nat} {cells : Nat → List Cell}

theorem of_eq {a b : Encode Unit} (h : Fills scopes width cells a)
    (heq : ∀ s : Assembly, s.scopes = scopes → b s = a s) : Fills scopes width cells b where
  within := h.within
  filled s hs hinside := by
    rw [heq s hs]
    exact h.filled s hs hinside
  complete s t hs hinside hrun := h.complete s t hs hinside (by rwa [← heq s hs])

theorem pure : Fills scopes 0 (fun _ => []) (Pure.pure ()) where
  within := by simp
  filled s _ hinside := ⟨rfl, Image.GrowsTo.refl _, le_rfl, hinside, by simp⟩
  complete s t _ _ hrun := by
    cases hrun
    rfl

/-- What fails at once emits nothing. -/
theorem throw (hwithin : ∀ pos, ∀ c ∈ cells pos, pos ≤ c.pos ∧ c.pos < pos + width)
    (e : EncodeError) : Fills scopes width cells (MonadExcept.throw e) where
  within := hwithin
  filled s _ hinside := by
    refine ⟨rfl, Image.GrowsTo.refl _, Nat.le_add_right _ _, hinside, fun c hc hlt => ?_⟩
    have hle := (hwithin _ c hc).1
    exact absurd hlt (not_lt.mpr hle)
  complete s t _ _ hrun := by contradiction

theorem bind {a b : Encode Unit} {m n : Nat} {cells' : Nat → List Cell}
    (ha : Fills scopes m cells a) (hb : Fills scopes n cells' b) :
    Fills scopes (m + n) (fun pos => cells pos ++ cells' (pos + m)) (a >>= fun _ => b) where
  within pos c hc := by
    rcases List.mem_append.mp hc with hc | hc
    · have hwithin := ha.within pos c hc
      omega
    · have hwithin := hb.within (pos + m) c hc
      omega
  filled s hs hinside := by
    have hfirst := ha.filled s hs hinside
    rw [bind_eq]
    cases hrun : a s with
    | error e t =>
        rw [hrun] at hfirst
        refine ⟨hfirst.scopes, hfirst.grows, hfirst.size.trans (by omega), hfirst.inside, ?_⟩
        intro c hc hlt
        rcases List.mem_append.mp hc with hc | hc
        · exact hfirst.faithful c hc hlt
        · -- the image does not reach the cells of the second action
          have hwithin := hb.within _ c hc
          have hsize : t.image.size ≤ s.image.size + m := hfirst.size
          rw [finalState_error] at hlt
          omega
    | ok x t =>
        rw [hrun] at hfirst
        have hsize := ha.complete s t hs hinside hrun
        have hscopes : t.scopes = s.scopes := hfirst.scopes
        have hsecond := hb.filled t (hscopes.trans hs) hfirst.inside
        rw [hsize] at hsecond
        refine ⟨hsecond.scopes.trans hscopes, hfirst.grows.trans hsecond.grows, ?_,
          hsecond.inside, ?_⟩
        · have hle := hsecond.size
          rwa [hsize, Nat.add_assoc] at hle
        · intro c hc hlt
          rcases List.mem_append.mp hc with hc | hc
          · have hwithin := ha.within _ c hc
            have hbefore : c.pos < t.image.size := by omega
            exact (hfirst.faithful c hc hbefore).mono hsecond.grows hbefore
          · rw [← hscopes]
            exact hsecond.faithful c hc hlt
  complete s u hs hinside hrun := by
    obtain ⟨_, t, hfirst, hsecond⟩ := bind_eq_ok.mp hrun
    have hfilled := ha.filled s hs hinside
    rw [hfirst] at hfilled
    rw [hb.complete t u (hfilled.scopes.trans hs) hfilled.inside hsecond,
      ha.complete s t hs hinside hfirst, Nat.add_assoc]

/-- If all goes well, all cells are in the image. -/
theorem lt_size {a : Encode Unit} (h : Fills scopes width cells a) {s t : Assembly}
    (hs : s.scopes = scopes) (hinside : s.image.PendingInside) (hrun : a s = .ok () t) {c : Cell}
    (hc : c ∈ cells s.image.size) : c.pos < t.image.size := by
  rw [h.complete s t hs hinside hrun]
  exact (h.within _ c hc).2

theorem mapError {a : Encode Unit} (h : Fills scopes width cells a)
    (f : Assembly → EncodeError → EncodeError) :
    Fills scopes width cells (Encode.mapError f a) where
  within := h.within
  filled s hs hinside := by
    rw [finalState_mapError]
    exact h.filled s hs hinside
  complete s t hs hinside hrun := h.complete s t hs hinside (mapError_eq_ok.mp hrun)

/-- Bytes are pushed, and a cell is one of them. -/
theorem push (data : Bytes) (hcells : ∀ pos, ∀ c ∈ cells pos, ∃ k v, c.pos = pos + k ∧
      c.operand.value scopes c.kind = .ok v ∧ v.toNat < 2 ^ 8 ∧ data[k]? = some v.toUInt8) :
    Fills scopes data.length cells (Encode.push data) where
  within pos c hc := by
    obtain ⟨k, v, hpos, _, _, hbyte⟩ := hcells pos c hc
    have hk := (List.getElem?_eq_some_iff.mp hbyte).1
    omega
  filled s hs hinside := by
    by_cases hfits : ((s.image.size + data.length : Nat) : Int) ≤ s.image.limit
    · rw [push_of_fits hfits]
      refine ⟨rfl, Image.growsTo_push_bytes _ _, (Image.size_push_bytes _ _).le,
        hinside.push_bytes data, fun c hc _ => Or.inl ?_⟩
      obtain ⟨k, v, hpos, hvalue, hbound, hbyte⟩ := hcells _ c hc
      refine ⟨v, v.toUInt8, by rwa [hs], ?_, ?_, hinside.not_pending (by omega)⟩
      · rw [finalState_ok, Image.getElem?_push_bytes, if_neg (by omega), hpos,
          Nat.add_sub_cancel_left, hbyte]
      · rw [UInt16.toNat_toUInt8, Nat.mod_eq_of_lt hbound]
    · rw [push_of_not_fits hfits]
      refine ⟨rfl, Image.GrowsTo.refl _, Nat.le_add_right _ _, hinside, fun c hc hlt => ?_⟩
      obtain ⟨k, v, hpos, _⟩ := hcells _ c hc
      rw [finalState_error] at hlt
      omega
  complete s t _ _ hrun := by
    by_cases hfits : ((s.image.size + data.length : Nat) : Int) ≤ s.image.limit
    · rw [push_of_fits hfits] at hrun
      cases hrun
      exact Image.size_push_bytes _ _
    · rw [push_of_not_fits hfits] at hrun
      contradiction

/-- A byte that waits for a half of an address, or a word without cells. -/
theorem refer (name : Bytes) (part : Part)
    (hcells : ∀ pos, ∀ c ∈ cells pos, c.pos = pos ∧ c.Deferred scopes) :
    Fills scopes part.width cells (Forward.refer name part) where
  within pos c hc := by
    have hwidth := part.width_pos
    rw [(hcells pos c hc).1]
    omega
  filled s hs hinside := by
    obtain ⟨n, hn, references, hfinal⟩ := finalState_refer name part s
    rw [hfinal]
    refine ⟨rfl, Image.growsTo_fill _ _, ?_, hinside.fill _, fun c hc hlt => ?_⟩
    · rw [Image.size_fill]
      omega
    · obtain ⟨hpos, hdeferred⟩ := hcells _ c hc
      rw [Image.size_fill] at hlt
      refine Or.inr ⟨by rwa [hs], (Image.contains_fill _ _ _).mpr (Or.inr ⟨hpos.ge, hlt⟩)⟩
  complete s t _ _ hrun := by
    by_cases hfits : ((s.image.size + part.width : Nat) : Int) ≤ s.image.limit
    · rw [refer_of_fits name hfits] at hrun
      cases hrun
      exact Image.size_fill _ _
    · obtain ⟨_, _, hfailed⟩ := refer_of_not_fits name hfits
      rw [hfailed] at hrun
      contradiction

theorem push_plain (data : Bytes) : Fills scopes data.length (fun _ => []) (Encode.push data) :=
  push data (by simp)

theorem refer_word (name : Bytes) : Fills scopes 2 (fun _ => []) (Forward.refer name .word) :=
  refer name .word (by simp)

theorem of_lookup {name : Bytes} {wanted : List Kind}
    {f : Except ScopeError Symbol → Encode Unit}
    (hf : Fills scopes width cells (f (scopes.lookup name wanted))) :
    Fills scopes width cells (lookup name wanted >>= f) := by
  refine hf.of_eq fun s hs => ?_
  rw [bind_eq, ← hs]
  rfl

theorem of_value {x : Operand} {kind : Kind} {f : UInt16 → Encode Unit}
    (hwithin : ∀ pos, ∀ c ∈ cells pos, pos ≤ c.pos ∧ c.pos < pos + width)
    (hf : ∀ v, x.value scopes kind = .ok v → Fills scopes width cells (f v)) :
    Fills scopes width cells (value x kind >>= f) := by
  cases hv : x.value scopes kind with
  | ok v =>
      refine (hf v hv).of_eq fun s hs => ?_
      rw [bind_eq, value, hs, hv]
  | error e =>
      refine (throw hwithin e).of_eq fun s hs => ?_
      rw [bind_eq, value, hs, hv]
      rfl

end Fills

theorem fills_eachOperand {scopes : Scopes} (width : Kind × Operand → Nat)
    (cells : Kind × Operand → Nat → List Cell) {act : Kind → Operand → Encode Unit}
    (hact : ∀ kind x, Fills scopes (width (kind, x)) (cells (kind, x)) (act kind x))
    (instruction : Bytes) (index : Nat) (operands : List (Kind × Operand)) :
    Fills scopes (operands.map width).sum
      (fun pos => (positioned width pos operands).flatMap fun p => cells p.2 p.1)
      (eachOperand instruction act index operands) := by
  induction operands generalizing index with
  | nil => exact Fills.pure
  | cons declared rest ih =>
      have hfirst := (hact declared.1 declared.2).mapError fun _ => .inOperand instruction index
      exact hfirst.bind (ih (index + 1))

theorem fills_each {scopes : Scopes} {width : Operand → Nat} {cells : Operand → Nat → List Cell}
    {act : Operand → Encode Unit} (hact : ∀ x, Fills scopes (width x) (cells x) (act x))
    (items : List Operand) :
    Fills scopes (items.map width).sum
      (fun pos => (positioned width pos items).flatMap fun p => cells p.2 p.1)
      (each act items) := by
  induction items with
  | nil => exact Fills.pure
  | cons x rest ih => exact (hact x).bind ih

section

variable {scopes : Scopes} (hscopes : scopes.InRange)

theorem fills_emitAddress (x : Operand) :
    Fills scopes 2 (fun _ => []) (emitAddress .refer x) := by
  have hword : ∀ w, Fills scopes 2 (fun _ => []) (pushWord w) :=
    fun w => Fills.push_plain (wordBytes w)
  cases x with
  | name span n =>
      apply Fills.of_lookup
      cases scopes.lookup n [.address] with
      | ok sym => exact hword sym.value
      | error e =>
          cases e with
          | notFound _ _ => exact Fills.refer_word n
          | kindMismatch _ _ _ => exact Fills.throw (by simp) _
          | globalPop => exact Fills.throw (by simp) _
  | _ => exact Fills.of_value (by simp) fun v _ => hword v

include hscopes

theorem fills_emitValue (x : Operand) : Fills scopes 1 x.byteCells (emitValue x) := by
  refine Fills.of_value (by simp [Operand.byteCells]) fun v hv => ?_
  refine Fills.push [v.toUInt8] fun pos c hc => ?_
  obtain rfl := List.mem_singleton.mp hc
  have hle : v.toNat ≤ 0xFF := Operand.value_le hscopes hv
  exact ⟨0, v, rfl, hv, by omega, rfl⟩

theorem fills_emitByte (x : Operand) : Fills scopes 1 x.byteCells (emitByte .refer x) := by
  unfold emitByte
  split
  next span side span' n =>
    apply Fills.of_lookup
    cases hfound : scopes.lookup n [.address] with
    | ok sym => exact fills_emitValue hscopes _
    | error e =>
        cases e with
        | notFound m kinds =>
            obtain ⟨rfl, rfl⟩ := Scopes.lookup_notFound hfound
            have hrefer : Fills scopes side.part.width
                (Operand.half span side (.name span' m)).byteCells
                (Forward.refer m side.part) := by
              refine Fills.refer _ _ fun pos c hc => ?_
              obtain rfl := List.mem_singleton.mp hc
              exact ⟨rfl, rfl, span, side, span', m, rfl, hfound⟩
            cases side <;> exact hrefer
        | kindMismatch _ _ _ => exact fills_emitValue hscopes _
        | globalPop => exact fills_emitValue hscopes _
  next => exact fills_emitValue hscopes _

theorem fills_emitItem (x : Operand) :
    Fills scopes (x.itemWidth scopes) (x.itemCells scopes) (emitItem .refer x) := by
  cases x with
  | text span value =>
      have hpush : Fills scopes _ _ _ := Fills.push_plain (value ++ [0])
      rwa [List.length_append] at hpush
  | name span n =>
      have hwide : (Operand.name span n).itemWidth scopes = 2 →
          (Operand.name span n).itemCells scopes = fun _ => [] := by
        intro hwidth
        funext pos
        rw [Operand.itemCells, hwidth]
        rfl
      apply Fills.of_lookup
      cases hfound : scopes.lookup n [.value, .address] with
      | ok sym =>
          simp only
          by_cases hkind : sym.kind = .value
          · have hwidth : (Operand.name span n).itemWidth scopes = 1 := by
              simp [Operand.itemWidth, hfound, hkind]
            have hvalue : (Operand.name span n).value scopes .value = .ok sym.value := by
              rw [Operand.value, Scopes.lookup_of_kind hfound (by simp [hkind])]
            have hle : sym.value.toNat ≤ 0xFF := Operand.value_le hscopes hvalue
            rw [if_pos hkind, hwidth]
            refine Fills.push [sym.value.toUInt8] fun pos c hc => ?_
            rw [Operand.itemCells, if_pos hwidth] at hc
            obtain rfl := List.mem_singleton.mp hc
            exact ⟨0, sym.value, rfl, hvalue, by omega, rfl⟩
          · have hwidth : (Operand.name span n).itemWidth scopes = 2 := by
              simp [Operand.itemWidth, hfound, hkind]
            rw [if_neg hkind, hwidth, hwide hwidth]
            exact Fills.push_plain (wordBytes sym.value)
      | error e =>
          have hwidth : (Operand.name span n).itemWidth scopes = 2 := by
            simp [Operand.itemWidth, hfound]
          rw [hwidth, hwide hwidth]
          cases e with
          | notFound _ _ => exact Fills.refer_word n
          | kindMismatch _ _ _ => exact Fills.throw (by simp) _
          | globalPop => exact Fills.throw (by simp) _
  | _ => exact fills_emitByte hscopes _

/-- Bytes that end with a register. -/
theorem fills_register (front : Bytes) (x : Operand) :
    Fills scopes (front.length + 1) (fun pos => [⟨pos + front.length, .register, x⟩])
      (do push (front ++ [← register x])) := by
  have hregister : (do push (front ++ [← register x])) =
      value x .register >>= fun v => push (front ++ [v.toUInt8]) := by
    unfold register
    simp only [bind_assoc, pure_bind]
  rw [hregister]
  refine Fills.of_value (by simp) fun v hv => ?_
  have hpush : Fills scopes (front ++ [v.toUInt8]).length
      (fun pos => [⟨pos + front.length, .register, x⟩]) (push (front ++ [v.toUInt8])) := by
    refine Fills.push _ fun pos c hc => ?_
    obtain rfl := List.mem_singleton.mp hc
    have hle : v.toNat ≤ maxRegister := Operand.value_le hscopes hv
    unfold maxRegister at hle
    exact ⟨front.length, v, rfl, hv, by omega, by simp⟩
  rwa [List.length_append] at hpush

theorem fills_emitSetup (x : Operand) :
    Fills scopes x.setupWidth x.setupCells (emitSetup .refer x) := by
  induction x with
  | load span target value ih _ =>
      have hopcode := fills_register hscopes [Instruction.set.opcode] target
      have hsetup := ih.bind (hopcode.bind (fills_emitByte hscopes value))
      rw [bind_assoc] at hsetup
      exact hsetup
  | fetch span target address ih _ =>
      have hopcode := fills_register hscopes [Instruction.ld.opcode] target
      have hsetup := ih.bind (hopcode.bind (fills_emitAddress address))
      rw [bind_assoc] at hsetup
      exact hsetup
  | _ => exact Fills.pure

theorem fills_emitOperand (kind : Kind) (x : Operand) :
    Fills scopes kind.width (x.operandCells kind) (emitOperand .refer kind x) := by
  cases kind with
  | register => exact fills_register hscopes [] x
  | address => exact fills_emitAddress x
  | value => exact fills_emitByte hscopes x
  | other code => exact fills_emitByte hscopes x

theorem fills_emitInstruction (i : Instruction) (operands : List Operand) :
    ∃ width, Fills scopes width (i.cells operands) (emitInstruction .refer i operands) := by
  have hsetup : ∀ kind x, Fills scopes (Instruction.setupWidth (kind, x))
      (Instruction.setupCells (kind, x))
      (if kind = .register then emitSetup .refer x else pure ()) := by
    intro kind x
    unfold Instruction.setupWidth Instruction.setupCells
    by_cases hkind : kind = .register
    · simp only [hkind, if_true]
      exact fills_emitSetup hscopes x
    · simp only [hkind, if_false]
      exact Fills.pure
  have hopcode : Fills scopes 1 (fun _ => []) (push [i.opcode]) := Fills.push_plain [i.opcode]
  have hoperands := fills_eachOperand (·.1.width) (fun p => p.2.operandCells p.1)
    (fills_emitOperand hscopes) i.name 1 (i.operands.zip operands)
  have hemit := (fills_eachOperand _ _ hsetup i.name 1 (i.operands.zip operands)).bind
    (hopcode.bind hoperands)
  unfold emitInstruction
  split
  · exact ⟨_, (Fills.throw hemit.within _).of_eq fun _ _ => rfl⟩
  · exact ⟨_, hemit⟩

end

theorem image_defineRegister (name : Bytes) (x : Operand) (s : Assembly) :
    (finalState ((do define name .register (← register x).toUInt16 : Encode Unit) s)).image =
      s.image := by
  simp only [register, bind_eq, value]
  cases x.value s.scopes .register with
  | error e => rfl
  | ok v => exact (sameStore_onScopes _ s).1

section

variable {x : Statement} {s : Assembly} (hranged : Ranged s) (hinside : s.image.PendingInside)
  {c : Cell} (hc : c ∈ x.cells s.scopes s.image.size)

include hranged hinside hc

/-- A statement that succeeds has emitted all of its cells. -/
theorem lt_size_of_mem_cells {t : Assembly} (hrun : statement .refer x s = .ok () t) :
    c.pos < t.image.size := by
  cases x with
  | instruction span i operands =>
      obtain ⟨_, hfills⟩ := fills_emitInstruction hranged i operands
      rw [statement, located_eq_ok] at hrun
      exact hfills.lt_size rfl hinside hrun hc
  | data span items =>
      have hfills := fills_each (fills_emitItem hranged) items
      rw [statement, located_eq_ok, mapError_eq_ok] at hrun
      exact hfills.lt_size rfl hinside hrun hc
  | defineRegister span name y =>
      rw [statement, located_eq_ok, bind_eq_ok] at hrun
      obtain ⟨_, u, hsetup, hdefine⟩ := hrun
      have himage := image_defineRegister name y u
      rw [hdefine] at himage
      rw [finalState_ok] at himage
      rw [himage]
      exact (fills_emitSetup hranged y).lt_size rfl hinside hsetup hc
  | _ => contradiction

/-- The cells of a statement are faithful as far as the image goes when the statement is done, or
has failed. -/
theorem faithful_of_mem_cells (hlt : c.pos < (finalState (statement .refer x s)).image.size) :
    c.Faithful s.scopes (finalState (statement .refer x s)).image := by
  cases x with
  | instruction span i operands =>
      obtain ⟨_, hfills⟩ := fills_emitInstruction hranged i operands
      rw [statement, finalState_located] at hlt ⊢
      exact (hfills.filled s rfl hinside).faithful c hc hlt
  | data span items =>
      have hfills := fills_each (fills_emitItem hranged) items
      rw [statement, finalState_located, finalState_mapError] at hlt ⊢
      exact (hfills.filled s rfl hinside).faithful c hc hlt
  | defineRegister span name y =>
      have hfilled := (fills_emitSetup hranged y).filled s rfl hinside
      have himage : (finalState (statement .refer (.defineRegister span name y) s)).image =
          (finalState (emitSetup .refer y s)).image := by
        rw [statement, finalState_located, bind_eq]
        cases emitSetup .refer y s with
        | error e t => rfl
        | ok _ t => exact image_defineRegister name y t
      rw [himage] at hlt ⊢
      exact hfilled.faithful c hc hlt
  | _ => contradiction

end

end Encode

end Gx
