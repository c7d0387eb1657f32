import Gx.Proofs.References
import Gx.Proofs.Scopes

/-!
# Where names are used

The bytes that stand for the address of a name lie at places that follow from the widths of what
is emitted.  `Statement.uses` lists them for a statement, without regard to how the address gets
there.  Encoding a statement then puts each of them either into the image, if the name is bound, or
among the references: `placesUses_of_statement`.
-/

namespace Gx

/-- Bytes of an image that stand for a part of the address of a name. -/
structure Use where
  pos : Nat
  name : Bytes
  part : Part
  deriving DecidableEq

/-! ## The uses of a statement -/

/-- The uses in a row of parts from `pos` on, each part with its own width. -/
def Use.inRow {α : Type} (width : α → Nat) (uses : Nat → α → List Use) (pos : Nat) :
    List α → List Use
  | [] => []
  | x :: rest => uses pos x ++ inRow width uses (pos + width x) rest

namespace Operand

/-- The name whose address the operand is. -/
def addressName? : Operand → Option Bytes
  | .name _ n => some n
  | .load _ target _ => target.addressName?
  | .fetch _ target _ => target.addressName?
  | _ => none

/-- The name of whose address the operand is one byte, and which byte it is. -/
def byteName? : Operand → Option (Bytes × Part)
  | .half _ side address => address.addressName?.map (·, side.part)
  | .load _ target _ => target.byteName?
  | .fetch _ target _ => target.byteName?
  | _ => none

def addressUses (pos : Nat) (x : Operand) : List Use :=
  x.addressName?.toList.map (⟨pos, ·, .word⟩)

def byteUses (pos : Nat) (x : Operand) : List Use :=
  x.byteName?.toList.map fun p => ⟨pos, p.1, p.2⟩

def itemUses (pos : Nat) : Operand → List Use
  | .name _ n => [⟨pos, n, .word⟩]
  | x => x.byteUses pos

def itemWidth (scopes : Scopes) : Operand → Nat
  | .text _ value => value.length + 1
  | .name _ n =>
      match scopes.lookup n [.value, .address] with
      | .ok sym => if sym.kind = .value then 1 else 2
      | .error _ => 2
  | _ => 1

/-- The number of bytes that the setup of a register takes: an opcode and a register, and a byte or
an address behind them. -/
def setupWidth : Operand → Nat
  | .load _ target _ => target.setupWidth + 3
  | .fetch _ target _ => target.setupWidth + 4
  | _ => 0

def setupUses (pos : Nat) : Operand → List Use
  | .load _ target value =>
      target.setupUses pos ++ value.byteUses (pos + target.setupWidth + 2)
  | .fetch _ target address =>
      target.setupUses pos ++ address.addressUses (pos + target.setupWidth + 2)
  | _ => []

def operandUses (pos : Nat) (kind : Kind) (x : Operand) : List Use :=
  match kind with
  | .register => []
  | .address => x.addressUses pos
  | _ => x.byteUses pos

end Operand

namespace Instruction

def setupWidth (declared : Kind × Operand) : Nat :=
  if declared.1 = .register then declared.2.setupWidth else 0

def setupUses (pos : Nat) (declared : Kind × Operand) : List Use :=
  if declared.1 = .register then declared.2.setupUses pos else []

/-- The uses in an instruction at `pos`: first the setup of its registers, then its opcode and its
operands. -/
def uses (pos : Nat) (i : Instruction) (operands : List Operand) : List Use :=
  let declared := i.operands.zip operands
  Use.inRow setupWidth setupUses pos declared ++
    Use.inRow (·.1.width) (fun pos declared => declared.2.operandUses pos declared.1)
      (pos + (declared.map setupWidth).sum + 1) declared

end Instruction

/-- The uses in what a statement emits in state `s`. -/
def Statement.uses (s : Assembly) : Statement → List Use
  | .instruction _ i operands => i.uses s.image.size operands
  | .data _ items =>
      Use.inRow (Operand.itemWidth s.scopes) Operand.itemUses s.image.size items
  | .words _ items => Use.inRow (fun _ => 2) Operand.addressUses s.image.size items
  | .defineRegister _ _ x => x.setupUses s.image.size
  | _ => []

/-! ## Names that only the global scope binds -/

/-- No block binds the name, and the global scope binds it to the address, or not at all. -/
structure Scopes.Binds (scopes : Scopes) (name : Bytes) (address : Option UInt16) : Prop where
  blocks : ∀ block ∈ scopes.blocks, block.find? name = none
  outermost : scopes.outermost.find? name = address.map (⟨name, .address, ·⟩)

namespace Scopes.Binds

variable {scopes : Scopes} {name : Bytes} {address : Option UInt16} {wanted : List Kind}

theorem findSome? (h : scopes.Binds name address) :
    scopes.lookupOrder.findSome? (·.find? name) = address.map (⟨name, .address, ·⟩) := by
  have hblocks : scopes.blocks.findSome? (·.find? name) = none :=
    List.findSome?_eq_none_iff.mpr h.blocks
  rw [lookupOrder, List.findSome?_append, hblocks, Option.none_or]
  simp [h.outermost]

theorem lookup_eq_ok (h : scopes.Binds name address) {sym : Symbol}
    (hlookup : scopes.lookup name wanted = .ok sym) :
    address = some sym.value ∧ sym.kind = .address := by
  unfold lookup lookupIn at hlookup
  rw [h.findSome?] at hlookup
  cases address with
  | none => contradiction
  | some a =>
      simp only [Option.map_some] at hlookup
      split at hlookup
      · cases hlookup
        exact ⟨rfl, rfl⟩
      · contradiction

theorem lookup_eq_notFound (h : scopes.Binds name address) {n : Bytes} {ks : List Kind}
    (hlookup : scopes.lookup name wanted = .error (.notFound n ks)) : address = none := by
  unfold lookup lookupIn at hlookup
  rw [h.findSome?] at hlookup
  cases address with
  | none => rfl
  | some a =>
      simp only [Option.map_some] at hlookup
      split at hlookup
      · contradiction
      · cases hlookup

end Scopes.Binds

theorem Operand.value_of_addressName? {x : Operand} {scopes : Scopes} {name : Bytes}
    {address : Option UInt16} (h : scopes.Binds name address) (hx : x.addressName? = some name)
    {kind : Kind} {v : UInt16} (hv : x.value scopes kind = .ok v) : address = some v := by
  induction x with
  | name span n =>
      obtain rfl := Option.some.inj hx
      rw [Operand.value] at hv
      split at hv
      next sym hlookup =>
        cases hv
        exact (h.lookup_eq_ok hlookup).1
      next => contradiction
  | load span target value ih _ => exact ih hx hv
  | fetch span target address ih _ => exact ih hx hv
  | _ => contradiction

theorem Half.select_bytes (side : Half) (a : UInt16) :
    [(side.select a).toUInt8] = side.part.bytes a := by
  cases side with
  | hi => rfl
  | lo =>
      have hlow : (a &&& 0xFF).toUInt8 = a.toUInt8 := by
        apply UInt8.toNat_inj.mp
        simp [Nat.and_two_pow_sub_one_eq_mod _ 8]
      rw [Half.select, hlow]
      rfl

theorem Operand.value_of_byteName? {x : Operand} {scopes : Scopes} {name : Bytes} {part : Part}
    {address : Option UInt16} (h : scopes.Binds name address)
    (hx : x.byteName? = some (name, part)) {v : UInt16} (hv : x.value scopes .value = .ok v) :
    ∃ a, address = some a ∧ [v.toUInt8] = part.bytes a := by
  induction x with
  | half span side target _ =>
      obtain ⟨n, hn, heq⟩ := Option.map_eq_some_iff.mp hx
      obtain ⟨rfl, rfl⟩ := Prod.mk.inj heq
      rw [Operand.value, if_pos rfl] at hv
      split at hv
      next a ha =>
        cases hv
        exact ⟨a, value_of_addressName? h hn ha, side.select_bytes a⟩
      next => contradiction
  | load span target value ih _ => exact ih hx hv
  | fetch span target address ih _ => exact ih hx hv
  | _ => contradiction

/-! ## What emission does to uses -/

/-- The use has got its bytes if the address is known, and its reference if it is not. -/
def Use.Placed (u : Use) (address : Option UInt16) (t : Assembly) : Prop :=
  match address with
  | some a => ∀ i, u.pos ≤ i → i < u.pos + u.part.width →
      t.image.bytes[i]? = (u.part.bytes a)[i - u.pos]? ∧ t.image.pending.contains i = false
  | none => ∃ r ∈ t.references, r.pos = u.pos ∧ r.name = u.name ∧ r.part = u.part

theorem Use.Placed.mono {u : Use} {address : Option UInt16} {s t : Assembly}
    (h : u.Placed address s) (hgrows : s.GrowsTo t) : u.Placed address t := by
  cases address with
  | none =>
      obtain ⟨r, hr, hpos⟩ := h
      refine ⟨r, ?_, hpos⟩
      rw [← Array.mem_toList_iff] at hr ⊢
      exact hgrows.references.subset hr
  | some a =>
      intro i hle hlt
      obtain ⟨hbytes, hpending⟩ := h i hle hlt
      have hi : i < s.image.size := by
        have hlength : i - u.pos < (u.part.bytes a).length := by
          rw [Part.length_bytes]
          omega
        rw [List.getElem?_eq_getElem hlength] at hbytes
        exact (Array.getElem?_eq_some_iff.mp hbytes).1
      rw [hgrows.image.bytes i hi, hgrows.image.pending i hi]
      exact ⟨hbytes, hpending⟩

namespace Encode

/-- The name is bound as given, and all pending bytes are in the image. -/
structure Ready (name : Bytes) (address : Option UInt16) (s : Assembly) : Prop where
  binds : s.scopes.Binds name address
  inside : ∀ i, s.image.pending.contains i = true → i < s.image.size

/-- From `s` to `t`, `width` bytes have been emitted, with all uses of the name placed in them. -/
structure Lays (name : Bytes) (address : Option UInt16) (s t : Assembly) (width : Nat)
    (uses : List Use) : Prop where
  ready : Ready name address t
  scopes : t.scopes = s.scopes
  grows : s.GrowsTo t
  size : t.image.size = s.image.size + width
  within : ∀ u ∈ uses, u.name = name →
    s.image.size ≤ u.pos ∧ u.pos + u.part.width ≤ t.image.size
  placed : ∀ u ∈ uses, u.name = name → u.Placed address t

section

variable {name : Bytes} {address : Option UInt16} {s t u : Assembly}

theorem Lays.refl (hs : Ready name address s) : Lays name address s s 0 [] where
  ready := hs
  scopes := rfl
  grows := Assembly.GrowsTo.refl s
  size := rfl
  within := by simp
  placed := by simp

theorem Lays.trans {m n : Nat} {us ws : List Use} (hst : Lays name address s t m us)
    (htu : Lays name address t u n ws) : Lays name address s u (m + n) (us ++ ws) where
  ready := htu.ready
  scopes := htu.scopes.trans hst.scopes
  grows := hst.grows.trans htu.grows
  size := by rw [htu.size, hst.size, Nat.add_assoc]
  within w hw hname := by
    have hsize := htu.size
    have hsize' := hst.size
    rcases List.mem_append.mp hw with hw | hw
    · have hwithin := hst.within w hw hname
      omega
    · have hwithin := htu.within w hw hname
      omega
  placed w hw hname := by
    rcases List.mem_append.mp hw with hw | hw
    · exact (hst.placed w hw hname).mono htu.grows
    · exact htu.placed w hw hname

/-- Bytes are pushed, and a use of the name starts where they start and is made of them. -/
theorem lays_push (hs : Ready name address s) {data : Bytes} (h : push data s = .ok () t)
    (uses : List Use) (huses : ∀ w ∈ uses, w.name = name →
      w.pos = s.image.size ∧ ∃ a, address = some a ∧ data = w.part.bytes a) :
    Lays name address s t data.length uses := by
  have hfits : ((s.image.size + data.length : Nat) : Int) ≤ s.image.limit := by
    by_contra hlarge
    rw [push_of_not_fits hlarge] at h
    contradiction
  rw [push_of_fits hfits] at h
  cases h
  refine
    { ready := ⟨hs.binds, fun i hi => ?_⟩
      scopes := rfl
      grows := ⟨Image.growsTo_push_bytes _ _, List.prefix_rfl⟩
      size := Image.size_push_bytes _ _
      within := fun w hw hname => ?_
      placed := fun w hw hname => ?_ }
  · have hi' := hs.inside i hi
    rw [Image.size_push_bytes]
    omega
  · obtain ⟨hpos, a, _, rfl⟩ := huses w hw hname
    rw [Image.size_push_bytes, Part.length_bytes]
    omega
  · obtain ⟨hpos, a, rfl, rfl⟩ := huses w hw hname
    intro i hle hlt
    refine ⟨?_, ?_⟩
    · rw [Image.getElem?_push_bytes, if_neg (by omega), hpos]
    · rw [← Bool.not_eq_true]
      intro hpending
      have hi := hs.inside i hpending
      omega

theorem lays_refer (hs : Ready name address s) {n : Bytes} {part : Part}
    (h : Forward.refer n part s = .ok () t) (hn : n = name → address = none) :
    Lays name address s t part.width [⟨s.image.size, n, part⟩] := by
  have hfits : ((s.image.size + part.width : Nat) : Int) ≤ s.image.limit := by
    by_contra hlarge
    obtain ⟨_, _, hfailed⟩ := refer_of_not_fits n hlarge
    rw [hfailed] at h
    contradiction
  rw [refer_of_fits n hfits] at h
  cases h
  refine
    { ready := ⟨hs.binds, fun i hi => ?_⟩
      scopes := rfl
      grows := ⟨Image.growsTo_fill _ _, by simp⟩
      size := Image.size_fill _ _
      within := fun w hw hname => ?_
      placed := fun w hw hname => ?_ }
  · rw [Image.contains_fill] at hi
    rw [Image.size_fill]
    rcases hi with hi | hi
    · have hi' := hs.inside i hi
      omega
    · omega
  · obtain rfl := List.mem_singleton.mp hw
    rw [Image.size_fill]
    exact ⟨le_rfl, le_rfl⟩
  · obtain rfl := List.mem_singleton.mp hw
    rw [hn hname]
    exact ⟨_, Array.mem_push_self, rfl, rfl, rfl⟩

/-! ## Operands and instructions -/

theorem lays_emitAddress (hs : Ready name address s) {x : Operand}
    (h : emitAddress .refer x s = .ok () t) :
    Lays name address s t 2 (x.addressUses s.image.size) := by
  have hvalue : ∀ {v : UInt16}, x.value s.scopes .address = .ok v → pushWord v s = .ok () t →
      Lays name address s t 2 (x.addressUses s.image.size) := by
    intro v hv hpush
    refine lays_push hs hpush _ fun w hw hname => ?_
    obtain ⟨n, hn, rfl⟩ := List.mem_map.mp hw
    rw [Option.mem_toList] at hn
    exact ⟨rfl, v, Operand.value_of_addressName? hs.binds (hname ▸ hn) hv, rfl⟩
  cases x with
  | name span n =>
      simp only [emitAddress, bind_eq_ok, lookup_eq_ok] at h
      obtain ⟨_, _, ⟨rfl, rfl⟩, h⟩ := h
      cases hfound : s.scopes.lookup n [.address] with
      | ok sym =>
          rw [hfound] at h
          exact hvalue (by rw [Operand.value, hfound]) h
      | error e =>
          rw [hfound] at h
          cases e with
          | notFound _ _ =>
              exact lays_refer hs h fun hn => (hn ▸ hs.binds).lookup_eq_notFound hfound
          | kindMismatch _ _ _ => contradiction
          | globalPop => contradiction
  | _ =>
      simp only [emitAddress, bind_eq_ok, value_eq_ok] at h
      obtain ⟨v, _, ⟨hv, rfl⟩, hpush⟩ := h
      exact hvalue hv hpush

theorem lays_emitValue (hs : Ready name address s) {x : Operand}
    (h : emitValue x s = .ok () t) : Lays name address s t 1 (x.byteUses s.image.size) := by
  simp only [emitValue, bind_eq_ok, value_eq_ok] at h
  obtain ⟨v, _, ⟨hv, rfl⟩, hpush⟩ := h
  refine lays_push hs hpush _ fun w hw hname => ?_
  obtain ⟨⟨n, part⟩, hn, rfl⟩ := List.mem_map.mp hw
  rw [Option.mem_toList] at hn
  exact ⟨rfl, Operand.value_of_byteName? hs.binds (hname ▸ hn) hv⟩

theorem lays_emitByte (hs : Ready name address s) {x : Operand}
    (h : emitByte .refer x s = .ok () t) :
    Lays name address s t 1 (x.byteUses s.image.size) := by
  unfold emitByte at h
  split at h
  next span side _ n =>
    simp only [bind_eq_ok, lookup_eq_ok] at h
    obtain ⟨_, _, ⟨rfl, rfl⟩, h⟩ := h
    cases hfound : s.scopes.lookup n [.address] with
    | ok sym =>
        rw [hfound] at h
        exact lays_emitValue hs h
    | error e =>
        rw [hfound] at h
        cases e with
        | notFound _ _ =>
            have hrefer := lays_refer hs h fun hn => (hn ▸ hs.binds).lookup_eq_notFound hfound
            cases side <;> exact hrefer
        | kindMismatch _ _ _ => exact lays_emitValue hs h
        | globalPop => exact lays_emitValue hs h
  next => exact lays_emitValue hs h

theorem lays_emitItem (hs : Ready name address s) {x : Operand}
    (h : emitItem .refer x s = .ok () t) :
    Lays name address s t (x.itemWidth s.scopes) (x.itemUses s.image.size) := by
  cases x with
  | text span value =>
      have hpush := lays_push hs h [] (by simp)
      rwa [List.length_append] at hpush
  | name span n =>
      simp only [emitItem, emitNamed, bind_eq_ok, lookup_eq_ok] at h
      obtain ⟨_, _, ⟨rfl, rfl⟩, h⟩ := h
      cases hfound : s.scopes.lookup n [.value, .address] with
      | ok sym =>
          simp only [hfound] at h
          simp only [Operand.itemWidth, hfound, Operand.itemUses]
          split at h
          next hkind =>
            rw [if_pos hkind]
            refine lays_push hs h _ fun w hw hname => ?_
            obtain rfl := List.mem_singleton.mp hw
            obtain rfl : n = name := hname
            -- the name would be bound to a value, and it is bound to an address or not at all
            have haddress := (hs.binds.lookup_eq_ok hfound).2
            rw [hkind] at haddress
            contradiction
          next hkind =>
            rw [if_neg hkind]
            refine lays_push hs h _ fun w hw hname => ?_
            obtain rfl := List.mem_singleton.mp hw
            obtain rfl : n = name := hname
            exact ⟨rfl, _, (hs.binds.lookup_eq_ok hfound).1, rfl⟩
      | error e =>
          simp only [hfound] at h
          simp only [Operand.itemWidth, hfound, Operand.itemUses]
          cases e with
          | notFound _ _ =>
              exact lays_refer hs h fun hn => (hn ▸ hs.binds).lookup_eq_notFound hfound
          | kindMismatch _ _ _ => contradiction
          | globalPop => contradiction
  | _ => exact lays_emitByte hs h

theorem register_eq_ok {x : Operand} {r : UInt8} (h : register x s = .ok r t) : s = t := by
  simp only [register, bind_eq_ok, value_eq_ok] at h
  obtain ⟨_, _, ⟨_, rfl⟩, h⟩ := h
  cases h
  rfl

theorem lays_opcode (hs : Ready name address s) {x : Operand} {r opcode : UInt8}
    (hregister : register x s = .ok r u) (h : push [opcode, r] u = .ok () t) :
    Lays name address s t 2 [] := by
  obtain rfl := register_eq_ok hregister
  exact lays_push hs h [] (by simp)

theorem lays_emitSetup (hs : Ready name address s) {x : Operand}
    (h : emitSetup .refer x s = .ok () t) :
    Lays name address s t x.setupWidth (x.setupUses s.image.size) := by
  induction x generalizing t with
  | load span target value ih _ =>
      simp only [emitSetup, bind_eq_ok] at h
      obtain ⟨_, u, htarget, r, u', hregister, _, v, hpush, hvalue⟩ := h
      have hfirst := ih htarget
      have hsecond := hfirst.trans (lays_opcode hfirst.ready hregister hpush)
      have hlast := lays_emitByte hsecond.ready hvalue
      rw [hsecond.size] at hlast
      simpa [Operand.setupWidth, Operand.setupUses, Nat.add_assoc] using hsecond.trans hlast
  | fetch span target address ih _ =>
      simp only [emitSetup, bind_eq_ok] at h
      obtain ⟨_, u, htarget, r, u', hregister, _, v, hpush, haddress⟩ := h
      have hfirst := ih htarget
      have hsecond := hfirst.trans (lays_opcode hfirst.ready hregister hpush)
      have hlast := lays_emitAddress hsecond.ready haddress
      rw [hsecond.size] at hlast
      simpa [Operand.setupWidth, Operand.setupUses, Nat.add_assoc] using hsecond.trans hlast
  | _ =>
      cases h
      exact Lays.refl hs

theorem lays_emitOperand (hs : Ready name address s) {kind : Kind} {x : Operand}
    (h : emitOperand .refer kind x s = .ok () t) :
    Lays name address s t kind.width (x.operandUses s.image.size kind) := by
  cases kind with
  | register =>
      rw [emitOperand, bind_eq_ok] at h
      obtain ⟨r, u, hregister, hpush⟩ := h
      obtain rfl := register_eq_ok hregister
      exact lays_push hs hpush [] (by simp)
  | address => exact lays_emitAddress hs h
  | value => exact lays_emitByte hs h
  | other _ => exact lays_emitByte hs h

theorem lays_eachOperand {act : Kind → Operand → Encode Unit} {width : Kind × Operand → Nat}
    (uses : Nat → Kind × Operand → List Use)
    (hact : ∀ (d : Kind × Operand) {s t : Assembly}, Ready name address s →
      act d.1 d.2 s = .ok () t → Lays name address s t (width d) (uses s.image.size d))
    (instruction : Bytes) (index : Nat) (declared : List (Kind × Operand))
    (hs : Ready name address s) (h : eachOperand instruction act index declared s = .ok () t) :
    Lays name address s t (declared.map width).sum
      (Use.inRow width uses s.image.size declared) := by
  induction declared generalizing index s with
  | nil =>
      cases h
      exact Lays.refl hs
  | cons d rest ih =>
      simp only [eachOperand, bind_eq_ok, mapError_eq_ok] at h
      obtain ⟨_, u, hfirst, hrest⟩ := h
      have hlays := hact d hs hfirst
      have hlater := ih (index + 1) hlays.ready hrest
      rw [hlays.size] at hlater
      exact hlays.trans hlater

theorem lays_each {act : Operand → Encode Unit} {scopes : Scopes} {width : Operand → Nat}
    (uses : Nat → Operand → List Use)
    (hact : ∀ (x : Operand) {s t : Assembly}, Ready name address s → s.scopes = scopes →
      act x s = .ok () t → Lays name address s t (width x) (uses s.image.size x))
    (items : List Operand) (hs : Ready name address s) (hscopes : s.scopes = scopes)
    (h : each act items s = .ok () t) :
    Lays name address s t (items.map width).sum (Use.inRow width uses s.image.size items) := by
  induction items generalizing s with
  | nil =>
      cases h
      exact Lays.refl hs
  | cons x rest ih =>
      rw [each, bind_eq_ok] at h
      obtain ⟨_, u, hfirst, hrest⟩ := h
      have hlays := hact x hs hscopes hfirst
      have hlater := ih hlays.ready (hlays.scopes.trans hscopes) hrest
      rw [hlays.size] at hlater
      exact hlays.trans hlater

theorem lays_emitInstruction (hs : Ready name address s) {i : Instruction}
    {operands : List Operand} (h : emitInstruction .refer i operands s = .ok () t) :
    ∃ width, Lays name address s t width (i.uses s.image.size operands) := by
  have hsetup : ∀ (d : Kind × Operand) {s t : Assembly}, Ready name address s →
      (if d.1 = .register then emitSetup .refer d.2 else pure () : Encode Unit) s = .ok () t →
      Lays name address s t (Instruction.setupWidth d)
        (Instruction.setupUses s.image.size d) := by
    intro d s t hs h
    unfold Instruction.setupWidth Instruction.setupUses
    split at h
    next hkind =>
      rw [if_pos hkind, if_pos hkind]
      exact lays_emitSetup hs h
    next hkind =>
      rw [if_neg hkind, if_neg hkind]
      cases h
      exact Lays.refl hs
  unfold emitInstruction at h
  split at h
  · contradiction
  · simp only [bind_eq_ok] at h
    obtain ⟨_, u, hfirst, _, v, hpush, hlast⟩ := h
    have hsetups := lays_eachOperand Instruction.setupUses hsetup _ _ _ hs hfirst
    have hopcode := hsetups.trans (lays_push hsetups.ready hpush [] (by simp))
    have hoperands := lays_eachOperand (fun pos d => d.2.operandUses pos d.1)
      (fun _ _ _ hs h => lays_emitOperand hs h) _ _ _ hopcode.ready hlast
    have hlays := hopcode.trans hoperands
    rw [hopcode.size, List.append_nil] at hlays
    exact ⟨_, hlays⟩

/-- All uses of the name in a statement have been placed at their positions. -/
structure PlacesUses (name : Bytes) (address : Option UInt16) (s t : Assembly) (x : Statement) :
    Prop where
  within : ∀ u ∈ x.uses s, u.name = name →
    s.image.size ≤ u.pos ∧ u.pos + u.part.width ≤ t.image.size
  placed : ∀ u ∈ x.uses s, u.name = name → u.Placed address t

theorem placesUses_of_statement (hs : Ready name address s) {x : Statement}
    (hx : x.isBlock = false) (h : statement .refer x s = .ok () t) :
    PlacesUses name address s t x := by
  have hnone : x.uses s = [] → PlacesUses name address s t x := by
    intro hempty
    exact ⟨by simp [hempty], by simp [hempty]⟩
  cases x with
  | instruction span i operands =>
      obtain ⟨_, hlays⟩ := lays_emitInstruction hs (located_eq_ok.mp h)
      exact ⟨hlays.within, hlays.placed⟩
  | data span items =>
      rw [statement, located_eq_ok, mapError_eq_ok] at h
      have hlays := lays_each Operand.itemUses
        (fun x _ _ hs hscopes h => hscopes ▸ lays_emitItem hs h) items hs rfl h
      exact ⟨hlays.within, hlays.placed⟩
  | words span items =>
      have hlays := lays_each Operand.addressUses (fun x _ _ hs _ h => lays_emitAddress hs h)
        items hs rfl (located_eq_ok.mp h)
      exact ⟨hlays.within, hlays.placed⟩
  | defineRegister span n x =>
      rw [statement, located_eq_ok, bind_eq_ok] at h
      obtain ⟨_, u, hsetup, h⟩ := h
      rw [bind_eq_ok] at h
      obtain ⟨r, u', hregister, hdefine⟩ := h
      obtain rfl := register_eq_ok hregister
      have hlays := lays_emitSetup hs hsetup
      have hstore := sameStore_onScopes (·.bind ⟨n, .register, r.toUInt16⟩) u
      have hgrows : u.GrowsTo t := by
        rw [show onScopes (·.bind ⟨n, .register, r.toUInt16⟩) u = .ok () t from hdefine] at hstore
        exact growsTo_of_sameStore hstore
      refine ⟨fun w hw hname => ?_, fun w hw hname => (hlays.placed w hw hname).mono hgrows⟩
      have hwithin := hlays.within w hw hname
      have hsize := hgrows.image.size
      omega
  | block span body => contradiction
  | _ => exact hnone rfl

end

end Encode

end Gx
