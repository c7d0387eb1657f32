import Gx.Proofs.Image
import Gx.Symbol.Basic

/-!
# Histories of an image

An image is changed by operations, some of which fail.  What an operation can do is said once, by
`Image.Effect`; the rest follows from there, first for one operation and then for any number of
them.  Two ledgers are kept for every byte: how often it has been reserved and how often it has been
patched.  They differ by its mark, so the bitmap tells exactly which reserved bytes wait for their
values.

A failing operation leaves the image alone, with one exception.  Bytes are reserved one after the
other, and if they do not all fit, those that do stay reserved.
-/

namespace Gx.Image

inductive Operation where
  | push (data : Bytes)
  | pushWord (w : UInt16)
  /-- A negative number of bytes counts as none. -/
  | reserve (n : Int)
  | patch (pos : Nat) (data : Bytes)

/-- The image after an operation that changes it as a whole or not at all, and the error. -/
def orUnchanged (img : Image) : Except ImageError Image → Image × Option ImageError
  | .ok next => (next, none)
  | .error e => (img, some e)

/-- The image after an operation, and the error if it fails. -/
def run (img : Image) : Operation → Image × Option ImageError
  | .push data => img.orUnchanged (img.push data)
  | .pushWord w => img.orUnchanged (img.push (wordBytes w))
  | .reserve n =>
      match img.reserve n.toNat with
      | (next, .ok _) => (next, none)
      | (next, .error e) => (next, some e)
  | .patch pos data => img.orUnchanged (img.patch pos data)

/-- The image after operations, each of which finds the image that the one before has left. -/
def after (img : Image) : List Operation → Image
  | [] => img
  | op :: rest => (img.run op).1.after rest

/-! ## What an operation can do -/

/-- An operation appends bytes, or reserves bytes and possibly fails, or patches pending bytes, or
fails without a change. -/
inductive Effect (img : Image) : Operation → Image × Option ImageError → Prop where
  | push {data : Bytes} (hfits : ((img.size + data.length : Nat) : Int) ≤ img.limit) :
      Effect img (.push data) ({ img with bytes := img.bytes ++ data }, none)
  | pushWord {w : UInt16} (hfits : ((img.size + (wordBytes w).length : Nat) : Int) ≤ img.limit) :
      Effect img (.pushWord w) ({ img with bytes := img.bytes ++ wordBytes w }, none)
  | reserve {n : Int} {k : Nat} (hfits : 0 < k → ((img.size + k : Nat) : Int) ≤ img.limit)
      (error : Option ImageError) : Effect img (.reserve n) (img.fill k, error)
  | patch {pos : Nat} {data : Bytes}
      (hpending : ∀ i, pos ≤ i → i < pos + data.length → img.pending.contains i = true) :
      Effect img (.patch pos data) (img.patched pos data, none)
  | refuse {op : Operation} (e : ImageError) : Effect img op (img, some e)

theorem run_reserve (img : Image) (n : Int) :
    (img.run (.reserve n)).1 = img.fill (min n.toNat (img.limit - img.size).toNat) ∧
      ((img.run (.reserve n)).2 = none ↔ n.toNat ≤ (img.limit - img.size).toNat) := by
  simp only [run, Image.reserve, reserveFrom_eq]
  by_cases hfits : n.toNat ≤ (img.limit - img.size).toNat
  · rw [if_pos hfits]
    exact ⟨rfl, iff_of_true rfl hfits⟩
  · rw [if_neg hfits]
    exact ⟨rfl, iff_of_false (by simp) hfits⟩

theorem run_push (img : Image) (data : Bytes) :
    ((img.size + data.length : Nat) : Int) ≤ img.limit ∧
        img.orUnchanged (img.push data) = ({ img with bytes := img.bytes ++ data }, none) ∨
      ∃ e, img.orUnchanged (img.push data) = (img, some e) := by
  by_cases hfits : ((img.size + data.length : Nat) : Int) ≤ img.limit
  · rw [push_eq_ok_iff.mpr ⟨hfits, rfl⟩]
    exact Or.inl ⟨hfits, rfl⟩
  · rw [push_of_not_fits hfits]
    exact Or.inr ⟨_, rfl⟩

theorem fill_of_run_reserve {img next : Image} {n : Int} {e : ImageError}
    (hrun : img.run (.reserve n) = (next, some e)) :
    next = img.fill (img.limit - img.size).toNat := by
  obtain ⟨hnext, hnone⟩ := img.run_reserve n
  rw [hrun] at hnext hnone
  have hlarge : ¬n.toNat ≤ (img.limit - img.size).toNat := by simpa using hnone
  rw [min_eq_right (by omega)] at hnext
  exact hnext

theorem effect_run (img : Image) (op : Operation) : img.Effect op (img.run op) := by
  cases op with
  | push data =>
      rw [run]
      rcases img.run_push data with ⟨hfits, hrun⟩ | ⟨e, hrun⟩
      · rw [hrun]
        exact Effect.push hfits
      · rw [hrun]
        exact Effect.refuse e
  | pushWord w =>
      rw [run]
      rcases img.run_push (wordBytes w) with ⟨hfits, hrun⟩ | ⟨e, hrun⟩
      · rw [hrun]
        exact Effect.pushWord hfits
      · rw [hrun]
        exact Effect.refuse e
  | reserve n =>
      rw [← Prod.mk.eta (p := img.run (.reserve n)), (img.run_reserve n).1]
      exact Effect.reserve (by omega) _
  | patch pos data =>
      rw [run]
      cases hpatch : img.patch pos data with
      | error e => exact Effect.refuse e
      | ok next =>
          have hpending : ∀ k < data.length, img.isPending (pos + k) = true := by
            intro k hk
            by_contra hfree
            obtain ⟨j, herror⟩ := patch_of_not_pending hk (Bool.not_eq_true _ ▸ hfree)
            rw [hpatch] at herror
            contradiction
          rw [patch_of_pending hpending] at hpatch
          obtain rfl := Except.ok.inj hpatch
          refine Effect.patch fun i hle hlt => ?_
          have hmark := hpending (i - pos) (by omega)
          rwa [show (pos : Int) + (i - pos : Nat) = (i : Nat) by omega] at hmark

/-! ## What every operation keeps -/

/-- The image fits, and its pending bytes are placeholders inside of it. -/
structure Orderly (img : Image) : Prop where
  fits : (img.size : Int) ≤ img.limit
  inside : img.PendingInside
  placeholder : ∀ i, img.pending.contains i = true → img.bytes[i]? = some placeholder

theorem orderly_empty (m : Nat) : ({ limit := m } : Image).Orderly where
  fits := by simp [size]
  inside i hi := by simp at hi
  placeholder i hi := by simp at hi

section

variable {img : Image}

theorem getElem?_fill (n i : Nat) (hi : img.size ≤ i) :
    (img.fill n).bytes[i]? = if i < img.size + n then some placeholder else none := by
  unfold size at hi ⊢
  simp only [fill]
  rw [Array.getElem?_append_right hi, Array.getElem?_replicate]
  grind

theorem Orderly.append (h : img.Orderly) {data : Bytes}
    (hfits : ((img.size + data.length : Nat) : Int) ≤ img.limit) :
    ({ img with bytes := img.bytes ++ data } : Image).Orderly where
  fits := by rwa [size_push_bytes]
  inside := h.inside.push_bytes data
  placeholder i hi := by
    rw [(growsTo_push_bytes img data).bytes i (h.inside i hi)]
    exact h.placeholder i hi

theorem Orderly.fill (h : img.Orderly) {k : Nat}
    (hfits : 0 < k → ((img.size + k : Nat) : Int) ≤ img.limit) : (img.fill k).Orderly where
  fits := by
    have hfits' := h.fits
    rw [size_fill]
    change _ ≤ img.limit
    omega
  inside := h.inside.fill k
  placeholder i hi := by
    rcases (contains_fill img k i).mp hi with hold | hnew
    · rw [(growsTo_fill img k).bytes i (h.inside i hold)]
      exact h.placeholder i hold
    · rw [getElem?_fill k i hnew.1, if_pos hnew.2]

theorem Orderly.patched (h : img.Orderly) (pos : Nat) (data : Bytes) :
    (img.patched pos data).Orderly where
  fits := by
    rw [size_patched]
    exact h.fits
  inside := h.inside.patched pos data
  placeholder i hi := by
    obtain ⟨hold, hout⟩ := (contains_patched img pos data i).mp hi
    rw [getElem?_patched, if_neg (by tauto)]
    exact h.placeholder i hold

theorem Orderly.run (h : img.Orderly) (op : Operation) : (img.run op).1.Orderly := by
  have heffect := img.effect_run op
  generalize img.run op = result at heffect
  cases heffect with
  | push hfits => exact h.append hfits
  | pushWord hfits => exact h.append hfits
  | reserve hfits _ => exact h.fill hfits
  | patch _ => exact h.patched _ _
  | refuse _ => exact h

theorem Orderly.after (h : img.Orderly) (ops : List Operation) : (img.after ops).Orderly := by
  induction ops generalizing img with
  | nil => exact h
  | cons op rest ih => exact ih (h.run op)

/-- A later image has no fewer bytes, and those that were settled are as before. -/
structure Advances (img next : Image) : Prop where
  limit : next.limit = img.limit
  size : img.size ≤ next.size
  settled : ∀ i < img.size, img.pending.contains i = false →
    next.bytes[i]? = img.bytes[i]? ∧ next.pending.contains i = false

theorem Advances.refl (img : Image) : img.Advances img :=
  ⟨rfl, le_rfl, fun _ _ hi => ⟨rfl, hi⟩⟩

theorem Advances.trans {next last : Image} (h : img.Advances next) (h' : next.Advances last) :
    img.Advances last where
  limit := h'.limit.trans h.limit
  size := h.size.trans h'.size
  settled i hi hfree := by
    obtain ⟨hbyte, hmark⟩ := h.settled i hi hfree
    obtain ⟨hbyte', hmark'⟩ := h'.settled i (hi.trans_le h.size) hmark
    exact ⟨hbyte'.trans hbyte, hmark'⟩

theorem GrowsTo.advances {next : Image} (h : img.GrowsTo next) : img.Advances next where
  limit := h.limit
  size := h.size
  settled i hi hfree := ⟨h.bytes i hi, (h.pending i hi).trans hfree⟩

theorem advances_patched {pos : Nat} {data : Bytes}
    (hpending : ∀ i, pos ≤ i → i < pos + data.length → img.pending.contains i = true) :
    img.Advances (img.patched pos data) where
  limit := rfl
  size := by rw [size_patched]
  settled i hi hfree := by
    have hout : ¬(pos ≤ i ∧ i < pos + data.length) := by
      rintro ⟨hle, hlt⟩
      rw [hpending i hle hlt] at hfree
      contradiction
    rw [getElem?_patched, if_neg (by tauto), ← Bool.not_eq_true, contains_patched]
    simp [hfree]

theorem advances_run (img : Image) (op : Operation) : img.Advances (img.run op).1 := by
  have heffect := img.effect_run op
  generalize img.run op = result at heffect
  cases heffect with
  | push _ => exact (growsTo_push_bytes img _).advances
  | pushWord _ => exact (growsTo_push_bytes img _).advances
  | reserve _ _ => exact (growsTo_fill img _).advances
  | patch hpending => exact advances_patched hpending
  | refuse _ => exact Advances.refl img

theorem advances_after (img : Image) (ops : List Operation) : img.Advances (img.after ops) := by
  induction ops generalizing img with
  | nil => exact Advances.refl img
  | cons op rest ih => exact (img.advances_run op).trans (ih _)

/-- Only a patch that succeeds changes bytes, and only those whose marks it clears. -/
theorem exists_patch_of_changed {op : Operation} {next : Image} {error : Option ImageError}
    (hrun : img.run op = (next, error)) {i : Nat} (hi : i < img.size)
    (hchanged : next.bytes[i]? ≠ img.bytes[i]?) :
    ∃ pos data, op = .patch pos data ∧ error = none ∧ pos ≤ i ∧ i < pos + data.length ∧
      img.pending.contains i = true ∧ next.pending.contains i = false := by
  have heffect := img.effect_run op
  rw [hrun] at heffect
  cases heffect with
  | push _ => exact absurd ((growsTo_push_bytes img _).bytes i hi) hchanged
  | pushWord _ => exact absurd ((growsTo_push_bytes img _).bytes i hi) hchanged
  | reserve _ _ => exact absurd ((growsTo_fill img _).bytes i hi) hchanged
  | @patch pos data hpending =>
      have hin : pos ≤ i ∧ i < pos + data.length := by
        by_contra hout
        refine hchanged ?_
        rw [getElem?_patched, if_neg (by tauto)]
      refine ⟨pos, data, rfl, rfl, hin.1, hin.2, hpending i hin.1 hin.2, ?_⟩
      rw [← Bool.not_eq_true, contains_patched]
      tauto
  | refuse _ => exact absurd rfl hchanged

/-! ## The ledgers of a byte -/

/-- The operation reserves byte `i`, whether or not it goes on to fail. -/
def reserves (i : Nat) (img : Image) (op : Operation) : Bool :=
  match op with
  | .reserve _ => decide (img.size ≤ i ∧ i < (img.run op).1.size)
  | _ => false

/-- The operation gives byte `i` its value. -/
def patches (i : Nat) (img : Image) (op : Operation) : Bool :=
  match op with
  | .patch pos data => (img.run op).2.isNone && decide (pos ≤ i ∧ i < pos + data.length)
  | _ => false

/-- How many of the operations do something, each to the image that it finds. -/
def times (does : Image → Operation → Bool) (img : Image) : List Operation → Nat
  | [] => 0
  | op :: rest => (does img op).toNat + times does (img.run op).1 rest

theorem balance_run (h : img.Orderly) (i : Nat) (op : Operation) :
    (patches i img op).toNat + ((img.run op).1.pending.contains i).toNat =
      (img.pending.contains i).toNat + (reserves i img op).toNat := by
  have heffect := img.effect_run op
  unfold patches reserves
  generalize img.run op = result at heffect
  cases heffect with
  | push _ => simp
  | pushWord _ => simp
  | @reserve n k _ _ =>
      have hmark : (img.fill k).pending.contains i =
          (img.pending.contains i || decide (img.size ≤ i ∧ i < img.size + k)) := by
        rw [Bool.eq_iff_iff, contains_fill]
        simp
      by_cases hnew : img.size ≤ i ∧ i < img.size + k
      · -- a byte that is new has no mark yet
        have hfree : img.pending.contains i = false := h.inside.not_pending hnew.1
        simp [hmark, hfree, hnew]
      · simp [hmark, hnew]
  | @patch pos data hpending =>
      have hmark : (img.patched pos data).pending.contains i =
          (img.pending.contains i && !decide (pos ≤ i ∧ i < pos + data.length)) := by
        rw [Bool.eq_iff_iff, contains_patched, Bool.and_eq_true, Bool.not_eq_true',
          decide_eq_false_iff_not]
      by_cases hin : pos ≤ i ∧ i < pos + data.length
      · simp [hmark, hpending i hin.1 hin.2, hin]
      · simp [hmark, hin]
  | refuse _ =>
      cases op with
      | reserve n =>
          have hnone : ¬(img.size ≤ i ∧ i < img.size) := by omega
          simp [hnone]
      | _ => simp

/-- A byte is patched as often as it is reserved, but for the one time its mark stands for. -/
theorem balance_after (h : img.Orderly) (i : Nat) (ops : List Operation) :
    times (patches i) img ops + ((img.after ops).pending.contains i).toNat =
      (img.pending.contains i).toNat + times (reserves i) img ops := by
  induction ops generalizing img with
  | nil => simp [times, Image.after]
  | cons op rest ih =>
      have hstep := balance_run h i op
      have hrest := ih (h.run op)
      simp only [times, Image.after]
      omega

theorem lt_size_of_reserves {i : Nat} {op : Operation} (h : reserves i img op = true) :
    img.size ≤ i ∧ i < (img.run op).1.size := by
  unfold reserves at h
  split at h
  · exact of_decide_eq_true h
  · contradiction

theorem times_reserves_of_lt {i : Nat} (hi : i < img.size) (ops : List Operation) :
    times (reserves i) img ops = 0 := by
  induction ops generalizing img with
  | nil => rfl
  | cons op rest ih =>
      have hnot : reserves i img op = false := by
        rw [← Bool.not_eq_true]
        intro hreserves
        have hnew := lt_size_of_reserves hreserves
        omega
      have hlater : i < (img.run op).1.size := hi.trans_le (img.advances_run op).size
      rw [times, hnot, ih hlater]
      rfl

/-- The image grows past a byte once only. -/
theorem times_reserves_le_one (img : Image) (i : Nat) (ops : List Operation) :
    times (reserves i) img ops ≤ 1 := by
  induction ops generalizing img with
  | nil => simp [times]
  | cons op rest ih =>
      rw [times]
      cases hreserves : reserves i img op with
      | false =>
          rw [Bool.toNat_false, zero_add]
          exact ih _
      | true =>
          rw [times_reserves_of_lt (lt_size_of_reserves hreserves).2, Bool.toNat_true]

theorem mark_eq_true_iff (m : Nat) (ops : List Operation) (i : Nat) :
    (({ limit := m } : Image).after ops).pending.contains i = true ↔
      0 < times (reserves i) { limit := m } ops ∧ times (patches i) { limit := m } ops = 0 := by
  have hbalance := balance_after (orderly_empty m) i ops
  have honce := times_reserves_le_one { limit := m } i ops
  rw [Bitmap.contains_empty, Bool.toNat_false] at hbalance
  cases hmark : (({ limit := m } : Image).after ops).pending.contains i with
  | false =>
      rw [hmark, Bool.toNat_false] at hbalance
      simp only [Bool.false_eq_true, false_iff]
      omega
  | true =>
      rw [hmark, Bool.toNat_true] at hbalance
      simp only [true_iff]
      omega

end

end Image

open Image

/-- An operation that fails leaves the image as it was, unless it reserves bytes and there is room
for some.  Then it fills the image up to the limit, with bytes that stay pending. -/
theorem failed_operation_keeps_image {img next : Image} {op : Operation} {e : ImageError}
    (hrun : img.run op = (next, some e)) :
    ((∀ n, op = .reserve n → img.limit ≤ img.size) → next = img) ∧
    ∀ n, op = .reserve n → (img.size : Int) < img.limit →
      (next.size : Int) = img.limit ∧ next.limit = img.limit ∧
      (∀ i < img.size, next.bytes[i]? = img.bytes[i]?) ∧
      (∀ i, img.size ≤ i → i < next.size → next.bytes[i]? = some 0xFF) ∧
      ∀ i, next.pending.contains i = true ↔
        img.pending.contains i = true ∨ img.size ≤ i ∧ i < next.size := by
  constructor
  · intro hfull
    have heffect := img.effect_run op
    rw [hrun] at heffect
    cases heffect with
    | @reserve n k hfits _ =>
        have hlimit := hfull n rfl
        obtain rfl : k = 0 := by omega
        exact fill_zero img
    | refuse _ => rfl
  · rintro n rfl hroom
    have hfilled := fill_of_run_reserve hrun
    have hsize : next.size = img.size + (img.limit - img.size).toNat := by
      rw [hfilled, size_fill]
    refine ⟨by omega, ?_, ?_, ?_, ?_⟩
    · rw [hfilled]
      rfl
    · rw [hfilled]
      exact (growsTo_fill img _).bytes
    · intro i hle hlt
      rw [hsize] at hlt
      rw [hfilled, getElem?_fill _ i hle, if_pos hlt]
      rfl
    · intro i
      rw [hsize, hfilled, contains_fill]

/-- A patch of one pending byte and one that is not leaves no trace.  Reserving two bytes where one
fits leaves that one. -/
theorem failed_operation_keeps_image_of_limit_three :
    let img := ({ limit := 3 } : Image).after [.push [7], .reserve 1]
    (∃ e, img.run (.patch 1 [8, 9]) = (img, some e)) ∧
    ∃ next e, img.run (.reserve 2) = (next, some e) ∧ (next.size : Int) = 3 := by
  intro img
  have herrors : (img.run (.patch 1 [8, 9])).2 = some (.noPlaceholder 2) ∧
      (img.run (.reserve 2)).2 = some (.tooLarge 4 3) := by decide
  obtain ⟨next, hpatch⟩ : ∃ next, img.run (.patch 1 [8, 9]) = (next, some (.noPlaceholder 2)) :=
    ⟨_, Prod.ext rfl herrors.1⟩
  obtain ⟨filled, hreserve⟩ : ∃ filled, img.run (.reserve 2) = (filled, some (.tooLarge 4 3)) :=
    ⟨_, Prod.ext rfl herrors.2⟩
  have hkept := (failed_operation_keeps_image hpatch).1 (by simp)
  subst hkept
  exact ⟨⟨_, hpatch⟩, filled, _, hreserve,
    ((failed_operation_keeps_image hreserve).2 2 rfl (by decide)).1⟩

/-- One of two bytes has been reserved by an operation that fails. -/
theorem failed_reserve_leaves_a_byte :
    ∃ next e, ({ limit := 1 } : Image).run (.reserve 2) = (next, some e) ∧
      next.bytes = #[0xFF] ∧ next.pending.contains 0 = true ∧ next ≠ { limit := 1 } :=
  ⟨_, _, rfl, rfl, by decide, by decide⟩

/-- Whatever is done to an image, it stays within its limit and never gets shorter, and its pending
bytes are placeholders inside of it.  A byte changes only by a patch that succeeds and clears its
mark, so a byte without a mark keeps its value for good.  A byte is patched no more often than it is
reserved, which is once at most, and it is pending if it is reserved and not patched.  The image is
complete if and only if every byte that was ever reserved has been patched. -/
theorem image_is_append_only {m : Nat} {ops : List Operation} {img : Image}
    (himg : ({ limit := m } : Image).after ops = img) :
    img.size ≤ m ∧
    (∀ i, img.pending.contains i = true → i < img.size ∧ img.bytes[i]? = some 0xFF) ∧
    (∀ op next error, img.run op = (next, error) → img.size ≤ next.size ∧
      ∀ i < img.size, next.bytes[i]? ≠ img.bytes[i]? →
        ∃ pos data, op = .patch pos data ∧ error = none ∧ pos ≤ i ∧ i < pos + data.length ∧
          img.pending.contains i = true ∧ next.pending.contains i = false) ∧
    (∀ later, img.size ≤ (img.after later).size ∧
      ∀ i < img.size, img.pending.contains i = false →
        (img.after later).bytes[i]? = img.bytes[i]? ∧
        (img.after later).pending.contains i = false) ∧
    (∀ i, times (patches i) { limit := m } ops ≤ times (reserves i) { limit := m } ops ∧
      times (reserves i) { limit := m } ops ≤ 1 ∧
      (img.pending.contains i = true ↔
        0 < times (reserves i) { limit := m } ops ∧ times (patches i) { limit := m } ops = 0)) ∧
    (img.check = .ok () ↔ ∀ i, 0 < times (reserves i) { limit := m } ops →
      0 < times (patches i) { limit := m } ops) := by
  subst himg
  have horderly := (orderly_empty m).after ops
  have hlimit : (({ limit := m } : Image).after ops).limit = m :=
    (advances_after { limit := m } ops).limit
  have hfits := horderly.fits
  refine ⟨?_, ?_, ?_, ?_, ?_, ?_⟩
  · rw [hlimit] at hfits
    exact_mod_cast hfits
  · exact fun i hi => ⟨horderly.inside i hi, horderly.placeholder i hi⟩
  · intro op next error hrun
    have hsize := (advances_run (({ limit := m } : Image).after ops) op).size
    rw [hrun] at hsize
    exact ⟨hsize, fun i hi => exists_patch_of_changed hrun hi⟩
  · intro later
    have hlater := advances_after (({ limit := m } : Image).after ops) later
    exact ⟨hlater.size, hlater.settled⟩
  · intro i
    have hbalance := balance_after (orderly_empty m) i ops
    rw [Bitmap.contains_empty, Bool.toNat_false, zero_add] at hbalance
    exact ⟨by omega, times_reserves_le_one _ i ops, mark_eq_true_iff m ops i⟩
  · rw [check_eq_ok_iff, and_iff_right hfits]
    refine forall_congr' fun i => ?_
    rw [← Bool.not_eq_true, mark_eq_true_iff]
    omega

/-- Two bytes are reserved, a third one by an operation that fails, and two are patched. -/
theorem image_is_append_only_until_patched :
    let ops : List Operation :=
      [.push [7], .reserve 2, .patch 2 [8], .patch 2 [9], .reserve 4, .patch 3 [5], .pushWord 1]
    ∃ img, ({ limit := ((4 : Nat) : Int) } : Image).after ops = img ∧
      img.bytes = #[7, 0xFF, 8, 5] ∧ img.pending.contains 1 = true ∧
      img.check = .error (.incomplete 1 1) ∧
      ∀ later, (img.after later).bytes[2]? = some 8 := by
  intro ops
  obtain ⟨img, himg⟩ : ∃ img, ({ limit := ((4 : Nat) : Int) } : Image).after ops = img := ⟨_, rfl⟩
  have hrun : (({ limit := ((4 : Nat) : Int) } : Image).after ops).bytes = #[7, 0xFF, 8, 5] ∧
      (({ limit := ((4 : Nat) : Int) } : Image).after ops).pending.contains 1 = true ∧
      (({ limit := ((4 : Nat) : Int) } : Image).after ops).pending.contains 2 = false ∧
      (({ limit := ((4 : Nat) : Int) } : Image).after ops).check =
        .error (.incomplete 1 1) := by decide
  rw [himg] at hrun
  obtain ⟨hbytes, hpending, hfree, hcheck⟩ := hrun
  have hsize : 2 < img.size := by simp [size, hbytes]
  refine ⟨img, himg, hbytes, hpending, hcheck, fun later => ?_⟩
  rw [(((image_is_append_only himg).2.2.2.1 later).2 2 hsize hfree).1, hbytes]
  rfl

end Gx
