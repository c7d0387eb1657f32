import Gx.Image.Basic
import Gx.Proofs.Bitmap

/-!
# What operations do to an image

An image grows at its end only: `Image.GrowsTo` says that the old bytes and their marks are still
there.  Each operation is described once, by the bytes and the pending positions of its result.
-/

namespace Gx.Image

/-- `b` is `a` with bytes, pending or not, behind its end. -/
structure GrowsTo (a b : Image) : Prop where
  limit : b.limit = a.limit
  size : a.size ≤ b.size
  bytes : ∀ i < a.size, b.bytes[i]? = a.bytes[i]?
  pending : ∀ i < a.size, b.pending.contains i = a.pending.contains i

theorem GrowsTo.refl (a : Image) : a.GrowsTo a :=
  ⟨rfl, le_rfl, fun _ _ => rfl, fun _ _ => rfl⟩

theorem GrowsTo.trans {a b c : Image} (hab : a.GrowsTo b) (hbc : b.GrowsTo c) :
    a.GrowsTo c where
  limit := hbc.limit.trans hab.limit
  size := hab.size.trans hbc.size
  bytes i hi := (hbc.bytes i (hi.trans_le hab.size)).trans (hab.bytes i hi)
  pending i hi := (hbc.pending i (hi.trans_le hab.size)).trans (hab.pending i hi)

/-! ## Pushing -/

theorem push_eq_ok_iff {img next : Image} {data : Bytes} :
    img.push data = .ok next ↔
      ((img.size + data.length : Nat) : Int) ≤ img.limit ∧
        next = { img with bytes := img.bytes ++ data } := by
  unfold push
  split
  next hlarge =>
    simp only [reduceCtorEq, false_iff, not_and]
    intro hfits
    omega
  next hfits =>
    simp only [Except.ok.injEq]
    constructor
    · intro hnext
      exact ⟨by omega, hnext.symm⟩
    · intro hnext
      exact hnext.2.symm

theorem push_of_not_fits {img : Image} {data : Bytes}
    (hlarge : ¬((img.size + data.length : Nat) : Int) ≤ img.limit) :
    img.push data = .error (.tooLarge (img.size + data.length) img.limit) := by
  unfold push
  rw [if_pos (by omega)]

@[simp]
theorem size_push_bytes (img : Image) (data : Bytes) :
    ({ img with bytes := img.bytes ++ data } : Image).size = img.size + data.length := by
  simp [size, ← Array.length_toList]

theorem getElem?_push_bytes (img : Image) (data : Bytes) (i : Nat) :
    (img.bytes ++ data)[i]? =
      if i < img.size then img.bytes[i]? else data[i - img.size]? := by
  simp only [← Array.getElem?_toList, Array.toList_appendList, size, ← Array.length_toList]
  split
  next hi => rw [List.getElem?_append_left hi]
  next hi => rw [List.getElem?_append_right (by omega)]

theorem growsTo_push_bytes (img : Image) (data : Bytes) :
    img.GrowsTo { img with bytes := img.bytes ++ data } where
  limit := rfl
  size := by simp
  bytes i hi := by rw [getElem?_push_bytes, if_pos hi]
  pending _ _ := rfl

/-! ## Reserving -/

/-- The image with `n` placeholders more, which are pending. -/
def fill (img : Image) (n : Nat) : Image :=
  { img with
    bytes := img.bytes ++ Array.replicate n placeholder
    pending := (List.range' img.size n).foldl Bitmap.insert img.pending }

@[simp]
theorem size_fill (img : Image) (n : Nat) : (img.fill n).size = img.size + n := by
  simp [fill, size]

theorem contains_fill (img : Image) (n i : Nat) :
    (img.fill n).pending.contains i = true ↔
      img.pending.contains i = true ∨ img.size ≤ i ∧ i < img.size + n :=
  Bitmap.contains_insert_run img.pending img.size n i

theorem growsTo_fill (img : Image) (n : Nat) : img.GrowsTo (img.fill n) where
  limit := rfl
  size := by simp
  bytes i hi := by
    unfold size at hi
    simp only [fill]
    rw [Array.getElem?_append_left hi]
  pending i hi := by
    rw [Bool.eq_iff_iff, contains_fill]
    constructor
    · intro hpending
      exact hpending.resolve_right (by omega)
    · exact Or.inl

@[simp]
theorem fill_zero (img : Image) : img.fill 0 = img := by
  simp [fill]

theorem fill_succ (img : Image) (n : Nat) : img.fill (n + 1) = (img.fill 1).fill n := by
  have hsize : (img.fill 1).size = img.size + 1 := size_fill img 1
  unfold fill at hsize ⊢
  rw [hsize, List.range'_succ, List.foldl_cons, Nat.add_comm n 1,
    ← Array.replicate_append_replicate, Array.append_assoc]
  rfl

theorem push_placeholder {img : Image} (hfits : ((img.size + 1 : Nat) : Int) ≤ img.limit) :
    ∃ next, img.push [placeholder] = .ok next ∧
      { next with pending := next.pending.insert img.size } = img.fill 1 :=
  ⟨_, push_eq_ok_iff.mpr ⟨hfits, rfl⟩, rfl⟩

/-- As many bytes are reserved as there is room for. -/
theorem reserveFrom_eq (start n : Nat) (img : Image) :
    reserveFrom start n img =
      (img.fill (min n (img.limit - img.size).toNat),
        if n ≤ (img.limit - img.size).toNat then .ok start
        else .error (.tooLarge (img.size + (img.limit - img.size).toNat + 1) img.limit)) := by
  induction n generalizing img with
  | zero => simp [reserveFrom]
  | succ n ih =>
      rw [reserveFrom]
      by_cases hfits : ((img.size + 1 : Nat) : Int) ≤ img.limit
      · obtain ⟨next, hpush, hnext⟩ := push_placeholder hfits
        obtain ⟨room, hroom⟩ : ∃ room, (img.limit - img.size).toNat = room + 1 :=
          ⟨(img.limit - img.size).toNat - 1, by omega⟩
        have hnextroom : ((img.fill 1).limit - (img.fill 1).size).toNat = room := by
          rw [size_fill]
          change (img.limit - _).toNat = room
          omega
        simp only [hpush, hnext]
        rw [ih, hnextroom, hroom, Nat.add_min_add_right, fill_succ img (min n room), size_fill]
        simp only [Nat.add_le_add_iff_right, Nat.add_assoc, Nat.add_comm 1]
        rfl
      · have hnone : (img.limit - img.size).toNat = 0 := by omega
        rw [push_of_not_fits hfits, hnone]
        simp

theorem reserve_of_fits {img : Image} {n : Nat}
    (hfits : ((img.size + n : Nat) : Int) ≤ img.limit) :
    img.reserve n = (img.fill n, .ok img.size) := by
  have hroom : n ≤ (img.limit - img.size).toNat := by omega
  rw [reserve, reserveFrom_eq, if_pos hroom, min_eq_left hroom]

/-- If not all bytes fit, an initial part of them is reserved. -/
theorem reserve_of_not_fits {img : Image} {n : Nat} (hn : 0 < n)
    (hlarge : ¬((img.size + n : Nat) : Int) ≤ img.limit) :
    ∃ fitting < n, img.reserve n =
      (img.fill fitting, .error (.tooLarge (img.size + fitting + 1) img.limit)) := by
  have hroom : (img.limit - img.size).toNat < n := by omega
  refine ⟨_, hroom, ?_⟩
  rw [reserve, reserveFrom_eq, if_neg (by omega), min_eq_right hroom.le]

/-! ## Patching -/

theorem size_overwrite (bytes : Array UInt8) (pos : Nat) (data : Bytes) :
    (overwrite bytes pos data).size = bytes.size := by
  induction data generalizing bytes pos with
  | nil => rfl
  | cons b rest ih => rw [overwrite, ih, Array.size_setIfInBounds]

/-- Overwriting changes the bytes of the run and no other. -/
theorem getElem?_overwrite (bytes : Array UInt8) (pos : Nat) (data : Bytes) (i : Nat) :
    (overwrite bytes pos data)[i]? =
      if pos ≤ i ∧ i < pos + data.length ∧ i < bytes.size then data[i - pos]?
      else bytes[i]? := by
  induction data generalizing bytes pos with
  | nil =>
      rw [overwrite, if_neg (by simp only [List.length_nil]; omega)]
  | cons b rest ih =>
      rw [overwrite, ih, Array.size_setIfInBounds, Array.getElem?_setIfInBounds]
      by_cases hpos : pos = i
      · subst i
        by_cases hsize : pos < bytes.size
        · simp [hsize]
        · simp [hsize]
      · by_cases hrun : pos + 1 ≤ i ∧ i < pos + 1 + rest.length ∧ i < bytes.size
        · have hsub : i - pos = (i - (pos + 1)) + 1 := by omega
          have hcons : pos ≤ i ∧ i < pos + (b :: rest).length ∧ i < bytes.size := by
            simp only [List.length_cons]
            omega
          rw [if_pos hrun, if_pos hcons, hsub, List.getElem?_cons_succ]
        · have hcons : ¬(pos ≤ i ∧ i < pos + (b :: rest).length ∧ i < bytes.size) := by
            simp only [List.length_cons]
            omega
          rw [if_neg hrun, if_neg hcons, if_neg hpos]

/-- The image in which the bytes from `pos` on have got their values. -/
def patched (img : Image) (pos : Nat) (data : Bytes) : Image :=
  { img with
    bytes := overwrite img.bytes pos data
    pending := (List.range' pos data.length).foldl Bitmap.erase img.pending }

@[simp]
theorem size_patched (img : Image) (pos : Nat) (data : Bytes) :
    (img.patched pos data).size = img.size :=
  size_overwrite img.bytes pos data

theorem getElem?_patched (img : Image) (pos : Nat) (data : Bytes) (i : Nat) :
    (img.patched pos data).bytes[i]? =
      if pos ≤ i ∧ i < pos + data.length ∧ i < img.size then data[i - pos]?
      else img.bytes[i]? :=
  getElem?_overwrite img.bytes pos data i

theorem contains_patched (img : Image) (pos : Nat) (data : Bytes) (i : Nat) :
    (img.patched pos data).pending.contains i = true ↔
      img.pending.contains i = true ∧ ¬(pos ≤ i ∧ i < pos + data.length) :=
  Bitmap.contains_erase_run img.pending pos data.length i

theorem isPending_eq_true_iff (img : Image) (pos : Int) :
    img.isPending pos = true ↔ 0 ≤ pos ∧ img.pending.contains pos.toNat = true := by
  cases pos with
  | ofNat n => simp [isPending]
  | negSucc n => simp [isPending]

theorem patch_of_pending {img : Image} {pos : Int} {data : Bytes}
    (hpending : ∀ k < data.length, img.isPending (pos + k) = true) :
    img.patch pos data = .ok (img.patched pos.toNat data) := by
  have hfind : (List.range data.length).find?
      (fun (k : Nat) => !img.isPending (pos + k)) = none := by
    rw [List.find?_eq_none]
    intro k hk
    simp [hpending k (List.mem_range.mp hk)]
  unfold patch
  rw [hfind]
  rfl

theorem patch_of_not_pending {img : Image} {pos : Int} {data : Bytes} {k : Nat}
    (hk : k < data.length) (hpending : img.isPending (pos + k) = false) :
    ∃ j, img.patch pos data = .error (.noPlaceholder j) := by
  unfold patch
  split
  next j hj => exact ⟨_, rfl⟩
  next hnone =>
    rw [List.find?_eq_none] at hnone
    have hset := hnone k (List.mem_range.mpr hk)
    simp [hpending] at hset

/-- A patch fails at the first byte that is not pending. -/
theorem patch_eq_error_iff {img : Image} {pos : Int} {data : Bytes} {e : ImageError} :
    img.patch pos data = .error e ↔
      ∃ k < data.length, img.isPending (pos + k) = false ∧
        (∀ j < k, img.isPending (pos + j) = true) ∧ e = .noPlaceholder (pos + k) := by
  have hfind : ∀ k, (List.range data.length).find? (fun (k : Nat) => !img.isPending (pos + k)) =
      some k ↔ k < data.length ∧ img.isPending (pos + k) = false ∧
        ∀ j < k, img.isPending (pos + j) = true := by
    intro k
    rw [List.find?_range_eq_some, List.mem_range]
    simp only [Bool.not_eq_true', Bool.not_not]
    tauto
  unfold patch
  split
  next k hk =>
    rw [hfind] at hk
    simp only [Except.error.injEq]
    constructor
    · rintro rfl
      exact ⟨k, hk.1, hk.2.1, hk.2.2, rfl⟩
    · rintro ⟨j, _, hfree, hbefore, rfl⟩
      -- two positions are both the first one
      rcases lt_trichotomy j k with hlt | rfl | hlt
      · rw [hk.2.2 j hlt] at hfree
        contradiction
      · rfl
      · have hpending := hbefore k hlt
        rw [hk.2.1] at hpending
        contradiction
  next hnone =>
    simp only [reduceCtorEq, false_iff]
    rintro ⟨k, hk, hfree, hbefore, _⟩
    rw [(hfind k).mpr ⟨hk, hfree, hbefore⟩] at hnone
    contradiction

/-! ## Pending bytes -/

/-- All pending bytes are in the image. -/
def PendingInside (img : Image) : Prop :=
  ∀ i, img.pending.contains i = true → i < img.size

namespace PendingInside

variable {img : Image}

theorem push_bytes (h : img.PendingInside) (data : Bytes) :
    ({ img with bytes := img.bytes ++ data } : Image).PendingInside := by
  intro i hi
  have hold := h i hi
  rw [size_push_bytes]
  omega

theorem fill (h : img.PendingInside) (n : Nat) : (img.fill n).PendingInside := by
  intro i hi
  rw [contains_fill] at hi
  rw [size_fill]
  rcases hi with hold | hnew
  · have hlt := h i hold
    omega
  · exact hnew.2

theorem patched (h : img.PendingInside) (pos : Nat) (data : Bytes) :
    (img.patched pos data).PendingInside := by
  intro i hi
  rw [size_patched]
  exact h i ((contains_patched _ _ _ _).mp hi).1

theorem not_pending (h : img.PendingInside) {i : Nat} (hi : img.size ≤ i) :
    img.pending.contains i = false := by
  rw [← Bool.not_eq_true]
  intro hpending
  have hlt := h i hpending
  omega

end PendingInside

/-! ## Checking -/

theorem check_eq_ok_iff (img : Image) :
    img.check = .ok () ↔
      (img.size : Int) ≤ img.limit ∧ ∀ i, img.pending.contains i = false := by
  rw [← Bitmap.min?_eq_none_iff]
  unfold check
  split
  next hlarge =>
    simp only [reduceCtorEq, false_iff, not_and]
    intro hfits
    omega
  next hfits =>
    cases img.pending.min? with
    | none =>
        simp only [and_true, true_iff]
        omega
    | some first => simp

end Gx.Image
