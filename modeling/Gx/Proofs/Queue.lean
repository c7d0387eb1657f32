import Gx.Assembly.Queue
import Mathlib.Tactic

/-!
# Queues give back everything in order

The elements come out of a queue as a permutation of those that went in, and none of them comes
before an earlier one.  Order along the tree is broken at one place at most while an element moves:
`Rising` describes the tree below an element on its way up, `Sinking` above one on its way down.
-/

namespace Gx.Queue

variable {α : Type} {less : α → α → Bool}

/-! ## Nothing is lost -/

theorem swapIfInBounds_perm (items : Array α) (i j : Nat) :
    (items.swapIfInBounds i j).toList.Perm items.toList := by
  rw [Array.swapIfInBounds_def]
  split
  · split
    · exact Array.perm_iff_toList_perm.mp (Array.swap_perm _ _)
    · exact List.Perm.refl _
  · exact List.Perm.refl _

theorem siftUp_perm (items : Array α) (j : Nat) :
    (siftUp less items j).toList.Perm items.toList := by
  fun_induction siftUp less items j with
  | case1 items j _ ih => exact ih.trans (swapIfInBounds_perm items _ _)
  | case2 items j _ => exact List.Perm.refl _

theorem siftDown_perm (n : Nat) (items : Array α) (i : Nat) :
    (siftDown less n items i).toList.Perm items.toList := by
  induction n generalizing items i with
  | zero => exact List.Perm.refl _
  | succ n ih =>
      simp only [siftDown]
      split
      · exact (ih _ _).trans (swapIfInBounds_perm items _ _)
      · exact List.Perm.refl _

theorem push_perm (items : Array α) (a : α) :
    (push less items a).toList.Perm (a :: items.toList) := by
  refine (siftUp_perm _ _).trans ?_
  rw [Array.toList_push]
  exact List.perm_append_singleton a items.toList

theorem foldl_push_perm (elements : List α) (items : Array α) :
    (elements.foldl (push less) items).toList.Perm (items.toList ++ elements) := by
  induction elements generalizing items with
  | nil => simp
  | cons a rest ih =>
      rw [List.foldl_cons]
      refine (ih _).trans ?_
      refine ((push_perm items a).append_right rest).trans ?_
      exact List.perm_middle.symm

theorem pop?_perm {items rest : Array α} {a : α}
    (hpop : pop? less items = some (a, rest)) :
    (a :: rest.toList).Perm items.toList := by
  unfold pop? at hpop
  cases hfirst : items[0]? with
  | none => simp [hfirst] at hpop
  | some first =>
      simp only [hfirst, Option.some.injEq, Prod.mk.injEq] at hpop
      obtain ⟨rfl, rfl⟩ := hpop
      obtain ⟨hsize, hget⟩ := Array.getElem?_eq_some_iff.mp hfirst
      have hlast : (items.swapIfInBounds 0 (items.size - 1)).toList.getLast? = some first := by
        rw [List.getLast?_eq_getElem?, Array.length_toList, Array.size_swapIfInBounds,
          Array.getElem?_toList, Array.getElem?_eq_getElem (by simp; omega),
          Array.getElem_swapIfInBounds_right hsize, hget]
      obtain ⟨front, hsplit⟩ := List.getLast?_eq_some_iff.mp hlast
      have hrest := @siftDown_perm α less
        (items.swapIfInBounds 0 (items.size - 1)).pop.size
        (items.swapIfInBounds 0 (items.size - 1)).pop 0
      rw [Array.toList_pop, hsplit, List.dropLast_concat] at hrest
      refine List.Perm.trans ?_ (swapIfInBounds_perm items 0 (items.size - 1))
      rw [hsplit]
      exact (hrest.cons first).trans (List.perm_append_singleton first front).symm

theorem pop?_eq_none {items : Array α} (hpop : pop? less items = none) : items = #[] := by
  unfold pop? at hpop
  cases hfirst : items[0]? with
  | none => simpa using hfirst
  | some first => simp [hfirst] at hpop

theorem take_perm (n : Nat) (items : Array α) (hn : items.size = n) :
    (take less n items).Perm items.toList := by
  induction n generalizing items with
  | zero =>
      have hempty : items = #[] := Array.eq_empty_of_size_eq_zero hn
      subst items
      exact List.Perm.refl _
  | succ n ih =>
      rw [take]
      cases hpop : pop? less items with
      | none =>
          have hempty := pop?_eq_none hpop
          subst items
          simp at hn
      | some popped =>
          obtain ⟨a, rest⟩ := popped
          have hperm := pop?_perm hpop
          have hrest : rest.size = n := by
            have hlength := hperm.length_eq
            simp only [List.length_cons, Array.length_toList] at hlength
            omega
          exact ((ih rest hrest).cons a).trans hperm

theorem take_subset (n : Nat) (items : Array α) : take less n items ⊆ items.toList := by
  induction n generalizing items with
  | zero => simp [take]
  | succ n ih =>
      rw [take]
      cases hpop : pop? less items with
      | none => simp
      | some popped =>
          obtain ⟨a, rest⟩ := popped
          have hperm := pop?_perm hpop
          intro b hb
          apply hperm.subset
          rcases List.mem_cons.mp hb with rfl | hrest
          · exact List.mem_cons_self
          · exact List.mem_cons_of_mem _ (ih rest hrest)

/-- A queue gives back exactly the elements that were put in. -/
theorem order_perm (elements : List α) : (order less elements).Perm elements := by
  have hpush : (elements.foldl (push less) #[]).toList.Perm ((#[] : Array α).toList ++ elements) :=
    foldl_push_perm elements #[]
  have hsize : (elements.foldl (push less) #[]).size = elements.length := by
    simpa using hpush.length_eq
  exact (take_perm _ _ hsize).trans (by simpa using hpush)

/-! ## Order along the tree -/

/-- An order in which elements may be level: to come before another element excludes the converse,
and not to come before one carries over. -/
structure WeakOrder (less : α → α → Bool) : Prop where
  asymm : ∀ a b, less a b = true → less b a = false
  trans : ∀ a b c, less b a = false → less c b = false → less c a = false

/-- No element comes before its parent. -/
def Heap (less : α → α → Bool) (items : Array α) : Prop :=
  ∀ i, 0 < i → lessAt less items i ((i - 1) / 2) = false

/-- The tree is in order but for the element at `j`, which may come before its parent.  The
elements below it do not. -/
structure Rising (less : α → α → Bool) (items : Array α) (j : Nat) : Prop where
  others : ∀ i, 0 < i → i ≠ j → lessAt less items i ((i - 1) / 2) = false
  below : 0 < j → ∀ i, 0 < i → (i - 1) / 2 = j → lessAt less items i ((j - 1) / 2) = false

/-- The tree is in order but for the element at `i`, before which its children may come.  They do
not come before its parent. -/
structure Sinking (less : α → α → Bool) (items : Array α) (i : Nat) : Prop where
  others : ∀ c, 0 < c → (c - 1) / 2 ≠ i → lessAt less items c ((c - 1) / 2) = false
  below : 0 < i → ∀ c, 0 < c → (c - 1) / 2 = i → lessAt less items c ((i - 1) / 2) = false

theorem lessAt_eq_true {items : Array α} {i j : Nat} (h : lessAt less items i j = true) :
    i < items.size ∧ j < items.size := by
  unfold lessAt at h
  split at h
  next a b ha hb =>
    exact ⟨(Array.getElem?_eq_some_iff.mp ha).1, (Array.getElem?_eq_some_iff.mp hb).1⟩
  next => simp at h

theorem lessAt_asymm (order : WeakOrder less) {items : Array α} {i j : Nat}
    (h : lessAt less items i j = true) : lessAt less items j i = false := by
  unfold lessAt at h ⊢
  split at h
  next a b ha hb =>
    simp only [ha, hb]
    exact order.asymm a b h
  next => simp at h

theorem lessAt_irrefl (order : WeakOrder less) (items : Array α) (i : Nat) :
    lessAt less items i i = false := by
  by_contra htrue
  rw [Bool.not_eq_false] at htrue
  rw [lessAt_asymm order htrue] at htrue
  contradiction

theorem lessAt_trans (order : WeakOrder less) {items : Array α} {i j k : Nat}
    (hj : j < items.size) (hij : lessAt less items i j = false)
    (hjk : lessAt less items j k = false) : lessAt less items i k = false := by
  unfold lessAt at *
  rw [Array.getElem?_eq_getElem hj] at hij hjk
  cases hi : items[i]? with
  | none => rfl
  | some a =>
      cases hk : items[k]? with
      | none => rfl
      | some c =>
          simp only [hi] at hij
          simp only [hk] at hjk
          exact order.trans c items[j] a hjk hij

theorem getElem?_swap {items : Array α} {i j : Nat} (hi : i < items.size)
    (hj : j < items.size) (k : Nat) :
    (items.swapIfInBounds i j)[k]? =
      if k = i then items[j]? else if k = j then items[i]? else items[k]? := by
  rw [Array.swapIfInBounds_def, dif_pos hi, dif_pos hj, Array.getElem?_swap]
  grind

theorem lessAt_swap {items : Array α} {i j : Nat} (hi : i < items.size)
    (hj : j < items.size) (a b : Nat) :
    lessAt less (items.swapIfInBounds i j) a b =
      lessAt less items (if a = i then j else if a = j then i else a)
        (if b = i then j else if b = j then i else b) := by
  unfold lessAt
  rw [getElem?_swap hi hj, getElem?_swap hi hj]
  grind

theorem Rising.swap (order : WeakOrder less) {items : Array α} {j : Nat}
    (h : Rising less items j) (hj : 0 < j)
    (hless : lessAt less items j ((j - 1) / 2) = true) :
    Rising less (items.swapIfInBounds ((j - 1) / 2) j) ((j - 1) / 2) := by
  obtain ⟨hjSize, hpSize⟩ := lessAt_eq_true hless
  have hback := lessAt_asymm order hless
  generalize hp : (j - 1) / 2 = p at *
  have hpj : p < j := by omega
  constructor
  · intro i hi hip
    rw [lessAt_swap hpSize hjSize, if_neg hip]
    by_cases hij : i = j
    · -- the old parent, now below the element that rose
      subst i
      rw [if_pos rfl, hp, if_pos rfl]
      exact hback
    · rw [if_neg hij]
      by_cases hparentP : (i - 1) / 2 = p
      · -- the other child of the old parent
        rw [if_pos hparentP]
        have hup := h.others i hi hij
        rw [hparentP] at hup
        exact lessAt_trans order hpSize hup hback
      · rw [if_neg hparentP]
        by_cases hparentJ : (i - 1) / 2 = j
        · rw [if_pos hparentJ, ← hp]
          exact h.below hj i hi hparentJ
        · rw [if_neg hparentJ]
          exact h.others i hi hij
  · intro hpPos i hi hparent
    have hup := h.others p hpPos (by omega)
    rw [lessAt_swap hpSize hjSize, if_neg (by omega : i ≠ p),
      if_neg (by omega : (p - 1) / 2 ≠ p), if_neg (by omega : (p - 1) / 2 ≠ j)]
    by_cases hij : i = j
    · rw [if_pos hij]
      exact hup
    · rw [if_neg hij]
      have hchild := h.others i hi hij
      rw [hparent] at hchild
      exact lessAt_trans order hpSize hchild hup

theorem siftUp_heap (order : WeakOrder less) {items : Array α} {j : Nat}
    (h : Rising less items j) : Heap less (siftUp less items j) := by
  fun_induction siftUp less items j with
  | case1 items j hless ih => exact ih (h.swap order hless.1 hless.2)
  | case2 items j hstop =>
      intro i hi
      by_cases hij : i = j
      · subst i
        simpa [hi] using hstop
      · exact h.others i hi hij

theorem push_heap (order : WeakOrder less) {items : Array α} (h : Heap less items) (a : α) :
    Heap less (push less items a) := by
  apply siftUp_heap order
  have hnew : ∀ i j, i ≠ items.size → j ≠ items.size →
      lessAt less (items.push a) i j = lessAt less items i j := by
    intro i j hi hj
    simp [lessAt, Array.getElem?_push, hi, hj]
  constructor
  · intro i hi hne
    by_cases hparent : (i - 1) / 2 = items.size
    · by_contra htrue
      rw [Bool.not_eq_false] at htrue
      have hbound := lessAt_eq_true htrue
      simp only [Array.size_push] at hbound
      omega
    · rw [hnew _ _ hne hparent]
      exact h i hi
  · intro hpos i hi hparent
    by_contra htrue
    rw [Bool.not_eq_false] at htrue
    have hbound := lessAt_eq_true htrue
    simp only [Array.size_push] at hbound
    omega

theorem firstChild_cases (less : α → α → Bool) (items : Array α) (i : Nat) :
    firstChild less items i = 2 * i + 1 ∨ firstChild less items i = 2 * i + 2 := by
  unfold firstChild
  split
  · exact Or.inr rfl
  · exact Or.inl rfl

theorem not_lessAt_firstChild (order : WeakOrder less) (items : Array α) {i c : Nat}
    (hc : 0 < c) (hparent : (c - 1) / 2 = i) :
    lessAt less items c (firstChild less items i) = false := by
  have hcases : c = 2 * i + 1 ∨ c = 2 * i + 2 := by omega
  unfold firstChild
  split
  next hless =>
    rcases hcases with rfl | rfl
    · exact lessAt_asymm order hless
    · exact lessAt_irrefl order items _
  next hnot =>
    rcases hcases with rfl | rfl
    · exact lessAt_irrefl order items _
    · simpa using hnot

theorem Sinking.swap (order : WeakOrder less) {items : Array α} {i : Nat}
    (h : Sinking less items i)
    (hless : lessAt less items (firstChild less items i) i = true) :
    Sinking less (items.swapIfInBounds i (firstChild less items i))
      (firstChild less items i) := by
  obtain ⟨hchildSize, hiSize⟩ := lessAt_eq_true hless
  have hback := lessAt_asymm order hless
  have hfirst := fun c => not_lessAt_firstChild order items (i := i) (c := c)
  have hchild := firstChild_cases less items i
  generalize firstChild less items i = child at *
  constructor
  · intro c hc hparent
    rw [lessAt_swap hiSize hchildSize, if_neg hparent]
    by_cases hcChild : c = child
    · subst c
      rw [if_neg (by omega), if_pos rfl, if_pos (by omega)]
      exact hback
    · by_cases hci : c = i
      · -- the child that rose, against the parent of the old place
        subst c
        rw [if_pos rfl, if_neg (by omega)]
        exact h.below hc child (by omega) (by omega)
      · rw [if_neg hci, if_neg hcChild]
        by_cases hparentI : (c - 1) / 2 = i
        · rw [if_pos hparentI]
          exact hfirst c hc hparentI
        · rw [if_neg hparentI]
          exact h.others c hc hparentI
  · intro _ c hc hparent
    have hup := h.others c hc (by omega)
    rw [hparent] at hup
    rw [lessAt_swap hiSize hchildSize, if_neg (by omega), if_neg (by omega),
      if_pos (by omega)]
    exact hup

theorem siftDown_heap (order : WeakOrder less) (n : Nat) {items : Array α} {i : Nat}
    (hn : items.size ≤ n + i) (h : Sinking less items i) :
    Heap less (siftDown less n items i) := by
  induction n generalizing items i with
  | zero =>
      intro c hc
      by_cases hparent : (c - 1) / 2 = i
      · by_contra htrue
        rw [siftDown, Bool.not_eq_false] at htrue
        have hbound := lessAt_eq_true htrue
        omega
      · exact h.others c hc hparent
  | succ n ih =>
      have hchild := firstChild_cases less items i
      simp only [siftDown]
      split
      next hless =>
        apply ih
        · rw [Array.size_swapIfInBounds]
          omega
        · exact h.swap order hless
      next hstop =>
        intro c hc
        by_cases hparent : (c - 1) / 2 = i
        · rw [hparent]
          have hc' := not_lessAt_firstChild order items hc hparent
          by_cases hbound : firstChild less items i < items.size
          · exact lessAt_trans order hbound hc' (by simpa using hstop)
          · by_contra htrue
            rw [Bool.not_eq_false] at htrue
            have hsize := lessAt_eq_true htrue
            -- only the right child is there, but then the left one is too
            unfold firstChild at hbound
            split at hbound
            next hright =>
              have := lessAt_eq_true hright
              omega
            next => omega
        · exact h.others c hc hparent

theorem Heap.root (order : WeakOrder less) {items : Array α} (h : Heap less items) (i : Nat)
    (hi : i < items.size) : lessAt less items i 0 = false := by
  induction i using Nat.strongRecOn with
  | _ i ih =>
      by_cases hzero : i = 0
      · subst i
        exact lessAt_irrefl order items 0
      · exact lessAt_trans order (by omega) (h i (by omega))
          (ih ((i - 1) / 2) (by omega) (by omega))

theorem Heap.pop? (order : WeakOrder less) {items rest : Array α} {a : α}
    (h : Heap less items) (hpop : Queue.pop? less items = some (a, rest)) :
    Heap less rest ∧ ∀ b ∈ rest.toList, less b a = false := by
  have hperm := pop?_perm hpop
  unfold Queue.pop? at hpop
  cases hfirst : items[0]? with
  | none => simp [hfirst] at hpop
  | some first =>
      simp only [hfirst, Option.some.injEq, Prod.mk.injEq] at hpop
      obtain ⟨rfl, rfl⟩ := hpop
      obtain ⟨hsize, _⟩ := Array.getElem?_eq_some_iff.mp hfirst
      constructor
      · apply siftDown_heap order _ (by omega)
        constructor
        · intro c hc hparent
          by_contra htrue
          rw [Bool.not_eq_false] at htrue
          have hbound := lessAt_eq_true htrue
          simp only [Array.size_pop, Array.size_swapIfInBounds] at hbound
          have hsame : ∀ k, k ≠ 0 → k < items.size - 1 →
              (items.swapIfInBounds 0 (items.size - 1)).pop[k]? = items[k]? := by
            intro k hk hlast
            rw [Array.getElem?_pop, Array.size_swapIfInBounds, if_pos hlast,
              getElem?_swap hsize (by omega), if_neg hk, if_neg (by omega)]
          have hold := h c hc
          unfold lessAt at htrue hold
          rw [hsame c (by omega) (by omega), hsame _ hparent (by omega)] at htrue
          rw [hold] at htrue
          contradiction
        · intro hpos
          omega
      · intro b hb
        have hmem : b ∈ items.toList := hperm.mem_iff.mp (List.mem_cons_of_mem _ hb)
        obtain ⟨i, hi, rfl⟩ := List.getElem_of_mem hmem
        rw [Array.length_toList] at hi
        have hroot := h.root order i hi
        unfold lessAt at hroot
        rw [hfirst, Array.getElem?_eq_getElem hi] at hroot
        exact hroot

theorem take_pairwise (order : WeakOrder less) (n : Nat) {items : Array α}
    (h : Heap less items) :
    (take less n items).Pairwise fun a b => less b a = false := by
  induction n generalizing items with
  | zero => exact List.Pairwise.nil
  | succ n ih =>
      rw [take]
      cases hpop : pop? less items with
      | none => exact List.Pairwise.nil
      | some popped =>
          obtain ⟨a, rest⟩ := popped
          obtain ⟨hrest, hleast⟩ := h.pop? order hpop
          refine List.Pairwise.cons ?_ (ih hrest)
          intro b hb
          exact hleast b (take_subset n rest hb)

theorem foldl_push_heap (order : WeakOrder less) (elements : List α) {items : Array α}
    (h : Heap less items) : Heap less (elements.foldl (push less) items) := by
  induction elements generalizing items with
  | nil => exact h
  | cons a rest ih => exact ih (push_heap order h a)

/-- No element comes before one that a queue gave back earlier. -/
theorem order_pairwise (order : WeakOrder less) (elements : List α) :
    (Queue.order less elements).Pairwise fun a b => less b a = false := by
  apply take_pairwise order
  apply foldl_push_heap order
  intro i _
  simp [lessAt]

/-! ## Any queue -/

/-- The elements are taken one after the other.  Each time it is a least one of those left, and the
others stay. -/
inductive Drains (less : α → α → Bool) : List α → List α → Prop where
  | done : Drains less [] []
  | pop {elements rest taken : List α} {a : α} (hperm : elements.Perm (a :: rest))
      (hleast : ∀ b ∈ rest, less b a = false) (hrest : Drains less rest taken) :
      Drains less elements (a :: taken)

theorem Drains.perm {elements taken : List α} (h : Drains less elements taken) :
    taken.Perm elements := by
  induction h with
  | done => exact List.Perm.refl _
  | pop hperm _ _ ih => exact (ih.cons _).trans hperm.symm

theorem Drains.pairwise {elements taken : List α} (h : Drains less elements taken) :
    taken.Pairwise fun a b => less b a = false := by
  induction h with
  | done => exact List.Pairwise.nil
  | pop _ hleast hrest ih =>
      exact List.Pairwise.cons (fun b hb => hleast b (hrest.perm.subset hb)) ih

theorem Drains.of_perm {elements taken : List α} (hperm : taken.Perm elements)
    (hpairwise : taken.Pairwise fun a b => less b a = false) : Drains less elements taken := by
  induction taken generalizing elements with
  | nil =>
      rw [List.perm_nil.mp hperm.symm]
      exact Drains.done
  | cons a rest ih =>
      rw [List.pairwise_cons] at hpairwise
      exact Drains.pop hperm.symm hpairwise.1 (ih (List.Perm.refl _) hpairwise.2)

theorem drains_order (order : WeakOrder less) (elements : List α) :
    Drains less elements (Queue.order less elements) :=
  Drains.of_perm (order_perm elements) (order_pairwise order elements)

end Gx.Queue
