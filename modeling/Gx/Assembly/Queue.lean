/-!
# Priority queues

A binary heap in an array. No child, at `2 * i + 1` or `2 * i + 2`, comes before its parent at `i`,
so the first element is a least one.
-/

namespace Gx.Queue

variable {α : Type} (less : α → α → Bool)

/-- Whether the element at `i` comes before the one at `j`. -/
def lessAt (items : Array α) (i j : Nat) : Bool :=
  match items[i]?, items[j]? with
  | some a, some b => less a b
  | _, _ => false

/-- Moves the element at `j` up as long as it comes before its parent. -/
def siftUp (items : Array α) (j : Nat) : Array α :=
  if 0 < j ∧ lessAt less items j ((j - 1) / 2) then
    siftUp (items.swapIfInBounds ((j - 1) / 2) j) ((j - 1) / 2)
  else items
termination_by j

def push (items : Array α) (a : α) : Array α :=
  let last := items.size
  siftUp less (items.push a) last

/-- The child of `i` that comes first; the left one of equals. -/
def firstChild (items : Array α) (i : Nat) : Nat :=
  if lessAt less items (2 * i + 2) (2 * i + 1) then 2 * i + 2 else 2 * i + 1

/-- Moves the element at `i` down as long as a child comes before it, in at most `n` steps. -/
def siftDown : Nat → Array α → Nat → Array α
  | 0, items, _ => items
  | n + 1, items, i =>
      let child := firstChild less items i
      if lessAt less items child i then
        siftDown n (items.swapIfInBounds i child) child
      else items

def pop? (items : Array α) : Option (α × Array α) :=
  match items[0]? with
  | none => none
  | some a =>
      let rest := (items.swapIfInBounds 0 (items.size - 1)).pop
      some (a, siftDown less rest.size rest 0)

/-- Takes up to `n` elements, the first ones first. -/
def take : Nat → Array α → List α
  | 0, _ => []
  | n + 1, items =>
      match pop? less items with
      | none => []
      | some (a, rest) => a :: take n rest

/-- The elements in the order in which a queue gives them back. -/
def order (elements : List α) : List α :=
  take less elements.length (elements.foldl (push less) #[])

end Gx.Queue
