/-!
The atoms without a value, as a sparse set whose removals can be undone in bulk. The atoms that
are present stand in front of an array, the removed ones behind them, the most recent first; a
removal changes places with the last present atom. Going back to an earlier size brings back what
was removed since, though not the order.
-/

namespace StablePlan

structure Unassigned where
  order : Array Nat
  position : Array Nat
  size : Nat

namespace Unassigned

/-- All atoms from 1 on. The place given to atom 0 is one that never counts. -/
def upTo (max : Nat) : Unassigned where
  order := Array.range' 1 max
  position := #[max] ++ Array.range max
  size := max

def contains (u : Unassigned) (atom : Nat) : Bool :=
  match u.position[atom]? with
  | some i => i < u.size
  | none => false

def remove (u : Unassigned) (atom : Nat) : Unassigned :=
  match u with
  | ⟨order, position, size⟩ =>
    match position[atom]? with
    | some i =>
      if i < size then
        let last := order.getD (size - 1) 0
        ⟨order.swapIfInBounds i (size - 1),
          (position.setIfInBounds atom (size - 1)).setIfInBounds last i, size - 1⟩
      else ⟨order, position, size⟩
    | none => ⟨order, position, size⟩

/-- What was removed since the set had the given size, the most recent first. -/
def removedSince (u : Unassigned) (size : Nat) : List Nat :=
  (u.order.extract u.size size).toList

def restore (u : Unassigned) (size : Nat) : Unassigned :=
  if size ≤ u.order.size then { u with size } else u

def first? (u : Unassigned) : Option Nat := if 0 < u.size then u.order[0]? else none

end Unassigned

end StablePlan
