/-!
Literals: signed atoms. A positive number stands for the atom, a negative one for its default
negation. The atoms of literals go up to the largest positive number of 32 bits with a sign; only
`cast` takes an atom that may be beyond it.
-/

namespace StablePlan

def maxAtom : Nat := Nat.pow 2 31 - 1

structure Literal where
  raw : Int
  deriving DecidableEq, Inhabited

namespace Literal

def positive (atom : Nat) : Literal := ⟨atom⟩

def negative (atom : Nat) : Literal := ⟨-atom⟩

/-- The literal that an atom of 32 bits without a sign is read as: the positive one up to `maxAtom`,
and another one beyond it. -/
def cast (atom : Nat) : Literal := ⟨(atom : Int).bmod (Nat.pow 2 32)⟩

/-- The positive literal of an atom within the range. -/
def checked (atom : Nat) : Option Literal :=
  if 0 < atom ∧ atom ≤ maxAtom then some (.positive atom) else none

def atom (l : Literal) : Nat := l.raw.natAbs

def isPositive (l : Literal) : Bool := 0 < l.raw

def negate (l : Literal) : Literal := ⟨-l.raw⟩

/-- Replaces the atom and keeps the sign. -/
def withAtom (l : Literal) (atom : Nat) : Literal :=
  if l.isPositive then .positive atom else .negative atom

/-- Moves the atom up and keeps the sign; none if the atom leaves the range. -/
def shift (l : Literal) (offset : Nat) : Option Literal :=
  if offset ≤ maxAtom ∧ l.atom + offset ≤ maxAtom then some (l.withAtom (l.atom + offset))
  else none

def text (l : Literal) : String :=
  if l.isPositive then toString l.atom else "not " ++ toString l.atom

end Literal

instance : Ord Literal := ⟨fun a b => compare a.raw b.raw⟩

end StablePlan
