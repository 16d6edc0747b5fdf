import StablePlan.Program.Literal
import StablePlan.Stable.Unassigned

/-!
Partial assignments and total ones. The set of unassigned atoms doubles as the trail: its size at
some moment is a mark to which the assignment can be taken back.
-/

namespace StablePlan

/-- A total assignment: the truth value of every atom, by number. -/
structure Model where
  values : Array Bool
  deriving DecidableEq, Inhabited

namespace Model

def isTrue (m : Model) (atom : Nat) : Bool := m.values.getD atom false

def holds (m : Model) (l : Literal) : Bool := m.isTrue l.atom == l.isPositive

def atoms (m : Model) : List Nat := (List.range m.values.size).filter m.isTrue

end Model

structure Assignment where
  values : Array (Option Bool)
  unassigned : Unassigned

namespace Assignment

def empty (max : Nat) : Assignment := ⟨Array.replicate (max + 1) none, .upTo max⟩

def atomValue (a : Assignment) (atom : Nat) : Option Bool := a.values.getD atom none

def value (a : Assignment) (l : Literal) : Option Bool :=
  (a.atomValue l.atom).map (· == l.isPositive)

def holds (a : Assignment) (l : Literal) : Bool := a.value l == some true

def fails (a : Assignment) (l : Literal) : Bool := a.value l == some false

def isOpen (a : Assignment) (l : Literal) : Bool := a.value l == none

/-- Makes a literal true; false if it was false before. -/
def assign (a : Assignment) (l : Literal) : Assignment × Bool :=
  match a.value l with
  | some v => (a, v)
  | none =>
    match a with
    | ⟨values, unassigned⟩ =>
      (⟨values.setIfInBounds l.atom (some l.isPositive), unassigned.remove l.atom⟩, true)

/-- Makes literals true in turn, up to the first that is false. -/
def assignAll : List Literal → Assignment → Assignment × Bool
  | [], a => (a, true)
  | l :: ls, a =>
    match a.assign l with
    | (a, true) => assignAll ls a
    | (a, false) => (a, false)

/-- Takes back what was assigned since so many atoms were unassigned. -/
def undo (a : Assignment) (mark : Nat) : Assignment where
  values := (a.unassigned.removedSince mark).foldl
    (fun values atom => values.setIfInBounds atom none) a.values
  unassigned := a.unassigned.restore mark

def toModel (a : Assignment) : Model := ⟨a.values.map (· == some true)⟩

end Assignment

end StablePlan
