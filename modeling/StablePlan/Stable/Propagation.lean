import StablePlan.Stable.Clause

/-!
Propagation to a fixpoint, and the test of a total assignment. A problem is a list of clauses with
the atoms that may be true without a clause. One round goes through the clauses once and then makes
false what no clause can derive any more; rounds go on while they assign something. A total
assignment is stable if it is the least set that its own reduct derives.
-/

namespace StablePlan

structure Problem where
  clauses : List Clause
  maxAtom : Nat
  given : Array Bool

namespace Problem

def atoms (p : Problem) : List Nat := List.range' 1 p.maxAtom

def isGiven (p : Problem) (atom : Nat) : Bool := p.given.getD atom false

/-- Goes through clauses in turn, up to the first that is violated. -/
def propagateClauses : List Clause → Assignment → Assignment × Bool
  | [], a => (a, true)
  | c :: cs, a =>
    match c.propagate a with
    | (a, true) => propagateClauses cs a
    | (a, false) => (a, false)

/-- The atoms that are given or in the head of a clause whose body is not false. -/
def supported (p : Problem) (a : Assignment) : Array Bool :=
  p.clauses.foldl (fun s c =>
    if c.bodyValue a == some false then s
    else c.head.foldl (fun s h => s.setIfInBounds h true) s) p.given

def unsupported (p : Problem) (a : Assignment) : List Nat :=
  let supported := p.supported a
  p.atoms.filter fun atom => !supported.getD atom false

def round (p : Problem) (a : Assignment) : Assignment × Bool :=
  match propagateClauses p.clauses a with
  | (a, true) => Assignment.assignAll ((p.unsupported a).map .negative) a
  | (a, false) => (a, false)

/-- Rounds as long as each leaves fewer atoms open than there were before; false on a conflict. -/
def saturateFrom (p : Problem) (size : Nat) (a : Assignment) : Assignment × Bool :=
  match p.round a with
  | (b, true) =>
    if b.unassigned.size < size then saturateFrom p b.unassigned.size b else (b, true)
  | (b, false) => (b, false)
termination_by size

def saturate (p : Problem) (a : Assignment) : Assignment × Bool :=
  p.saturateFrom a.unassigned.size a

/-- Adds the true head atoms of the clauses that fire, in turn. -/
def derive (p : Problem) (a : Assignment) (derived : Array Bool) : Array Bool :=
  p.clauses.foldl (fun d c =>
    if c.fires a d then
      c.head.foldl (fun d h => if a.atomValue h == some true then d.setIfInBounds h true else d) d
    else d) derived

def closure (p : Problem) (a : Assignment) : Nat → Array Bool → Array Bool
  | 0, derived => derived
  | n + 1, derived =>
    let next := p.derive a derived
    if next == derived then derived else closure p a n next

/-- The given atoms that are true. -/
def givenTrue (p : Problem) (a : Assignment) : Array Bool :=
  (Array.range (p.maxAtom + 1)).map fun atom =>
    atom != 0 && p.isGiven atom && a.atomValue atom == some true

/-- Every round of derivation but the last adds an atom, so one more than the atoms are enough. -/
def isStable (p : Problem) (a : Assignment) : Bool :=
  let derived := p.closure a (p.maxAtom + 1) (p.givenTrue a)
  p.atoms.all fun atom => derived.getD atom false == (a.atomValue atom == some true)

end Problem

end StablePlan
