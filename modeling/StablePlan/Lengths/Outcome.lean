/-!
Outcomes of an attempt at one length, and arithmetic on lengths, which stops at the largest number
of 32 bits.
-/

namespace StablePlan

/-- How an attempt ended. It is unknown if the budget ran out or no model passed the check, and
out of memory if the steps it needs were not admitted. -/
inductive Outcome where
  | satisfiable
  | unsatisfiable
  | unknown
  | outOfMemory
  deriving DecidableEq, Inhabited

def maxLength : Nat := Nat.pow 2 32 - 1

def addLength (a b : Nat) : Nat := min (a + b) maxLength

def mulLength (a b : Nat) : Nat := min (a * b) maxLength

end StablePlan
