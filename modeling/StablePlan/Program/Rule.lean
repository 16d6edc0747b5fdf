import StablePlan.Program.Literal
import StablePlan.Program.Weight

/-!
Rules over numbered atoms: normal, disjunctive and choice rules, and weight rules, whose body
holds once the weights of its true literals reach a bound.
-/

namespace StablePlan

structure Rule where
  choice : Bool
  head : List Nat
  body : List Literal
  deriving DecidableEq, Inhabited

structure WeightRule where
  choice : Bool
  head : List Nat
  lower : Int
  body : List (Literal × Int)
  deriving DecidableEq, Inhabited

/-- The weight of all elements together. -/
def totalWeight (elements : List (Literal × Int)) : Int :=
  elements.foldr (fun e total => wrapWeight (e.2 + total)) 0

/-- Choice heads stand in braces; the atoms of a disjunction have bars between them. -/
def headText (choice : Bool) (head : List Nat) : String :=
  let atoms := head.map toString
  if choice then "\x7b" ++ "; ".intercalate atoms ++ "\x7d" else " | ".intercalate atoms

/-- The blank between a head and what follows it; an empty disjunction leaves none. -/
def headGap (choice : Bool) (head : List Nat) : String :=
  if head.isEmpty && !choice then "" else " "

namespace Rule

def constraint (body : List Literal) : Rule := ⟨false, [], body⟩

def fact (atom : Nat) : Rule := ⟨false, [atom], []⟩

def text (r : Rule) : String :=
  let body :=
    if r.body.isEmpty then ""
    else headGap r.choice r.head ++ ":- " ++ ", ".intercalate (r.body.map Literal.text)
  headText r.choice r.head ++ body ++ "."

end Rule

namespace WeightRule

def elementText (element : Literal × Int) : String :=
  toString element.2 ++ ": " ++ element.1.text

def text (r : WeightRule) : String :=
  headText r.choice r.head ++ headGap r.choice r.head ++ ":- " ++ toString r.lower ++
    " #sum \x7b" ++ "; ".intercalate (r.body.map elementText) ++ "\x7d."

end WeightRule

end StablePlan
