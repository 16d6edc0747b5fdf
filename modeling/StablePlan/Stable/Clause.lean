import StablePlan.Program.Rule
import StablePlan.Stable.Assignment

/-!
Clauses, and what one clause says about a partial assignment. A clause is a rule after shifting:
unless it is a choice, its head has at most one atom. A body holds if its literals do and, with a
sum, if the weights of the true elements reach the bound. Sums of weights wrap around in 64 bits;
what is read off the bounds of a sum is right if no weight is negative and all of them together stay
in the range.
-/

namespace StablePlan

structure WeightSum where
  lower : Int
  elements : List (Literal × Int)
  deriving DecidableEq, Inhabited

structure Clause where
  choice : Bool
  head : List Nat
  body : List Literal
  sum : Option WeightSum
  deriving DecidableEq, Inhabited

/-- The clauses of a rule. A disjunction is shifted: each of its atoms gets a clause of its own,
with the other atoms negated in the body. -/
def Clause.ofRule (choice : Bool) (head : List Nat) (body : List Literal)
    (sum : Option WeightSum) : List Clause :=
  if choice || head.length ≤ 1 then [⟨choice, head, body, sum⟩]
  else head.map fun h =>
    ⟨false, [h], body ++ (head.filter (· != h)).map Literal.negative, sum⟩

namespace WeightSum

/-- The weight of the true elements, and of those that are true or open. -/
def bounds (s : WeightSum) (a : Assignment) : Int × Int :=
  s.elements.foldl (fun (low, high) (l, w) =>
    match a.value l with
    | some true => (wrapWeight (low + w), wrapWeight (high + w))
    | none => (low, wrapWeight (high + w))
    | some false => (low, high)) (0, 0)

end WeightSum

namespace Clause

/-- The truth value of the body as far as the assignment decides it. -/
def bodyValue (c : Clause) (a : Assignment) : Option Bool :=
  if c.body.any a.fails then some false
  else
    let settled := c.body.all a.holds
    match c.sum with
    | none => if settled then some true else none
    | some s =>
      let (low, high) := s.bounds a
      if high < s.lower then some false
      else if settled && s.lower ≤ low then some true else none

/-- Makes false every open element whose weight would reach the bound. -/
def refuteElements (lower low : Int) : List (Literal × Int) → Assignment → Assignment
  | [], a => a
  | (l, w) :: rest, a =>
    if a.isOpen l && lower ≤ wrapWeight (low + w) then
      refuteElements lower low rest (a.assign l.negate).1
    else refuteElements lower low rest a

/-- The head is false, so the body has to become false: if only one thing is open that could make
it so, that is decided. -/
def refute (c : Clause) (a : Assignment) : Assignment :=
  if c.body.any a.fails then a
  else
    match c.sum, c.body.filter a.isOpen with
    | none, [l] => (a.assign l.negate).1
    | none, _ => a
    | some s, pending =>
      let (low, high) := s.bounds a
      if high < s.lower then a
      else
        match pending with
        | [] => refuteElements s.lower low s.elements a
        | [l] => if s.lower ≤ low then (a.assign l.negate).1 else a
        | _ => a

/-- A clause without a head has a false one. -/
def headValue (c : Clause) (a : Assignment) : Option Bool :=
  match c.head with
  | [] => some false
  | h :: _ => a.atomValue h

/-- Draws from one clause what it decides; false if it is violated. -/
def propagate (c : Clause) (a : Assignment) : Assignment × Bool :=
  if c.choice then (a, true)
  else
    match c.bodyValue a, c.headValue a with
    | some true, some false => (a, false)
    | some true, none => Assignment.assignAll ((c.head.take 1).map .positive) a
    | none, some false => (c.refute a, true)
    | _, _ => (a, true)

/-- Whether a literal holds in the reduct: positive ones by what is derived so far, negative ones
by the assignment. -/
def holdsInReduct (a : Assignment) (derived : Array Bool) (l : Literal) : Bool :=
  if l.isPositive then derived.getD l.atom false else a.holds l

def fires (c : Clause) (a : Assignment) (derived : Array Bool) : Bool :=
  c.body.all (holdsInReduct a derived) &&
    match c.sum with
    | none => true
    | some s =>
      s.lower ≤ totalWeight (s.elements.filter fun e => holdsInReduct a derived e.1)

end Clause

end StablePlan
