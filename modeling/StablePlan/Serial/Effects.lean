import StablePlan.Ascending
import StablePlan.Symbol.Basic

/-!
Effects of actions, read off facts `pre(A,F)`, `add(A,F)` and `del(A,F)`, and whether actions of
one step can be put in an order in which they can be executed one after another. No action may add
what another deletes, and an action must come before those that delete what it needs.
-/

namespace StablePlan

structure Effects where
  pre : List Symbol := []
  add : List Symbol := []
  del : List Symbol := []
  deriving DecidableEq, Inhabited

namespace Effects

def withFact (e : Effects) (name : String) (fluent : Symbol) : Effects :=
  if name = "pre" then { e with pre := Ascending.insert fluent e.pre }
  else if name = "add" then { e with add := Ascending.insert fluent e.add }
  else if name = "del" then { e with del := Ascending.insert fluent e.del }
  else e

def meets (xs ys : List Symbol) : Bool := xs.any ys.contains

/-- Adds what the other deletes. -/
def clashes (e f : Effects) : Bool := meets e.add f.del

/-- Needs what the other deletes, and so has to come before it. -/
def precedes (e f : Effects) : Bool := meets f.del e.pre

end Effects

/-- The effects of actions, by action. -/
abbrev ActionTable := List (Symbol × Effects)

namespace ActionTable

def effects (table : ActionTable) (action : Symbol) : Effects :=
  (Ascending.get? action table).getD {}

/-- Every fact with two arguments makes its first argument an action. -/
def addFact (table : ActionTable) : Symbol → ActionTable
  | .function name [action, fluent] =>
    Ascending.put action ((effects table action).withFact name fluent) table
  | _ => table

def ofFacts (facts : List Symbol) : ActionTable := facts.foldl addFact []

end ActionTable

/-- Positions on their way into an order: how many others each of them waits for, and those that
wait for none, as a stack. -/
structure Sorting where
  waiting : Array Nat
  ready : List Nat

/-- There is one fewer to wait for. -/
def Sorting.release (s : Sorting) (j : Nat) : Sorting :=
  let left := s.waiting.getD j 0 - 1
  ⟨s.waiting.setIfInBounds j left, if left = 0 then j :: s.ready else s.ready⟩

/-- Which of some actions, given by position, clash, and which have to come before others. -/
structure Constraints where
  clash : Array (Array Bool)
  before : Array (Array Bool)

namespace Constraints

def tabulate (effects : List Effects) (f : Effects → Effects → Bool) : Array (Array Bool) :=
  (effects.map fun e => (effects.map (f e)).toArray).toArray

def ofEffects (effects : List Effects) : Constraints :=
  ⟨tabulate effects Effects.clashes, tabulate effects Effects.precedes⟩

def look (table : Array (Array Bool)) (i j : Nat) : Bool := (table.getD i #[]).getD j false

/-- Whether the first of two positions is another one that has to come before the second. -/
def leads (c : Constraints) (i j : Nat) : Bool := i != j && look c.before i j

/-- How many of some positions have to come before one. -/
def incoming (c : Constraints) (positions : List Nat) (j : Nat) : Nat :=
  positions.countP (c.leads · j)

/-- All positions are counted for; those that wait for none are ready, the last one on top. -/
def sorting (c : Constraints) (positions : List Nat) : Sorting where
  waiting := (Array.range c.before.size).map (c.incoming positions)
  ready := (positions.filter fun j => c.incoming positions j = 0).reverse

/-- How many positions are taken off the top, in so many rounds, until none is ready. What has to
come after such a position waits for one fewer. -/
def drain (c : Constraints) (positions : List Nat) : Nat → Sorting → Nat
  | 0, _ => 0
  | n + 1, s =>
    match s.ready with
    | [] => 0
    | i :: ready =>
      c.drain positions n ((positions.filter (c.leads i)).foldl .release { s with ready }) + 1

/-- Whether the positions can be ordered. None is ready twice, so there are rounds enough. -/
def sortable (c : Constraints) (positions : List Nat) : Bool :=
  c.drain positions positions.length (c.sorting positions) = positions.length

def clashFree (c : Constraints) (positions : List Nat) : Bool :=
  positions.all fun i => positions.all fun j => i == j || !look c.clash i j

/-- Whether the actions at some positions can be executed one after another. -/
def serializable (c : Constraints) (positions : List Nat) : Bool :=
  c.clashFree positions && c.sortable positions

end Constraints

namespace ActionTable

def constraints (table : ActionTable) (actions : List Symbol) : Constraints :=
  .ofEffects (actions.map table.effects)

/-- Whether actions can be executed one after another in some order. -/
def serializable (table : ActionTable) (actions : List Symbol) : Bool :=
  (table.constraints actions).serializable (List.range actions.length)

end ActionTable

end StablePlan
