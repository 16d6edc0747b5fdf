import StablePlan.Program.Statement

/-!
Templates: one step of a transition system over two bands of atoms. With period `p`, the atoms
from 1 to `p` are the state before and those from `p + 1` to `2 * p` the step itself. At step `s`
everything moves up by `(s - 1) * p`, so the state before is the step before.
-/

namespace StablePlan

/-- What became of an atom of the program: it has a slot of its own, stands for the step before,
is an external, is fixed, or does not occur. -/
inductive AtomClass where
  | internal
  | bridgeIn
  | bridgeOut
  | forcedTrue
  | forcedFalse
  | eliminated
  deriving DecidableEq, Inhabited

/-- A primed external, the unprimed atom that goes with it, and the index of its value in the
state before. -/
structure Bridge where
  atom : Nat
  counterpart : Option Nat
  index : Nat
  deriving DecidableEq, Inhabited

/-- Labels and externals are given by index: index `k` is atom `s * period + k` at step `s`. -/
structure Template where
  period : Nat
  rules : List Rule
  weightRules : List WeightRule
  bridges : List Bridge
  externals : List (Symbol × Nat)
  init : List Nat
  output : List (Nat × Symbol)
  facts : List Symbol
  classes : Array AtomClass
  ids : Array (Option Nat)
  deriving Inhabited

namespace Template

/-- The index of an external. -/
def external? (t : Template) (symbol : Symbol) : Option Nat :=
  (t.externals.find? (·.1 = symbol)).map Prod.snd

def classOf (t : Template) (atom : Nat) : AtomClass := t.classes.getD atom .eliminated

/-- The template's name for an atom of the program. -/
def id? (t : Template) (atom : Nat) : Option Nat := t.ids.getD atom none

/-- How far step `step` is moved up, as a number of 32 bits. -/
def offset? (t : Template) (step : Nat) : Option Nat :=
  let offset := (step - 1) * t.period
  if offset < Nat.pow 2 32 then some offset else none

def moveAtom (offset atom : Nat) : Option Nat :=
  if atom + offset ≤ maxAtom then some (atom + offset) else none

def moveElement (offset : Nat) (element : Literal × Int) : Option (Literal × Int) :=
  (element.1.shift offset).map fun l => (l, element.2)

/-- The rule as it reads at a step; none if an atom leaves the range. -/
def relocate (t : Template) (rule : Rule) (step : Nat) : Option Rule := do
  let offset ← t.offset? step
  let head ← rule.head.mapM (moveAtom offset)
  let body ← rule.body.mapM (Literal.shift · offset)
  some ⟨rule.choice, head, body⟩

def relocateWeight (t : Template) (rule : WeightRule) (step : Nat) : Option WeightRule := do
  let offset ← t.offset? step
  let head ← rule.head.mapM (moveAtom offset)
  let body ← rule.body.mapM (moveElement offset)
  some ⟨rule.choice, head, rule.lower, body⟩

/-- The literal of an index at a step, step 0 being the initial state. -/
def literal? (t : Template) (step k : Nat) : Option Literal :=
  Literal.checked (step * t.period + k)

/-- Whether so many steps stay within the range of atoms. -/
def fits (t : Template) (steps : Nat) : Bool :=
  t.period == 0 || (t.literal? steps t.period).isSome

def text (t : Template) : String :=
  let shown := t.output.map fun (k, symbol) =>
    "#show " ++ toString symbol ++ ": " ++ toString k ++ "."
  let declared := t.externals.map fun (symbol, k) =>
    "#external " ++ toString symbol ++ ": " ++ toString k ++ "."
  String.join ((("% period " ++ toString t.period) :: t.rules.map Rule.text ++
    t.weightRules.map WeightRule.text ++ shown ++ declared).map (· ++ "\n"))

end Template

end StablePlan
