import StablePlan.Unrolling.Basic

/-!
Answers: what a model shows. Some labels hold at every step; the others are shown with the step
at which they hold.
-/

namespace StablePlan

structure Answer where
  facts : List Symbol
  atoms : List (Nat × Symbol)
  deriving DecidableEq, Inhabited

namespace Answer

/-- Everything that is shown, stepped labels with their step. -/
def symbols (a : Answer) : List Symbol :=
  a.facts ++ a.atoms.map fun (step, label) => label.withStep step

def contains (a : Answer) (step : Nat) (label : Symbol) : Bool := a.atoms.contains (step, label)

/-- The labels that hold at a step. -/
def labelsAt (a : Answer) (step : Nat) : List Symbol :=
  (a.atoms.filter (·.1 == step)).map Prod.snd

def text (a : Answer) : String := " ".intercalate (a.symbols.map toString)

end Answer

namespace Unrolling

def shownAt (u : Unrolling) (m : Model) (step : Nat) (entry : Nat × Symbol) :
    Option (Nat × Symbol) :=
  match u.template.literal? step entry.1 with
  | some l => if m.holds l then some (step, entry.2) else none
  | none => none

/-- What a model shows of the steps from 0 to `last`. -/
def answer (u : Unrolling) (m : Model) (last : Nat) : Answer where
  facts := u.template.facts
  atoms := (List.range (last + 1)).flatMap fun step =>
    u.template.output.filterMap (u.shownAt m step)

end Unrolling

end StablePlan
