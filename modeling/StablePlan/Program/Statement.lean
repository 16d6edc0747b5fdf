import StablePlan.Program.Rule
import StablePlan.Symbol.Basic

/-!
Statements of a ground program, and what a program shows of itself when it is replayed: there
every label stands at one atom, or at none if it is a fact.
-/

namespace StablePlan

/-- How an external atom is declared: open, true, false, or false for good. -/
inductive ExternalValue where
  | free
  | on
  | off
  | release
  deriving DecidableEq, Inhabited

def ExternalValue.text : ExternalValue → String
  | .free => "free"
  | .on => "true"
  | .off => "false"
  | .release => "release"

inductive Statement where
  | rule (rule : Rule)
  | weightRule (rule : WeightRule)
  | output (symbol : Symbol) (condition : List Literal)
  | external (atom : Nat) (value : ExternalValue)
  deriving DecidableEq, Inhabited

/-- The atoms of a statement, from left to right. -/
def Statement.atoms : Statement → List Nat
  | .rule r => r.head ++ r.body.map Literal.atom
  | .weightRule r => r.head ++ r.body.map fun element => element.1.atom
  | .output _ condition => condition.map Literal.atom
  | .external atom _ => [atom]

/-- One event of a replay. A label at atom 0 is a fact. -/
inductive Observation where
  | rule (rule : Rule)
  | weightRule (rule : WeightRule)
  | external (atom : Nat) (value : ExternalValue)
  | label (symbol : Symbol) (atom : Nat)
  deriving DecidableEq, Inhabited

def Observation.text : Observation → String
  | .rule r => r.text
  | .weightRule r => r.text
  | .external atom value => "external " ++ toString atom ++ " " ++ value.text
  | .label symbol atom => "output " ++ toString symbol ++ " " ++ toString atom

end StablePlan
