import StablePlan.Stable.Reasoner

/-!
Backends: what a template is unrolled into. A backend takes rules, never gives them back, and
solves under assumptions. A transcript is a backend that remembers what it was told.
-/

namespace StablePlan

class Backend (β : Type) where
  addRule : β → Rule → Except (SolveError × β) β
  addWeightRule : β → WeightRule → Except (SolveError × β) β
  solve : β → List Literal → Except SolveError SolveReport × β
  ruleCount : β → Nat
  atomCount : β → Nat

instance : Backend Reasoner where
  addRule := Reasoner.addRule
  addWeightRule := Reasoner.addWeightRule
  solve r assumptions := (r.solve assumptions, r)
  ruleCount := Reasoner.ruleCount
  atomCount := Reasoner.maxAtom

/-- One thing a backend is told. -/
inductive Message where
  | rule (rule : Rule)
  | weightRule (rule : WeightRule)
  | solve (assumptions : List Literal)
  deriving DecidableEq

def Message.text : Message → String
  | .rule r => r.text
  | .weightRule r => r.text
  | .solve assumptions =>
    "solve [" ++ ", ".intercalate (assumptions.map fun l => toString l.raw) ++ "]"

structure Transcript (β : Type) where
  backend : β
  messages : Array Message := #[]

namespace Transcript

variable {β : Type}

def add (t : Transcript β) (message : Message) (backend : β) : Transcript β :=
  ⟨backend, t.messages.push message⟩

def after (t : Transcript β) (message : Message) :
    Except (SolveError × β) β → Except (SolveError × Transcript β) (Transcript β)
  | .ok backend => .ok (t.add message backend)
  | .error (e, backend) => .error (e, t.add message backend)

instance [Backend β] : Backend (Transcript β) where
  addRule t rule := t.after (.rule rule) (Backend.addRule t.backend rule)
  addWeightRule t rule := t.after (.weightRule rule) (Backend.addWeightRule t.backend rule)
  solve t assumptions :=
    let (report, backend) := Backend.solve t.backend assumptions
    (report, t.add (.solve assumptions) backend)
  ruleCount t := Backend.ruleCount t.backend
  atomCount t := Backend.atomCount t.backend

end Transcript

end StablePlan
