import StablePlan.Transition.Bands

/-!
Compiling a program into a template: the replay becomes a draft, the consequences of the program
are assumed, and what is left after fitting is laid out.
-/

namespace StablePlan

/-- The template of a draft, with slots for what is left. -/
def Draft.layOut (d : Draft) : Except CompileError Template := do
  let bands ← Bands.ofDraft d
  bands.template

/-- What is known about all stable models of a program: the atoms true in some model and those
true in all, or none if there is no model. -/
structure Consequences where
  brave : Except SolveError (Option (List Nat))
  cautious : Except SolveError (Option (List Nat))

def Reasoner.allConsequences (r : Reasoner) : Consequences := ⟨r.brave, r.cautious⟩

/-- The atoms that occur but are true in no model. -/
def Draft.never (d : Draft) (brave : List Nat) : List Nat :=
  d.atoms.filter fun atom => d.isMentioned atom && !brave.contains atom

def requireModel (consequence : Except SolveError (Option (List Nat))) :
    Except CompileError (List Nat) :=
  match consequence with
  | .ok (some atoms) => .ok atoms
  | .ok none => .error .unsatTemplate
  | .error e => .error (.solve e)

/-- The fitting that the consequences of a program ask for. -/
def fittingOf (d : Draft) (brave cautious : List Nat) : Fitting :=
  ((Fitting.ofDraft d).assumeFalse (d.never brave)).assumeCautious cautious

def compile (replay : List Observation) (consequences : Consequences) :
    Except CompileError Template := do
  let draft := Draft.ofReplay replay
  let brave ← requireModel consequences.brave
  let cautious ← requireModel consequences.cautious
  match (fittingOf draft brave cautious).run with
  | .ok f => f.draft.layOut
  | .error (e, _) => .error e

def Reasoner.compile (r : Reasoner) : Except CompileError Template :=
  StablePlan.compile r.replay.toList r.allConsequences

end StablePlan
