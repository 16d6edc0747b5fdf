import StablePlan.Plan.Attempt

/-!
Plan searches: lengths are tried as the strategy proposes them, until one has a plan or none is
left.
-/

namespace StablePlan

/-- How a search ended. It is stopped when the iterations it may make are used up. -/
inductive PlanResult where
  | found (length : Nat) (answer : Answer)
  | notFound
  | stopped
  deriving DecidableEq, Inhabited

namespace Planner

variable {β κ : Type}

/-- Asks the strategy for the next length, given the outcome for the last one. -/
def propose (p : Planner β κ) (outcome : Option Outcome) : Option Nat × Planner β κ :=
  let p := match p.strategy.remark? outcome with
    | some text => p.note (.remark text)
    | none => p
  let (length, strategy) := p.strategy.next outcome
  (length, { p with strategy })

/-- Counts an iteration and says which length it tries. -/
def announce (p : Planner β κ) (length : Nat) : Planner β κ :=
  let tally := { p.tally with iterations := p.tally.iterations + 1 }
  { p with tally }.note (.solving tally.iterations length)

def noteOutcome (p : Planner β κ) (attempt : Attempt) : Planner β κ :=
  p.note (.outcome attempt.length attempt.outcome)

variable [Backend β] [ModelCheck κ]

/-- Tries one proposed length. -/
def visit (p : Planner β κ) (length : Nat) : Except (Failure β κ) (Attempt × Planner β κ) := do
  let (attempt, p) ← (p.announce length).attempt length
  .ok (attempt, p.noteOutcome attempt)

/-- Makes up to so many iterations. -/
def runFor : (iterations : Nat) → Option Outcome → Planner β κ →
    Except (Failure β κ) (PlanResult × Planner β κ)
  | iterations, outcome, p =>
    match p.propose outcome with
    | (none, p) => .ok (.notFound, p)
    | (some length, p) =>
      match iterations with
      | 0 => .ok (.stopped, p)
      | iterations + 1 => do
        let (attempt, p) ← p.visit length
        match attempt.outcome, attempt.answer with
        | .satisfiable, some answer => .ok (.found attempt.length answer, p)
        | outcome, _ => runFor iterations (some outcome) p

/-- Runs until the planner has made `maxIterations` iterations altogether. -/
def run (p : Planner β κ) (maxIterations : Nat) : Except (Failure β κ) (PlanResult × Planner β κ) :=
  runFor (maxIterations - p.tally.iterations) none p

end Planner

end StablePlan
