import StablePlan.Lengths.Strategy

/-!
What strategies have to say about a choice, for those who want to follow a search.
-/

namespace StablePlan

def bracketed (items : List String) : String := "[" ++ ", ".intercalate items ++ "]"

/-- The queue after the choice, or why there is none; nothing is said once the search is over. -/
def LengthQueue.remark? (q : LengthQueue) (outcome : Option Outcome) : Option String :=
  let after := (q.next outcome).2
  let queue := "Queue: " ++ bracketed (after.lengths.map toString)
  match outcome with
  | none => some queue
  | some outcome =>
    if q.lengths.isEmpty || outcome == .satisfiable then none
    else if outcome == .outOfMemory && after.lengths.all after.exhausted.contains then
      some "Every queued length is out of memory"
    else some queue

def Run.text (run : Run) : String :=
  "(" ++ ",".intercalate
    [toString run.index, toString run.length, toString run.effort, toString run.solve] ++ ")"

def Pool.remark? (p : Pool) (outcome : Option Outcome) : Option String :=
  let (length, after) := p.next outcome
  let ended : Bool := match outcome with
    | none => false
    | some outcome => p.runs.isEmpty || outcome == .satisfiable
  if ended then none
  else if length.isSome then some ("Runs: " ++ " ".intercalate (after.runs.map Run.text))
  else if after.pending.isEmpty then none
  else some "Every pending run is out of memory"

def Strategy.remark? : Strategy → Option Outcome → Option String
  | .queue q, outcome => q.remark? outcome
  | .pool p, outcome => p.remark? outcome

end StablePlan
