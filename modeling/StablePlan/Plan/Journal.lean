import StablePlan.Lengths.Remarks
import StablePlan.Unrolling.Answer

/-!
The journal of a plan search: what happened, in order. Four kinds of notices are its events; the
others let a reader follow every stage.
-/

namespace StablePlan

inductive Notice where
  | solving (iteration length : Nat)
  | model (length : Nat) (answer : Answer)
  | rejected (length : Nat) (atoms : List (Nat × Symbol))
  | outcome (length : Nat) (outcome : Outcome)
  | projected (length estimate limit : Nat)
  | initialState (indices : List Nat)
  | grounded (first last rules : Nat)
  | search (rules atoms assumptions : Nat)
  | searched (report : SolveReport)
  | gaveUp (length retries : Nat)
  | remark (text : String)
  deriving DecidableEq, Inhabited

/-- How a search that took so many decisions ended. -/
def SolveReport.text (report : SolveReport) : String :=
  (match report.result with
    | .satisfiable _ => "Model"
    | .unsatisfiable => "Exhausted"
    | .unknown => "Interrupted") ++ " after " ++ toString report.decisions ++ " decisions"

/-- What a notice says in a trace; events are reported in another way. -/
def Notice.trace? : Notice → Option String
  | .solving .. | .model .. | .rejected .. | .outcome .. => none
  | .projected length estimate limit =>
    some ("Length " ++ toString length ++ ": " ++ toString estimate ++ "MB projected, " ++
      toString limit ++ "MB allowed")
  | .initialState indices => some ("Initial state: " ++ bracketed (indices.map toString))
  | .grounded first last rules =>
    some ("Grounded steps " ++ toString first ++ "..=" ++ toString last ++ ": " ++
      toString rules ++ " rules asserted")
  | .search rules atoms assumptions =>
    some ("Solving " ++ toString rules ++ " rules over " ++ toString atoms ++ " atoms with " ++
      toString assumptions ++ " assumptions")
  | .searched report => some report.text
  | .gaveUp length retries =>
    some ("Giving up on length " ++ toString length ++ " after " ++ toString retries ++ " retries")
  | .remark text => some text

end StablePlan
