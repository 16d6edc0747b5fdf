import StablePlan.Ascending
import StablePlan.Program.Statement
import StablePlan.Stable.Search

/-!
A growing ground program that can be replayed, solved under assumptions, and asked for its brave
and cautious consequences. Rules are only ever added. An operation that fails says what state it
leaves: the largest atom seen may have grown, and nothing else.
-/

namespace StablePlan

inductive SolveError where
  | reservedAtom
  | outOfRange (literal : Literal)
  | interrupted
  deriving DecidableEq

def SolveError.message : SolveError → String
  | .reservedAtom => "atom 0 is reserved"
  | .outOfRange l => "literal " ++ l.text ++ " refers to an atom beyond the program"
  | .interrupted => "consequence enumeration interrupted by the search limit"

inductive SolveResult where
  | satisfiable (model : Model)
  | unsatisfiable
  | unknown
  deriving DecidableEq, Inhabited

/-- The answer of one solve call, and how many decisions it took. -/
structure SolveReport where
  result : SolveResult
  decisions : Nat
  deriving DecidableEq, Inhabited

structure Reasoner where
  replay : Array Observation
  clauses : Array Clause
  externals : List (Nat × ExternalValue)
  maxAtom : Nat
  ruleCount : Nat
  limit : Limit

namespace Reasoner

def empty (limit : Limit) : Reasoner := ⟨#[], #[], [], 0, 0, limit⟩

def withLimit (r : Reasoner) (limit : Limit) : Reasoner := { r with limit }

abbrev Step := Except (SolveError × Reasoner) Reasoner

def noteAtom (r : Reasoner) (atom : Nat) : Step :=
  if atom = 0 then .error (.reservedAtom, r) else .ok { r with maxAtom := max r.maxAtom atom }

def noteAtoms (r : Reasoner) (atoms : List Nat) : Step := atoms.foldlM noteAtom r

def addClauses (r : Reasoner) (clauses : List Clause) : Reasoner :=
  { r with clauses := r.clauses ++ clauses, ruleCount := r.ruleCount + 1 }

def addRule (r : Reasoner) (rule : Rule) : Step := do
  let r ← r.noteAtoms (rule.head ++ rule.body.map Literal.atom)
  .ok (r.addClauses (Clause.ofRule rule.choice rule.head rule.body none))

def addWeightRule (r : Reasoner) (rule : WeightRule) : Step := do
  let r ← r.noteAtoms (rule.head ++ rule.body.map fun element => element.1.atom)
  .ok (r.addClauses (Clause.ofRule rule.choice rule.head [] (some ⟨rule.lower, rule.body⟩)))

def observe (r : Reasoner) (o : Observation) : Reasoner := { r with replay := r.replay.push o }

/-- The atom of a condition that needs no atom of its own: none, which is a fact, or one positive
literal. -/
def plainAtom? : List Literal → Option Nat
  | [] => some 0
  | [l] => if l.isPositive then some l.atom else none
  | _ => none

/-- The atom after the largest one, as a number of 32 bits. -/
def nextAtom (r : Reasoner) : Nat := (r.maxAtom + 1) % Nat.pow 2 32

/-- Takes one statement over. A label with a compound condition is moved to a new atom, which a
new rule derives from the condition. -/
def loadStatement (r : Reasoner) : Statement → Step
  | .rule rule => do
    let r ← r.addRule rule
    .ok (r.observe (.rule rule))
  | .weightRule rule => do
    let r ← r.addWeightRule rule
    .ok (r.observe (.weightRule rule))
  | .external atom value => do
    let r ← r.noteAtom atom
    .ok ({ r with externals := Ascending.put atom value r.externals }.observe
      (.external atom value))
  | .output symbol condition =>
    match plainAtom? condition with
    | some atom => .ok (r.observe (.label symbol atom))
    | none => do
      let atom := r.nextAtom
      let rule : Rule := ⟨false, [atom], condition⟩
      let r ← r.addRule rule
      .ok ((r.observe (.rule rule)).observe (.label symbol (Literal.cast atom).atom))

/-- Takes statements over. All their atoms are noted first, so an error leaves the program as it
was, unless there was no new atom left. -/
def load (r : Reasoner) (statements : List Statement) : Step := do
  let r ← r.noteAtoms (statements.flatMap Statement.atoms)
  statements.foldlM loadStatement r

def checkAssumption (r : Reasoner) (l : Literal) : Except SolveError Unit :=
  if l.atom = 0 then .error .reservedAtom
  else if r.maxAtom < l.atom then .error (.outOfRange l)
  else .ok ()

/-- The externals that may be chosen either way: all of them if `free`, else those declared free
or true and those that an assumption names. -/
def isGiven (free : Bool) (assumptions : List Literal) (external : Nat × ExternalValue) : Bool :=
  free || assumptions.any (·.atom == external.1) || external.2 == .free || external.2 == .on

/-- What the declared value of an external demands, unless an assumption names it. -/
def demand? (free : Bool) (assumptions : List Literal) (external : Nat × ExternalValue) :
    Option Literal :=
  if free || assumptions.any (·.atom == external.1) then none
  else
    match external.2 with
    | .free => none
    | .on => some (.positive external.1)
    | .off | .release => some (.negative external.1)

def problem (r : Reasoner) (free : Bool) (assumptions : List Literal) : Problem where
  clauses := r.clauses.toList
  maxAtom := r.maxAtom
  given := (r.externals.filter (isGiven free assumptions)).foldl
    (fun given external => given.setIfInBounds external.1 true)
    (Array.replicate (r.maxAtom + 1) false)

def root (r : Reasoner) (free : Bool) (assumptions : List Literal) : List Literal :=
  assumptions ++ r.externals.filterMap (demand? free assumptions)

/-- Stops at the first model. -/
def takeFirst (_ : Option Model) (m : Model) : Option Model × Bool := (some m, false)

def solve (r : Reasoner) (assumptions : List Literal) : Except SolveError SolveReport := do
  assumptions.forM r.checkAssumption
  let search := (r.problem false assumptions).search r.limit (r.root false assumptions)
    takeFirst none
  let result := match search.found, search.flow with
    | some m, _ => .satisfiable m
    | none, .exhausted => .unsatisfiable
    | none, _ => .unknown
  .ok ⟨result, search.decisions⟩

/-- Combines the values of all models, atom by atom. -/
def accumulate (combine : Bool → Bool → Bool) (values : Option (Array Bool)) (m : Model) :
    Option (Array Bool) × Bool :=
  match values with
  | none => (some m.values, true)
  | some values => (some (Array.zipWith combine values m.values), true)

/-- Goes through all models with every external free. -/
def enumerate (r : Reasoner) (combine : Bool → Bool → Bool) : Progress (Option (Array Bool)) :=
  (r.problem true []).search r.limit (r.root true []) (accumulate combine) none

/-- The atoms that a search over all models has gathered; none if there is no model at all. -/
def gathered (search : Progress (Option (Array Bool))) : Except SolveError (Option (List Nat)) :=
  match search.flow with
  | .interrupted => .error .interrupted
  | _ => .ok (search.found.map fun values => Model.atoms ⟨values⟩)

def consequences (r : Reasoner) (combine : Bool → Bool → Bool) :
    Except SolveError (Option (List Nat)) :=
  gathered (r.enumerate combine)

/-- The atoms that are true in some model. -/
def brave (r : Reasoner) : Except SolveError (Option (List Nat)) := r.consequences (· || ·)

/-- The atoms that are true in every model. -/
def cautious (r : Reasoner) : Except SolveError (Option (List Nat)) := r.consequences (· && ·)

end Reasoner

end StablePlan
