import StablePlan.CommandLine.Invocation
import StablePlan.Plan.Run
import StablePlan.Program.Aspif
import StablePlan.Symbol.Facts
import StablePlan.Transition.Account

/-!
Sessions: a run of the program in steps, each of which prints some lines. A session opens by
reading and compiling the program and goes on choosing a length, grounding what it needs and
solving, until a plan is found or no length is left. Reading files and telling the time are left
to whoever drives it.
-/

namespace StablePlan

/-- A printed line: a result, or a message beside the results. A line may hold line breaks. -/
inductive Line where
  | result (text : String)
  | message (text : String)
  deriving DecidableEq, Inhabited

/-- Why a session cannot go on, and at which stage. -/
inductive SessionError where
  | usage (error : UsageError)
  | unreadable (source : Source) (cause : String)
  | template (error : ReadError)
  | loading (error : SolveError)
  | compiling (error : CompileError)
  | actions (error : ReadError)
  | planning (error : PlanError)
  | distantDeadline
  deriving DecidableEq

def Source.text : Source → String
  | .standardInput => "from stdin"
  | .file name => name

def SessionError.message : SessionError → String
  | .usage e => e.message
  | .unreadable source cause => "Reading " ++ source.text ++ ": " ++ cause
  | .template e => "Parsing the template: " ++ e.message
  | .loading e => "Loading the template: " ++ e.message
  | .compiling e => "Compiling the template: " ++ e.message
  | .actions e => "Parsing the action descriptions: " ++ e.message
  | .planning e => e.message
  | .distantDeadline => "the time limit ends beyond the clock"

/-- Whether a time limit is to blame that the clock cannot take. -/
def SessionError.isClock : SessionError → Bool
  | .usage .notADuration | .distantDeadline => true
  | _ => false

/-- How a session ended. -/
inductive Ending where
  | help
  | found
  | notFound
  | failed (error : SessionError)
  deriving DecidableEq

/-- The exit status. -/
def Ending.code : Ending → Nat
  | .help => 0
  | .found => 10
  | .notFound => 20
  | .failed e => if e.isClock then 101 else 1

/-- What is read for a session, or why it could not be read. -/
structure Inputs where
  program : Except String String
  actions : Except String String

/-- A stage of a session, which prints lines also if it fails. -/
abbrev Stage := ExceptT SessionError (StateM (Array Line))

namespace Stage

def say (line : Line) : Stage Unit := modify fun lines => lines.push line

def ofExcept {ε α : Type} (error : ε → SessionError) : Except ε α → Stage α
  | .ok a => pure a
  | .error e => throw (error e)

end Stage

namespace Invocation

/-- A line of the results that is a comment in the output for competitions. -/
def comment (inv : Invocation) (text : String) : Line :=
  .result (if inv.competition then "% " ++ text else text)

/-- Says what only the verbose want to know. -/
def remark (inv : Invocation) (text : String) : Stage Unit := do
  if inv.verbose then Stage.say (.message text)

/-- The lines that show an accepted plan. -/
def plan (inv : Invocation) (answer : Answer) : List Line :=
  if inv.competition then
    [.result "ANSWER", .result (" ".intercalate (answer.symbols.map fun s => toString s ++ "."))]
  else [.result "Answer: 1", .result answer.text]

def showNotice (inv : Invocation) (n : Notice) : Stage Unit :=
  match n with
  | .solving .. => Stage.say (inv.comment "Solving...")
  | .model _ answer => (inv.plan answer).forM Stage.say
  | n => n.trace?.forM inv.remark

/-- The nanoseconds from which on a deadline is beyond the clock. -/
def clockEnd : Nat := Nat.pow 2 63 * Nat.pow 10 9

/-- The source of the descriptions of actions, if they are read. -/
def actionSource? (inv : Invocation) : Option Source :=
  match inv.test with
  | some (.text source) => some source
  | _ => none

/-- Reads the program into a reasoner. -/
def load (inv : Invocation) (inputs : Inputs) : Stage Reasoner := do
  let text ← Stage.ofExcept (.unreadable inv.program) inputs.program
  let statements ← Stage.ofExcept .template (Aspif.read text)
  Stage.ofExcept (fun (e, _) => .loading e)
    ((Reasoner.empty inv.settings.solveLimit).load statements)

def compile (inv : Invocation) (r : Reasoner) : Stage Template := do
  if inv.settings.timeLimit.any (clockEnd ≤ ·) then throw .distantDeadline
  r.account.remarks.forM inv.remark
  Stage.ofExcept .compiling r.account.result

/-- The check of plans that is asked for, if any. -/
def sequentialCheck (inv : Invocation) (inputs : Inputs) (t : Template) :
    Stage (Option SequentialCheck) := do
  match inv.test with
  | none => return none
  | some source =>
    let facts ← match source with
      | .template => pure t.facts
      | .text source =>
        let text ← Stage.ofExcept (.unreadable source) inputs.actions
        Stage.ofExcept .actions (Symbol.readFacts text.toList)
    let check := SequentialCheck.ofFacts facts inv.block
    inv.remark check.remark
    return some check

end Invocation

abbrev SessionPlanner := Planner Reasoner SequentialCheck

/-- What a session does next. -/
inductive Phase where
  | choosing (last : Option Outcome)
  | grounding (length : Nat)
  | solving (length : Nat) (admitted : Bool)
  | closed (ending : Ending)
  deriving DecidableEq

structure Session where
  invocation : Invocation
  planner : SessionPlanner
  phase : Phase := .choosing none

namespace Session

/-- Prints what the planner has noted. -/
def report (inv : Invocation) (p : SessionPlanner) : Stage SessionPlanner := do
  p.journal.forM inv.showNotice
  return { p with journal := #[] }

/-- Prints what a call has noted, whether it fails or not. -/
def perform {α : Type} (inv : Invocation)
    (call : Except (Planner.Failure Reasoner SequentialCheck) (α × SessionPlanner)) :
    Stage (α × SessionPlanner) := do
  match call with
  | .ok (a, p) => return (a, ← report inv p)
  | .error (e, p) =>
    let _ ← report inv p
    throw (.planning e)

/-- Reads and compiles the program and makes the planner, which meets the readings of memory one
after the other. -/
def start (inv : Invocation) (inputs : Inputs) (readings : List Nat) : Stage Session := do
  let reasoner ← inv.load inputs
  let template ← inv.compile reasoner
  let check ← inv.sequentialCheck inputs template
  let backend := Reasoner.empty inv.settings.solveLimit
  let planner ← Stage.ofExcept .planning (Planner.make template backend readings inv.settings check)
  inv.remark planner.remark
  return { invocation := inv, planner }

/-- Chooses a length, or closes the search. -/
def choose (s : Session) (last : Option Outcome) : Stage Session := do
  let (length, planner) := s.planner.propose last
  match length with
  | none =>
    let planner ← report s.invocation planner
    Stage.say (s.invocation.comment "PLAN NOT FOUND")
    return { s with planner, phase := .closed .notFound }
  | some length =>
    let planner ← report s.invocation (planner.announce length)
    return { s with planner, phase := .grounding length }

def ground (s : Session) (length : Nat) : Stage Session := do
  let (admitted, planner) ← perform s.invocation (s.planner.prepare length)
  return { s with planner, phase := .solving length admitted }

def solve (s : Session) (length : Nat) (admitted : Bool) : Stage Session := do
  let (attempt, planner) ← perform s.invocation (s.planner.conclude length admitted)
  let planner ← report s.invocation (planner.noteOutcome attempt)
  if attempt.outcome = .satisfiable then
    Stage.say (s.invocation.comment "SATISFIABLE")
    return { s with planner, phase := .closed .found }
  else return { s with planner, phase := .choosing attempt.outcome }

/-- Makes one step; a session that is closed stays as it is. -/
def step (s : Session) : Stage Session :=
  match s.phase with
  | .choosing last => s.choose last
  | .grounding length => s.ground length
  | .solving length admitted => s.solve length admitted
  | .closed _ => pure s

/-- Lets the next readings of memory show so many megabytes. -/
def withReading (s : Session) (megabytes : Nat) : Session :=
  { s with planner := { s.planner with readings := [megabytes] } }

/-- What a step has cost: microseconds, and the megabytes in use before and after it. -/
structure Cost where
  microseconds : Nat
  before : Nat
  after : Nat

/-- Charges the cost of the step that led from one session to the next. Grounding teaches the
planner what a step of the plan costs in memory. -/
def charge (s next : Session) (cost : Cost) : Session :=
  let p := next.planner
  match s.phase with
  | .grounding _ =>
    let tally := { p.tally with
      memory := max p.tally.memory cost.after
      grounding := p.tally.grounding + cost.microseconds }
    let p := p.learn cost.before cost.after (p.steps - s.planner.steps)
    { next with planner := { p with tally } }
  | .solving .. =>
    let tally := { p.tally with solving := p.tally.solving + cost.microseconds }
    { next with planner := { p with tally } }
  | _ => next

/-- The last lines of a session that took so many microseconds. -/
def closing (s : Session) (microseconds : Nat) : List Line :=
  (if s.invocation.statistics then "" :: s.planner.tally.lines else []).map Line.result ++
    [.result "", .result ("Time\t\t: " ++ Tally.secondsText microseconds)]

end Session

end StablePlan
