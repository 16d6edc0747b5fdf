import StablePlan.Plan.Journal
import StablePlan.Plan.Settings
import StablePlan.Plan.Tally
import StablePlan.Serial.Verdict
import StablePlan.Transition.Compile

/-!
Attempts at one length. Two externals steer the unrolled program: the query marks the step where
the goal has to hold, and skip, if the template has it, forbids actions at a step, so that one
grounding also answers shorter lengths. A plan that the check rejects is blocked and the length is
solved again. A call that fails says what state it leaves.
-/

namespace StablePlan

inductive PlanError where
  | missingExternal (symbol : Symbol)
  | unshown (step : Nat) (label : Symbol)
  | compile (error : CompileError)
  | unroll (error : UnrollError)
  | solve (error : SolveError)
  deriving DecidableEq

def PlanError.message : PlanError → String
  | .missingExternal symbol => "the template has no external labelled " ++ toString symbol
  | .unshown step label =>
    "cannot block " ++ toString label ++ " at step " ++ toString step ++ ": it is not shown"
  | .compile e => e.message
  | .unroll e => e.message
  | .solve e => e.message

/-- How an attempt at a length ended, with the answer if there is one. -/
structure Attempt where
  length : Nat
  outcome : Outcome
  answer : Option Answer := none
  deriving DecidableEq, Inhabited

/-- The readings are what the memory gauge will show, the last one for ever. The marker is the
step at which the query is assumed. -/
structure Planner (β κ : Type) where
  backend : β
  unrolling : Unrolling
  strategy : Strategy
  readings : List Nat
  check : Option κ
  retry : Retry
  memoryLimit : Option Nat
  stepMemory : Nat
  query : Nat
  skip : Option Nat
  marker : Option Nat := none
  tally : Tally := {}
  journal : Array Notice := #[]

namespace Planner

variable {β κ : Type}

def make (template : Template) (backend : β) (readings : List Nat) (settings : Settings)
    (check : Option κ) : Except PlanError (Planner β κ) :=
  match template.external? settings.query with
  | none => .error (.missingExternal settings.query)
  | some query =>
    .ok {
      backend
      unrolling := { template }
      strategy := settings.strategy
      readings
      check
      retry := settings.retry
      memoryLimit := settings.memoryLimit
      stepMemory := settings.stepMemory
      query
      skip := template.external? settings.skip }

/-- Which externals steer the search. -/
def remark (p : Planner β κ) : String :=
  "Query handle " ++ toString p.query ++ ", skip handle " ++
    match p.skip with
    | some k => "Some(" ++ toString k ++ ")"
    | none => "None"

def note (p : Planner β κ) (n : Notice) : Planner β κ := { p with journal := p.journal.push n }

def steps (p : Planner β κ) : Nat := p.unrolling.steps

/-- Reads the memory gauge. -/
def gauge (p : Planner β κ) : Nat × Planner β κ :=
  match p.readings with
  | [] => (0, p)
  | [reading] => (reading, p)
  | reading :: rest => (reading, { p with readings := rest })

/-- Reads the memory gauge and keeps the largest reading. -/
def readMemory (p : Planner β κ) : Nat × Planner β κ :=
  let (reading, p) := p.gauge
  (reading, { p with tally := { p.tally with memory := max p.tally.memory reading } })

/-- The memory after so many more steps, as a number of 64 bits. -/
def estimate (p : Planner β κ) (usage added : Nat) : Nat :=
  min (usage + min (p.stepMemory * added) Settings.maxCount) Settings.maxCount

/-- The limit that so many more steps would exceed, if any. -/
def exceeded? (p : Planner β κ) (usage added : Nat) : Option Nat :=
  p.memoryLimit.filter fun limit => limit < p.estimate usage added

/-- Learns from two readings what a step costs. -/
def learn (p : Planner β κ) (before after added : Nat) : Planner β κ :=
  { p with stepMemory := max p.stepMemory ((after - before) / added) }

variable [Backend β]

abbrev Failure (β κ : Type) := PlanError × Planner β κ

/-- Notes the initial state if a call has asserted it. -/
def noteStart (p : Planner β κ) (before : Unrolling) : Planner β κ :=
  if p.unrolling.started && !before.started then
    p.note (.initialState p.unrolling.template.init)
  else p

def groundTo (p : Planner β κ) (target : Nat) : Except (Failure β κ) (Planner β κ) :=
  let before := p.unrolling
  match before.ground p.backend (before.steps + 1) target with
  | .ok (u, b) =>
    let p := { p with unrolling := u, backend := b }.noteStart before
    .ok (p.note (.grounded (before.steps + 1) target (Backend.ruleCount b)))
  | .error (e, u, b) =>
    .error (.unroll e, { p with unrolling := u, backend := b }.noteStart before)

def assign (p : Planner β κ) (step index : Nat) (value : ExternalValue) :
    Except (Failure β κ) (Planner β κ) :=
  match p.unrolling.assign ⟨step, index⟩ value with
  | .ok u => .ok { p with unrolling := u }
  | .error e => .error (.unroll e, p)

def release (p : Planner β κ) (step index : Nat) : Except (Failure β κ) (Planner β κ) :=
  match p.unrolling.release p.backend ⟨step, index⟩ with
  | .ok (u, b) => .ok { p with unrolling := u, backend := b }
  | .error (e, u, b) => .error (.unroll e, { p with unrolling := u, backend := b })

/-- Takes the query back from the step where it was. With skip, no solve call will ask for that
step again. -/
def leaveMarker (p : Planner β κ) : Except (Failure β κ) (Planner β κ) :=
  match p.marker with
  | none => .ok p
  | some old => if p.skip.isSome then p.release old p.query else p.assign old p.query .off

def moveQuery (p : Planner β κ) (target : Nat) : Except (Failure β κ) (Planner β κ) := do
  let p ← p.leaveMarker
  let p ← p.assign target p.query .on
  .ok { p with marker := some target }

/-- Grounds the missing steps up to `target`, if memory admits them; says whether it does. -/
def reach (p : Planner β κ) (length target : Nat) :
    Except (Failure β κ) (Bool × Planner β κ) := do
  if target ≤ p.steps then .ok (true, p)
  else
    let added := target - p.steps
    let (before, p) := p.readMemory
    match p.exceeded? before added with
    | some limit =>
      let p := p.note (.projected length (p.estimate before added) limit)
      .ok (false, { p with tally := { p.tally with outOfMemory := p.tally.outOfMemory + 1 } })
    | none =>
      let p ← p.groundTo target
      let (after, p) := p.readMemory
      let p ← (p.learn before after added).moveQuery target
      .ok (true, { p with tally := { p.tally with steps := target } })

/-- Hides the grounded steps beyond a length, or shows them again: with skip at each of them,
without it by moving the query. -/
def mask (p : Planner β κ) (length : Nat) (hide : Bool) : Except (Failure β κ) (Planner β κ) :=
  let (set, clear) := if hide then (ExternalValue.on, .off) else (.off, .on)
  match p.skip with
  | some skip =>
    (List.range' (length + 1) (p.steps - length)).foldlM (fun p step => p.assign step skip set) p
  | none => do
    let p ← p.assign (p.marker.getD p.steps) p.query clear
    p.assign length p.query set

/-- The constraint that shown atoms do not hold together. -/
def block (p : Planner β κ) (atoms : List (Nat × Symbol)) : Except (Failure β κ) (Planner β κ) := do
  let body ← atoms.mapM fun (step, label) =>
    match p.unrolling.outputLiteral? step label with
    | some l => .ok l
    | none => .error (.unshown step label, p)
  match Backend.addRule p.backend (.constraint body) with
  | .ok b => .ok { p with backend := b }
  | .error (e, b) => .error (.solve e, { p with backend := b })

variable [ModelCheck κ]

/-- Shows an answer to the check; without a check everything is accepted. -/
def judge (p : Planner β κ) (answer : Answer) (length : Nat) : Verdict × Planner β κ :=
  match p.check with
  | none => (.accept, p)
  | some c =>
    let p := (ModelCheck.remarks c answer length).foldl (fun p text => p.note (.remark text)) p
    let (verdict, c) := ModelCheck.check c answer length
    (verdict, { p with check := some c })

/-- One solve call under the current assumptions. -/
def solveOnce (p : Planner β κ) : Except (Failure β κ) (SolveResult × Planner β κ) :=
  let assumptions := p.unrolling.assumptions
  let p := p.note (.search (Backend.ruleCount p.backend) (Backend.atomCount p.backend)
    assumptions.length)
  match Backend.solve p.backend assumptions with
  | (.error e, b) => .error (.solve e, { p with backend := b })
  | (.ok report, b) =>
    let tally := { p.tally with solves := p.tally.solves + 1 }
    .ok (report.result, { p with backend := b, tally }.note (.searched report))

def countRejected (p : Planner β κ) : Planner β κ :=
  { p with tally := { p.tally with rejected := p.tally.rejected + 1 } }

/-- Solves until a plan is accepted or the length is given up, with so many retries left. -/
def solve (length : Nat) : (retries : Nat) → Planner β κ →
    Except (Failure β κ) (Attempt × Planner β κ)
  | retries, p => do
    let (result, p) ← p.solveOnce
    match result with
    | .unsatisfiable => .ok (⟨length, .unsatisfiable, none⟩, p)
    | .unknown => .ok (⟨length, .unknown, none⟩, p)
    | .satisfiable m =>
      let answer := p.unrolling.answer m length
      match p.judge answer length with
      | (.accept, p) =>
        .ok (⟨length, .satisfiable, some answer⟩, p.note (.model length answer))
      | (.reject atoms, p) =>
        let p := (p.note (.rejected length atoms)).countRejected
        if atoms.isEmpty then .ok (⟨length, .unknown, none⟩, p)
        else
          let p ← p.block atoms
          match retries with
          | 0 => .ok (⟨length, .unknown, none⟩, p.note (.gaveUp length p.retry.attempts))
          | retries + 1 => solve length retries p

/-- Solves at a length within the grounded steps; the steps beyond it are hidden for that time,
also if the call fails. -/
def solveMasked (p : Planner β κ) (length : Nat) :
    Except (Failure β κ) (Attempt × Planner β κ) := do
  if length < p.steps then
    let p ← p.mask length true
    match solve length p.retry.attempts p with
    | .ok (attempt, p) =>
      let p ← p.mask length false
      .ok (attempt, p)
    | .error (e, p) =>
      let p ← p.mask length false
      .error (e, p)
  else solve length p.retry.attempts p

/-- The length that is really tried: without skip there is no plan of length zero. -/
def usable (p : Planner β κ) (length : Nat) : Nat :=
  if length = 0 && p.skip.isNone then 1 else length

/-- Grounds what a length needs; the initial state stands before the first step. -/
def prepare (p : Planner β κ) (length : Nat) : Except (Failure β κ) (Bool × Planner β κ) :=
  p.reach (p.usable length) (max (p.usable length) 1)

/-- Solves at a length for which memory did or did not admit the steps. -/
def conclude (p : Planner β κ) (length : Nat) (admitted : Bool) :
    Except (Failure β κ) (Attempt × Planner β κ) :=
  if admitted then
    { p with tally := { p.tally with rules := Backend.ruleCount p.backend } }.solveMasked
      (p.usable length)
  else .ok (⟨p.usable length, .outOfMemory, none⟩, p)

/-- Looks for a plan of exactly this length. -/
def attempt (p : Planner β κ) (length : Nat) : Except (Failure β κ) (Attempt × Planner β κ) := do
  let (admitted, p) ← p.prepare length
  p.conclude length admitted

end Planner

end StablePlan
