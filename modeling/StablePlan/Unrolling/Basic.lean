import StablePlan.Transition.Template
import StablePlan.Unrolling.Backend

/-!
Unrolling a template into a backend, step by step. The externals of every grounded step are
switched by assumptions; only a release says something for good. A call that fails says what
state it leaves in the unrolling and in the backend.
-/

namespace StablePlan

inductive UnrollError where
  | groundingOrder (expected start : Nat)
  | unknownStep (step : Nat)
  | release (step : Nat)
  | atomOverflow (step : Nat)
  | solve (error : SolveError)
  deriving DecidableEq

def UnrollError.message : UnrollError → String
  | .groundingOrder expected start =>
    "grounding must continue at step " ++ toString expected ++ ", not at step " ++ toString start
  | .unknownStep step => "step " ++ toString step ++ " is not grounded"
  | .release step =>
    "an external at step " ++ toString step ++ " can only be released with release_external"
  | .atomOverflow step => "step " ++ toString step ++ " needs atoms beyond the largest literal"
  | .solve e => e.message

/-- An external, given by its index, at a step. They go by step and then by index. -/
structure Switch where
  step : Nat
  index : Nat
  deriving DecidableEq, Inhabited

instance : Ord Switch :=
  ⟨fun a b => (compare a.step b.step).then (compare a.index b.index)⟩

/-- The assigned switches are assumed, the others are left open. -/
structure Unrolling where
  template : Template
  steps : Nat := 0
  started : Bool := false
  assigned : List (Switch × Bool) := []

namespace Unrolling

variable {β : Type} [Backend β]

/-- An error with what the call leaves of the unrolling and of the backend. -/
abbrev Failure (β : Type) := UnrollError × Unrolling × β

def tell (u : Unrolling) (b : β) (rule : Rule) : Except (Failure β) (Unrolling × β) :=
  match Backend.addRule b rule with
  | .ok b => .ok (u, b)
  | .error (e, b) => .error (.solve e, u, b)

def tellWeight (u : Unrolling) (b : β) (rule : WeightRule) :
    Except (Failure β) (Unrolling × β) :=
  match Backend.addWeightRule b rule with
  | .ok b => .ok (u, b)
  | .error (e, b) => .error (.solve e, u, b)

/-- Asserts the initial state, once. -/
def start (u : Unrolling) (b : β) : Except (Failure β) (Unrolling × β) := do
  if u.started then .ok (u, b)
  else
    let (u, b) ← u.template.init.foldlM (fun (u, b) k => tell u b (.fact k)) (u, b)
    .ok ({ u with started := true }, b)

def tellAt (step : Nat) (s : Unrolling × β) (rule : Rule) :
    Except (Failure β) (Unrolling × β) :=
  match s.1.template.relocate rule step with
  | some rule => tell s.1 s.2 rule
  | none => .error (.atomOverflow step, s)

def tellWeightAt (step : Nat) (s : Unrolling × β) (rule : WeightRule) :
    Except (Failure β) (Unrolling × β) :=
  match s.1.template.relocateWeight rule step with
  | some rule => tellWeight s.1 s.2 rule
  | none => .error (.atomOverflow step, s)

/-- Counts a step as grounded and assumes its externals false. -/
def enter (u : Unrolling) (step : Nat) : Unrolling where
  template := u.template
  steps := step
  started := u.started
  assigned := u.template.externals.foldl
    (fun table entry => Ascending.put ⟨step, entry.2⟩ false table) u.assigned

def groundStep (s : Unrolling × β) (step : Nat) : Except (Failure β) (Unrolling × β) := do
  let s ← s.1.template.rules.foldlM (tellAt step) s
  let (u, b) ← s.1.template.weightRules.foldlM (tellWeightAt step) s
  .ok (u.enter step, b)

/-- Grounds the steps from `first` to `last`, which have to go on where the last grounding ended. -/
def ground (u : Unrolling) (b : β) (first last : Nat) :
    Except (Failure β) (Unrolling × β) := do
  if first ≠ u.steps + 1 then .error (.groundingOrder (u.steps + 1) first, u, b)
  else if !u.template.fits last then .error (.atomOverflow last, u, b)
  else
    let s ← u.start b
    (List.range' first (last + 1 - first)).foldlM groundStep s

/-- Grounds so many steps more. The last of them is a number of 32 bits; where it wraps around, it
comes before the first, and no step is grounded. -/
def extend (u : Unrolling) (b : β) (n : Nat) : Except (Failure β) (Unrolling × β) :=
  u.ground b (u.steps + 1) ((u.steps + n) % Nat.pow 2 32)

def isGrounded (u : Unrolling) (step : Nat) : Bool := 0 < step && step ≤ u.steps

/-- Assumes an external true or false at a step, or leaves it open. -/
def assign (u : Unrolling) (s : Switch) (value : ExternalValue) : Except UnrollError Unrolling :=
  if !u.isGrounded s.step then .error (.unknownStep s.step)
  else
    match value with
    | .free => .ok { u with assigned := Ascending.remove s u.assigned }
    | .on => .ok { u with assigned := Ascending.put s true u.assigned }
    | .off => .ok { u with assigned := Ascending.put s false u.assigned }
    | .release => .error (.release s.step)

def literal? (u : Unrolling) (s : Switch) : Option Literal := u.template.literal? s.step s.index

/-- Makes an external false at a step for good. -/
def release (u : Unrolling) (b : β) (s : Switch) : Except (Failure β) (Unrolling × β) :=
  if !u.isGrounded s.step then .error (.unknownStep s.step, u, b)
  else
    match u.literal? s with
    | none => .error (.atomOverflow s.step, u, b)
    | some l =>
      tell { u with assigned := Ascending.remove s u.assigned } b (.constraint [l])

/-- The literal under which a label is shown at a step. -/
def outputLiteral? (u : Unrolling) (step : Nat) (label : Symbol) : Option Literal :=
  (u.template.output.find? (·.2 = label)).bind fun entry => u.template.literal? step entry.1

def assumption? (u : Unrolling) (entry : Switch × Bool) : Option Literal :=
  (u.literal? entry.1).map fun l => if entry.2 then l else l.negate

/-- What to assume in the next solve call, by step and index. -/
def assumptions (u : Unrolling) : List Literal := u.assigned.filterMap u.assumption?

end Unrolling

end StablePlan
