import StablePlan.Serial.Effects
import StablePlan.Unrolling.Answer

/-!
Checks of found plans. A check accepts an answer or names shown atoms that must not all hold
again. The sequential check rejects an answer in which the actions of some step cannot be executed
one after another; it blocks the whole plan, or a smallest bad set of the first bad step.
-/

namespace StablePlan

inductive Verdict where
  | accept
  | reject (atoms : List (Nat × Symbol))
  deriving DecidableEq, Inhabited

/-- A check may change with every answer it sees. Its remarks are what it has to say beside the
verdict. -/
class ModelCheck (κ : Type) where
  check : κ → Answer → (length : Nat) → Verdict × κ
  remarks : κ → Answer → (length : Nat) → List String := fun _ _ _ => []

/-- Verdicts given in turn; behind the last one everything is accepted. -/
structure Script where
  verdicts : List Verdict

instance : ModelCheck Script where
  check s _ _ :=
    match s.verdicts with
    | [] => (.accept, s)
    | v :: rest => (v, ⟨rest⟩)

/-- One of two checks. -/
instance {κ μ : Type} [ModelCheck κ] [ModelCheck μ] : ModelCheck (κ ⊕ μ) where
  check c answer length :=
    match c with
    | .inl c =>
      let (v, c) := ModelCheck.check c answer length
      (v, .inl c)
    | .inr c =>
      let (v, c) := ModelCheck.check c answer length
      (v, .inr c)
  remarks c answer length :=
    match c with
    | .inl c => ModelCheck.remarks c answer length
    | .inr c => ModelCheck.remarks c answer length

/-- What a rejection blocks: every action of the plan, or a smallest set that is not
serializable. -/
inductive BlockMode where
  | model
  | minimal
  deriving DecidableEq, Inhabited

structure SequentialCheck where
  actions : ActionTable
  mode : BlockMode

namespace SequentialCheck

def ofFacts (facts : List Symbol) (mode : BlockMode) : SequentialCheck := ⟨.ofFacts facts, mode⟩

def remark (c : SequentialCheck) : String :=
  "Sequential check over " ++ toString c.actions.length ++ " actions"

/-- The sets of more actions than this are not searched for smaller ones. -/
def maxMinimal : Nat := 16

/-- The `i`-th set of positions in the order of the reflected Gray code. -/
def graySet (n i : Nat) : List Nat := (List.range n).filter (i ^^^ (i >>> 1)).testBit

/-- Keeps the first set of a size that is not serializable. -/
def keepSmaller (c : Constraints) (best : Option (List Nat)) (positions : List Nat) :
    Option (List Nat) :=
  match best with
  | some b =>
    if b.length ≤ positions.length || c.serializable positions then best else some positions
  | none => if c.serializable positions then none else some positions

def smallest? (c : Constraints) (n : Nat) : Option (List Nat) :=
  (List.range' 1 (Nat.pow 2 n - 1)).foldl (fun best i => keepSmaller c best (graySet n i)) none

/-- The positions of a smallest set of actions that is not serializable, or all positions if there
is none or there are too many actions. The empty list has no set to choose from. -/
def minimal (c : SequentialCheck) (actions : List Symbol) : Option (List Nat) :=
  let all := List.range actions.length
  if actions.isEmpty then none
  else if maxMinimal < actions.length then some all
  else some ((smallest? (c.actions.constraints actions) actions.length).getD all)

/-- The action that a label `occurs(A)` shows. -/
def action? : Symbol → Option Symbol
  | .function name [action] => if name = "occurs" then some action else none
  | _ => none

/-- The labels of actions at a step. -/
def actionLabels (answer : Answer) (step : Nat) : List Symbol :=
  (answer.labelsAt step).filter fun label => (action? label).isSome

def actionsAt (answer : Answer) (step : Nat) : List Symbol :=
  (answer.labelsAt step).filterMap action?

/-- The first step whose actions are not serializable. -/
def badStep? (c : SequentialCheck) (answer : Answer) (length : Nat) : Option Nat :=
  (List.range' 1 length).find? fun step => !c.actions.serializable (actionsAt answer step)

/-- What is blocked on account of a bad step. -/
def rejected (c : SequentialCheck) (answer : Answer) (length step : Nat) : List (Nat × Symbol) :=
  match c.mode with
  | .model =>
    (List.range' 1 length).flatMap fun s => (actionLabels answer s).map fun label => (s, label)
  | .minimal =>
    let labels := actionLabels answer step
    ((c.minimal (actionsAt answer step)).getD []).filterMap fun i =>
      labels[i]?.map fun label => (step, label)

def check (c : SequentialCheck) (answer : Answer) (length : Nat) : Verdict :=
  match c.badStep? answer length with
  | none => .accept
  | some step => .reject (c.rejected answer length step)

def remarks (c : SequentialCheck) (answer : Answer) (length : Nat) : List String :=
  match c.badStep? answer length with
  | none => []
  | some step => ["Step " ++ toString step ++ " is not serializable"]

instance : ModelCheck SequentialCheck where
  check c answer length := (c.check answer length, c)
  remarks := remarks

end SequentialCheck

end StablePlan
