import StablePlan.Lengths.Outcome

/-!
A pool of runs at growing lengths, as if each were a process of its own. The first run leads; a run
behind it gets a turn only as long as its effort stays within the share that a policy grants it at
its distance. Runs that had their turn are pending, and when no run is left the pool is filled from
them, and with fresh ones if there is room.
-/

namespace StablePlan

/-- A run at one length. Its effort counts the turns without an answer; it is tried in this round
only if `solve` holds. -/
structure Run where
  index : Nat
  length : Nat
  effort : Nat := 0
  solve : Bool := true
  exhausted : Bool := false
  deriving DecidableEq, Inhabited

/-- What the leader leaves to others: whether a run with some effort gets a turn, and whether a
fresh run is worth starting. -/
structure Policy where
  admits : (leader : Run) → (index effort : Nat) → Bool
  opens : (leader : Run) → (index : Nat) → Bool

namespace Policy

/-- A factor times a power, by repeated squaring of the base. -/
def timesPower (factor base : Float) (exponent : Nat) : Float :=
  if exponent = 0 then factor
  else timesPower (if exponent % 2 = 1 then factor * base else factor) (base * base) (exponent / 2)
termination_by exponent

/-- A power of a number; one with a negative exponent is a reciprocal. -/
def power (base : Float) : Int → Float
  | .ofNat n => timesPower 1 base n
  | .negSucc n => 1 / timesPower 1 base (n + 1)

/-- How far an index is behind a leader, as a signed number of 32 bits. -/
def distance (leader : Run) (index : Nat) : Int :=
  Int.bmod (index - leader.index : Nat) (Nat.pow 2 32)

/-- The share of a run falls by the same factor with every place behind the leader. -/
def share (gamma : Float) (leader : Run) (index : Nat) : Float :=
  (Float.ofNat leader.effort + 1) * power gamma (distance leader index)

def decay (gamma : Float) : Policy where
  admits leader index effort := decide (Float.ofNat effort < share gamma leader index + 0.5)
  opens leader index := decide (0.5 < share gamma leader index)

end Policy

structure Pool where
  start : Nat
  step : Nat
  limit : Nat
  size : Nat
  propagateUnsat : Bool
  policy : Policy
  index : Nat := 0
  runs : List Run := []
  pending : List Run := []

namespace Pool

/-- A pool with room for at least one run. -/
def make (start step limit size : Nat) (propagateUnsat : Bool) (policy : Policy) : Pool :=
  { start, step, limit, size := max size 1, propagateUnsat, policy }

def lengthAt (p : Pool) (index : Nat) : Nat :=
  addLength p.start (mulLength p.step (min index maxLength))

def freshRun (p : Pool) : Run := { index := p.index, length := p.lengthAt p.index }

/-- Starts up to so many fresh runs behind a leader. -/
def extend (leader : Run) : Nat → Pool → Pool
  | 0, p => p
  | n + 1, p =>
    if p.policy.opens leader p.index && p.freshRun.length ≤ p.limit then
      extend leader n { p with runs := p.runs ++ [p.freshRun], index := p.index + 1 }
    else p

def extendToSize (leader : Run) (p : Pool) : Pool := extend leader (p.size - p.runs.length) p

/-- Fills an empty pool; false if there is nothing left to try. -/
def refill (p : Pool) : Pool × Bool :=
  match p.pending with
  | [] =>
    let run := p.freshRun
    let p := { p with index := p.index + 1 }
    if p.limit < run.length then (p, false)
    else (extendToSize run { p with runs := [run] }, true)
  | leader :: rest =>
    if p.pending.all Run.exhausted then (p, false)
    else
      let leader := { leader with solve := true }
      let rest := rest.map fun run =>
        { run with solve := p.policy.admits leader run.index run.effort }
      (extendToSize leader { p with runs := leader :: rest, pending := [] }, true)

/-- Takes the outcome for the current run, which leaves the pool. -/
def close (p : Pool) (current : Run) : Outcome → Pool
  | .satisfiable => p
  | .unsatisfiable => if p.propagateUnsat then { p with pending := [] } else p
  | .unknown =>
    { p with
      pending := p.pending ++ [{ current with effort := current.effort + 1, exhausted := false }] }
  | .outOfMemory => { p with pending := p.pending ++ [{ current with exhausted := true }] }

/-- Moves the runs without a turn in front of the pool to the pending ones. -/
def skip (p : Pool) : Pool :=
  { p with
    runs := p.runs.dropWhile fun run => !run.solve
    pending := p.pending ++ p.runs.takeWhile fun run => !run.solve }

/-- The length of the first run; an empty pool is filled first. -/
def propose (p : Pool) : Option Nat × Pool :=
  match p.runs with
  | run :: _ => (some run.length, p)
  | [] =>
    match p.refill with
    | (p, true) => (p.runs.head?.map Run.length, p)
    | (p, false) => (none, p)

/-- The next length to try and the pool then, given the outcome for the last one; no outcome
leaves the runs as they are. -/
def next (p : Pool) : Option Outcome → Option Nat × Pool
  | none => p.propose
  | some outcome =>
    match p.runs with
    | [] => (none, p)
    | current :: rest =>
      let p := { p with runs := rest }
      match outcome with
      | .satisfiable => (none, p)
      | outcome => ((p.close current outcome).skip).propose

end Pool

end StablePlan
