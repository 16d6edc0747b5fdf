import StablePlan.Lengths.Outcome

/-!
A round robin over a queue of lengths of fixed size. A refuted length makes room for the next one
of a growing sequence; a length without an answer goes to the end of the queue. The queue is given
up when every length in it is out of memory.
-/

namespace StablePlan

/-- How lengths grow: by a fixed step, or by a ratio and at least by one. -/
inductive Growth where
  | linear (step : Nat)
  | geometric (ratio : Float)

namespace Growth

/-- A length times the ratio, rounded up and kept in range. -/
def scale (ratio : Float) (length : Nat) : Nat :=
  let next := (Float.ofNat length * ratio).ceil
  if Float.ofNat maxLength ≤ next then maxLength else next.toUInt32.toNat

def grow : Growth → Nat → Nat
  | .linear step, length => addLength length step
  | .geometric ratio, length => max (scale ratio length) (addLength length 1)

end Growth

structure LengthQueue where
  start : Nat
  size : Nat
  growth : Growth
  limit : Nat
  propagateUnsat : Bool
  lengths : List Nat := []
  last : Nat := start
  exhausted : List Nat := []

namespace LengthQueue

/-- A queue that holds at least one length. -/
def make (start size : Nat) (growth : Growth) (limit : Nat) (propagateUnsat : Bool) :
    LengthQueue :=
  { start, size := max size 1, growth, limit, propagateUnsat }

/-- Up to `n` more lengths behind those already taken, which stand in reverse, and the last length
looked at. A length beyond the limit ends the sequence, for all that follow are beyond it too. -/
def take (growth : Growth) (limit : Nat) :
    (n : Nat) → (last : Nat) → (taken : List Nat) → List Nat × Nat
  | 0, last, taken => (taken.reverse, last)
  | n + 1, last, taken =>
    let length := growth.grow last
    if limit < length then (taken.reverse, length) else take growth limit n length (length :: taken)

/-- Starts over with the first lengths of the sequence. -/
def fill (q : LengthQueue) : LengthQueue :=
  let (lengths, last) :=
    if q.limit < q.start then ([], q.start)
    else take q.growth q.limit (q.size - 1) q.start [q.start]
  { q with lengths, last, exhausted := [] }

/-- Puts the next length of the sequence into the queue, unless that is beyond the limit. -/
def advance (q : LengthQueue) : LengthQueue :=
  let next := q.growth.grow q.last
  if next ≤ q.limit ∧ q.last < next then { q with last := next, lengths := q.lengths ++ [next] }
  else q

def dropShorter (q : LengthQueue) (length : Nat) : LengthQueue :=
  if q.propagateUnsat then { q with lengths := q.lengths.filter (length ≤ ·) } else q

/-- The next length to try and the queue then, given the outcome for the last one; no outcome
means a new start. -/
def next (q : LengthQueue) : Option Outcome → Option Nat × LengthQueue
  | none =>
    let q := q.fill
    (q.lengths.head?, q)
  | some outcome =>
    match q.lengths with
    | [] => (none, q)
    | current :: rest =>
      match outcome with
      | .satisfiable => (none, q)
      | .unsatisfiable =>
        let q := { q with lengths := rest, exhausted := q.exhausted.filter (· != current) }
        let q := (q.dropShorter current).advance
        (q.lengths.head?, q)
      | .unknown =>
        let exhausted := q.exhausted.filter (· != current)
        let q := { q with lengths := rest ++ [current], exhausted }
        (q.lengths.head?, q)
      | .outOfMemory =>
        let q := { q with lengths := rest ++ [current], exhausted := current :: q.exhausted }
        (if q.lengths.all q.exhausted.contains then none else q.lengths.head?, q)

end LengthQueue

end StablePlan
