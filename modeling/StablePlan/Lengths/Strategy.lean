import StablePlan.Lengths.Pool
import StablePlan.Lengths.Queue

/-!
Strategies: which length to try next, given how the last attempt ended.
-/

namespace StablePlan

inductive Strategy where
  | queue (queue : LengthQueue)
  | pool (pool : Pool)

namespace Strategy

def next : Strategy → Option Outcome → Option Nat × Strategy
  | .queue q, outcome =>
    let (length, q) := q.next outcome
    (length, .queue q)
  | .pool p, outcome =>
    let (length, p) := p.next outcome
    (length, .pool p)

end Strategy

end StablePlan
