import StablePlan.Lengths.Strategy
import StablePlan.Stable.Search
import StablePlan.Symbol.Basic

/-!
Settings of a plan search and their defaults.
-/

namespace StablePlan

/-- Which lengths to try: a queue of so many lengths with a fixed step, a pool of runs whose share
decays by a factor, or a queue of lengths that grow by a ratio. -/
inductive Algorithm where
  | linear (size : Nat)
  | effort (gamma : Float)
  | geometric (ratio : Float)

/-- How often a rejected plan is solved again before the length is given up. -/
inductive Retry where
  | once
  | untilUnsatisfiable (max : Nat)
  deriving DecidableEq, Inhabited

def Retry.attempts : Retry → Nat
  | .once => 1
  | .untilUnsatisfiable max => max

/-- `processes` is the size of the pool and of the growing queue; the memory limit and the first
estimate of what a step costs are in megabytes. -/
structure Settings where
  algorithm : Algorithm := .effort 0.9
  processes : Nat := 20
  step : Nat := 5
  start : Nat := 0
  limit : Nat := 3000
  propagateUnsat : Bool := true
  decisionsPerRestart : Nat := 60
  restartsPerSolve : Nat := 100
  timeLimit : Option Nat := none
  memoryLimit : Option Nat := none
  stepMemory : Nat := 0
  query : Symbol := .constant "query"
  skip : Symbol := .constant "skip"
  retry : Retry := .once

namespace Settings

def strategy (s : Settings) : Strategy :=
  match s.algorithm with
  | .linear size =>
    .queue (.make s.start size (.linear s.step) s.limit s.propagateUnsat)
  | .effort gamma =>
    .pool (.make s.start s.step s.limit s.processes s.propagateUnsat (.decay gamma))
  | .geometric ratio =>
    .queue (.make s.start s.processes (.geometric ratio) s.limit s.propagateUnsat)

/-- The largest number of 64 bits. -/
def maxCount : Nat := Nat.pow 2 64 - 1

/-- The decisions of one solve call, without bound if either factor is zero. -/
def decisions (s : Settings) : Option Nat :=
  if s.decisionsPerRestart = 0 || s.restartsPerSolve = 0 then none
  else some (min (s.decisionsPerRestart * s.restartsPerSolve) maxCount)

def solveLimit (s : Settings) : Limit := ⟨s.decisions, s.timeLimit⟩

end Settings

end StablePlan
