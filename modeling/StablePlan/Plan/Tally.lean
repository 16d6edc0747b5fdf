import StablePlan.Text.Fixed

/-!
What a plan search has counted so far. Memory is in megabytes, durations are in microseconds.
-/

namespace StablePlan

structure Tally where
  iterations : Nat := 0
  solves : Nat := 0
  steps : Nat := 0
  rules : Nat := 0
  rejected : Nat := 0
  outOfMemory : Nat := 0
  memory : Nat := 0
  grounding : Nat := 0
  solving : Nat := 0
  deriving DecidableEq, Inhabited

namespace Tally

/-- A duration in seconds: the whole seconds and the rest are doubles that are added. -/
def seconds (microseconds : Nat) : Float :=
  Float.ofNat (microseconds / 1000000) +
    Float.ofNat (microseconds % 1000000 * 1000) / Float.ofNat 1000000000

def secondsText (microseconds : Nat) : String := Text.fixed 3 (seconds microseconds) ++ "s"

def lines (t : Tally) : List String := [
  "Iterations   : " ++ toString t.iterations,
  "Solve calls  : " ++ toString t.solves,
  "Steps        : " ++ toString t.steps,
  "Rules        : " ++ toString t.rules,
  "Rejected     : " ++ toString t.rejected,
  "Out of memory: " ++ toString t.outOfMemory,
  "Memory       : " ++ toString t.memory ++ "MB",
  "Grounding    : " ++ secondsText t.grounding,
  "Solving      : " ++ secondsText t.solving]

def text (t : Tally) : String := "\n".intercalate t.lines

end Tally

end StablePlan
