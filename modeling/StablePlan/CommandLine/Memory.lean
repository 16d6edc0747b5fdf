import StablePlan.Text.Blank
import StablePlan.Text.Decimal

/-!
The memory that a process takes up, as the status of the process states it in a line such as
`VmSize:  9999 kB`.
-/

namespace StablePlan

/-- The words of a line. -/
def words (line : List Char) : List String :=
  ((line.map fun c => if Text.isWhiteSpace c then ' ' else c).splitOn ' ').filterMap fun word =>
    if word.isEmpty then none else some (String.ofList word)

def sizeLabel : String := "VmSize:"

/-- The megabytes that a status states. -/
def megabytes? (status : String) : Option Nat := do
  let line ← (Text.lines status.toList).find? (sizeLabel.toList.isPrefixOf ·)
  match (words line).drop 1 with
  | number :: unit :: _ =>
    let n ← Decimal.ofText? 64 number.toList
    if unit = "kB" || unit = "KB" then some (n / 1024)
    else if unit = "mB" || unit = "MB" then some n
    else none
  | _ => none

end StablePlan
