import StablePlan.CommandLine.Session

/-!
Reports: all that a run prints, and how it ends, given the files it may read. No time passes in a
reported run.
-/

namespace StablePlan

/-- The files that a run may read; a text that cannot be read has a cause instead. -/
structure Files where
  standardInput : Except String String
  file : String → Except String String

def Files.read (files : Files) : Source → Except String String
  | .standardInput => files.standardInput
  | .file name => files.file name

/-- Standard input is empty once it has been read. -/
def Files.afterReading (files : Files) : Source → Files
  | .standardInput => { files with standardInput := .ok "" }
  | .file _ => files

def Files.inputs (files : Files) (inv : Invocation) : Inputs where
  program := files.read inv.program
  actions := match inv.actionSource? with
    | some source => (files.afterReading inv.program).read source
    | none => .ok ""

/-- How a run ended, and the lines it printed. It has no ending if it was stopped before. -/
structure Report where
  ending : Option Ending
  lines : Array Line

namespace Report

/-- Makes up to so many steps and closes the session. -/
def finish : (steps : Nat) → Session → Stage (Option Ending)
  | 0, _ => return none
  | steps + 1, s =>
    match s.phase with
    | .closed ending => do
      (s.closing 0).forM Stage.say
      return some ending
    | _ => do finish steps (← s.step)

def run (files : Files) (readings : List Nat) (steps : Nat) (arguments : List String) :
    Stage (Option Ending) := do
  Stage.say (.result versionLine)
  match ← Stage.ofExcept .usage (Invocation.ofArguments arguments) with
  | none =>
    Stage.say (.result usage)
    return some .help
  | some inv => finish steps (← Session.start inv (files.inputs inv) readings)

def errorLine (e : SessionError) : Line := .message ("*** ERROR: " ++ e.message)

/-- Runs with the given arguments, for so many steps at most. -/
def ofRun (files : Files) (readings : List Nat) (steps : Nat) (arguments : List String) : Report :=
  match (run files readings steps arguments).run #[] with
  | (.ok ending, lines) => ⟨ending, lines⟩
  | (.error e, lines) => ⟨some (.failed e), lines.push (errorLine e)⟩

end Report

end StablePlan
