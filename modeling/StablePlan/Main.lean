import StablePlan.CommandLine.Memory
import StablePlan.CommandLine.Report

/-!
The program: reads the files that an invocation names, drives the session, prints its lines as
they come, and measures time and memory.
-/

namespace StablePlan.Program

def print : Line → IO Unit
  | .result text => IO.println text
  | .message text => IO.eprintln text

/-- The cause of a failed system call, with its number. -/
def causeText (details : String) (code : UInt32) : String :=
  let number := if code.toNat < Nat.pow 2 31 then code.toNat else Nat.pow 2 32 - code.toNat
  details.capitalize ++ " (os error " ++ toString number ++ ")"

def cause : IO.Error → String
  | .noFileOrDirectory _ code details => causeText details code
  | .permissionDenied _ code details => causeText details code
  | .inappropriateType _ code details => causeText details code
  | .invalidArgument _ code details => causeText details code
  | e => toString e

partial def readToEnd (stream : IO.FS.Stream) (read : ByteArray) : IO ByteArray := do
  let more ← stream.read 65536
  if more.isEmpty then return read else readToEnd stream (read ++ more)

def readSource (source : Source) : IO (Except String String) := do
  try
    let bytes ← match source with
      | .standardInput => readToEnd (← IO.getStdin) .empty
      | .file name => IO.FS.readBinFile name
    return match String.fromUTF8? bytes with
      | some text => .ok text
      | none => .error "stream did not contain valid UTF-8"
  catch e => return .error (cause e)

/-- The memory in use, or nothing where it cannot be told. -/
def readMemory : IO Nat := do
  try return (megabytes? (← IO.FS.readFile "/proc/self/status")).getD 0
  catch _ => return 0

def fail (e : SessionError) : IO UInt32 := do
  print (Report.errorLine e)
  return (Ending.failed e).code.toUInt32

/-- Runs a stage and prints its lines. -/
def perform {α : Type} (stage : Unit → Stage α) : IO (Except SessionError α) := do
  let (result, lines) ← IO.lazyPure fun _ => (stage ()).run #[]
  lines.forM print
  return result

partial def drive (begun : Nat) (s : Session) : IO UInt32 := do
  match s.phase with
  | .closed ending =>
    let now ← IO.monoNanosNow
    (s.closing ((now - begun) / 1000)).forM print
    return ending.code.toUInt32
  | _ =>
    let before ← readMemory
    let set ← IO.monoNanosNow
    match ← perform fun _ => (s.withReading before).step with
    | .error e => fail e
    | .ok next =>
      let done ← IO.monoNanosNow
      drive begun (s.charge next ⟨(done - set) / 1000, before, ← readMemory⟩)

def invoke (begun : Nat) (inv : Invocation) : IO UInt32 := do
  if inv.program = .standardInput && (← (← IO.getStdin).isTty) && (← (← IO.getStdout).isTty) then
    IO.println "Reading aspif from stdin, terminated with Ctrl-D."
  let program ← readSource inv.program
  let actions ← match inv.actionSource? with
    | some source => readSource source
    | none => pure (.ok "")
  match ← perform fun _ => Session.start inv ⟨program, actions⟩ [] with
  | .error e => fail e
  | .ok s => drive begun s

end StablePlan.Program

def main (arguments : List String) : IO UInt32 := do
  let begun ← IO.monoNanosNow
  IO.println StablePlan.versionLine
  match StablePlan.Invocation.ofArguments arguments with
  | .error e => StablePlan.Program.fail (.usage e)
  | .ok none =>
    IO.println StablePlan.usage
    return 0
  | .ok (some inv) => StablePlan.Program.invoke begun inv
