import StablePlan.CommandLine.Usage
import StablePlan.Plan.Settings
import StablePlan.ReadError
import StablePlan.Serial.Verdict
import StablePlan.Symbol.Reader
import StablePlan.Text.Floating
import StablePlan.Text.Quoted

/-!
Invocations: what the arguments of a run ask for. Arguments are taken from left to right and the
first fault ends the reading, as a request for help does. A value is joined to a long option by an
equals sign, or else is the next argument, whatever it looks like.
-/

namespace StablePlan

inductive UsageError where
  | missingValue (option : String)
  | notANumber (option value : String)
  | notADuration
  | outputFormat
  | symbol (text : String)
  | unknownOption (option : String)
  | secondFile
  | secondAlgorithm
  deriving DecidableEq

def UsageError.message : UsageError → String
  | .missingValue option => option ++ " expects a value"
  | .notANumber option value =>
    option ++ " expects a number, not " ++ String.ofList (Text.quote value.toList)
  | .notADuration => "a time limit is at least 0 and below 2^64 seconds"
  | .outputFormat => "--outf must be 0 or 1"
  | .symbol text => "Parsing symbol " ++ text ++ ": " ++ (ReadError.symbol text).message
  | .unknownOption option => "unknown option " ++ option ++ "\n\n" ++ usage
  | .secondFile => "only one input file is supported"
  | .secondAlgorithm => "please choose only one scheduler: A, B, or C"

/-- Where a text comes from. -/
inductive Source where
  | standardInput
  | file (name : String)
  deriving DecidableEq, Inhabited

def Source.named (name : String) : Source := if name = "-" then .standardInput else .file name

/-- Where the descriptions of actions come from: the facts of the template or a text. -/
inductive ActionSource where
  | template
  | text (source : Source)
  deriving DecidableEq, Inhabited

structure Invocation where
  settings : Settings := {}
  algorithms : List Algorithm := []
  program : Source := .standardInput
  test : Option ActionSource := none
  block : BlockMode := .model
  competition : Bool := false
  statistics : Bool := false
  verbose : Bool := false

/-- Reads the number of an option. -/
def readNumber (bits : Nat) (option value : String) : Except UsageError Nat :=
  match Decimal.ofText? bits value.toList with
  | some n => .ok n
  | none => .error (.notANumber option value)

def readFloat (option value : String) : Except UsageError Float :=
  match Floating.read? value.toList with
  | some x => .ok x
  | none => .error (.notANumber option value)

/-- Seconds in nanoseconds, to the nearest one. There are at most `2 ^ 64 - 1` whole seconds. -/
def nanoseconds? (seconds : Float) : Option Nat :=
  if 0 ≤ seconds && seconds < Float.ofNat (Nat.pow 2 64) then
    some ((Text.Binary.ofFloat seconds).scaled (Nat.pow 10 9))
  else none

def readDuration (option value : String) : Except UsageError Nat := do
  let seconds ← readFloat option value
  match nanoseconds? seconds with
  | some n => .ok n
  | none => .error .notADuration

def readSymbol (value : String) : Except UsageError Symbol :=
  match Symbol.ofString? value with
  | some symbol => .ok symbol
  | none => .error (.symbol value)

namespace Invocation

abbrev Change := Invocation → Invocation

def set (change : Settings → Settings) : Change := fun inv =>
  { inv with settings := change inv.settings }

def choose (algorithm : Algorithm) : Change := fun inv =>
  { inv with algorithms := inv.algorithms ++ [algorithm] }

/-- The change that an option without a value makes. A test may name a file behind an equals
sign. -/
def flag? (option : String) (joined : Option String) : Option Change :=
  match option with
  | "-v" | "--verbose" => some fun inv => { inv with verbose := true }
  | "--stats" => some fun inv => { inv with statistics := true }
  | "--keep-after-unsat" => some (set fun s => { s with propagateUnsat := false })
  | "--test" =>
    let source := match joined with
      | some name => ActionSource.text (.named name)
      | none => .template
    some fun inv => { inv with test := some source }
  | "--test-once" => some (set fun s => { s with retry := .once })
  | "--test-until-not-sat" =>
    some (set fun s => { s with retry := .untilUnsatisfiable Settings.maxCount })
  | "--test-minimal" => some fun inv => { inv with block := .minimal }
  | "-" => some fun inv => { inv with program := .standardInput }
  | _ => none

def readFormat (option value : String) : Except UsageError Change := do
  let n ← readNumber 8 option value
  if 1 < n then .error .outputFormat else .ok fun inv => { inv with competition := n == 1 }

/-- The reader of the value that an option expects. -/
def valued? (option : String) : Option (String → Except UsageError Change) :=
  let number (bits : Nat) (change : Nat → Settings → Settings) (value : String) :=
    (readNumber bits option value).map fun n => set (change n)
  match option with
  | "--outf" => some (readFormat option)
  | "-A" => some fun value => (readNumber 64 option value).map fun n => choose (.linear n)
  | "-B" => some fun value => (readFloat option value).map fun x => choose (.effort x)
  | "-C" => some fun value => (readFloat option value).map fun x => choose (.geometric x)
  | "-M" => some (number 64 fun n s => { s with processes := n })
  | "-S" => some (number 32 fun n s => { s with step := n })
  | "-F" => some (number 32 fun n s => { s with start := n })
  | "-T" => some (number 32 fun n s => { s with limit := n })
  | "-i" => some (number 64 fun n s => { s with decisionsPerRestart := n })
  | "-r" => some (number 64 fun n s => { s with restartsPerSolve := n })
  | "--time-limit" => some fun value =>
    (readDuration option value).map fun n => set fun s => { s with timeLimit := some n }
  | "--memory-limit" => some (number 64 fun n s => { s with memoryLimit := some n })
  | "--query" => some fun value =>
    (readSymbol value).map fun symbol => set fun s => { s with query := symbol }
  | "--skip" => some fun value =>
    (readSymbol value).map fun symbol => set fun s => { s with skip := symbol }
  | _ => none

/-- Splits a long option from the value that is joined to it. -/
def splitOption (argument : String) : String × Option String :=
  let text := argument.toList
  match text.dropWhile (· != '=') with
  | _ :: value =>
    if text.take 2 = ['-', '-'] then
      (String.ofList (text.takeWhile (· != '=')), some (String.ofList value))
    else (argument, none)
  | [] => (argument, none)

def isHelp (option : String) : Bool := option == "-h" || option == "--help"

/-- Takes an argument that is no known option. -/
def takeFile (inv : Invocation) (option argument : String) : Except UsageError Invocation :=
  if option.toList.head? = some '-' then .error (.unknownOption option)
  else if inv.program = .standardInput then .ok { inv with program := .file argument }
  else .error .secondFile

/-- Settles which algorithm is used. -/
def settle (inv : Invocation) : Except UsageError Invocation :=
  match inv.algorithms with
  | [] => .ok inv
  | [algorithm] => .ok (set (fun s => { s with algorithm }) inv)
  | _ => .error .secondAlgorithm

/-- Reads the arguments behind an invocation; none if help is asked for. -/
def readFrom (inv : Invocation) : List String → Except UsageError (Option Invocation)
  | [] => inv.settle.map some
  | argument :: rest =>
    let (option, joined) := splitOption argument
    if isHelp option then .ok none
    else
      match flag? option joined, valued? option with
      | some change, _ => readFrom (change inv) rest
      | none, some read =>
        match joined with
        | some value => do
          let change ← read value
          readFrom (change inv) rest
        | none =>
          match rest with
          | [] => .error (.missingValue option)
          | value :: rest => do
            let change ← read value
            readFrom (change inv) rest
      | none, none => do
        let inv ← takeFile inv option argument
        readFrom inv rest
  termination_by structural arguments => arguments

def ofArguments (arguments : List String) : Except UsageError (Option Invocation) :=
  readFrom {} arguments

end Invocation

end StablePlan
