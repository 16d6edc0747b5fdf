import StablePlan.Program.Statement
import StablePlan.ReadError
import StablePlan.Symbol.Reader

/-!
The line format of ground programs. A header line comes first, then one statement a line: rules,
outputs, externals and comments, up to a line that starts with the number zero. Lines lose the
white space at their end, and lines that are then empty do not count, though they keep their
number.
-/

namespace StablePlan.Aspif

open Text

def readNatural (text : List Char) : Option (Nat × List Char) :=
  match Decimal.scanNatural (skipGaps text) with
  | some s => if Decimal.fitsNat32 s.value then some s.toPair else none
  | none => none

def readInteger (text : List Char) : Option (Int × List Char) :=
  (Decimal.scanInteger (skipGaps text)).map Scan.toPair

def readAtom (text : List Char) : Option (Nat × List Char) :=
  (readNatural text).filter fun r => r.1 ≤ maxAtom

def readLiteral (text : List Char) : Option (Literal × List Char) := do
  let (raw, text) ← readInteger text
  if raw.natAbs ≤ maxAtom then some (⟨raw⟩, text) else none

def readWeight (text : List Char) : Option (Int × List Char) :=
  (readInteger text).filter fun r => Decimal.fitsInt64 r.1

def readElement (text : List Char) : Option ((Literal × Int) × List Char) := do
  let (literal, text) ← readLiteral text
  let (weight, text) ← readWeight text
  some ((literal, weight), text)

variable {α : Type}

def readMany (read : List Char → Option (α × List Char)) :
    Nat → List Char → Option (List α × List Char)
  | 0, text => some ([], text)
  | n + 1, text => do
    let (x, text) ← read text
    let (xs, text) ← readMany read n text
    some (x :: xs, text)

/-- Reads a count and then as many items. -/
def readCounted (read : List Char → Option (α × List Char)) (text : List Char) :
    Option (List α × List Char) := do
  let (n, text) ← readNatural text
  readMany read n text

def headKind? : Nat → Option Bool
  | 0 => some false
  | 1 => some true
  | _ => none

def readRule (text : List Char) : Option (Statement × List Char) := do
  let (headKind, text) ← readNatural text
  let choice ← headKind? headKind
  let (head, text) ← readCounted readAtom text
  let (bodyKind, text) ← readNatural text
  match bodyKind with
  | 0 =>
    let (body, text) ← readCounted readLiteral text
    some (.rule ⟨choice, head, body⟩, text)
  | 1 =>
    let (lower, text) ← readWeight text
    let (body, text) ← readCounted readElement text
    some (.weightRule ⟨choice, head, lower, body⟩, text)
  | _ => none

/-- Splits a text after so many bytes; none if that is inside a character or beyond the end. -/
def splitBytes : Nat → List Char → Option (List Char × List Char)
  | 0, text => some ([], text)
  | _ + 1, [] => none
  | n + 1, c :: text =>
    if c.utf8Size ≤ n + 1 then do
      let (before, after) ← splitBytes (n + 1 - c.utf8Size) text
      some (c :: before, after)
    else none
termination_by _ text => text.length

/-- The length of the symbol in bytes, one blank, the symbol, and the literals under which it is
shown. -/
def readOutput (text : List Char) : Option (Statement × List Char) := do
  let (length, text) ← readNatural text
  match text with
  | ' ' :: text =>
    let (label, text) ← splitBytes length text
    let symbol ← Symbol.read? label
    let (condition, text) ← readCounted readLiteral text
    some (.output symbol condition, text)
  | _ => none

def externalValue? : Nat → Option ExternalValue
  | 0 => some .free
  | 1 => some .on
  | 2 => some .off
  | 3 => some .release
  | _ => none

def readExternal (text : List Char) : Option (Statement × List Char) := do
  let (atom, text) ← readAtom text
  let (value, text) ← readNatural text
  let value ← externalValue? value
  some (.external atom value, text)

/-- The header names the format, version 1, two more numbers, and anything behind a gap that
holds no carriage return. -/
def isHeader : List Char → Bool
  | 'a' :: 's' :: 'p' :: text =>
    match text with
    | c :: _ =>
      isGap c &&
        match skipGaps text with
        | '1' :: text =>
          match (do let (_, text) ← readNatural text; readNatural text) with
          | some (_, []) => true
          | some (_, c :: rest) => isGap c && !rest.contains '\r'
          | none => false
        | _ => false
    | [] => false
  | _ => false

/-- What one line of a program says. -/
inductive Line where
  | stop
  | comment
  | statement (statement : Statement)

def readLine (number : Nat) (text : List Char) : Except ReadError Line :=
  let malformed := .error (.malformed number (String.ofList text))
  let complete : Option (Statement × List Char) → Except ReadError Line
    | some (statement, []) => .ok (.statement statement)
    | _ => malformed
  match readNatural text with
  | none => malformed
  | some (kind, rest) =>
    match kind with
    | 0 => .ok .stop
    | 1 => complete (readRule rest)
    | 4 => complete (readOutput rest)
    | 5 => complete (readExternal rest)
    | 10 => .ok .comment
    | kind => .error (.unsupported number kind)

def readLines : List (Nat × List Char) → Except ReadError (List Statement)
  | [] => .ok []
  | (number, text) :: rest =>
    match readLine number text with
    | .error e => .error e
    | .ok .stop => .ok []
    | .ok .comment => readLines rest
    | .ok (.statement statement) =>
      match readLines rest with
      | .ok statements => .ok (statement :: statements)
      | .error e => .error e

/-- The lines that count, each with its number in the text. -/
def numberedLines (text : List Char) : List (Nat × List Char) :=
  ((lines text).mapIdx fun i line => (i + 1, trimEnd line)).filter fun line => !line.2.isEmpty

/-- Reads the statements of a program, in order. -/
def read (text : String) : Except ReadError (List Statement) :=
  match numberedLines text.toList with
  | (_, first) :: rest => if isHeader first then readLines rest else .error .header
  | [] => .error .header

end StablePlan.Aspif
