import StablePlan.ReadError
import StablePlan.Symbol.Reader

/-!
Files of facts: terms that each end in a full stop, with blanks and comments between them. A
comment runs from a percent sign to the end of its line; a carriage return inside a line makes
the percent sign an error.
-/

namespace StablePlan.Symbol

open Text

/-- The text from the end of the line on, unless a carriage return stands inside the line. -/
def skipComment : List Char → Option (List Char)
  | [] => some []
  | '\n' :: rest => some ('\n' :: rest)
  | '\r' :: '\n' :: rest => some ('\r' :: '\n' :: rest)
  | '\r' :: _ => none
  | _ :: rest => skipComment rest

theorem skipComment_length {text after : List Char} (h : skipComment text = some after) :
    after.length ≤ text.length := by
  fun_induction skipComment text with
  | case1 => simp_all
  | case2 => simp_all
  | case3 => simp_all
  | case4 => simp at h
  | case5 _ _ _ _ _ ih => exact Nat.le_succ_of_le (ih h)

def skipComments (text : List Char) : List Char :=
  match h : skipBlanks text with
  | '%' :: rest =>
    match h' : skipComment rest with
    | some after =>
      have : after.length < text.length := by
        have := skipBlanks_length text
        have := skipComment_length h'
        simp only [h, List.length_cons] at *
        omega
      skipComments after
    | none => '%' :: rest
  | other => other
termination_by text.length

theorem skipComments_length (text : List Char) :
    (skipComments text).length ≤ text.length := by
  fun_induction skipComments text with
  | case1 text rest h after h' ih =>
    have := skipBlanks_length text
    have := skipComment_length h'
    simp only [h, List.length_cons] at *
    omega
  | case2 text rest h h' =>
    have := skipBlanks_length text
    simp only [h] at this
    exact this
  | case3 text _ => exact skipBlanks_length text

/-- Reads one term and its full stop. -/
def scanFact (text : List Char) : Option (Scan Symbol text) :=
  match scanTerm (skipComments text) with
  | some s =>
    match h : skipBlanks s.rest with
    | '.' :: rest =>
      some ⟨s.value, rest, by
        have := skipComments_length text
        have := skipBlanks_length s.rest
        have := s.rest_lt
        simp only [h, List.length_cons] at *
        omega⟩
    | _ => none
  | none => none

/-- Reads facts as long as there are any. -/
def scanFacts (text : List Char) : List Symbol × List Char :=
  match scanFact text with
  | some s =>
    let (facts, rest) := scanFacts s.rest
    (s.value :: facts, rest)
  | none => ([], text)
termination_by text.length
decreasing_by exact s.rest_lt

/-- The facts of a text that holds nothing else. The error shows the first line of what could not
be read. -/
def readFacts (text : List Char) : Except ReadError (List Symbol) :=
  let (facts, rest) := scanFacts text
  match skipComments rest with
  | [] => .ok facts
  | left => .error (.symbol (String.ofList (firstLine left)))

end StablePlan.Symbol
