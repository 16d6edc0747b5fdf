import StablePlan.Symbol.Basic
import StablePlan.Text.Blank

/-!
Reading symbols. Of the four kinds of terms, the number is tried first, then the quoted text, the
name and the tuple. A name whose argument list is not closed is read as a bare name, and the list
is left to whoever reads on.
-/

namespace StablePlan.Symbol

open Text

def isNameStart (c : Char) : Bool := 'a' ≤ c && c ≤ 'z'

def isNameRest (c : Char) : Bool := c.isAlphanum || c == '_' || c == prime

theorem dropWhile_length_le (p : Char → Bool) (text : List Char) :
    (text.dropWhile p).length ≤ text.length :=
  (text.dropWhile_suffix p).length_le

/-- A name is any underscores, a lower-case letter, and letters, digits, underscores and primes. -/
def scanName : (text : List Char) → Option (Scan (List Char) text)
  | [] => none
  | c :: rest =>
    if isNameStart c then
      some ⟨c :: rest.takeWhile isNameRest, rest.dropWhile isNameRest,
        Nat.lt_succ_of_le (dropWhile_length_le isNameRest rest)⟩
    else if c = '_' then
      (scanName rest).map fun s => ⟨c :: s.value, s.rest, Nat.lt_succ_of_lt s.rest_lt⟩
    else none

/-- Numbers have 64 bits. -/
def scanNumber (text : List Char) : Option (Scan Int text) :=
  (Decimal.scanInteger text).filter fun s => Decimal.fitsInt64 s.value

/-- Further items of a list, and a rest that need not be shorter. -/
structure Tail (text : List Char) where
  items : List Symbol
  rest : List Char
  rest_le : rest.length ≤ text.length

/-- Reads the blanks and the bracket that close a list. -/
def closeList (arguments : List Symbol) {text : List Char} (rest : List Char)
    (h : rest.length ≤ text.length) : Option (Scan (List Symbol) text) :=
  match h' : skipBlanks rest with
  | ')' :: after =>
    some ⟨arguments, after, by
      have := skipBlanks_length rest
      simp only [h', List.length_cons] at this
      omega⟩
  | _ => none

mutual

def scanTerm (text : List Char) : Option (Scan Symbol text) :=
  match scanNumber text with
  | some s => some (s.map .number)
  | none =>
    match scanQuoted text with
    | some s => some (s.map fun value => .string (String.ofList value))
    | none =>
      match scanName text with
      | some s =>
        match scanArguments s.rest with
        | some t => some (s.followedBy (t.map (.function (String.ofList s.value))))
        | none => some (s.map fun name => .constant (String.ofList name))
      | none => (scanArguments text).map (Scan.map (.function ""))
termination_by (text.length, 1)
decreasing_by
  · exact Prod.Lex.left _ _ s.rest_lt
  · exact Prod.Lex.right _ (by omega)

/-- A list in brackets: terms with commas between them, blanks around each. -/
def scanArguments (text : List Char) : Option (Scan (List Symbol) text) :=
  match text with
  | '(' :: rest =>
    match scanTerm (skipBlanks rest) with
    | some s =>
      let t := scanTail s.rest
      closeList (s.value :: t.items) t.rest (by
        have := skipBlanks_length rest
        have := s.rest_lt
        have := t.rest_le
        simp only [List.length_cons]
        omega)
    | none => closeList [] rest (Nat.le_succ _)
  | _ => none
termination_by (text.length, 0)
decreasing_by
  · exact Prod.Lex.left _ _ (Nat.lt_succ_of_le (skipBlanks_length rest))
  · exact Prod.Lex.left _ _ (Nat.lt_succ_of_lt
      (Nat.lt_of_lt_of_le s.rest_lt (skipBlanks_length rest)))

/-- Commas, each with a term behind it. A comma without a term is not read. -/
def scanTail (text : List Char) : Tail text :=
  match h : skipBlanks text with
  | ',' :: rest =>
    match scanTerm (skipBlanks rest) with
    | some s =>
      let t := scanTail s.rest
      ⟨s.value :: t.items, t.rest, by
        have := skipBlanks_length text
        have := skipBlanks_length rest
        have := s.rest_lt
        have := t.rest_le
        simp only [h, List.length_cons] at *
        omega⟩
    | none => ⟨[], text, Nat.le_refl _⟩
  | _ => ⟨[], text, Nat.le_refl _⟩
termination_by (text.length, 0)
decreasing_by
  · have := skipBlanks_length text
    have := skipBlanks_length rest
    simp only [h, List.length_cons] at *
    exact Prod.Lex.left _ _ (by omega)
  · have := skipBlanks_length text
    have := skipBlanks_length rest
    have := s.rest_lt
    simp only [h, List.length_cons] at *
    exact Prod.Lex.left _ _ (by omega)

end

/-- Reads one symbol with blanks around it; nothing else may stand in the text. -/
def read? (text : List Char) : Option Symbol :=
  match scanTerm (skipBlanks text) with
  | some s => if skipBlanks s.rest = [] then some s.value else none
  | none => none

def ofString? (text : String) : Option Symbol := read? text.toList

end StablePlan.Symbol
