import StablePlan.Text.Scan

/-!
Decimal numerals. A numeral is a run of ASCII digits, taken as far as it goes; a signed one may
have a minus sign in front. Numerals of fixed width are refused when the value does not fit.
-/

namespace StablePlan.Decimal

def digitValue (c : Char) : Nat := c.toNat - '0'.toNat

def value (digits : List Char) : Nat := digits.foldl (fun n c => 10 * n + digitValue c) 0

def natural (n : Nat) : List Char := (toString n).toList

def integer (n : Int) : List Char := (toString n).toList

theorem dropWhile_isDigit_length {text : List Char} (h : text.takeWhile Char.isDigit ≠ []) :
    (text.dropWhile Char.isDigit).length < text.length := by
  have h' := congrArg List.length (List.takeWhile_append_dropWhile (p := Char.isDigit) (l := text))
  have : 0 < (text.takeWhile Char.isDigit).length := List.length_pos_iff.2 h
  simp only [List.length_append] at h'
  omega

def scanNatural (text : List Char) : Option (Scan Nat text) :=
  if h : text.takeWhile Char.isDigit ≠ [] then
    some ⟨value (text.takeWhile Char.isDigit), text.dropWhile Char.isDigit,
      dropWhile_isDigit_length h⟩
  else none

def scanInteger : (text : List Char) → Option (Scan Int text)
  | '-' :: rest =>
    (scanNatural rest).map fun s =>
      ⟨-(s.value : Int), s.rest, Nat.lt_succ_of_lt s.rest_lt⟩
  | text => (scanNatural text).map (Scan.map Int.ofNat)

def fitsNat32 (n : Nat) : Bool := n < Nat.pow 2 32

def fitsInt64 (n : Int) : Bool := -Int.pow 2 63 ≤ n && n < Int.pow 2 63

/-- A text that is a natural number of so many bits and nothing else; a plus sign may precede. -/
def ofText? (bits : Nat) (text : List Char) : Option Nat :=
  let digits := match text with
    | '+' :: rest => rest
    | _ => text
  let n := value digits
  if digits.isEmpty || !digits.all Char.isDigit || Nat.pow 2 bits ≤ n then none else some n

end StablePlan.Decimal
