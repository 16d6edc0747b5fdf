import StablePlan.Text.Binary
import StablePlan.Text.Decimal

/-!
Floating-point numerals: an optional sign, then digits with an optional point among or beside them
and an optional exponent, or the name of infinity or of what is no number. The whole text has to be
the numeral, and its value is the nearest double.
-/

namespace StablePlan.Floating

/-- The value `digits * 10 ^ exponent`. Far outside the range of doubles only the magnitude
counts, so large exponents cost nothing. -/
def ofDecimal (digits : Nat) (exponent : Int) : Float :=
  let magnitude := exponent + (toString digits).length
  if digits = 0 || magnitude < -330 then (Text.Binary.mk 0 0).toFloat
  else if 310 < magnitude then (Text.Binary.mk Text.Binary.infinityBits 0).toFloat
  else if 0 ≤ exponent then (Text.Binary.nearest (digits * Nat.pow 10 exponent.toNat) 1).toFloat
  else (Text.Binary.nearest digits (Nat.pow 10 (-exponent).toNat)).toFloat

/-- Takes the sign off; true if it is a minus. -/
def splitSign : List Char → Bool × List Char
  | '-' :: rest => (true, rest)
  | '+' :: rest => (false, rest)
  | text => (false, text)

/-- An exponent with its mark, or nothing at all. -/
def exponent? : List Char → Option Int
  | [] => some 0
  | c :: rest =>
    let (negative, digits) := splitSign rest
    if (c == 'e' || c == 'E') && !digits.isEmpty && digits.all Char.isDigit then
      some (if negative then -(Decimal.value digits : Int) else Decimal.value digits)
    else none

/-- The digits behind the point, if there is one, and the rest. -/
def splitFraction : List Char → List Char × List Char
  | '.' :: rest => (rest.takeWhile Char.isDigit, rest.dropWhile Char.isDigit)
  | text => ([], text)

/-- A numeral without a sign. -/
def magnitude? (text : List Char) : Option Float :=
  let whole := text.takeWhile Char.isDigit
  let (fraction, rest) := splitFraction (text.dropWhile Char.isDigit)
  let digits := whole ++ fraction
  if digits.isEmpty then none
  else (exponent? rest).map fun e => ofDecimal (Decimal.value digits) (e - fraction.length)

def named? (text : List Char) : Option Float :=
  let name := String.ofList (text.map Char.toLower)
  if name = "inf" || name = "infinity" then some (1.0 / 0.0)
  else if name = "nan" then some (0.0 / 0.0)
  else none

def read? (text : List Char) : Option Float :=
  let (negative, text) := splitSign text
  ((named? text).or (magnitude? text)).map fun x => if negative then -x else x

end StablePlan.Floating
