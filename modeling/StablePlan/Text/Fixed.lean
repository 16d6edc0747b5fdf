import StablePlan.Text.Binary

/-!
Doubles in decimal with a fixed number of places. The value of a double is taken exactly, and what
is cut off is rounded to the nearest, a half to the even neighbour.
-/

namespace StablePlan.Text

/-- A whole number of units of the last place, with the point put in. -/
def placed (places units : Nat) : String :=
  let fraction := toString (units % Nat.pow 10 places)
  let zeros := String.ofList (List.replicate (places - fraction.length) '0')
  toString (units / Nat.pow 10 places) ++ "." ++ zeros ++ fraction

/-- The written form of a double that is finite and not negative. -/
def fixed (places : Nat) (x : Float) : String :=
  placed places ((Binary.ofFloat x).scaled (Nat.pow 10 places))

end StablePlan.Text
