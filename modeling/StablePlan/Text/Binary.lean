/-!
Doubles as fractions. A finite double is a whole number times a power of two, so decimal text is
written from its exact value, and read by rounding a quotient once.
-/

namespace StablePlan.Text

/-- The quotient to the nearest whole number, a half to the even one. -/
def roundDiv (num den : Nat) : Nat :=
  let q := num / den
  let twice := 2 * (num % den)
  if den < twice || (twice == den && q % 2 == 1) then q + 1 else q

/-- A finite double without its sign as `mantissa * 2 ^ (exponent - 1074)`. -/
structure Binary where
  mantissa : Nat
  exponent : Nat

namespace Binary

def ofFloat (x : Float) : Binary :=
  let bits := x.toBits.toNat % Nat.pow 2 63
  let fraction := bits % Nat.pow 2 52
  let exponent := bits / Nat.pow 2 52
  if exponent = 0 then ⟨fraction, 0⟩ else ⟨Nat.pow 2 52 + fraction, exponent - 1⟩

/-- The value times a whole number, rounded. -/
def scaled (b : Binary) (factor : Nat) : Nat :=
  roundDiv (b.mantissa * Nat.pow 2 b.exponent * factor) (Nat.pow 2 1074)

/-- The nearest value to a quotient, with a mantissa of at most 53 bits before the last carry. -/
def nearest (num den : Nat) : Binary :=
  let exponent := (num * Nat.pow 2 1074 / den).log2 - 52
  ⟨roundDiv (num * Nat.pow 2 1074) (den * Nat.pow 2 exponent), exponent⟩

def infinityBits : Nat := 2047 * Nat.pow 2 52

/-- The double itself; a value beyond the finite ones is infinite. A carry of the mantissa moves
into the exponent by itself. -/
def toFloat (b : Binary) : Float :=
  .ofBits (.ofNat (min (b.exponent * Nat.pow 2 52 + b.mantissa) infinityBits))

end Binary

end StablePlan.Text
