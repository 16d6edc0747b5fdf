/-!
Weights are integers of 64 bits. A sum that leaves the range wraps around, so in general it is the
sum of the weights only up to a multiple of `2 ^ 64`.
-/

namespace StablePlan

def minWeight : Int := -Int.pow 2 63

def maxWeight : Int := Int.pow 2 63 - 1

/-- The weight that the result of an addition or a subtraction comes out as. -/
def wrapWeight (n : Int) : Int := n.bmod (Nat.pow 2 64)

end StablePlan
