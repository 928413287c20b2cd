/-!
# Ratios

* `Ratio` : a numerator and a denominator, not reduced;
* `Ratio.scale r base e` : `r * base ^ e`, for an exponent of either sign;
* `Ratio.floor`, `Ratio.halfUp`, `Ratio.halfEven` : the integer part, and the nearest integer with
  halves taken up or to the even neighbour.
-/

namespace RowStore

/-- A ratio of natural numbers.  None that is made here has denominator zero. -/
structure Ratio where
  num : Nat
  den : Nat := 1
deriving DecidableEq

namespace Ratio

/-- The ratio times a power of `base`. -/
def scale (r : Ratio) (base : Nat) (exponent : Int) : Ratio :=
  ⟨r.num * Nat.pow base exponent.toNat, r.den * Nat.pow base (-exponent).toNat⟩

def reachesOne (r : Ratio) : Bool := r.den ≤ r.num

def floor (r : Ratio) : Nat := r.num / r.den

def halfUp (r : Ratio) : Nat := (2 * r.num + r.den) / (2 * r.den)

def halfEven (r : Ratio) : Nat :=
  let twice := 2 * (r.num % r.den)
  if twice < r.den then r.floor
  else if r.den < twice then r.floor + 1
  else r.floor + r.floor % 2

end Ratio

end RowStore
