import RowStore.Binary64.Basic

/-!
# The shortest decimal of a floating-point number

* `Decimal` : a number `digits * 10 ^ exponent`;
* `rounds x d` : `d` is nearest to `x` among all floating-point numbers;
* `shortest x` : of the decimals that round to `x`, one with fewest digits, of those the nearest to
  `x`, of two equally near the larger.

A grid of `n` digits holds a decimal that rounds to `x` only if one of the two neighbours of `x` on
that grid does, so `shortest` tries these two for `n = 1, 2, …, 17`; seventeen digits always do.
-/

namespace RowStore.Binary64

/-- The number `digits * 10 ^ exponent`. -/
structure Decimal where
  /-- The digits, as an integer. -/
  digits : Nat
  /-- The power of ten of the last digit. -/
  exponent : Int
deriving DecidableEq

/-- The ratio of a decimal to a quarter of the number's unit `2 ^ scale`. -/
def quarters (x : Binary64) (d : Decimal) : Ratio :=
  (Ratio.scale { num := d.digits } 10 d.exponent).scale 2 (2 - x.scale)

/-- Quarter units from a finite number down to the end of the reals that round to it: half a unit,
but a quarter where the numbers below lie twice as dense. -/
def reachBelow (x : Binary64) : Nat :=
  if x.fractionField = 0 ∧ 1 < x.exponentField then 1 else 2

/-- The decimal rounds to the finite positive number.  The ends of the interval round to it if and
only if its significand is even. -/
def rounds (x : Binary64) (d : Decimal) : Bool :=
  let r := x.quarters d
  let low := (4 * x.significand - x.reachBelow) * r.den
  let high := (4 * x.significand + 2) * r.den
  if x.significand % 2 = 0 then low ≤ r.num && r.num ≤ high else low < r.num && r.num < high

/-- The exponent `k` with `10 ^ k ≤ x < 10 ^ (k + 1)`, for a finite positive number. -/
def decimalExponent (x : Binary64) : Int :=
  let r := x.ratio
  let estimate : Int := ((Nat.toDigits 10 r.num).length : Int) - (Nat.toDigits 10 r.den).length
  if (r.scale 10 (-estimate)).reachesOne then estimate else estimate - 1

/-- The neighbour below, or at, a finite positive number on the grid of multiples of
`10 ^ exponent`. -/
def gridBelow (x : Binary64) (exponent : Int) : Decimal :=
  ⟨(x.ratio.scale 10 (-exponent)).floor, exponent⟩

/-- The number lies strictly nearer to the grid point than to the next one above. -/
def nearerBelow (x : Binary64) (d : Decimal) : Bool :=
  let r := x.quarters ⟨2 * d.digits + 1, d.exponent⟩
  8 * x.significand * r.den < r.num

/-- The decimal on the grid of multiples of `10 ^ exponent` that rounds to the number, if there is
one: the nearest, of two equally near the larger. -/
def onGrid? (x : Binary64) (exponent : Int) : Option Decimal :=
  let below := x.gridBelow exponent
  let above : Decimal := ⟨below.digits + 1, exponent⟩
  match x.rounds below, x.rounds above with
  | true, true => some (if x.nearerBelow below then below else above)
  | true, false => some below
  | false, true => some above
  | false, false => none

def shortest (x : Binary64) : Decimal :=
  let k := x.decimalExponent
  let grids := (List.range 17).map fun (n : Nat) => k - n
  (grids.findSome? x.onGrid?).getD (x.gridBelow (k - 16))

end RowStore.Binary64
