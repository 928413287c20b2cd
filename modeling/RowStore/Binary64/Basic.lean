import RowStore.Ratio

/-!
# Binary floating-point numbers of 64 bits

A number is its word: a sign, an exponent field of 11 bits and a fraction field of 52.  All
arithmetic here is exact on integers and rounds once, to nearest, ties to even.

* `significand`, `scale` : a finite number is `± significand * 2 ^ scale`;
* `nearest r` : the magnitude nearest to the ratio `r`;
* `ofInt`, `ofDecimal` : the number nearest to an integer or to a decimal;
* `add` : the sum;
* `round?` : the nearest integer, halves away from zero;
* `compare` : the total order, in which `-0.0` is below `0.0` and the signed NaNs stand at the ends.
-/

namespace RowStore

/-- A 64-bit floating-point number, given by its bits. -/
structure Binary64 where
  /-- The word: sign, exponent, fraction. -/
  bits : UInt64
deriving DecidableEq

namespace Binary64

/-- The weight of the sign bit, `2 ^ 63`. -/
def signWeight : Nat := 0x8000000000000000

/-- The weight of the lowest exponent bit, `2 ^ 52`. -/
def exponentWeight : Nat := 0x10000000000000

def infinityMagnitude : Nat := 0x7ff0000000000000

/-- The weight of the highest fraction bit, which a quiet NaN has, `2 ^ 51`. -/
def quietWeight : Nat := 0x8000000000000

def isNegative (x : Binary64) : Bool := signWeight ≤ x.bits.toNat

def magnitude (x : Binary64) : Nat := x.bits.toNat % signWeight

def exponentField (x : Binary64) : Nat := x.magnitude / exponentWeight

def fractionField (x : Binary64) : Nat := x.magnitude % exponentWeight

def ofMagnitude (negative : Bool) (magnitude : Nat) : Binary64 :=
  ⟨UInt64.ofNat (magnitude + if negative then signWeight else 0)⟩

def isFinite (x : Binary64) : Bool := x.magnitude < infinityMagnitude

def isInfinite (x : Binary64) : Bool := x.magnitude == infinityMagnitude

def isNaN (x : Binary64) : Bool := infinityMagnitude < x.magnitude

def isZero (x : Binary64) : Bool := x.magnitude == 0

def infinity (negative : Bool) : Binary64 := ofMagnitude negative infinityMagnitude

def zero (negative : Bool) : Binary64 := ofMagnitude negative 0

def nan (negative : Bool) : Binary64 := ofMagnitude negative (infinityMagnitude + quietWeight)

/-- The integer part of a finite number's `significand * 2 ^ scale` form. -/
def significand (x : Binary64) : Nat :=
  if x.exponentField = 0 then x.fractionField else exponentWeight + x.fractionField

/-- The power of two in a finite number's `significand * 2 ^ scale` form. -/
def scale (x : Binary64) : Int := (max x.exponentField 1 : Nat) - 1075

/-- The size of a finite number, `significand * 2 ^ scale`. -/
def ratio (x : Binary64) : Ratio := Ratio.scale { num := x.significand } 2 x.scale

/-! ## Rounding -/

/-- The exponent `e` with `2 ^ e ≤ r < 2 ^ (e + 1)`, for a positive ratio. -/
def binaryExponent (r : Ratio) : Int :=
  let e : Int := (r.num.log2 : Int) - r.den.log2
  if (r.scale 2 (-e)).reachesOne then e else e - 1

/-- The magnitude of the number nearest to a ratio, ties to even; from half a unit above the
largest finite number on, the infinite one. -/
def nearest (r : Ratio) : Nat :=
  if r.num = 0 then 0
  else
    let unit := max (-1074) (binaryExponent r - 52)
    min ((unit + 1074).toNat * exponentWeight + (r.scale 2 (-unit)).halfEven) infinityMagnitude

def ofInt (n : Int) : Binary64 :=
  ofMagnitude (n < 0) (nearest { num := n.natAbs })

/-- The number nearest to `± digits * 10 ^ exponent`.  Decimals far outside the range are settled
by their size alone. -/
def ofDecimal (negative : Bool) (digits : Nat) (exponent : Int) : Binary64 :=
  let top : Int := (Nat.toDigits 10 digits).length + exponent
  if digits = 0 ∨ top < -325 then zero negative
  else if 310 < top then infinity negative
  else ofMagnitude negative (nearest (Ratio.scale { num := digits } 10 exponent))

/-! ## Arithmetic -/

/-- The significand of a finite number with its sign, in units of `2 ^ unit`; `unit` is at most
the number's scale. -/
def signedUnits (x : Binary64) (unit : Int) : Int :=
  let m : Int := (Ratio.scale { num := x.significand } 2 (x.scale - unit)).num
  if x.isNegative then -m else m

def add (x y : Binary64) : Binary64 :=
  if x.isNaN then x
  else if y.isNaN then y
  else if x.isInfinite then
    if y.isInfinite && x.isNegative != y.isNegative then nan false else x
  else if y.isInfinite then y
  else
    let unit := min x.scale y.scale
    let sum := x.signedUnits unit + y.signedUnits unit
    if sum = 0 then zero (x.isNegative && y.isNegative)
    else ofMagnitude (sum < 0) (nearest (Ratio.scale { num := sum.natAbs } 2 unit))

/-- The integer nearest to a finite number, halves away from zero. -/
def round? (x : Binary64) : Option Int :=
  if x.isFinite then
    let n : Int := x.ratio.halfUp
    some (if x.isNegative then -n else n)
  else none

/-! ## Order -/

def rank (x : Binary64) : Int :=
  if x.isNegative then -1 - (x.magnitude : Int) else x.magnitude

protected def compare (x y : Binary64) : Ordering :=
  Ord.compare x.rank y.rank

instance : Ord Binary64 := ⟨Binary64.compare⟩

end Binary64

end RowStore
