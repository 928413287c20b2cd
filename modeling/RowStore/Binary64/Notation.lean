import RowStore.Binary64.Shortest

/-!
# The written form of a floating-point number

* `Layout` : the decisions of a written form;
* `Layout.plain` : the one that values are shown in;
* `text x` : the shortest digits of `x` in that layout.
-/

namespace RowStore.Binary64

/-- How a number's digits are laid out. -/
structure Layout where
  /-- The least exponent of the first digit that is written without an exponent. -/
  leastPositional : Int
  /-- The greatest exponent of the first digit that is written without an exponent. -/
  greatestPositional : Int
  /-- What stands between the digits and the exponent. -/
  exponentMark : String
  /-- What a whole number written without an exponent ends in. -/
  wholeTail : String
  /-- The text of a NaN. -/
  nanText : String
  /-- The text of the positive infinity. -/
  infinityText : String

/-- Numbers from `0.0001` below `10 ^ 16` have no exponent and at least one digit after the
point. -/
def Layout.plain : Layout where
  leastPositional := -4
  greatestPositional := 15
  exponentMark := "e"
  wholeTail := ".0"
  nanText := "NaN"
  infinityText := "inf"

def Decimal.trimmedDigits (d : Decimal) : List Char :=
  ((Nat.toDigits 10 d.digits).reverse.dropWhile (· == '0')).reverse

def Decimal.leadingExponent (d : Decimal) : Int :=
  ((Nat.toDigits 10 d.digits).length : Int) - 1 + d.exponent

/-- Digits whose first one has exponent `lead`, written without an exponent. -/
def Layout.positional (layout : Layout) (digits : List Char) (lead : Int) : List Char :=
  if lead < 0 then
    '0' :: '.' :: List.replicate (-lead - 1).toNat '0' ++ digits
  else
    let whole := lead.toNat + 1
    if digits.length ≤ whole then
      digits ++ List.replicate (whole - digits.length) '0' ++ layout.wholeTail.toList
    else
      digits.take whole ++ '.' :: digits.drop whole

/-- Digits whose first one has exponent `lead`, written with an exponent. -/
def Layout.scientific (layout : Layout) (digits : List Char) (lead : Int) : List Char :=
  let point := if digits.length ≤ 1 then [] else ['.']
  digits.take 1 ++ point ++ digits.drop 1 ++ layout.exponentMark.toList ++ (toString lead).toList

/-- A decimal in a layout; a zero has one digit. -/
def Layout.decimal (layout : Layout) (d : Decimal) : List Char :=
  let lead := d.leadingExponent
  if layout.leastPositional ≤ lead ∧ lead ≤ layout.greatestPositional then
    layout.positional d.trimmedDigits lead
  else
    layout.scientific d.trimmedDigits lead

def Layout.write (layout : Layout) (x : Binary64) : String :=
  if x.isNaN then layout.nanText
  else
    let body :=
      if x.isInfinite then layout.infinityText.toList
      else if x.isZero then '0' :: layout.wholeTail.toList
      else layout.decimal x.shortest
    String.ofList (if x.isNegative then '-' :: body else body)

def text (x : Binary64) : String := Layout.plain.write x

end RowStore.Binary64
