/-!
# Decimal numerals

* `readNat?` : one or more decimal digits;
* `readInt?` : an optional sign and one or more decimal digits.

Digits are the ten ASCII ones; leading zeros count for nothing.
-/

namespace RowStore.Text

/-- The number that a list of digits denotes; nothing else is read. -/
def readNat? (cs : List Char) : Option Nat :=
  if !cs.isEmpty && cs.all Char.isDigit then some (Nat.ofDigitChars 10 cs 0) else none

/-- The number that a signed or bare list of digits denotes. -/
def readInt? : List Char → Option Int
  | '-' :: cs => (readNat? cs).map fun n => -(n : Int)
  | '+' :: cs => (readNat? cs).map fun n => (n : Int)
  | cs => (readNat? cs).map fun n => (n : Int)

end RowStore.Text
