import RowStore.Binary64.Reader
import RowStore.Error
import RowStore.Text.Blank
import RowStore.Value.Basic

/-!
# Conversion between types

* `DataType.common` : the type to which values of two types are converted when they meet;
* `Value.convertTo` : the counterpart of a value in a type, or a refusal;
* `fit32?`, `fit64?` : an integer as a word, if it fits.
-/

namespace RowStore

/-- The type to which values of two types are converted when they meet. -/
def DataType.common (a b : DataType) : Except StoreError DataType :=
  if a = .unknown ∨ b = .unknown then .error (.unknownDataType (a.name ++ ", " ++ b.name))
  else .ok (a.later b)

def fit32? (n : Int) : Option Int32 :=
  if Int32.minValue.toInt ≤ n ∧ n ≤ Int32.maxValue.toInt then some (Int32.ofInt n) else none

def fit64? (n : Int) : Option Int64 :=
  if Int64.minValue.toInt ≤ n ∧ n ≤ Int64.maxValue.toInt then some (Int64.ofInt n) else none

namespace Value

/-- The truth value that a text spells, in any case and between blanks. -/
def readBoolean? (s : String) : Option Bool :=
  let word := String.ofList ((Text.trimChars s.toList).map Char.toUpper)
  if ["TRUE", "T", "YES", "Y", "1"].contains word then some true
  else if ["FALSE", "F", "NO", "N", "0"].contains word then some false
  else none

def readInteger? (s : String) : Option Int :=
  Text.readInt? (Text.trimChars s.toList)

def bit (b : Bool) : Int := if b then 1 else 0

def toBoolean? : Value → Option Bool
  | int n => some (n != 0)
  | bigInt n => some (n != 0)
  | double x => some !x.isZero
  | text s => readBoolean? s
  | _ => none

def toInteger? : Value → Option Int
  | boolean b => some (bit b)
  | int n => some n.toInt
  | bigInt n => some n.toInt
  | double x => x.round?
  | text s => readInteger? s
  | null => none

def toBinary64? : Value → Option Binary64
  | boolean b => some (Binary64.ofInt (bit b))
  | int n => some (Binary64.ofInt n.toInt)
  | bigInt n => some (Binary64.ofInt n.toInt)
  | text s => Binary64.read? (Text.trim s)
  | _ => none

def counterpart? (v : Value) : DataType → Option Value
  | .unknown | .null => none
  | .boolean => v.toBoolean?.map boolean
  | .int => (v.toInteger?.bind fit32?).map int
  | .bigInt => (v.toInteger?.bind fit64?).map bigInt
  | .double => v.toBinary64?.map double
  | .text => some (text v.render)

/-- Converts a value to a type.  NULL belongs to every type. -/
def convertTo (v : Value) (target : DataType) : Except StoreError Value :=
  if v.dataType = target ∨ v = null then .ok v
  else
    match v.counterpart? target with
    | some w => .ok w
    | none => .error (.dataConversion v.render target)

end Value

end RowStore
