import RowStore.Binary64.Notation
import RowStore.Collation
import RowStore.DataType
import RowStore.Text.Quoted

/-!
# Values

* `Value` : a cell of a row;
* `Value.dataType`, `Value.toInt?`, `Value.text`, `Value.sql` : its type, integer and texts;
* `Value.compare` : the total order of values: by type first, then within the type;
* `Value.collate` : the same, with texts ordered by a collation.
-/

namespace RowStore

/-- A cell of a row. -/
inductive Value where
  | null
  | boolean (b : Bool)
  /-- An integer of 32 bits. -/
  | int (n : Int32)
  /-- An integer of 64 bits. -/
  | bigInt (n : Int64)
  /-- A floating-point number, by its bits. -/
  | double (x : Binary64)
  | text (s : String)
deriving DecidableEq

namespace Value

instance : Inhabited Value := ⟨null⟩

def dataType : Value → DataType
  | null => .null
  | boolean _ => .boolean
  | int _ => .int
  | bigInt _ => .bigInt
  | double _ => .double
  | text _ => .text

def isNull : Value → Bool
  | null => true
  | _ => false

def toInt? : Value → Option Int
  | int n => some n.toInt
  | bigInt n => some n.toInt
  | _ => none

def render : Value → String
  | null => "NULL"
  | boolean true => "TRUE"
  | boolean false => "FALSE"
  | int n => toString n.toInt
  | bigInt n => toString n.toInt
  | double x => x.text
  | text s => s

def sql : Value → String
  | text s => Text.literal s
  | v => v.render

/-- The total order of values.  Values of two types are in the order of their types. -/
protected def compare : Value → Value → Ordering
  | boolean a, boolean b => Ord.compare a b
  | int a, int b => Ord.compare a b
  | bigInt a, bigInt b => Ord.compare a b
  | double a, double b => a.compare b
  | text a, text b => Ord.compare a b
  | a, b => a.dataType.compare b.dataType

instance : Ord Value := ⟨Value.compare⟩

def collate (c : Collation) : Value → Value → Ordering
  | text a, text b => c.compare a b
  | a, b => a.compare b

end Value

end RowStore
