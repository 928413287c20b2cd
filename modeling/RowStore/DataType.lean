/-!
# Data types

* `DataType` : the declared type of a column, in the order of promotion;
* `DataType.compare` : that order.
-/

namespace RowStore

/-- The declared type of a column.  When values of two types meet, both are converted to the one
that stands later here. -/
inductive DataType where
  /-- A type that could not be resolved. -/
  | unknown
  /-- The type of NULL alone. -/
  | null
  | boolean
  /-- Integers of 32 bits. -/
  | int
  /-- Integers of 64 bits. -/
  | bigInt
  /-- Floating-point numbers of 64 bits. -/
  | double
  | text
deriving DecidableEq

namespace DataType

def rank : DataType → Nat
  | unknown => 0
  | null => 1
  | boolean => 2
  | int => 3
  | bigInt => 4
  | double => 5
  | text => 6

def name : DataType → String
  | unknown => "UNKNOWN"
  | null => "NULL"
  | boolean => "BOOLEAN"
  | int => "INT"
  | bigInt => "BIGINT"
  | double => "DOUBLE"
  | text => "VARCHAR"

protected def compare (a b : DataType) : Ordering := Ord.compare a.rank b.rank

/-- The later of two types in the order of promotion. -/
def later (a b : DataType) : DataType := if a.rank < b.rank then b else a

def all : List DataType := [unknown, null, boolean, int, bigInt, double, text]

def named? (s : String) : Option DataType := all.find? (·.name == s)

end DataType

end RowStore
