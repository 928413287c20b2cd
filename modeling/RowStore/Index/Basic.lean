/-!
# The shape of an index

* `IndexColumn`, `SortOrder` : columns with a direction;
* `SortOrder.isServedBy` : an index over the given columns yields its rows in that order;
* `IndexKind`, `IndexType` : what an index is for;
* `Condition` : what a query asks of a column, as far as an index can use it.
-/

namespace RowStore

structure IndexColumn where
  /-- The place of the column in the table. -/
  place : Nat
  /-- The greatest value comes first. -/
  descending : Bool
deriving DecidableEq

/-- The order in which a query wants its rows: columns, the most significant first. -/
abbrev SortOrder := List IndexColumn

/-- An index over the given columns yields its rows in this order: the order is not empty and the
index starts with its columns. -/
def SortOrder.isServedBy (sort : SortOrder) (columns : List IndexColumn) : Bool :=
  !sort.isEmpty && sort.isPrefixOf columns

inductive IndexKind where
  /-- All rows, in the order of their keys. -/
  | scan
  /-- Ordered by the indexed values. -/
  | tree
  /-- By hash: equality only. -/
  | hash
deriving DecidableEq

def IndexKind.name : IndexKind → String
  | scan => "scan"
  | tree => "tree"
  | hash => "hash"

structure IndexType where
  /-- How it is organised. -/
  kind : IndexKind
  /-- It is a primary key. -/
  primaryKey : Bool
  /-- No two rows agree on its columns without NULL. -/
  unique : Bool
  /-- It was made for a constraint. -/
  forConstraint : Bool
deriving DecidableEq

namespace IndexType

def scan : IndexType := ⟨.scan, false, false, false⟩

def primary : IndexType := ⟨.tree, true, true, false⟩

def distinct : IndexType := ⟨.tree, false, true, false⟩

def plain : IndexType := ⟨.tree, false, false, false⟩

end IndexType

/-- What a query asks of a column, as bits. -/
structure Condition where
  /-- The bits: 1 for a value to equal, 2 for a lower end, 4 for an upper end. -/
  bits : Nat
deriving DecidableEq

namespace Condition

def none : Condition := ⟨0⟩

def hasEquality (c : Condition) : Bool := c.bits.testBit 0

def hasStart (c : Condition) : Bool := c.bits.testBit 1

def hasEnd (c : Condition) : Bool := c.bits.testBit 2

end Condition

/-- The number of rows added to every count, so that an empty table has a cost. -/
def costOffset : Nat := 1000

end RowStore
