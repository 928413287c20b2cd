import RowStore.Action
import RowStore.Index.Basic
import RowStore.MultiMap
import RowStore.Row

/-!
# Ordered indexes

* `IndexSpec` : the definition of an index;
* `TreeIndex` : its entries, from indexed values to row keys;
* `TreeIndex.keyOf?` : the indexed values of a row, none if the row is too narrow;
* `TreeIndex.enter`, `TreeIndex.leave` : enter a row and take it out;
* `TreeIndex.ordered` : the entries in the direction of the leading column;
* `TreeIndex.sql?` : the statement that creates the index.
-/

namespace RowStore

/-- The values that an index holds of a row, in index order. -/
abbrev IndexKey := List Value

/-- The text of the values that an index holds of a row. -/
def IndexKey.render (k : IndexKey) : String := "( " ++ ", ".intercalate (k.map Value.sql) ++ " )"

structure IndexSpec where
  id : Nat
  name : String
  /-- The indexed columns, the most significant first. -/
  columns : List IndexColumn
  /-- What it is for. -/
  type : IndexType
  /-- A remark. -/
  comment : Option String := none
deriving DecidableEq

/-- An ordered index over the rows of a table. -/
structure TreeIndex where
  spec : IndexSpec
  /-- The name under which the table was created. -/
  tableName : String
  /-- The row keys of the indexed values. -/
  map : MultiMap IndexKey RowKey := ∅

namespace TreeIndex

/-- The values that the index holds of a row; none if the row lacks one of the columns. -/
def keyOf? (ix : TreeIndex) (r : Row) : Option IndexKey :=
  ix.spec.columns.mapM fun c => r.value? c.place

/-- The index is unique and its values free of NULL, so that no other row may agree on them. -/
def guards (ix : TreeIndex) (k : IndexKey) : Bool := ix.spec.type.unique && !k.any Value.isNull

/-- Enters indexed values.  A unique index refuses values that it holds already, unless one of them is
NULL. -/
def enterKey (ix : TreeIndex) (k : IndexKey) (key : RowKey) : Except StoreError TreeIndex :=
  if ix.guards k then
    match ix.map.insertUnique k key with
    | (some _, _) => .error (.duplicateKey ix.tableName ix.spec.name k.render)
    | (none, map) => .ok { ix with map := map }
  else .ok { ix with map := ix.map.insert k key }

def enter (ix : TreeIndex) (r : Row) (key : RowKey) : Except Fault TreeIndex :=
  match ix.keyOf? r with
  | none => .error .outOfRange
  | some k => (ix.enterKey k key).mapError .error

def leave (ix : TreeIndex) (r : Row) (key : RowKey) : Except Fault TreeIndex :=
  match ix.keyOf? r with
  | none => .error .outOfRange
  | some k => .ok { ix with map := (ix.map.delete k key).2 }

def clear (ix : TreeIndex) : TreeIndex := { ix with map := ∅ }

def isDescending (ix : TreeIndex) : Bool := (ix.spec.columns.head?.map (·.descending)).getD false

/-- The entries in index order: ascending, or backwards where the leading column is descending. -/
def ordered (ix : TreeIndex) : List (IndexKey × RowKey) :=
  if ix.isDescending then ix.map.toList.reverse else ix.map.toList

def placeOf? (ix : TreeIndex) (column : Nat) : Option Nat :=
  ix.spec.columns.findIdx? (·.place == column)

def columnSql (c : IndexColumn) : String :=
  toString c.place ++ if c.descending then " DESC" else ""

/-- What stands before `INDEX` in the statement that creates the index. -/
def kindSql (t : IndexType) : String :=
  if t.primaryKey then "PRIMARY KEY " else if t.unique then "UNIQUE " else ""

/-- The statement that creates the index; none if the index was made for a constraint. -/
def sql? (ix : TreeIndex) : Option String :=
  if ix.spec.type.forConstraint then none
  else
    some ("CREATE " ++ kindSql ix.spec.type ++ "INDEX " ++ Text.identifier ix.spec.name ++ " ON "
      ++ Text.identifier ix.tableName ++ "(" ++ ", ".intercalate (ix.spec.columns.map columnSql)
      ++ ")")

end TreeIndex

end RowStore
