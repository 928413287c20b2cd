import RowStore.Action
import RowStore.Column
import RowStore.Index.Basic

/-!
# The columns of a table

* `ColumnSet` : the columns, their places by name, and the row of NULLs once it was asked for;
* `ColumnSet.install?` : a set of columns for a table, if their names and types allow it;
* `ColumnSet.rename?` : the set with one name changed;
* `ColumnSet.find?`, `ColumnSet.nullRow` : look up a name, and the row of NULLs.
-/

namespace RowStore

structure ColumnSet where
  list : List Column := []
  /-- The place of each name. -/
  places : OrderedMap String Nat := ∅
  /-- The row of NULLs, once it was asked for. -/
  cachedNulls : Option Row := none

namespace ColumnSet

def width (cs : ColumnSet) : Nat := cs.list.length

def get? (cs : ColumnSet) (place : Nat) : Option Column := cs.list[place]?

/-- Adds a column to those before it, at the next place.  An unresolved type is refused where types
are checked, and a name that an earlier column has always. -/
def extend (table : Nat) (checkTypes : Bool) (cs : ColumnSet) (c : Column) :
    Except StoreError ColumnSet :=
  if checkTypes ∧ c.dataType = .unknown then .error (.unknownDataType c.sql)
  else if cs.places.contains c.name then .error (.duplicateColumnName c.name)
  else
    .ok { cs with
      list := cs.list ++ [{ c with table := some table, place := cs.width }]
      places := cs.places.insert c.name cs.width }

def install? (table : Nat) (checkTypes : Bool) (columns : List Column) :
    Except StoreError ColumnSet :=
  columns.foldlM (extend table checkTypes) {}

/-- Changes the column at a place; past the end nothing changes. -/
def alter (cs : ColumnSet) (place : Nat) (f : Column → Column) : ColumnSet :=
  { cs with list := cs.list.modify place f }

/-- Changes the name of a column.  A name that another column has is refused first, then a place
without a column. -/
def rename? (cs : ColumnSet) (place : Nat) (name : String) : Except StoreError ColumnSet :=
  if cs.list.any fun c => c.place != place && c.name == name then
    .error (.duplicateColumnName name)
  else
    match cs.get? place with
    | none => .error (.columnNotFound (toString place))
    | some c =>
      .ok { cs.alter place ({ · with name := name }) with
        places := (cs.places.erase c.name).insert name place }

def placeOf? (cs : ColumnSet) (name : String) : Option Nat := cs.places.find? name

def find? {σ : Type} (cs : ColumnSet) (name : String) : Action σ Column :=
  match cs.placeOf? name with
  | none => Action.refuse (.columnNotFound name)
  | some place => Action.slot (cs.get? place)

def nullRow (cs : ColumnSet) : Row × ColumnSet :=
  let r := cs.cachedNulls.getD (Row.nulls cs.width)
  (r, { cs with cachedNulls := some r })

/-- Sets or clears the mark of the primary key on the columns of an index. -/
def markPrimary (cs : ColumnSet) (mark : Bool) (columns : List IndexColumn) : ColumnSet :=
  columns.foldl (fun cs c => cs.alter c.place ({ · with primaryKey := mark })) cs

def dependencies (cs : ColumnSet) : List ObjectId := cs.list.flatMap Column.dependencies

end ColumnSet

end RowStore
