import RowStore.Engine.Basic

/-!
# Ways to the rows of a table

* `Access` : the scan over all rows, or an attached index; `Engine.accesses` lists them;
* `Engine.cost` : the estimated cost of a query on such a way;
* `Engine.cheapest` : the way of least cost, the scan before the others and the first of equals;
* `Engine.accessRows`, `Engine.extreme?` : its rows in order, and its first or last row.
-/

namespace RowStore

/-- A way to the rows of a table. -/
inductive Access where
  /-- All rows, in key order. -/
  | scan
  /-- The rows of an index, in its order. -/
  | tree (ix : TreeIndex)

namespace Access

/-- The number of the index; the scan has one of its own. -/
def id : Access → Nat
  | scan => Engine.scanId
  | tree ix => ix.spec.id

def type : Access → IndexType
  | scan => .scan
  | tree ix => ix.spec.type

/-- The indexed columns; none of the scan. -/
def columns : Access → List IndexColumn
  | scan => []
  | tree ix => ix.spec.columns

def yieldsExtremes : Access → Bool
  | scan => false
  | tree _ => true

def placeOf? (a : Access) (column : Nat) : Option Nat := a.columns.findIdx? (·.place == column)

def comment? : Access → Option String
  | scan => none
  | tree ix => ix.spec.comment

def sql? : Access → Option String
  | scan => none
  | tree ix => ix.sql?

end Access

namespace Engine

def accesses (e : Engine) : List Access := .scan :: e.indexes.map .tree

def access? (e : Engine) (id : Nat) : Option Access := e.accesses.find? (·.id == id)

def accessName (e : Engine) : Access → String
  | .scan => e.scanName
  | .tree ix => ix.spec.name

def accessSize (e : Engine) : Access → Nat
  | .scan => e.rowCount
  | .tree ix => ix.map.size

def accessRows (e : Engine) : Access → List Row
  | .scan => e.rowList
  | .tree ix => ix.ordered.filterMap fun entry => e.row? entry.2

def leadsNonNull (k : IndexKey) : Bool := (k.head?.map fun v => !v.isNull).getD false

/-- The first or last row of an index whose leading value is not NULL.  The scan has none to
offer. -/
def extreme? (e : Engine) (first : Bool) : Access → Except StoreError (Option Row)
  | .scan => .error (.unsupported ("first or last row of scan index `" ++ e.scanName ++ "`"))
  | .tree ix =>
    let entries := if first then ix.ordered else ix.ordered.reverse
    .ok ((entries.find? fun entry => leadsNonNull entry.1).bind fun entry => e.row? entry.2)

/-! ## Costs -/

def runs : List (Option Value) → Nat
  | [] => 0
  | [_] => 1
  | a :: b :: rest => (if a = b then 0 else 1) + runs (b :: rest)

/-- The share of distinct values among the entries at a place of an index, in percent.  For a place
after the first of several, runs of equal values are counted. -/
def selectivity (e : Engine) (ix : TreeIndex) (place : Nat) : Nat :=
  if e.rowCount = 0 then 50
  else
    let distinct :=
      if ix.spec.columns.length = 1 then ix.map.keyCount
      else runs (ix.map.toList.map fun entry => entry.1[place]?)
    max 1 (min (distinct * 100 / e.rowCount) 100)

/-- What the estimate has come to before a column of an index. -/
structure Estimate where
  /-- The cost of a query so far. -/
  cost : Nat
  /-- The number of rows left for each combination of values so far. -/
  rows : Nat
  /-- The share of distinct combinations of values so far, in percent. -/
  selectivity : Nat

/-- The cost of a query on the columns of an index from the given place on.  Equality narrows the rows
and goes on to the next column, a range ends the estimate. -/
def estimateFrom (e : Engine) (ix : TreeIndex) (masks : List Condition) (total : Nat)
    (place : Nat) (est : Estimate) : List IndexColumn → Nat
  | [] => est.cost
  | c :: rest =>
    let mask := (masks[c.place]?).getD .none
    if mask.hasEquality then
      if rest.isEmpty && ix.spec.type.unique then 3
      else
        let share := 100 - (100 - est.selectivity) * (100 - e.selectivity ix place) / 100
        let distinct := max (total * share / 100) 1
        let rows := max (total / distinct) 1
        e.estimateFrom ix masks total (place + 1) ⟨2 + rows, rows, share⟩ rest
    else if mask.hasStart && mask.hasEnd then 2 + est.rows / 4
    else if mask.hasStart then 2 + est.rows / 3
    else if mask.hasEnd then est.rows / 3
    else est.cost

/-- The estimated cost of a query on a way, given its conditions by column and the order it wants. -/
def cost (e : Engine) (masks : Option (List Condition)) (sort : Option SortOrder) : Access → Nat
  | .scan => e.rowCount + costOffset
  | .tree ix =>
    let total := e.rowCount + costOffset
    match masks with
    | none => total
    | some masks =>
      let cost := e.estimateFrom ix masks total 0 ⟨total, total, 0⟩ ix.spec.columns
      if (sort.map (·.isServedBy ix.spec.columns)).getD false then cost - 1 else cost

/-- A way with its cost. -/
structure Plan where
  access : Access
  cost : Nat

/-- The cheaper of two plans, the first of equals. -/
def Plan.cheaper (best next : Plan) : Plan := if next.cost < best.cost then next else best

/-- The way of least cost, the first of equals.  Without conditions only the scan is considered. -/
def cheapest (e : Engine) (masks : Option (List Condition)) (sort : Option SortOrder) : Plan :=
  let scan : Plan := ⟨.scan, e.cost none none .scan⟩
  match masks with
  | none => scan
  | some _ =>
    e.indexes.foldl (fun best ix => best.cheaper ⟨.tree ix, e.cost masks sort (.tree ix)⟩) scan

def primaryKey? (e : Engine) : Option Access := e.accesses.find? (·.type.primaryKey)

def indexLedBy? (e : Engine) (column : Nat) : Option TreeIndex :=
  e.indexes.find? fun ix => ix.placeOf? column == some 0

end Engine

end RowStore
