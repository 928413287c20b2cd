import RowStore.Store.Basic

/-!
# Values of new rows

* `fitColumn`, `fitColumns` : brings the cells of a row into the form that the columns demand;
* `Store.fitRow` : the same for a row of a table;
* `Store.defaultValue` : what a column takes when a row leaves it out.
-/

namespace RowStore

/-- Fits the cell at a place.  A computed column takes what its expression gives on the row so far. -/
def fitColumn (place : Nat) (c : Column) : Action (Draft Numbering) Unit := do
  let row := (← get).row
  match c.computed with
  | some e =>
    let v ← Draft.onState (e.eval (some row))
    let fitted ← Draft.onState (c.fit (some v))
    Draft.modifyRow (·.set place (fitted.value (some v)))
  | none =>
    let given ← Action.slot (row.slots[place]?)
    match ← Draft.onState (c.fit given) with
    | .unchanged => pure ()
    | .replaced v => Draft.modifyRow (·.set place v)

def fitColumns (place : Nat) : List Column → Action (Draft Numbering) Unit
  | [] => pure ()
  | c :: rest => do
    fitColumn place c
    fitColumns (place + 1) rest

/-- Refuses a row that does not have one slot for each column of a table. -/
def Table.checkWidth (t : Table) (r : Row) : Except StoreError Unit :=
  if r.width = t.columns.width then .ok ()
  else
    .error (.internal ("row of width " ++ toString r.width ++ " written to `" ++ t.name ++ "` of "
      ++ toString t.columns.width ++ " columns"))

namespace Store

def fitRow (t u : Nat) : Action (Draft Store) Unit := do
  let d ← get
  let table := d.state.table t
  Action.ofExcept (table.checkWidth d.row)
  Draft.within (·.numbering u) (fun n s => s.setNumbering u n) (fitColumns 0 table.columns.list)

/-- What a column of a table takes when a row leaves it out. -/
def defaultValue (t u place : Nat) : Action Store Value := do
  let c ← Action.slot (((← get).table t).columns.get? place)
  let v ← match c.default with
    | some e => onNumbering u (e.eval none)
    | none => do
      let fitted ← onNumbering u (c.fit none)
      pure (fitted.value none)
  Action.ofExcept (c.convert v)

end Store

end RowStore
