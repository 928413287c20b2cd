import RowStore.Index.Tree

/-!
# The rows of a table and their indexes

* `Engine` : rows by key, the attached indexes, the next key and a counter of changes;
* `Engine.addRow`, `Engine.removeRow`, `Engine.truncate` : the changes of rows;
* `Engine.addIndex`, `Engine.removeIndex` : the changes of the list of indexes;
* `Engine.enterAll`, `Engine.leaveAll` : a row goes into all indexes, and out of them.
-/

namespace RowStore

/-- The rows of a table and their indexes. -/
structure Engine where
  /-- The number of the table. -/
  table : Nat
  /-- The name under which the table was created. -/
  name : String
  rows : OrderedMap RowKey Row := ∅
  /-- The attached indexes, in the order in which they came. -/
  indexes : List TreeIndex := []
  /-- The key that the next row without one takes. -/
  nextKey : RowKey := 0
  /-- Counts the changes of rows. -/
  modification : UInt64 := 0

namespace Engine

def rowCount (e : Engine) : Nat := e.rows.size

def rowList (e : Engine) : List Row := e.rows.values

def row? (e : Engine) (key : RowKey) : Option Row := e.rows.find? key

def index? (e : Engine) (id : Nat) : Option TreeIndex := e.indexes.find? (·.spec.id == id)

def uniqueIndex? (e : Engine) : Option TreeIndex := e.indexes.find? (·.spec.type.unique)

def scanName (e : Engine) : String := e.name ++ "_DATA"

def scanId : Nat := 0

/-! ## Changes of rows -/

/-- Enters a row into each index in turn.  Where one refuses it, the row is taken out of those before.  Where
one runs past the end of the row, it stays in them. -/
def enterAll (r : Row) (key : RowKey) : List TreeIndex → Except Fault Unit × List TreeIndex
  | [] => (.ok (), [])
  | ix :: rest =>
    match ix.enter r key with
    | .error fault => (.error fault, ix :: rest)
    | .ok entered =>
      match enterAll r key rest with
      | (.ok (), rest) => (.ok (), entered :: rest)
      | (.error .outOfRange, rest) => (.error .outOfRange, entered :: rest)
      | (.error (.error cause), rest) =>
        match entered.leave r key with
        | .ok left => (.error (.error cause), left :: rest)
        | .error _ => (.error (.error cause), entered :: rest)

/-- The key that a row is to be stored under: its own, if that is free, or the next one.  The next key
comes after every key that was asked for. -/
def claimKey (r : Row) : Action Engine RowKey := do
  let e ← get
  match r.key with
  | some key =>
    if e.rows.contains key then
      Action.refuse (.internal ("row key " ++ key.render ++ " already exists in `" ++ e.name ++ "`"))
    else
      set { e with nextKey := max e.nextKey (key + 1) }
      pure key
  | none =>
    set { e with nextKey := e.nextKey + 1 }
    pure e.nextKey

def addRow (r : Row) : Action Engine Row := do
  let key ← claimKey r
  let e ← get
  match enterAll r key e.indexes with
  | (.error fault, indexes) =>
    set { e with indexes := indexes }
    throw fault
  | (.ok (), indexes) =>
    let stored := { r with key := some key }
    set { e with
      indexes := indexes
      rows := e.rows.insert key stored
      modification := e.modification + 1 }
    pure stored

/-- Takes a row out of each index in turn, up to the first that runs past the end of the row. -/
def leaveAll (r : Row) (key : RowKey) : List TreeIndex → Except Fault Unit × List TreeIndex
  | [] => (.ok (), [])
  | ix :: rest =>
    match ix.leave r key with
    | .error fault => (.error fault, ix :: rest)
    | .ok left =>
      match leaveAll r key rest with
      | (came, rest) => (came, left :: rest)

/-- Deletes the row that is stored under a row's key.  It goes first, so that it is gone even where an index
runs past its end; that is not counted as a change. -/
def removeRow (r : Row) : Action Engine Unit := do
  let e ← get
  match r.key.bind fun key => (e.row? key).map (key, ·) with
  | none => Action.refuse (.rowNotFound e.name)
  | some (key, stored) =>
    match leaveAll stored key e.indexes with
    | (.error fault, indexes) =>
      set { e with
        indexes := indexes
        rows := e.rows.erase key }
      throw fault
    | (.ok (), indexes) =>
      set { e with
        indexes := indexes
        rows := e.rows.erase key
        modification := e.modification + 1 }

def truncate (e : Engine) : Engine :=
  { e with
    rows := ∅
    indexes := e.indexes.map TreeIndex.clear
    modification := e.modification + 1 }

/-! ## Changes of indexes -/

def populate (name : String) : List Row → TreeIndex → Except Fault TreeIndex
  | [], ix => .ok ix
  | r :: rest, ix =>
    match r.key with
    | none => .error (.error (.internal ("stored row without key in `" ++ name ++ "`")))
    | some key => (ix.enter r key).bind (populate name rest)

/-- Attaches an index, which holds the stored rows if `fill` is set. -/
def addIndex (spec : IndexSpec) (fill : Bool) : Action Engine Unit := do
  let e ← get
  if spec.columns.isEmpty then
    Action.refuse (.internal ("index `" ++ spec.name ++ "` on `" ++ e.name ++ "` has no columns"))
  if spec.id = scanId ∨ (e.index? spec.id).isSome then
    Action.refuse (.internal ("index id " ++ toString spec.id ++ " is already taken in `" ++ e.name
      ++ "`"))
  match populate e.name (if fill then e.rowList else []) { spec := spec, tableName := e.name } with
  | .error fault => throw fault
  | .ok ix => set { e with indexes := e.indexes ++ [ix] }

def removeIndex (id : Nat) : Action Engine (Option TreeIndex) := do
  let e ← get
  match e.index? id with
  | none => pure none
  | some ix =>
    set { e with indexes := e.indexes.eraseP (·.spec.id == id) }
    pure (some ix)

end Engine

end RowStore
