import RowStore.Store.Basic

/-!
# Changes of structure

* `Store.setColumns`, `Store.renameColumn`, `Store.rename` : columns and names;
* `Store.addIndex`, `Store.removeIndex`, `Store.releaseIndex` : indexes;
* `Store.addConstraint`, `Store.removeConstraint` : constraints;
* `Store.dropColumnUses` : drops what uses a single column alone;
* `Store.setCheckReferences` : turns the checking of references on and off;
* `Store.teardown` : removes all that depends on a table.
-/

namespace RowStore.Store

/-! ## Columns and names -/

/-- Gives a table new columns; where they are refused, it keeps the ones it has. -/
def setColumns (t : Nat) (checkTypes : Bool) (columns : List Column) : Action Store Unit := do
  let table := (← get).table t
  let columns ← Action.ofExcept (ColumnSet.install? table.id checkTypes columns)
  modifyTable t ({ · with columns := columns })
  note (.columnsSet table.name columns.width)

def renameColumn (t place : Nat) (name : String) : Action Store Unit := do
  let columns ← Action.ofExcept (((← get).table t).columns.rename? place name)
  modifyTable t ({ · with columns := columns })

def nullRow (t : Nat) : Action Store Row := do
  let (r, columns) := ((← get).table t).columns.nullRow
  modifyTable t ({ · with columns := columns })
  pure r

/-- Renames a table and has its constraints made anew.  The name stays where one of them fails. -/
def rename (t : Nat) (name : String) : Action Store Unit := do
  let table := (← get).table t
  modifyTable t ({ · with name := name })
  onFired (table.constraints.forM Constraint.rebuild)
  note (.tableRenamed table.name name table.id)

/-! ## Indexes -/

/-- Refuses an index on a column that does not exist, and a primary key on one that takes NULL. -/
def checkIndexColumn (table : Table) (primaryKey : Bool) (c : IndexColumn) :
    Except StoreError Unit :=
  match table.columns.get? c.place with
  | none => .error (.columnNotFound (toString c.place))
  | some column => if primaryKey && column.nullable then .error (.nullNotAllowed column.name) else .ok ()

/-- Attaches an index to a table, which holds the stored rows if `fill` is set.  The columns of a
primary key are marked. -/
def addIndex (t : Nat) (spec : IndexSpec) (fill : Bool) : Action Store Unit := do
  let table := (← get).table t
  if spec.columns.isEmpty then
    Action.refuse (.internal ("index `" ++ spec.name ++ "` on `" ++ table.name ++ "` has no columns"))
  Action.ofExcept (spec.columns.forM (checkIndexColumn table spec.type.primaryKey))
  onEngine t (Engine.addIndex spec fill)
  note (.indexBuilt spec.name table.engine.name)
  if spec.type.primaryKey then
    modifyTable t fun table =>
      { table with columns := table.columns.markPrimary true spec.columns }
  note (.indexAttached spec.name spec.id table.name)

/-- Detaches an index from a table and yields it, if it is attached.  The columns of a primary key lose
their mark. -/
def removeIndex (t id : Nat) : Action Store (Option TreeIndex) := do
  let table := (← get).table t
  match ← onEngine t (Engine.removeIndex id) with
  | none => pure none
  | some ix =>
    note (.indexRemoved ix.spec.name table.engine.name)
    if ix.spec.type.primaryKey then
      modifyTable t fun table =>
        { table with columns := table.columns.markPrimary false ix.spec.columns }
    note (.indexDetached id table.name)
    pure (some ix)

def handOver (id : Nat) (users : List Constraint) : Action Store Unit :=
  users.forM fun c => do
    onFired (c.takeIndex id)
    modifyCatalog (·.update ⟨.constraint, c.id⟩)

/-- Drops an index, unless constraints use it, which then take it over. -/
def releaseIndex (t id : Nat) : Action Store Unit := do
  match ((← get).table t).constraints.filter (·.usesIndex id) with
  | [] =>
    modifyCatalog (·.removeSchemaObject ⟨.index, id⟩)
    discard (removeIndex t id)
  | users => handOver id users

/-! ## Attached objects -/

/-- Attaches a constraint, unless one with its number is there already. -/
def addConstraint (t : Nat) (c : Constraint) : Action Store Unit := do
  let table := (← get).table t
  match table.attachConstraint? c with
  | some table => modify (·.setTable t table)
  | none => note (.constraintPresent c.id table.name)

def removeConstraint (t id : Nat) : Action Store (Option Constraint) := do
  let (found, rest) := detachFirst (·.id == id) ((← get).table t).constraints
  modifyTable t ({ · with constraints := rest })
  pure found

def addTrigger (t : Nat) (trigger : Trigger) : Action Store Unit :=
  modifyTable t fun table => { table with triggers := table.triggers ++ [trigger] }

def removeTrigger (t id : Nat) : Action Store (Option Trigger) := do
  let (found, rest) := detachFirst (·.id == id) ((← get).table t).triggers
  modifyTable t ({ · with triggers := rest })
  pure found

def addSequence (t : Nat) (sequence : SequenceRef) : Action Store Unit :=
  modifyTable t fun table => { table with sequences := table.sequences ++ [sequence] }

def removeSequence (t id : Nat) : Action Store (Option SequenceRef) := do
  let (found, rest) := detachFirst (·.id == id) ((← get).table t).sequences
  modifyTable t ({ · with sequences := rest })
  pure found

def addView (t : Nat) (view : View) : Action Store Unit :=
  modifyTable t fun table => { table with views := table.views ++ [view] }

def removeView (t id : Nat) : Action Store (Option View) := do
  let (found, rest) := detachFirst (·.id == id) ((← get).table t).views
  modifyTable t ({ · with views := rest })
  pure found

/-! ## Dropping what uses a column -/

/-- The constraints that look at a column; one that looks at others too is refused. -/
def constraintsOn (column : Nat) (constraints : List Constraint) :
    Except StoreError (List Constraint) := do
  let users := constraints.filter (·.columns.contains column)
  match users.find? (1 < ·.columns.length) with
  | some c => .error (.columnIsReferenced c.sql)
  | none => .ok users

/-- The indexes, with a statement that creates them, that hold a column; one that holds others too is
refused. -/
def indexesOn (column : Nat) (indexes : List TreeIndex) : Except StoreError (List TreeIndex) := do
  let users := indexes.filter fun ix => ix.sql?.isSome && (ix.placeOf? column).isSome
  match users.find? (1 < ·.spec.columns.length) with
  | some ix => .error (.columnIsReferenced (ix.sql?.getD ""))
  | none => .ok users

def dropConstraint (t : Nat) (c : Constraint) : Action Store Unit := do
  modifyCatalog (·.removeSchemaObject ⟨.constraint, c.id⟩)
  discard (removeConstraint t c.id)

/-- Drops an index of a table, if it is still attached. -/
def dropIndex (t : Nat) (ix : TreeIndex) : Action Store Unit := do
  if (((← get).table t).engine.index? ix.spec.id).isSome then
    modifyCatalog (·.removeSchemaObject ⟨.index, ix.spec.id⟩)
    discard (removeIndex t ix.spec.id)

/-- Drops the constraints and indexes that use a column alone; nothing is dropped where one of them
uses others too. -/
def dropColumnUses (t column : Nat) : Action Store Unit := do
  let table := (← get).table t
  let constraints ← Action.ofExcept (constraintsOn column table.constraints)
  let indexes ← Action.ofExcept (indexesOn column table.engine.indexes)
  constraints.forM (dropConstraint t)
  indexes.forM (dropIndex t)

/-! ## Checking of references -/

/-- Turns the checking of references on or off.  Turned on with `checkStored`, all constraints are
first checked on the stored rows; the flag stays where one refuses. -/
def setCheckReferences (t u : Nat) (enabled checkStored : Bool) : Action Store Unit := do
  let table := (← get).table t
  if enabled && checkStored then
    table.constraints.forM fun c => onChecks u (c.checkStored table.engine.rowList)
  modifyTable t fun table =>
    { table with flags := { table.flags with checkReferences := enabled } }

/-! ## Teardown -/

def removeChild (kind : ObjectKind) (id : Nat) : Action Store Unit :=
  modifyCatalog (·.removeSchemaObject ⟨kind, id⟩)

/-- Detaches an index of a table that is torn down; the catalog knows of it if a statement creates
it. -/
def teardownIndex (t : Nat) (ix : TreeIndex) : Action Store Unit := do
  if ix.sql?.isSome then
    removeChild .index ix.spec.id
  discard (removeIndex t ix.spec.id)

/-- Removes a sequence of a table that is torn down, unless the table is temporary or another one uses
it. -/
def teardownSequence (table : Table) (sequence : SequenceRef) : Action Store Unit := do
  if !table.flags.temporary && ((← get).catalog.otherUser? sequence.id table.id).isNone then
    removeChild .sequence sequence.id

/-- Removes all that depends on a table: views, triggers, constraints, indexes, rights, its record, and
last its sequences. -/
def teardown (t : Nat) : Action Store Unit := do
  let table := (← get).table t
  table.views.forM fun v => removeChild .view v.id
  table.triggers.forM fun trigger => removeChild .trigger trigger.id
  table.constraints.forM fun c => removeChild .constraint c.id
  modifyTable t ({ · with views := [], triggers := [], constraints := [] })
  table.engine.indexes.forM (teardownIndex t)
  ((← get).catalog.rightsOn table.id).forM fun r => modifyCatalog (·.removeRight r.id)
  modifyCatalog (·.removeMeta table.id)
  table.sequences.forM (teardownSequence table)
  modifyTable t ({ · with sequences := [] })
  note (.childrenRemoved table.name table.id)

end RowStore.Store
