import RowStore.Catalog
import RowStore.Engine.Access
import RowStore.Table.ColumnSet
import RowStore.Table.Constraint

/-!
# Tables

* `TableSpec` : what a table is created from;
* `Table` : its columns, its rows with their indexes, and the objects attached to it;
* `Table.attachConstraint?`, `detachFirst` : attaching and detaching objects;
* `Capabilities` : what the storage of a table can do; `Table.capabilities` : that of a table;
* `Table.dependencies`, `Table.children` : the objects it depends on, and those that depend on it.
-/

namespace RowStore

structure TableSpec where
  id : Nat
  name : String
  columns : List Column
  /-- The schema it belongs to. -/
  schema : Nat := 0
  /-- Its indexes are kept. -/
  persistIndexes : Bool := true
  /-- Its rows are kept. -/
  persistData : Bool := true
  /-- It belongs to a session. -/
  temporary : Bool := false
  /-- A value whose rows cannot be added, as if another transaction changed them at the same time. -/
  contested : Option Value := none

/-- What the storage of a table can do.  An engine may leave out the last fields. -/
structure Capabilities where
  kind : TableKind
  deterministic : Bool
  countsRows : Bool
  canDrop : Bool
  /-- The bytes that it takes on disk. -/
  diskSpace : Nat
  canReference : Bool := true
  /-- It can be emptied in one go. -/
  canTruncate : Bool := false
  globalTemporary : Bool := false
  /-- The column that exposes the keys of the rows. -/
  keyColumn : Option Nat := none
deriving DecidableEq

def Engine.capabilities : Capabilities where
  kind := .table
  deterministic := true
  countsRows := true
  canDrop := true
  diskSpace := 0
  canTruncate := true

/-- Flags of a table that change during its life. -/
structure TableFlags where
  /-- It belongs to a session. -/
  temporary : Bool := false
  /-- Listings leave it out. -/
  hidden : Bool := false
  /-- The name of the engine it was created with. -/
  engineName : Option String := none
  /-- A commit drops it. -/
  dropOnCommit : Bool := false
  /-- A commit empties it. -/
  truncateOnCommit : Bool := false
  /-- References are checked. -/
  checkReferences : Bool := true

structure Table where
  id : Nat
  name : String
  /-- The schema it belongs to. -/
  schema : Nat := 0
  engine : Engine
  /-- A value whose rows cannot be added, as if another transaction changed them at the same time. -/
  contested : Option Value := none
  columns : ColumnSet := {}
  /-- Its indexes are kept. -/
  persistIndexes : Bool := true
  /-- Its rows are kept. -/
  persistData : Bool := true
  collation : Collation := .binary
  flags : TableFlags := {}
  /-- The constraints, in the order in which they were attached. -/
  constraints : List Constraint := []
  /-- The triggers, in the order in which they were attached. -/
  triggers : List Trigger := []
  /-- The sequences, in the order in which they were attached. -/
  sequences : List SequenceRef := []
  /-- The views, in the order in which they were attached. -/
  views : List View := []

/-- Takes the first member that satisfies `p` out of a list. -/
def detachFirst {α : Type} (p : α → Bool) (xs : List α) : Option α × List α :=
  (xs.find? p, xs.eraseP p)

namespace Table

def empty (id : Nat) (name : String) : Table :=
  { id := id, name := name, engine := { table := id, name := name } }

/-- The table that a specification describes; `collation` holds unless the catalog has another. -/
def create? (spec : TableSpec) (collation : Collation) : Except StoreError Table := do
  let columns ← ColumnSet.install? spec.id true spec.columns
  pure { empty spec.id spec.name with
    schema := spec.schema
    contested := spec.contested
    columns := columns
    persistIndexes := spec.persistIndexes
    persistData := spec.persistData
    collation := collation
    flags := { temporary := spec.temporary } }

/-- Stores a row, unless it holds the contested value. -/
def addRow (r : Row) : Action Table Row := do
  let t ← get
  if t.contested.any r.values.contains then
    Action.refuse (.concurrentUpdate t.engine.name)
  (Engine.addRow r).within (·.engine) fun e t => { t with engine := e }

def removeRow (r : Row) : Action Table Unit :=
  (Engine.removeRow r).within (·.engine) fun e t => { t with engine := e }

/-- An engine in front of another one leaves out what it may. -/
def capabilities (t : Table) : Capabilities :=
  match t.contested with
  | none => Engine.capabilities
  | some _ =>
    { kind := Engine.capabilities.kind
      deterministic := Engine.capabilities.deterministic
      countsRows := Engine.capabilities.countsRows
      canDrop := Engine.capabilities.canDrop
      diskSpace := Engine.capabilities.diskSpace }

def checkAlter (_ : Table) : Except StoreError Unit := .ok ()

def rowEstimate (t : Table) : Nat := t.engine.rowCount

def firesOnRows (t : Table) : Bool := !t.constraints.isEmpty || !t.triggers.isEmpty

def hasSelectTrigger (t : Table) : Bool := t.triggers.any Trigger.isSelect

/-- The table with one more constraint; none if one with its number is there already. -/
def attachConstraint? (t : Table) (c : Constraint) : Option Table :=
  if t.constraints.any (·.id == c.id) then none
  else some { t with constraints := t.constraints ++ [c] }

def compare (t : Table) (a b : Value) : Except StoreError Ordering := do
  let type ← DataType.common a.dataType b.dataType
  pure (Value.collate t.collation (← a.convertTo type) (← b.convertTo type))

def primaryKey (t : Table) : Except StoreError Access :=
  match t.engine.primaryKey? with
  | some access => .ok access
  | none => .error (.indexNotFound ("PRIMARY KEY of " ++ t.name))

/-- The statement that would create a copy of the table; there is none. -/
def copySql (name : String) : Except StoreError String :=
  .error (.internal (TableKind.table.name ++ " does not support copying `" ++ name ++ "`"))

/-- Adds the objects that the table depends on, and the table itself, unless it is there already. -/
def dependencies (t : Table) (known : ObjectSet) : ObjectSet :=
  if ⟨.table, t.id⟩ ∈ known then known
  else
    ((known.insertAll (t.sequences.map fun s => ⟨.sequence, s.id⟩)).insertAll
      (t.columns.dependencies ++ t.constraints.flatMap Constraint.dependencies)).insert
      ⟨.table, t.id⟩

/-- The objects that depend on the table: indexes, constraints, triggers, sequences, views, rights. -/
def children (t : Table) (catalog : Catalog) : List ObjectId :=
  t.engine.accesses.map (⟨.index, ·.id⟩)
    ++ t.constraints.map (⟨.constraint, ·.id⟩)
    ++ t.triggers.map (⟨.trigger, ·.id⟩)
    ++ t.sequences.map (⟨.sequence, ·.id⟩)
    ++ t.views.map (⟨.view, ·.id⟩)
    ++ (catalog.rightsOn t.id).map (⟨.right, ·.id⟩)

end Table

end RowStore
