import RowStore.Collation
import RowStore.Error
import RowStore.ObjectId

/-!
# The catalog

* `Catalog` : rights, users of sequences, whether writes are taken, and a record of its changes;
* `Catalog.removeSchemaObject`, `Catalog.removeRight`, `Catalog.removeMeta`, `Catalog.update` : the
  changes;
* `Catalog.otherUser?` : a table that uses a sequence beside a given one;
* `TableKind` : the kinds of tables, with their names.
-/

namespace RowStore

inductive TableKind where
  /-- A table with rows of its own. -/
  | table
  /-- A table of the system. -/
  | systemTable
  | view
  /-- A link to a table elsewhere. -/
  | tableLink
  | external
deriving DecidableEq

def TableKind.name : TableKind → String
  | table => "TABLE"
  | systemTable => "SYSTEM TABLE"
  | view => "VIEW"
  | tableLink => "TABLE LINK"
  | external => "EXTERNAL"

def TableKind.all : List TableKind := [table, systemTable, view, tableLink, external]

/-- A right granted to somebody. -/
structure Right where
  id : Nat
  /-- Who holds it. -/
  grantee : String
  /-- The table it is granted on, if it is one on a table. -/
  table : Option Nat
deriving DecidableEq

/-- A view over a table. -/
structure View where
  id : Nat
  name : String
  query : String
deriving DecidableEq

inductive CatalogEvent where
  /-- An object of a schema was removed. -/
  | removeSchemaObject (object : ObjectId)
  /-- An object of the whole database was removed. -/
  | removeDatabaseObject (object : ObjectId)
  /-- The record of a table was removed. -/
  | removeMeta (table : Nat)
  /-- The definition of an object was stored anew. -/
  | update (object : ObjectId)
deriving DecidableEq

def CatalogEvent.render : CatalogEvent → String
  | removeSchemaObject o => "remove schema object " ++ o.render
  | removeDatabaseObject o => "remove database object " ++ o.render
  | removeMeta table => "remove meta " ++ toString table
  | update o => "update " ++ o.render

structure Catalog where
  /-- Its changes, the oldest first. -/
  events : List CatalogEvent := []
  /-- The rights, in the order in which they were granted. -/
  rights : List Right := []
  /-- The uses of sequences by tables. -/
  sequenceUsers : List (Nat × Nat) := []
  /-- No writes are taken. -/
  readOnly : Bool := false
  /-- How new tables compare texts, if the catalog says so. -/
  collation : Option Collation := none

namespace Catalog

def record (c : Catalog) (event : CatalogEvent) : Catalog := { c with events := c.events ++ [event] }

def removeSchemaObject (c : Catalog) (o : ObjectId) : Catalog := c.record (.removeSchemaObject o)

def removeRight (c : Catalog) (id : Nat) : Catalog :=
  { c with rights := c.rights.filter (·.id ≠ id) }.record (.removeDatabaseObject ⟨.right, id⟩)

def removeMeta (c : Catalog) (table : Nat) : Catalog := c.record (.removeMeta table)

def update (c : Catalog) (o : ObjectId) : Catalog := c.record (.update o)

def rightsOn (c : Catalog) (table : Nat) : List Right := c.rights.filter (·.table = some table)

def grant (c : Catalog) (right : Right) : Catalog := { c with rights := c.rights ++ [right] }

def useSequence (c : Catalog) (sequence table : Nat) : Catalog :=
  { c with sequenceUsers := c.sequenceUsers ++ [(sequence, table)] }

def otherUser? (c : Catalog) (sequence table : Nat) : Option Nat :=
  (c.sequenceUsers.find? fun u => u.1 = sequence ∧ u.2 ≠ table).map (·.2)

end Catalog

end RowStore
