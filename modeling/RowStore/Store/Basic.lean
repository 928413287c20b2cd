import RowStore.Lock.Table
import RowStore.Options.Basic
import RowStore.Session
import RowStore.Table.Basic
import RowStore.Trace

/-!
# The store

* `Store` : tables, sessions, sequences, locks, catalog, fire log and trace;
* `Store.table`, `Store.session`, `Store.numbering` : its parts, with `Store.setTable` and so on;
* `Store.onTable`, `Store.onEngine`, `Store.onNumbering`, `Store.onChecks` : actions on a part;
* `Store.createSequence`, `Store.createTable` : new sequences and tables;
* `Draft` : a state with the row that is being written, which keeps its form when writing fails.
-/

namespace RowStore

/-- A database in memory. -/
structure Store where
  tables : OrderedMap Nat Table := ∅
  /-- The sessions that have acted, by number. -/
  sessions : OrderedMap Nat Session := ∅
  sequences : OrderedMap Nat Sequence := ∅
  /-- The locks of the tables. -/
  locks : LockTable := {}
  options : Options := {}
  catalog : Catalog := {}
  /-- The sessions that cannot restore rows. -/
  detached : List Nat := []
  /-- What triggers and constraints have recorded. -/
  fired : FireLog := []
  /-- What the store has reported. -/
  trace : List TraceRecord := []

namespace Store

variable {α : Type}

/-! ## Parts -/

/-- The table with a number; one that was never created is empty. -/
def table (s : Store) (t : Nat) : Table := (s.tables.find? t).getD (.empty t "")

def setTable (s : Store) (t : Nat) (table : Table) : Store :=
  { s with tables := s.tables.insert t table }

/-- The session with a number; one that has not acted yet is fresh. -/
def session (s : Store) (u : Nat) : Session := (s.sessions.find? u).getD {}

def setSession (s : Store) (u : Nat) (session : Session) : Store :=
  { s with sessions := s.sessions.insert u session }

/-- The sequences, and the identity value that a session drew last. -/
def numbering (s : Store) (u : Nat) : Numbering := ⟨s.sequences, (s.session u).lastIdentity⟩

/-- Puts sequences and the identity value of a session in their places. -/
def setNumbering (s : Store) (u : Nat) (n : Numbering) : Store :=
  { s.setSession u { s.session u with lastIdentity := n.lastIdentity } with
    sequences := n.sequences }

def onTable (t : Nat) (act : Action Table α) : Action Store α :=
  act.within (·.table t) fun table s => s.setTable t table

/-- Runs an action on the rows and indexes of a table. -/
def onEngine (t : Nat) (act : Action Engine α) : Action Store α :=
  onTable t (act.within (·.engine) fun e table => { table with engine := e })

def modifyTable (t : Nat) (f : Table → Table) : Action Store Unit := onTable t (modify f)

/-- Runs an action on the sequences on behalf of a session. -/
def onNumbering (u : Nat) (act : Action Numbering α) : Action Store α :=
  act.within (·.numbering u) fun n s => s.setNumbering u n

def onFired (act : Action FireLog α) : Action Store α :=
  act.within (·.fired) fun log s => { s with fired := log }

def onChecks (u : Nat) (act : Action CheckState α) : Action Store α :=
  act.within (fun s => ⟨s.numbering u, s.fired⟩) fun c s =>
    { s.setNumbering u c.numbering with fired := c.fired }

def modifyCatalog (f : Catalog → Catalog) : Action Store Unit :=
  modify fun s => { s with catalog := f s.catalog }

def note (r : TraceRecord) : Action Store Unit :=
  modify fun s => { s with trace := s.trace ++ [r] }

/-! ## New sequences and tables -/

def createSequence (rule : SequenceRule) : Action Store Unit := do
  let sequence ← Action.ofExcept (Sequence.create rule)
  modify fun s => { s with sequences := s.sequences.insert rule.id sequence }

def createTable (spec : TableSpec) : Action Store Unit := do
  let s ← get
  let table ← Action.ofExcept (Table.create? spec (s.catalog.collation.getD s.options.collation))
  set (s.setTable spec.id table)
  note (.columnsSet spec.name table.columns.width)
  note (.tableCreated spec.name spec.id)

end Store

/-! ## Rows that are being written -/

/-- A state with the row that is being written. -/
structure Draft (σ : Type) where
  state : σ
  row : Row

namespace Draft

variable {σ τ α : Type}

def onState (act : Action σ α) : Action (Draft σ) α :=
  act.within (·.state) fun s d => { d with state := s }

/-- Runs an action on a draft of a part of the state. -/
def within (part : τ → σ) (put : σ → τ → τ) (act : Action (Draft σ) α) : Action (Draft τ) α :=
  Action.within (fun d => ⟨part d.state, d.row⟩) (fun p d => ⟨put p.state d.state, p.row⟩) act

def modifyRow (f : Row → Row) : Action (Draft σ) Unit := modify fun d => { d with row := f d.row }

/-- Writes a row; where that succeeds, yields the result and the row as it was written. -/
def run (act : Action (Draft σ) α) (r : Row) : Action σ (α × Row) := fun s =>
  match act ⟨s, r⟩ with
  | .ok x d => .ok (x, d.row) d.state
  | .error fault d => .error fault d.state

end Draft

end RowStore
