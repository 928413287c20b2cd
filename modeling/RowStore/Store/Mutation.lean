import RowStore.Store.Firing
import RowStore.Store.Locking
import RowStore.Store.Values

/-!
# Changes of rows

* `Store.insert`, `Store.delete`, `Store.update` : the changes of rows, with all that surrounds them;
* `Store.updateRows` : the replacement of rows: all old ones go before a new one comes;
* `Store.rollbackTo` : takes back what a session has done since a savepoint.

Rows that trade unique values do not collide in `updateRows`.  A new row that meets a concurrent change
takes the whole replacement back; other refusals leave what was done, and the undo log to tell it.
-/

namespace RowStore

/-- The number of steps of a replacement from one look at its cancellation to the next. -/
def cancelInterval : Nat := 128

/-- A store with the new rows of a replacement, and the number of looks at its cancellation. -/
structure Batch where
  store : Store
  /-- The new rows; those stored already have their keys. -/
  rows : List Row
  /-- The number of looks at the cancellation. -/
  polls : Nat := 0

namespace Batch

def onStore {α : Type} (act : Action Store α) : Action Batch α :=
  act.within (·.store) fun s b => { b with store := s }

/-- Counts a step of a replacement.  Every so many steps, looks whether it was canceled: `canceled n`
says so of the `n`th look. -/
def poll (canceled : Nat → Bool) (step : Nat) : Action Batch Unit := do
  if step % cancelInterval = 0 then
    let polls := (← get).polls + 1
    modify ({ · with polls := polls })
    if canceled polls then
      Action.refuse .statementCanceled

end Batch

namespace Store

/-! ## Undoing -/

def log (t u : Nat) (op : UndoOp) (r : Row) : Action Store Unit :=
  modify fun s => s.setSession u ((s.session u).log ⟨t, op, r⟩)

/-- Takes back one change of a session.  A detached session reaches the rows of no table. -/
def undo (u : Nat) (r : UndoRecord) : Action Store Unit := do
  let s ← get
  if s.detached.contains u || !s.tables.contains r.table then
    Action.refuse (.internal ("no engine registered for table " ++ toString r.table))
  match r.op with
  | .inserted => onEngine r.table (Engine.removeRow r.row)
  | .deleted => discard (onEngine r.table (Engine.addRow r.row))

/-- Takes back what a session has done since a savepoint, the latest first.  The log is cut before the
first change is taken back. -/
def rollbackTo (u savepoint : Nat) : Action Store Unit := do
  let s ← get
  let (undone, session) := (s.session u).split savepoint
  set (s.setSession u session)
  undone.reverse.forM (undo u)

/-! ## Replacing rows -/

/-- Takes a replacement back to where it began, if a concurrent change was met. -/
def retreat (t u savepoint : Nat) (fault : Fault) : Action Store Unit := do
  match fault with
  | .error (.concurrentUpdate table) =>
    note (.updateUndone ((← get).table t).name savepoint (.concurrentUpdate table))
    rollbackTo u savepoint
  | _ => pure ()

/-- Removes old rows.  `step` counts the steps before. -/
def removeOld (t u : Nat) (canceled : Nat → Bool) (step : Nat) : List Row → Action Batch Unit
  | [] => pure ()
  | r :: rest => do
    Batch.poll canceled (step + 1)
    Batch.onStore do
      onTable t (Table.removeRow r)
      log t u .deleted r
    removeOld t u canceled (step + 1) rest

/-- Adds a new row, and takes the replacement back if that meets a concurrent change. -/
def addNew (t u savepoint : Nat) (r : Row) : Action Store Row := do
  try onTable t (Table.addRow r)
  catch fault =>
    retreat t u savepoint fault
    throw fault

/-- Adds new rows, the first of which stands at `place`. -/
def addAllNew (t u savepoint : Nat) (canceled : Nat → Bool) (step place : Nat) :
    List Row → Action Batch Unit
  | [] => pure ()
  | r :: rest => do
    Batch.poll canceled (step + 1)
    let stored ← Batch.onStore (addNew t u savepoint r)
    modify fun b => { b with rows := b.rows.set place stored }
    Batch.onStore (log t u .inserted stored)
    addAllNew t u savepoint canceled (step + 1) (place + 1) rest

def updateRows (t u : Nat) (canceled : Nat → Bool) (old : List Row) : Action Batch Unit := do
  let b ← get
  let savepoint := (b.store.session u).position
  removeOld t u canceled 0 old
  addAllNew t u savepoint canceled old.length 0 b.rows

/-! ## Whole changes -/

/-- What every change of rows begins with: writes are taken and the table is locked. -/
def beginChange (t u : Nat) : Action Store Unit := do
  checkWriting
  lock t u true false

/-- Inserts the row of the draft.  Yields false if a trigger has handled the insert. -/
def insert (t u : Nat) : Action (Draft Store) Bool := do
  Draft.onState (beginChange t u)
  fitRow t u
  let d ← get
  let fires := (d.state.table t).firesOnRows
  if fires && (← Draft.onState (fireBeforeRow t u none (some d.row))) then
    pure false
  else
    let stored ← Draft.onState (onTable t (Table.addRow d.row))
    Draft.modifyRow fun _ => stored
    Draft.onState (log t u .inserted stored)
    if fires then
      Draft.onState (fireAfterRow t u none (some stored) false)
    pure true

/-- Deletes the row stored under a row's key.  Yields false if a trigger has handled the delete. -/
def delete (t u : Nat) (r : Row) : Action Store Bool := do
  beginChange t u
  let fires := ((← get).table t).firesOnRows
  if fires && (← fireBeforeRow t u (some r) none) then
    pure false
  else
    onTable t (Table.removeRow r)
    log t u .deleted r
    if fires then
      fireAfterRow t u (some r) none false
    pure true

/-- Fits the new rows of pairs, each under the key of its old row, and lets triggers handle them.  Yields
the pairs that are left. -/
def prepare (t u : Nat) (fires : Bool) : List (Row × Row) → Action Store (List (Row × Row))
  | [] => pure []
  | (old, new) :: rest => do
    let (_, new) ← Draft.run (fitRow t u) { new with key := old.key }
    let handled ← if fires then fireBeforeRow t u (some old) (some new) else pure false
    let left ← prepare t u fires rest
    pure (if handled then left else (old, new) :: left)

/-- Replaces the old row of each pair by its new one.  Yields the number of pairs that no trigger has
handled. -/
def update (t u : Nat) (canceled : Nat → Bool) (pairs : List (Row × Row)) : Action Batch Nat := do
  Batch.onStore (beginChange t u)
  let fires := ((← get).store.table t).firesOnRows
  let pending ← Batch.onStore (prepare t u fires pairs)
  let old := pending.map (·.1)
  modify ({ · with rows := pending.map (·.2) })
  updateRows t u canceled old
  if fires then
    let rows := (← get).rows
    Batch.onStore ((old.zip rows).forM fun p => fireAfterRow t u (some p.1) (some p.2) false)
  pure pending.length

def addRow (t : Nat) : Action (Draft Store) Unit := do
  let stored ← Draft.onState (onTable t (Table.addRow (← get).row))
  Draft.modifyRow fun _ => stored

/-- Removes the row stored under a row's key, and nothing else. -/
def removeRow (t : Nat) (r : Row) : Action Store Unit := onTable t (Table.removeRow r)

def truncate (t : Nat) : Action Store Unit := onEngine t (modify Engine.truncate)

end Store

end RowStore
