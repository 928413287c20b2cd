import RowStore.Store.Basic

/-!
# Triggers and constraints around changes

* `Store.fire` : the triggers on a statement;
* `Store.fireBeforeRow`, `Store.fireAfterRow` : the triggers and constraints around one change of a
  row.

Before a change, a trigger may handle it; then neither further triggers nor constraints see it.  After a
change, constraints are checked in any case, but not when earlier work is undone.
-/

namespace RowStore.Store

def fire (t : Nat) (events : Events) (before : Bool) : Action Store Unit := do
  let triggers := ((← get).table t).triggers.filter (·.firesOnStatement events before)
  onFired (triggers.forM (·.fire before))

/-- Fires triggers on a change until one has handled it.  Yields whether one has. -/
def fireUntilHandled (old new : Option Row) (rollback : Bool) : List Trigger → Action FireLog Bool
  | [] => pure false
  | trigger :: rest => do
    if ← trigger.fireRow old new rollback then pure true
    else fireUntilHandled old new rollback rest

/-- Fires the triggers on a change of a row.  Yields whether one has handled it. -/
def fireTriggers (t : Nat) (before : Bool) (old new : Option Row) (rollback : Bool) :
    Action Store Bool := do
  let change := RowChange.of old new
  let triggers := ((← get).table t).triggers.filter (·.firesOnRow change before)
  onFired (fireUntilHandled old new rollback triggers)

def checkConstraints (t u : Nat) (before : Bool) (old new : Option Row) : Action Store Unit := do
  let table := (← get).table t
  (table.constraints.filter (·.before == before)).forM fun c =>
    onChecks u (c.checkRow table.engine.rowCount old new)

/-- What happens before a change of a row.  Yields whether a trigger has handled it. -/
def fireBeforeRow (t u : Nat) (old new : Option Row) : Action Store Bool := do
  let handled ← fireTriggers t true old new false
  if !handled then
    checkConstraints t u true old new
  pure handled

def fireAfterRow (t u : Nat) (old new : Option Row) (rollback : Bool) : Action Store Unit := do
  discard (fireTriggers t false old new rollback)
  if !rollback then
    checkConstraints t u false old new

end RowStore.Store
