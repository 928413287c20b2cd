import RowStore.Action
import RowStore.Table.Event

/-!
# Triggers

* `Trigger` : when a trigger fires and what it does then: it leaves a record, and may refuse a change
  or handle it itself;
* `Trigger.fire`, `Trigger.fireRow` : its two hooks, on the fire log.
-/

namespace RowStore

/-- The entries of the fire log, the oldest first. -/
abbrev FireLog := List FireRecord

namespace FireLog

def add (r : FireRecord) : Action FireLog Unit := modify (· ++ [r])

end FireLog

/-- What a trigger does beyond leaving its record. -/
structure TriggerScript where
  /-- It refuses what it fires on. -/
  fails : Bool
  /-- It handles changes of rows that hold this value. -/
  handles : Option Value

structure Trigger where
  id : Nat
  name : String
  /-- The events it fires on. -/
  events : Events
  /-- It fires before the change rather than after it. -/
  before : Bool
  /-- It fires on each row rather than on the statement. -/
  rowBased : Bool
  /-- It handles every change itself. -/
  insteadOf : Bool
  /-- What else it does. -/
  script : Option TriggerScript := none

namespace Trigger

def isSelect (t : Trigger) : Bool := t.events.hasSelect

/-- The trigger fires on a statement with the given events in the given phase. -/
def firesOnStatement (t : Trigger) (events : Events) (before : Bool) : Bool :=
  !t.rowBased && t.before == before && t.events.meets events

/-- The trigger fires on a change of a row in the given phase. -/
def firesOnRow (t : Trigger) (change : RowChange) (before : Bool) : Bool :=
  t.rowBased && t.before == before && t.events.meets (.ofChange change)

def refuseIf (t : Trigger) (script : TriggerScript) : Action FireLog Unit :=
  if script.fails then Action.refuse (.unsupported ("trigger " ++ t.name)) else pure ()

def fire (t : Trigger) (before : Bool) : Action FireLog Unit := do
  FireLog.add (.statement t.name before)
  match t.script with
  | none => pure ()
  | some script => t.refuseIf script

def anyHolds (v : Value) (old new : Option Row) : Bool :=
  (old.toList ++ new.toList).any fun r => r.values.contains v

/-- Fires on a change of a row.  Yields whether the trigger handled the change itself. -/
def fireRow (t : Trigger) (old new : Option Row) (rollback : Bool) : Action FireLog Bool := do
  FireLog.add (.row t.name t.before rollback)
  match t.script with
  | none => pure t.insteadOf
  | some script =>
    FireLog.add (.change old new)
    t.refuseIf script
    pure (t.insteadOf || (script.handles.map fun v => anyHolds v old new).getD false)

end Trigger

end RowStore
