import RowStore.Row

/-!
# Events on rows

* `RowChange` : what becomes of a row, by whether there is an old and a new one;
* `Events` : a set of events, as bits;
* `FireRecord` : what triggers and constraints leave in the fire log, with its text.
-/

namespace RowStore

inductive RowChange where
  | insert
  /-- It is replaced. -/
  | update
  | delete
  /-- Nothing. -/
  | none
deriving DecidableEq

namespace RowChange

def of (old new : Option Row) : RowChange :=
  match old.isSome, new.isSome with
  | false, true => insert
  | true, true => update
  | true, false => delete
  | false, false => none

/-- The bit of a change; that of nothing is no bit. -/
def bit : RowChange → Nat
  | insert => 1
  | update => 2
  | delete => 4
  | none => 0

def name : RowChange → String
  | insert => "insert"
  | update => "update"
  | delete => "delete"
  | none => "none"

def named? (s : String) : Option RowChange :=
  [insert, update, delete, none].find? (·.name == s)

end RowChange

/-- A set of events: 1 for inserts, 2 for updates, 4 for deletes, 8 for selects, 16 for rollbacks. -/
structure Events where
  bits : Nat
deriving DecidableEq

namespace Events

def meets (a b : Events) : Bool := a.bits &&& b.bits != 0

def ofChange (c : RowChange) : Events := ⟨c.bit⟩

def hasSelect (e : Events) : Bool := e.bits.testBit 3

end Events

def Row.renderOption : Option Row → String
  | none => "-"
  | some r => r.render

/-- The text of a change from an old row to a new one. -/
def renderChange (old new : Option Row) : String :=
  Row.renderOption old ++ " -> " ++ Row.renderOption new

/-- An entry of the fire log. -/
inductive FireRecord where
  /-- A trigger fired on a statement. -/
  | statement (trigger : String) (before : Bool)
  /-- A trigger fired on a row. -/
  | row (trigger : String) (before rollback : Bool)
  /-- A trigger saw a change. -/
  | change (old new : Option Row)
  | checked (constraint : String)
  /-- A constraint was checked on a change, while so many rows were stored. -/
  | checkedChange (constraint : String) (old new : Option Row) (rows : Nat)
  /-- A constraint took over an index. -/
  | owns (constraint : String) (index : Nat)
  | rebuilt (constraint : String)
deriving DecidableEq

def phaseName (before : Bool) : String := if before then "before" else "after"

def FireRecord.render : FireRecord → String
  | statement trigger before => trigger ++ " " ++ phaseName before ++ " statement"
  | row trigger before rollback =>
      trigger ++ " " ++ phaseName before ++ if rollback then " rollback" else ""
  | change old new => renderChange old new
  | checked constraint => constraint ++ " checked"
  | checkedChange constraint old new rows =>
      constraint ++ " checked " ++ renderChange old new ++ " rows " ++ toString rows
  | owns constraint index => constraint ++ " owns " ++ toString index
  | rebuilt constraint => constraint ++ " rebuilt"

end RowStore
