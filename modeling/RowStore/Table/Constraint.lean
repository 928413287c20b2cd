import RowStore.Expr
import RowStore.Table.Trigger

/-!
# Constraints

* `ConstraintKind` : the kinds of constraints, with their names;
* `Constraint` : a condition on rows, or a double that leaves a record and refuses what it is told to;
* `Constraint.checkRow` : checks one change of a row;
* `Constraint.rebuild`, `Constraint.takeIndex` : what a constraint does when its table is renamed, and
  when it takes over an index.
-/

namespace RowStore

inductive ConstraintKind where
  /-- A condition on each row. -/
  | check
  | primaryKey
  /-- No two rows agree. -/
  | unique
  /-- A reference to another table. -/
  | referential
deriving DecidableEq

namespace ConstraintKind

def name : ConstraintKind → String
  | check => "CHECK"
  | primaryKey => "PRIMARY KEY"
  | unique => "UNIQUE"
  | referential => "REFERENTIAL"

def all : List ConstraintKind := [check, primaryKey, unique, referential]

end ConstraintKind

structure ConstraintScript where
  kind : ConstraintKind
  /-- The columns it looks at. -/
  columns : List Nat
  /-- The indexes it enforces itself through. -/
  uses : List Nat
  /-- The changes it refuses. -/
  denies : List RowChange
  /-- It cannot be rebuilt. -/
  failsRebuild : Bool

inductive ConstraintRule where
  /-- That the condition is not false of a new row. -/
  | condition (e : Expr) (columns : List Nat)
  /-- That a new row does not hold the value in the column; each check is recorded. -/
  | recorded (column : Nat) (rejected : Option Value)
  /-- What a script says; each check is recorded. -/
  | scripted (script : ConstraintScript)

structure Constraint where
  id : Nat
  name : String
  /-- It is checked before the change rather than after it. -/
  before : Bool
  /-- What it demands. -/
  rule : ConstraintRule

/-- The state that constraints work on: sequences, and the fire log. -/
structure CheckState where
  /-- The sequences, which a condition may draw from. -/
  numbering : Numbering
  fired : FireLog

namespace CheckState

def onNumbering {α : Type} (act : Action Numbering α) : Action CheckState α :=
  act.within (·.numbering) fun n s => { s with numbering := n }

def record (r : FireRecord) : Action CheckState Unit :=
  (FireLog.add r).within (·.fired) fun log s => { s with fired := log }

end CheckState

namespace Constraint

def kind (c : Constraint) : ConstraintKind :=
  match c.rule with
  | .scripted script => script.kind
  | _ => .check

def columns (c : Constraint) : List Nat :=
  match c.rule with
  | .condition _ columns => columns
  | .recorded column _ => [column]
  | .scripted script => script.columns

def usesIndex (c : Constraint) (index : Nat) : Bool :=
  match c.rule with
  | .scripted script => script.uses.contains index
  | _ => false

def dependencies (c : Constraint) : List ObjectId :=
  match c.rule with
  | .condition e _ => e.dependencies
  | _ => []

def sql (c : Constraint) : String :=
  match c.rule with
  | .condition e _ => "CONSTRAINT " ++ Text.identifier c.name ++ " CHECK " ++ e.sql
  | .recorded column _ => "CONSTRAINT " ++ Text.identifier c.name ++ " CHECK ("
      ++ Text.identifier (toString column) ++ ")"
  | .scripted script => "CONSTRAINT " ++ c.name ++ " " ++ script.kind.name

/-- Checks a condition on a row; only FALSE refuses it. -/
def checkCondition (c : Constraint) (e : Expr) (r : Row) : Action CheckState Unit := do
  if (← CheckState.onNumbering (e.eval (some r))) = .boolean false then
    Action.refuse (.checkViolated c.name (e.sql ++ " on " ++ r.render))

/-- Checks that a row does not hold a value in a column. -/
def checkRejected (c : Constraint) (column : Nat) (rejected : Value) (r : Row) :
    Action CheckState Unit := do
  if (← Action.slot (r.value? column)) = rejected then
    Action.refuse (.checkViolated c.name r.render)

/-- Checks a change of a row of a table that stores so many rows. -/
def checkRow (c : Constraint) (rows : Nat) (old new : Option Row) : Action CheckState Unit :=
  match c.rule with
  | .condition e _ =>
    match new with
    | none => pure ()
    | some r => c.checkCondition e r
  | .recorded column rejected => do
    CheckState.record (.checked c.name)
    match new, rejected with
    | some r, some v => c.checkRejected column v r
    | _, _ => pure ()
  | .scripted script => do
    CheckState.record (.checkedChange c.name old new rows)
    let change := RowChange.of old new
    if script.denies.contains change then
      Action.refuse (.referenceViolated c.name change.name)

def checkStored (c : Constraint) (stored : List Row) : Action CheckState Unit :=
  stored.forM fun r => c.checkRow stored.length none (some r)

def rebuild (c : Constraint) : Action FireLog Unit :=
  match c.rule with
  | .scripted script => do
    FireLog.add (.rebuilt c.name)
    if script.failsRebuild then
      Action.refuse (.internal ("rebuild of " ++ c.name))
  | _ => pure ()

def takeIndex (c : Constraint) (index : Nat) : Action FireLog Unit :=
  match c.rule with
  | .scripted _ => FireLog.add (.owns c.name index)
  | _ => pure ()

end Constraint

end RowStore
