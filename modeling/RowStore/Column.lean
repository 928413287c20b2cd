import RowStore.Expr

/-!
# Columns

* `Column` : a named, typed column; `Column.build` makes one from the clauses of its definition;
* `Column.fit` : fits a value to be written: default, NULL rule, conversion, sequence;
* `Column.sql` : the definition as text;
* `Column.dependencies` : the catalog objects that its expressions use.
-/

namespace RowStore

structure Column where
  name : String
  /-- The declared type. -/
  dataType : DataType
  /-- The table that owns the column. -/
  table : Option Nat := none
  /-- The place in the rows of that table. -/
  place : Nat := 0
  /-- NULL may be stored. -/
  nullable : Bool := true
  /-- The column belongs to the primary key. -/
  primaryKey : Bool := false
  /-- The assumed share of distinct values, in percent. -/
  selectivity : Nat := 50
  /-- What an unset value becomes. -/
  default : Option Expr := none
  /-- What the column is computed from. -/
  computed : Option Expr := none
  /-- The sequence of an identity column. -/
  sequence : Option SequenceRef := none
  /-- A NULL that is written becomes the default. -/
  nullToDefault : Bool := false
deriving DecidableEq

/-- A clause of a column's definition. -/
inductive ColumnClause where
  /-- NULL may not be stored. -/
  | notNull
  /-- The column belongs to the primary key. -/
  | primaryKey
  /-- What an unset value becomes. -/
  | default (e : Expr)
  /-- What the column is computed from. -/
  | computed (e : Expr)
  /-- The column is an identity column of a sequence. -/
  | identity (s : SequenceRef)
  /-- The assumed share of distinct values, brought between 1 and 100. -/
  | selectivity (percent : Nat)
  /-- A NULL that is written becomes the default. -/
  | nullToDefault

/-- A value as a column takes it. -/
inductive Fitted where
  /-- The given value can be written. -/
  | unchanged
  /-- Another value is to be written. -/
  | replaced (v : Value)
deriving DecidableEq

def Fitted.value (given : Option Value) : Fitted → Value
  | unchanged => given.getD .null
  | replaced v => v

namespace Column

def apply (c : Column) : ColumnClause → Column
  | .notNull => { c with nullable := false }
  | .primaryKey => { c with primaryKey := true, nullable := false }
  | .default e => { c with default := some e }
  | .computed e => { c with computed := some e }
  | .identity s => { c with default := some (.nextValue s), sequence := some s, nullable := false }
  | .selectivity percent => { c with selectivity := max 1 (min percent 100) }
  | .nullToDefault => { c with nullToDefault := true }

def build (name : String) (dataType : DataType) (clauses : List ColumnClause) : Column :=
  clauses.foldl apply { name := name, dataType := dataType }

def isComputed (c : Column) : Bool := c.computed.isSome

def convert (c : Column) (v : Value) : Except StoreError Value := v.convertTo c.dataType

/-- The default of a column, NULL without one.  An identity column remembers what it drew. -/
def evalDefault (c : Column) : Action Numbering Value := do
  match c.default with
  | none => pure .null
  | some e =>
    let v ← Action.ofExcept (c.convert (← e.eval none))
    if c.sequence.isSome then
      Numbering.remember v
    pure v

/-- Steps the sequence of an identity column past an integer that is written. -/
def observe (c : Column) (v : Value) : Action Numbering Unit :=
  match c.sequence, v.toInt? with
  | some s, some n => Numbering.observe s n
  | _, _ => pure ()

/-- The default in place of a NULL, where the column asks for that. -/
def replaceNull (c : Column) (v : Value) : Action Numbering Fitted :=
  if v.isNull && c.nullToDefault then return .replaced (← c.evalDefault) else pure .unchanged

/-- Fits a value that is neither unset nor to be replaced. -/
def accept (c : Column) (v : Value) : Action Numbering Fitted := do
  if v.isNull then
    if c.nullable then pure .unchanged else Action.refuse (.nullNotAllowed c.name)
  else if v.dataType = c.dataType then
    c.observe v
    pure .unchanged
  else
    let w ← Action.ofExcept (c.convert v)
    c.observe w
    pure (.replaced w)

/-- Fits a value to be written.  An unset one becomes the default, a NULL too where the column asks
for that; then NULL is refused by a column that does not take it, and other values are converted to
the column's type.  The sequence of an identity column steps past what is written. -/
def fit (c : Column) (given : Option Value) : Action Numbering Fitted := do
  let first ← match given with
    | some v => pure v
    | none => c.evalDefault
  let second ← c.replaceNull first
  let v := second.value (some first)
  let third ← c.accept v
  match given, second, third with
  | some _, .unchanged, .unchanged => pure .unchanged
  | _, _, _ => pure (.replaced (third.value (some v)))

def dependencies (c : Column) : List ObjectId :=
  (c.default.map Expr.dependencies).getD [] ++ (c.computed.map Expr.dependencies).getD []

def sql (c : Column) : String :=
  let value := match c.computed, c.default with
    | some e, _ => " AS " ++ e.sql
    | none, some e => " DEFAULT " ++ e.sql
    | none, none => ""
  let null := if c.nullable then "" else " NOT NULL"
  Text.identifier c.name ++ " " ++ c.dataType.name ++ value ++ null

end Column

end RowStore
