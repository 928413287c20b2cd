import RowStore.DataType

/-!
# Failures

* `StoreError` : the causes for which an operation is refused;
* `StoreError.message`, `StoreError.code` : what is reported for each;
* `describe` : the general text of a code;
* `StoreError.isViolation` : a rule on the data refused a row;
* `Fault` : a refusal, or an index past the end of what it indexes.
-/

namespace RowStore

/-- The cause for which an operation is refused. -/
inductive StoreError where
  /-- A type, or a pair of types, has no common type. -/
  | unknownDataType (what : String)
  /-- Two columns of a table would have one name. -/
  | duplicateColumnName (name : String)
  /-- No column has this name. -/
  | columnNotFound (name : String)
  /-- A constraint or an index over several columns uses the column. -/
  | columnIsReferenced (sql : String)
  /-- Another transaction has changed the row. -/
  | concurrentUpdate (table : String)
  /-- There is no such index. -/
  | indexNotFound (name : String)
  | statementCanceled
  /-- NULL was written to a column that does not take it. -/
  | nullNotAllowed (column : String)
  /-- A unique index holds the value already. -/
  | duplicateKey (table index value : String)
  /-- A condition does not hold. -/
  | checkViolated (constraint detail : String)
  /-- A reference would dangle. -/
  | referenceViolated (constraint detail : String)
  /-- A value has no counterpart in the target type. -/
  | dataConversion (value : String) (target : DataType)
  /-- A lock was not granted in time. -/
  | lockTimeout (table : String)
  /-- Waiting for a lock would close a cycle of waiting sessions. -/
  | deadlock (table sessions : String)
  /-- The row to delete is not stored. -/
  | rowNotFound (table : String)
  /-- A sequence has no further number. -/
  | sequenceExhausted (name : String)
  /-- The database takes no writes. -/
  | readOnly
  /-- The operation is not offered. -/
  | unsupported (what : String)
  /-- An internal rule was broken. -/
  | internal (what : String)
deriving DecidableEq

def describe : Nat → Option String
  | 22018 => some "Data conversion error"
  | 23502 => some "NULL not allowed for column"
  | 23503 => some "Referential integrity constraint violation"
  | 23505 => some "Unique index or primary key violation"
  | 23513 => some "Check constraint violation"
  | 40001 => some "Deadlock detected"
  | 42112 => some "Index not found"
  | 42121 => some "Duplicate column name"
  | 42122 => some "Column not found"
  | 50000 => some "General error"
  | 50004 => some "Unknown data type"
  | 50100 => some "Feature not supported"
  | 50200 => some "Timeout trying to lock table"
  | 57014 => some "Statement was canceled or the session timed out"
  | 90006 => some "Sequence has run out of numbers"
  | 90083 => some "Column is referenced by a constraint or index"
  | 90097 => some "The database is read only"
  | 90112 => some "Row not found when trying to delete"
  | 90131 => some "Concurrent update"
  | _ => none

namespace StoreError

def code : StoreError → Nat
  | unknownDataType _ => 50004
  | duplicateColumnName _ => 42121
  | columnNotFound _ => 42122
  | columnIsReferenced _ => 90083
  | concurrentUpdate _ => 90131
  | indexNotFound _ => 42112
  | statementCanceled => 57014
  | nullNotAllowed _ => 23502
  | duplicateKey .. => 23505
  | checkViolated .. => 23513
  | referenceViolated .. => 23503
  | dataConversion .. => 22018
  | lockTimeout _ => 50200
  | deadlock .. => 40001
  | rowNotFound _ => 90112
  | sequenceExhausted _ => 90006
  | readOnly => 90097
  | unsupported _ => 50100
  | internal _ => 50000

def message : StoreError → String
  | unknownDataType what => "Unknown data type: `" ++ what ++ "`"
  | duplicateColumnName name => "Duplicate column name `" ++ name ++ "`"
  | columnNotFound name => "Column `" ++ name ++ "` not found"
  | columnIsReferenced sql => "Column may be referenced by `" ++ sql ++ "`"
  | concurrentUpdate table => "Concurrent update in table `" ++ table
      ++ "`: another transaction has updated or deleted the same row"
  | indexNotFound name => "Index `" ++ name ++ "` not found"
  | statementCanceled => "Statement was canceled or the session timed out"
  | nullNotAllowed column => "NULL not allowed for column `" ++ column ++ "`"
  | duplicateKey table index value => "Unique index or primary key violation: `" ++ index
      ++ "` on table `" ++ table ++ "`, value " ++ value
  | checkViolated constraint detail =>
      "Check constraint violation: `" ++ constraint ++ "`: " ++ detail
  | referenceViolated constraint detail =>
      "Referential integrity constraint violation: `" ++ constraint ++ "`: " ++ detail
  | dataConversion value target =>
      "Data conversion error converting `" ++ value ++ "` to " ++ target.name
  | lockTimeout table => "Timeout trying to lock table `" ++ table ++ "`"
  | deadlock table sessions => "Deadlock detected while locking table `" ++ table
      ++ "`, sessions involved: " ++ sessions
  | rowNotFound table => "Row not found when trying to delete from `" ++ table ++ "`"
  | sequenceExhausted name => "Sequence `" ++ name ++ "` has run out of numbers"
  | readOnly => "The database is read only"
  | unsupported what => "Feature not supported: " ++ what
  | internal what => "Internal error: " ++ what

def isViolation : StoreError → Bool
  | nullNotAllowed _ | duplicateKey .. | checkViolated .. | referenceViolated .. => true
  | _ => false

end StoreError

/-- How an operation fails. -/
inductive Fault where
  /-- It was refused, for a cause. -/
  | error (cause : StoreError)
  /-- It read or wrote past the end of a row or of the columns. -/
  | outOfRange
deriving DecidableEq

end RowStore
