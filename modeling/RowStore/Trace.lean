import RowStore.Error

/-!
# The trace

* `TraceRecord` : what a store reports of its work;
* `TraceRecord.render` : the level and the text of a report.
-/

namespace RowStore

def renderSessions (sessions : List Nat) : String := ", ".intercalate (sessions.map toString)

/-- A report of a store on its work. -/
inductive TraceRecord where
  | locked (table : String) (session : Nat) (exclusive : Bool)
  /-- A request for a lock would have closed a cycle. -/
  | deadlocked (table : String) (sessions : List Nat)
  /-- A request for a lock ran out of time. -/
  | timedOut (table : String) (session : Nat)
  /-- An index was built over the stored rows. -/
  | indexBuilt (index table : String)
  /-- An index was attached to its table. -/
  | indexAttached (index : String) (id : Nat) (table : String)
  /-- An index was taken from the stored rows. -/
  | indexRemoved (index table : String)
  /-- An index was detached from its table. -/
  | indexDetached (id : Nat) (table : String)
  | tableCreated (table : String) (id : Nat)
  | tableRenamed (old new : String) (id : Nat)
  /-- A table got new columns. -/
  | columnsSet (table : String) (columns : Nat)
  /-- A constraint was there already. -/
  | constraintPresent (id : Nat) (table : String)
  /-- An update was taken back. -/
  | updateUndone (table : String) (savepoint : Nat) (cause : StoreError)
  /-- All that depends on a table was removed. -/
  | childrenRemoved (table : String) (id : Nat)
deriving DecidableEq

namespace TraceRecord

def level : TraceRecord → String
  | deadlocked .. => "WARN"
  | timedOut .. | updateUndone .. => "DEBUG"
  | _ => "TRACE"

def text : TraceRecord → String
  | locked table session exclusive => "TABLE LOCKED: " ++ table ++ ", session: " ++ toString session
      ++ ", exclusive: " ++ toString exclusive
  | deadlocked table sessions =>
      "TABLE LOCK DEADLOCK: " ++ table ++ ", sessions: " ++ renderSessions sessions
  | timedOut table session =>
      "TABLE LOCK TIMEOUT: " ++ table ++ ", session: " ++ toString session
  | indexBuilt index table => "INDEX CREATED: " ++ index ++ ", table: " ++ table
  | indexAttached index id table =>
      "INDEX CREATED: " ++ index ++ ", index_id: " ++ toString id ++ ", table: " ++ table
  | indexRemoved index table => "INDEX DROPPED: " ++ index ++ ", table: " ++ table
  | indexDetached id table => "INDEX DROPPED: " ++ toString id ++ ", table: " ++ table
  | tableCreated table id => "TABLE CREATED: " ++ table ++ ", table_id: " ++ toString id
  | tableRenamed old new id =>
      "TABLE RENAMED: " ++ old ++ " -> " ++ new ++ ", table_id: " ++ toString id
  | columnsSet table columns =>
      "TABLE COLUMNS SET: " ++ table ++ ", columns: " ++ toString columns
  | constraintPresent id table =>
      "CONSTRAINT ALREADY ATTACHED: " ++ toString id ++ ", table: " ++ table
  | updateUndone table savepoint cause => "TABLE UPDATE ROLLED BACK: " ++ table ++ ", savepoint: "
      ++ toString savepoint ++ ", cause: " ++ cause.message
  | childrenRemoved table id =>
      "TABLE CHILDREN REMOVED: " ++ table ++ ", table_id: " ++ toString id

def render (r : TraceRecord) : String := r.level ++ " " ++ r.text

end TraceRecord

end RowStore
