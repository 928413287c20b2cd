import RowStore.Row

/-!
# Sessions

* `UndoRecord` : a change of a row that can be taken back;
* `Session` : the undo log and the identity value drawn last;
* `Session.split` : what was logged up to a savepoint, and after it.
-/

namespace RowStore

inductive UndoOp where
  | inserted
  | deleted
deriving DecidableEq

/-- A change of a row that can be taken back. -/
structure UndoRecord where
  table : Nat
  /-- What was done. -/
  op : UndoOp
  row : Row
deriving DecidableEq

/-- The context in which a client changes rows. -/
structure Session where
  /-- The changes, the oldest first. -/
  undoLog : List UndoRecord := []
  /-- The identity value drawn last. -/
  lastIdentity : Option Value := none

namespace Session

def position (s : Session) : Nat := s.undoLog.length

def log (s : Session) (r : UndoRecord) : Session := { s with undoLog := s.undoLog ++ [r] }

def split (s : Session) (savepoint : Nat) : List UndoRecord × Session :=
  (s.undoLog.drop savepoint, { s with undoLog := s.undoLog.take savepoint })

end Session

end RowStore
