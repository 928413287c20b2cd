import RowStore.Lock.Ring

/-!
# The holders of one lock

* `LockHolders` : an exclusive holder and shared ones;
* `LockHolders.acquire?` : the holders after a session was let in, if it is;
* `LockHolders.release` : the holders without a session.

An exclusive holder keeps the shared lock it may have had before.
-/

namespace RowStore

/-- Who holds the lock of a table. -/
structure LockHolders where
  /-- The session that holds it alone. -/
  exclusive : Option Nat := none
  /-- The sessions that hold it together. -/
  shared : Ring := {}
deriving DecidableEq

namespace LockHolders

/-- Lets a session in, if the lock is compatible: the exclusive holder always is, others only while
there is none; an exclusive request needs that nobody else shares the lock. -/
def acquire? (h : LockHolders) (session : Nat) (exclusive : Bool) : Option LockHolders :=
  match h.exclusive with
  | some holder => if holder = session then some h else none
  | none =>
    if exclusive then
      if h.shared.toList.all (· == session) then some { h with exclusive := some session } else none
    else some { h with shared := h.shared.insert session }

def release (h : LockHolders) (session : Nat) : LockHolders where
  exclusive := if h.exclusive = some session then none else h.exclusive
  shared := h.shared.erase session

/-- All holders; one that holds the lock in both ways is named twice. -/
def all (h : LockHolders) : List Nat := h.shared.toList ++ h.exclusive.toList

def isFree (h : LockHolders) : Bool := h.exclusive.isNone && h.shared.toList.isEmpty

end LockHolders

end RowStore
