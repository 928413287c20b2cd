import RowStore.Lock.Holders
import RowStore.OrderedMap
import RowStore.WaitGraph

/-!
# The locks of all tables

* `LockTable` : the holders of each table's lock and the sessions that wait for one;
* `LockTable.request` : one test of the lock: granted, a deadlock, or parked until something changes;
* `LockTable.expire` : the last test of a request whose time is up;
* `LockTable.unlock` : gives a lock back;
* `LockTable.waitGraph` : who waits for whom;
* `LockTable.lock` : a request while no other session acts.

A session is known to wait for the one table of its last test that parked it; any grant to it, and the
end of any of its requests, takes that away.  These steps, in any order, are all that happens to the
locks.
-/

namespace RowStore

/-- A lock that a session asks for, in the mode that counts. -/
structure LockRequest where
  table : Nat
  session : Nat
  /-- It is to be held alone. -/
  exclusive : Bool
deriving DecidableEq

/-- How a test of a lock ends. -/
inductive LockOutcome where
  /-- The session holds the lock. -/
  | granted
  /-- Waiting would close this cycle of waiting sessions. -/
  | deadlock (sessions : List Nat)
  /-- The time is up. -/
  | timedOut
  /-- The request waits. -/
  | parked
deriving DecidableEq

structure LockTable where
  /-- The holders of each lock that is held. -/
  holders : OrderedMap Nat LockHolders := ∅
  /-- The sessions that wait, each with the table whose lock it waits for. -/
  waiting : OrderedMap Nat Nat := ∅

/-- The mode of a lock that a request comes down to: none at all, shared or exclusive.  With several
versions of rows, requests that are not forced are relaxed by one degree. -/
def effectiveMode (multiVersion force exclusive : Bool) : Option Bool :=
  if multiVersion && !force then (if exclusive then some false else none) else some exclusive

namespace LockTable

def holdersOf (t : LockTable) (table : Nat) : LockHolders := (t.holders.find? table).getD {}

/-- Who waits for whom: a waiting session for the other holders of the lock. -/
def waitGraph (t : LockTable) : WaitGraph :=
  ⟨t.waiting.entries.flatMap fun w =>
    ((t.holdersOf w.2).all.filter (· ≠ w.1)).map (w.1, ·)⟩

/-- Lets the session of a request in, if the lock is compatible. -/
def acquire? (t : LockTable) (r : LockRequest) : Option LockTable :=
  ((t.holdersOf r.table).acquire? r.session r.exclusive).map fun h =>
    { holders := t.holders.insert r.table h, waiting := t.waiting.erase r.session }

def withdraw (t : LockTable) (session : Nat) : LockTable :=
  { t with waiting := t.waiting.erase session }

def park (t : LockTable) (r : LockRequest) : LockTable :=
  { t with waiting := t.waiting.insert r.session r.table }

/-- Tests a lock.  A session that is not let in waits, unless it would wait for itself. -/
def request (t : LockTable) (r : LockRequest) : LockOutcome × LockTable :=
  match t.acquire? r with
  | some t => (.granted, t)
  | none =>
    match ((t.park r).waitGraph.findCycle r.session none []).1 with
    | .cycle path => (.deadlock path, t.withdraw r.session)
    | .noCycle => (.parked, t.park r)

/-- The time of a waiting request is up: it tests its lock once more and waits no longer. -/
def expire (t : LockTable) (r : LockRequest) : LockOutcome × LockTable :=
  match t.acquire? r with
  | some t => (.granted, t)
  | none => (.timedOut, t.withdraw r.session)

def unlock (t : LockTable) (table session : Nat) : LockTable :=
  match t.holders.find? table with
  | none => t
  | some h =>
    let left := h.release session
    { t with
      holders := if left.isFree then t.holders.erase table else t.holders.insert table left }

def isExclusive (t : LockTable) (table : Nat) : Bool := (t.holdersOf table).exclusive.isSome

def isExclusiveBy (t : LockTable) (table session : Nat) : Bool :=
  (t.holdersOf table).exclusive = some session

/-- Asks for a lock while no other session acts, so that a parked request runs out of time. -/
def lock (t : LockTable) (r : LockRequest) : LockOutcome × LockTable :=
  match t.request r with
  | (.parked, t) => t.expire r
  | done => done

end LockTable

end RowStore
