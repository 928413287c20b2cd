import RowStore.Store.Basic

/-!
# Locks of tables

* `Store.lock`, `Store.unlock` : a session takes and gives back the lock of a table;
* `Store.checkDeadlock` : a search through the sessions that wait.
-/

namespace RowStore.Store

/-- Takes the lock of a table while no other session acts.  A request that is relaxed to nothing takes
no lock. -/
def lock (t u : Nat) (exclusive force : Bool) : Action Store Unit := do
  let s ← get
  match effectiveMode s.options.multiVersion force exclusive with
  | none => pure ()
  | some mode =>
    let name := (s.table t).engine.name
    let (outcome, locks) := s.locks.lock ⟨t, u, mode⟩
    set { s with locks := locks }
    match outcome with
    | .granted => note (.locked name u mode)
    | .deadlock path =>
      note (.deadlocked name path)
      Action.refuse (.deadlock name (renderSessions path))
    | .timedOut | .parked =>
      note (.timedOut name u)
      Action.refuse (.lockTimeout name)

def unlock (t u : Nat) : Action Store Unit :=
  modify fun s => { s with locks := s.locks.unlock t u }

/-- Searches for a way from a session back to another among the sessions that wait. -/
def checkDeadlock (s : Store) (session : Nat) (clash : Option Nat) (visited : List Nat) :
    WaitGraph.Verdict × List Nat :=
  s.locks.waitGraph.findCycle session clash visited

def isLocked (s : Store) (t : Nat) : Bool := s.locks.isExclusive t

/-- A session holds the lock of a table alone.  A table with contested rows does not tell. -/
def isLockedBy (s : Store) (t u : Nat) : Bool :=
  (s.table t).contested.isNone && s.locks.isExclusiveBy t u

def checkWriting : Action Store Unit := do
  if (← get).catalog.readOnly then
    Action.refuse .readOnly

end RowStore.Store
