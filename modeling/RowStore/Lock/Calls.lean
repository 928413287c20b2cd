import RowStore.Lock.Table

/-!
# Calls that wait

* `LockCalls` : the locks, with the calls that have waited for them;
* `LockCalls.begin`, `LockCalls.lock` : a call that may wait, and one with which no other acts;
* `LockCalls.release` : gives a lock back and wakes the waiting calls;
* `LockCall.retry`, `LockCall.expire` : the next test of a woken call, and the last one of any;
* `LockCalls.unlock`, `LockCalls.await` : a lock given back and tested by all, and the end of a call.

A session may have several calls; they share what it holds.  All calls have the same time to wait, so
that those that began first end first.
-/

namespace RowStore

structure LockCall where
  /-- What it asks for. -/
  request : LockRequest
  /-- How it ended; parked while it waits. -/
  outcome : LockOutcome := .parked
  /-- Some lock was given back since it last tested its own. -/
  woken : Bool := false

namespace LockCall

def wake (c : LockCall) : LockCall := { c with woken := true }

/-- A woken call that waits tests its lock again. -/
def retry (c : LockCall) (t : LockTable) : LockCall × LockTable :=
  if c.outcome = .parked ∧ c.woken then
    let (outcome, t) := t.request c.request
    (⟨c.request, outcome, false⟩, t)
  else (c, t)

/-- The time of a call is up, if it still waits. -/
def expire (c : LockCall) (t : LockTable) : LockCall × LockTable :=
  if c.outcome = .parked then
    let (outcome, t) := t.expire c.request
    (⟨c.request, outcome, false⟩, t)
  else (c, t)

end LockCall

structure LockCalls where
  table : LockTable := {}
  /-- The calls, the last one that began first. -/
  calls : List LockCall := []

namespace LockCalls

def begin (c : LockCalls) (r : LockRequest) : LockOutcome × LockCalls :=
  match c.table.request r with
  | (.parked, t) => (.parked, ⟨t, ⟨r, .parked, false⟩ :: c.calls⟩)
  | (outcome, t) => (outcome, { c with table := t })

/-- Takes every call one step on, those that began first before the others. -/
def advance (step : LockCall → LockTable → LockCall × LockTable) (t : LockTable) :
    List LockCall → LockCalls
  | [] => ⟨t, []⟩
  | call :: calls =>
    let older := advance step t calls
    let (call, t) := step call older.table
    ⟨t, call :: older.calls⟩

/-- Makes a call while no other acts.  If it waits, its time runs out after that of the others. -/
def lock (c : LockCalls) (r : LockRequest) : LockOutcome × LockCalls :=
  match c.table.request r with
  | (.parked, t) =>
    let c := advance LockCall.expire t c.calls
    let (outcome, t) := c.table.expire r
    (outcome, { c with table := t })
  | (outcome, t) => (outcome, { c with table := t })

/-- Gives a lock back.  Whoever holds anything of it before, all calls are woken. -/
def release (c : LockCalls) (table session : Nat) : LockCalls :=
  if c.table.holders.contains table then
    ⟨c.table.unlock table session, c.calls.map LockCall.wake⟩
  else c

/-- Gives a lock back; then the calls that wait test again. -/
def unlock (c : LockCalls) (table session : Nat) : LockCalls :=
  let c := c.release table session
  advance LockCall.retry c.table c.calls

/-- The end of the last call that a session began and that waited.  If it still waits, its time runs
out, after that of the calls before it. -/
def await (c : LockCalls) (session : Nat) : Option LockCall × LockCalls :=
  let isOther (call : LockCall) : Bool := call.request.session ≠ session
  match c.calls.dropWhile isOther with
  | [] => (none, c)
  | call :: older =>
    let before := if call.outcome = .parked then advance LockCall.expire c.table older
      else ⟨c.table, older⟩
    let (call, t) := call.expire before.table
    (some call, ⟨t, c.calls.takeWhile isOther ++ before.calls⟩)

end LockCalls

end RowStore
