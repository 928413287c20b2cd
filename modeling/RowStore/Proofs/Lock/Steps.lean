import RowStore.Lock.Calls
import RowStore.Proofs.Lock.Table

/-!
# Sessions take steps in any order

* `LockCalls.ask` : a session asks for a lock, in the mode that the versions of rows leave of it;
* `LockCalls.Step` : one step of any session;
* `LockCalls.Reached` : what steps lead to from locks that nobody holds;
* `Reached.lock`, `Reached.unlock`, `Reached.await` : the calls that take several steps at once lead
  nowhere else.

A call that waits is woken by every lock that is given back, and may then test its own again; its time
may be up at any moment.  Nothing says in which order sessions act.
-/

namespace RowStore.LockCalls

/-- A session asks for a lock.  A request that is relaxed to nothing is granted as it is. -/
def ask (multiVersion : Bool) (c : LockCalls) (table session : Nat) (exclusive force : Bool) :
    LockOutcome × LockCalls :=
  match effectiveMode multiVersion force exclusive with
  | none => (.granted, c)
  | some mode => c.begin ⟨table, session, mode⟩

/-- One step of a session that `may` act: it asks for a lock; or a call of any session tests its lock
again, runs out of time, or is forgotten once it has ended; or a lock is given back. -/
inductive Step (multiVersion : Bool) (may : LockCalls → Nat → Prop) : LockCalls → LockCalls → Prop where
  | ask {c : LockCalls} (table session : Nat) (exclusive force : Bool) (h : may c session) :
    Step multiVersion may c (c.ask multiVersion table session exclusive force).2
  | retry (t : LockTable) (before : List LockCall) (call : LockCall) (after : List LockCall) :
    Step multiVersion may ⟨t, before ++ call :: after⟩
      ⟨(call.retry t).2, before ++ (call.retry t).1 :: after⟩
  | expire (t : LockTable) (before : List LockCall) (call : LockCall) (after : List LockCall) :
    Step multiVersion may ⟨t, before ++ call :: after⟩
      ⟨(call.expire t).2, before ++ (call.expire t).1 :: after⟩
  | forget (t : LockTable) (before : List LockCall) (call : LockCall) (after : List LockCall)
    (ended : call.outcome ≠ .parked) :
    Step multiVersion may ⟨t, before ++ call :: after⟩ ⟨t, before ++ after⟩
  | release (c : LockCalls) (table session : Nat) :
    Step multiVersion may c (c.release table session)

/-- What the steps of any sessions lead to from locks that nobody holds. -/
inductive Reached (multiVersion : Bool) (may : LockCalls → Nat → Prop) : LockCalls → Prop where
  | start : Reached multiVersion may {}
  | step {c c' : LockCalls} (h : Reached multiVersion may c) (hs : Step multiVersion may c c') :
    Reached multiVersion may c'

def Idle (c : LockCalls) (session : Nat) : Prop :=
  ∀ call ∈ c.calls, call.outcome = .parked → call.request.session ≠ session

instance (c : LockCalls) (session : Nat) : Decidable (c.Idle session) :=
  inferInstanceAs (Decidable (∀ call ∈ c.calls, _))

/-- Sessions act whether or not they wait. -/
def Anyone (_ : LockCalls) (_ : Nat) : Prop := True

variable {multiVersion : Bool} {may : LockCalls → Nat → Prop} {c : LockCalls}

theorem ask_of_some {table session : Nat} {exclusive force mode : Bool}
    (h : effectiveMode multiVersion force exclusive = some mode) :
    c.ask multiVersion table session exclusive force = c.begin ⟨table, session, mode⟩ := by
  rw [ask, h]

theorem ask_of_none {table session : Nat} {exclusive force : Bool}
    (h : effectiveMode multiVersion force exclusive = none) :
    c.ask multiVersion table session exclusive force = (.granted, c) := by
  rw [ask, h]

theorem effectiveMode_forced (exclusive : Bool) :
    effectiveMode multiVersion true exclusive = some exclusive := by
  cases multiVersion <;> rfl

theorem begin_eq (c : LockCalls) (r : LockRequest) : c.begin r = ((c.table.request r).1,
    ⟨(c.table.request r).2,
      if (c.table.request r).1 = .parked then ⟨r, .parked, false⟩ :: c.calls else c.calls⟩) := by
  unfold begin
  split
  · rename_i t h
    rw [h, if_pos rfl]
  · rename_i outcome t hne h
    rw [h, if_neg fun he => hne he]

/-! ## Several steps at once -/

section Several

/-- A step that any call may take at any time. -/
theorem Reached.advance {step : LockCall → LockTable → LockCall × LockTable}
    (hstep : ∀ t before call after, Step multiVersion may ⟨t, before ++ call :: after⟩
      ⟨(step call t).2, before ++ (step call t).1 :: after⟩)
    {t : LockTable} (before : List LockCall) {calls : List LockCall}
    (h : Reached multiVersion may ⟨t, before ++ calls⟩) :
    Reached multiVersion may ⟨(LockCalls.advance step t calls).table,
      before ++ (LockCalls.advance step t calls).calls⟩ := by
  induction calls generalizing before with
  | nil => exact h
  | cons call calls ih =>
    have hrest := ih (before ++ [call]) (by rwa [List.append_assoc])
    rw [List.append_assoc] at hrest
    exact hrest.step (hstep _ before call _)

/-- A lock that is given back and tested by all. -/
theorem Reached.unlock (h : Reached multiVersion may c) (table session : Nat) :
    Reached multiVersion may (c.unlock table session) :=
  Reached.advance Step.retry [] (h.step (.release c table session))

/-- A call with which no other acts. -/
theorem Reached.lock (h : Reached multiVersion may c) (r : LockRequest) (hm : may c r.session) :
    Reached multiVersion may (c.lock r).2 := by
  have hask := h.step (.ask r.table r.session r.exclusive true hm)
  rw [ask_of_some (effectiveMode_forced r.exclusive)] at hask
  unfold begin at hask
  unfold LockCalls.lock
  rcases hr : c.table.request r with ⟨outcome, t⟩
  rw [hr] at hask
  cases outcome with
  | granted | deadlock path | timedOut => exact hask
  | parked =>
    -- The others run out of time, then the call itself, which is forgotten.
    have hothers := Reached.advance Step.expire [⟨r, .parked, false⟩] hask
    have hown := hothers.step (.expire _ [] _ _)
    exact hown.step (.forget _ [] _ _ (LockTable.expire_ne_parked _ r))

theorem Reached.await (h : Reached multiVersion may c) (session : Nat) :
    Reached multiVersion may (c.await session).2 := by
  obtain ⟨t, calls⟩ := c
  unfold LockCalls.await
  generalize hother : (fun call : LockCall => decide (call.request.session ≠ session)) = isOther
  dsimp only
  have hsplit := List.takeWhile_append_dropWhile (p := isOther) (l := calls)
  split
  · exact h
  · rename_i call older hdrop
    rw [hdrop] at hsplit
    rw [← hsplit] at h
    dsimp only
    have hbefore : Reached multiVersion may
        ⟨(if call.outcome = .parked then LockCalls.advance LockCall.expire t older
            else ⟨t, older⟩ : LockCalls).table,
          calls.takeWhile isOther ++ call ::
            (if call.outcome = .parked then LockCalls.advance LockCall.expire t older
              else ⟨t, older⟩ : LockCalls).calls⟩ := by
      split
      · have hpre : Reached multiVersion may ⟨t, (calls.takeWhile isOther ++ [call]) ++ older⟩ := by
          rwa [List.append_assoc]
        have hrest := Reached.advance Step.expire (calls.takeWhile isOther ++ [call]) hpre
        rwa [List.append_assoc] at hrest
      · exact h
    refine (hbefore.step (.expire _ _ call _)).step (.forget _ _ _ _ ?_)
    unfold LockCall.expire
    split
    · exact LockTable.expire_ne_parked _ _
    · assumption

end Several

end RowStore.LockCalls
