import RowStore.Proofs.Lock.Table
import RowStore.Proofs.Store.Stepwise

/-!
# Sessions act at the same time

* `Call`, `Call.script` : what a session asks of a table, and the steps that it takes;
* `Scene` : a store, and what is left of the calls that sessions are in the middle of;
* `LockTable.Test` : one test of a lock that a call waits for, which may come at any time;
* `Scene.Move` : one move of a session: it begins a call, takes a step of it, returns from it, or gives
  a lock back;
* `Scene.Path` : moves of any sessions in any order, as far as they are allowed;
* `moves_run` : a call during which no other session moves ends as the definitions say.
-/

namespace RowStore
open RowStore.Action RowStore.Store

/-! ## Calls -/

/-- What a session asks of a table. -/
inductive Call where
  /-- The lock is taken. -/
  | lock (t : Nat) (exclusive force : Bool)
  /-- A row is inserted. -/
  | insert (t : Nat) (r : Row)
  /-- The row stored under a row's key is deleted. -/
  | delete (t : Nat) (r : Row)
  /-- Rows are updated; `canceled n` says whether the statement is canceled at the `n`th look. -/
  | update (t : Nat) (canceled : Nat → Bool) (pairs : List (Row × Row))

namespace Call

def script (u : Nat) : Call → Script Unit
  | lock t exclusive force => Script.takeLock t exclusive force
  | insert t r => do let _ ← Script.insert t u r
  | delete t r => do let _ ← Script.delete t u r
  | update t canceled pairs => do let _ ← Script.update t u canceled pairs

/-- The table whose rows the call is to change. -/
def target? : Call → Option Nat
  | lock .. => none
  | insert t _ | delete t _ | update t _ _ => some t

/-- The whole call, while no other session acts. -/
def run (u : Nat) : Call → Action Store Unit
  | lock t exclusive force => Store.lock t u exclusive force
  | insert t r => (Change.insert t r).run u
  | delete t r => (Change.delete t r).run u
  | update t canceled pairs => (Change.update t canceled pairs).run u

theorem run_script (u : Nat) (c : Call) : (c.script u).run u = c.run u := by
  cases c with
  | lock t exclusive force => exact Script.run_takeLock exclusive force
  | insert t r =>
    unfold script
    rw [Script.run_bind, Script.run_insert]
    rfl
  | delete t r =>
    unfold script
    rw [Script.run_bind, Script.run_delete]
    rfl
  | update t canceled pairs =>
    unfold script
    rw [Script.run_bind, Script.run_update]
    rfl

end Call

/-! ## Tests of locks -/

/-- One test of a lock: another request, or the last one of a call that waits for it. -/
inductive LockTable.Test (t : LockTable) (r : LockRequest) (outcome : LockOutcome) (t' : LockTable) :
    Prop where
  | request (h : t.request r = (outcome, t'))
  | expire (waits : t.waiting.find? r.session = some r.table) (h : t.expire r = (outcome, t'))

section Lock
variable {t : LockTable} {r : LockRequest}

theorem LockTable.lock_of_ended (h : (t.request r).1 ≠ .parked) : t.lock r = t.request r := by
  unfold lock
  split
  · rename_i t' hr
    rw [hr] at h
    exact absurd rfl h
  · rfl

theorem LockTable.lock_of_parked (h : (t.request r).1 = .parked) :
    t.lock r = (t.request r).2.expire r := by
  unfold lock
  split
  · rename_i t' hr
    rw [hr]
  · rename_i hne
    exact (hne (t.request r).2 (Prod.ext h rfl)).elim

/-- A request that is parked is known to wait. -/
theorem LockTable.waits_of_parked (h : (t.request r).1 = .parked) :
    (t.request r).2.waiting.find? r.session = some r.table := by
  rcases request_cases t r with ⟨t', -, hr⟩ | ⟨-, path, -, hr⟩ | ⟨-, -, hr⟩ <;> rw [hr] at h ⊢
  · cases h
  · cases h
  · exact OrderedMap.find?_insert_self _ _ _

end Lock

def Store.tellLock (name : String) (u : Nat) (mode : Bool) : LockOutcome → Action Store Unit
  | .granted => note (.locked name u mode)
  | .deadlock path => do
    note (.deadlocked name path)
    Action.refuse (.deadlock name (renderSessions path))
  | .timedOut | .parked => do
    note (.timedOut name u)
    Action.refuse (.lockTimeout name)

theorem Store.lock_of_none {s : Store} {t u : Nat} {exclusive force : Bool}
    (h : effectiveMode s.options.multiVersion force exclusive = none) :
    Store.lock t u exclusive force s = .ok () s := by
  unfold Store.lock
  rw [get_bind, h]
  rfl

theorem Store.lock_of_some {s : Store} {t u : Nat} {exclusive force mode : Bool}
    (h : effectiveMode s.options.multiVersion force exclusive = some mode) :
    Store.lock t u exclusive force s =
      tellLock (s.table t).engine.name u mode (s.locks.lock ⟨t, u, mode⟩).1
        { s with locks := (s.locks.lock ⟨t, u, mode⟩).2 } := by
  unfold Store.lock
  rw [get_bind, h]
  dsimp only
  rcases s.locks.lock ⟨t, u, mode⟩ with ⟨outcome, locks⟩
  cases outcome <;> rfl

/-! ## Scenes -/

/-- A store and the calls in progress. -/
structure Scene where
  store : Store
  /-- The call that each session is in the middle of, with the steps that are left. -/
  calls : Nat → Option (Call × Script Unit) := fun _ => none

/-- What a session does in one move. -/
inductive Event where
  /-- It begins a call. -/
  | begins (call : Call)
  /-- It takes the next step of its call. -/
  | works
  /-- It returns from its call. -/
  | returns
  /-- It gives back the lock of a table. -/
  | unlocks (t : Nat)

namespace Scene

/-- The store is changed, and with it what a session is in the middle of. -/
def put (c : Scene) (u : Nat) (s : Store) (work : Option (Call × Script Unit)) : Scene :=
  ⟨s, fun v => if v = u then work else c.calls v⟩

/-- One move of a session.  A call that waits for a lock tests it again and again until it is told; a
session has one call at a time, and gives locks back between its calls. -/
inductive Move (u : Nat) (c : Scene) : Event → Scene → Prop where
  | begin (call : Call) (idle : c.calls u = none) :
    Move u c (.begins call) (c.put u c.store (some (call, call.script u)))
  | act {call : Call} {β : Type} {a : Action Store β} {next : Except Fault β → Script Unit}
    (h : c.calls u = some (call, .act a next)) :
    Move u c .works (c.put u (final a c.store) (some (call, next (result a c.store))))
  | pass {call : Call} {t : Nat} {exclusive force : Bool} {next : Except Fault Unit → Script Unit}
    (h : c.calls u = some (call, .lock t exclusive force next))
    (relaxed : effectiveMode c.store.options.multiVersion force exclusive = none) :
    Move u c .works (c.put u c.store (some (call, next (.ok ()))))
  | wait {call : Call} {t : Nat} {exclusive force mode : Bool}
    {next : Except Fault Unit → Script Unit} {locks : LockTable}
    (h : c.calls u = some (call, .lock t exclusive force next))
    (hm : effectiveMode c.store.options.multiVersion force exclusive = some mode)
    (test : c.store.locks.Test ⟨t, u, mode⟩ .parked locks) :
    Move u c .works
      (c.put u { c.store with locks := locks } (some (call, .lock t exclusive force next)))
  | told {call : Call} {t : Nat} {exclusive force mode : Bool}
    {next : Except Fault Unit → Script Unit} {outcome : LockOutcome} {locks : LockTable}
    (h : c.calls u = some (call, .lock t exclusive force next))
    (hm : effectiveMode c.store.options.multiVersion force exclusive = some mode)
    (test : c.store.locks.Test ⟨t, u, mode⟩ outcome locks) (ended : outcome ≠ .parked) :
    Move u c .works
      (c.put u (final (tellLock (c.store.table t).engine.name u mode outcome)
          { c.store with locks := locks })
        (some (call, next (result (tellLock (c.store.table t).engine.name u mode outcome)
          { c.store with locks := locks }))))
  | done {call : Call} (h : c.calls u = some (call, .done ())) :
    Move u c .returns (c.put u c.store none)
  | fail {call : Call} {fault : Fault} (h : c.calls u = some (call, .fail fault)) :
    Move u c .returns (c.put u c.store none)
  | unlock (t : Nat) (idle : c.calls u = none) :
    Move u c (.unlocks t) (c.put u (final (Store.unlock t u) c.store) none)

/-- Moves of any sessions in any order, as far as they are allowed. -/
inductive Path (allowed : Nat → Event → Prop) (c : Scene) : Scene → Prop where
  | refl : Path allowed c c
  | move {d d' : Scene} {u : Nat} {e : Event} (h : Path allowed c d) (ha : allowed u e)
    (hm : Move u d e d') : Path allowed c d'

/-- What sessions come to that start on a store, whatever they do. -/
def Reached (s : Store) (c : Scene) : Prop := Path (fun _ _ => True) ⟨s, fun _ => none⟩ c

theorem Path.mono {allowed allowed' : Nat → Event → Prop} {c d : Scene} (h : Path allowed c d)
    (hi : ∀ u e, allowed u e → allowed' u e) : Path allowed' c d := by
  induction h with
  | refl => exact .refl
  | move _ ha hm ih => exact ih.move (hi _ _ ha) hm

theorem Path.trans {allowed : Nat → Event → Prop} {c d d' : Scene} (h : Path allowed c d)
    (h' : Path allowed d d') : Path allowed c d' := by
  induction h' with
  | refl => exact h
  | move _ ha hm ih => exact ih.move ha hm

/-! ## A call during which no other session moves -/

section Alone
variable {c : Scene} {u : Nat} {call : Call}

theorem put_put (c : Scene) (u : Nat) (s s' : Store) (work work' : Option (Call × Script Unit)) :
    (c.put u s work).put u s' work' = c.put u s' work' := by
  unfold put
  congr 1
  funext v
  dsimp only
  split <;> rfl

theorem put_self {work : Option (Call × Script Unit)} (h : c.calls u = work) :
    c.put u c.store work = c := by
  unfold put
  congr 1
  funext v
  split
  · rename_i hv
    exact h.symm.trans (congrArg c.calls hv.symm)
  · rfl

theorem calls_put_self (c : Scene) (u : Nat) (s : Store) (work : Option (Call × Script Unit)) :
    (c.put u s work).calls u = work := if_pos rfl

theorem calls_put_of_ne (c : Scene) {u v : Nat} (h : v ≠ u) (s : Store)
    (work : Option (Call × Script Unit)) : (c.put u s work).calls v = c.calls v := if_neg h

theorem put_idle (s s' : Store) (u : Nat) :
    (⟨s, fun _ => none⟩ : Scene).put u s' none = ⟨s', fun _ => none⟩ :=
  congrArg (Scene.mk s') (funext fun _ => ite_self none)

/-- Only one session moves, and only in its call. -/
def Works (u v : Nat) (e : Event) : Prop := v = u ∧ e = .works

/-- The lock is tested, and waited for in vain if it is not granted. -/
theorem lock_moves {t : Nat} {exclusive force : Bool} {next : Except Fault Unit → Script Unit}
    (h : c.calls u = some (call, .lock t exclusive force next)) :
    ∃ c₁, (c₁ = c ∨ Move u c .works c₁) ∧ c₁.calls u = some (call, .lock t exclusive force next) ∧
      Move u c₁ .works (c.put u (final (Store.lock t u exclusive force) c.store)
        (some (call, next (result (Store.lock t u exclusive force) c.store)))) := by
  cases hm : effectiveMode c.store.options.multiVersion force exclusive with
  | none =>
    unfold final result
    rw [lock_of_none hm]
    exact ⟨c, Or.inl rfl, h, .pass h hm⟩
  | some mode =>
    unfold final result
    rw [lock_of_some hm]
    by_cases hp : (c.store.locks.request ⟨t, u, mode⟩).1 = .parked
    · rw [LockTable.lock_of_parked hp]
      have hwait : Move u c .works (c.put u
          { c.store with locks := (c.store.locks.request ⟨t, u, mode⟩).2 }
          (some (call, .lock t exclusive force next))) := .wait h hm (.request (Prod.ext hp rfl))
      refine ⟨_, Or.inr hwait, calls_put_self c u _ _, ?_⟩
      have htold := Move.told (calls_put_self c u { c.store with
          locks := (c.store.locks.request ⟨t, u, mode⟩).2 } (some (call, .lock t exclusive force next)))
        hm (.expire (LockTable.waits_of_parked hp) rfl) (LockTable.expire_ne_parked _ _)
      rw [put_put] at htold
      exact htold
    · rw [LockTable.lock_of_ended hp]
      exact ⟨c, Or.inl rfl, h, .told h hm (.request rfl) hp⟩

theorem moves_lock {t : Nat} {exclusive force : Bool} {next : Except Fault Unit → Script Unit}
    (h : c.calls u = some (call, .lock t exclusive force next)) :
    Path (Works u) c (c.put u (final (Store.lock t u exclusive force) c.store)
      (some (call, next (result (Store.lock t u exclusive force) c.store)))) := by
  obtain ⟨c₁, rfl | hwait, -, htold⟩ := lock_moves h
  · exact Path.refl.move ⟨rfl, rfl⟩ htold
  · exact (Path.refl.move ⟨rfl, rfl⟩ hwait).move ⟨rfl, rfl⟩ htold

/-- The steps of a script, with no move of another session between them, come to what the script does
when it is run. -/
theorem moves_run {x : Script Unit} (h : c.calls u = some (call, x)) :
    Path (Works u) c (c.put u (final (x.run u) c.store)
      (some (call, Script.ofResult (result (x.run u) c.store)))) := by
  induction x generalizing c with
  | done a => exact (put_self h).symm ▸ .refl
  | fail fault => exact (put_self h).symm ▸ .refl
  | act a next ih =>
    have hstep : Path (Works u) c (c.put u (final a c.store) (some (call, next (result a c.store)))) :=
      Path.refl.move ⟨rfl, rfl⟩ (.act h)
    have hrest := ih (result a c.store) (calls_put_self c u (final a c.store) _)
    rw [put_put] at hrest
    exact hstep.trans hrest
  | lock t exclusive force next ih =>
    have hrest := ih (result (Store.lock t u exclusive force) c.store)
      (calls_put_self c u (final (Store.lock t u exclusive force) c.store) _)
    rw [put_put] at hrest
    exact (moves_lock h).trans hrest

end Alone

end Scene

end RowStore
